import GenOS.Kernel.ProcessInv

/-!
# System calls keep the tasks

Calls of user memory, of shared memory and the fault handler, for the owner that the code looks up.
`Spares k k' r` says that such a call is seen in the address space `r` only.
-/

namespace GenOS

open Phys Pmm

variable {c c' : HeapClient} {m m' : Shm} {t t' : Process} {ts ts' ts₁ ts₂ : List Process}
variable {rest rest' ps ps' : List Nat} {i j r : Nat} {k k' k'' : Kernel} {u u' : UserTask}

namespace Kernel

/-- The address spaces. -/
def owners (k : Kernel) : List Owner := GenOS.owners (users k.tasks)

/-- Every address space but `r` is as before, records and contents, or gone. -/
def Spares (k k' : Kernel) (r : Nat) : Prop := ∀ u ∈ k.owners, u.pml4 ≠ r →
  (u ∈ k'.owners ∧ Unaffected k.phys k'.phys u) ∨ ∀ u' ∈ k'.owners, u'.pml4 ≠ u.pml4

theorem Spares.refl : k.Spares k r := fun _ hu _ => .inl ⟨hu, .refl⟩

/-- The owners are the same, and see nothing. -/
theorem Spares.of_stable (ho : k'.owners = k.owners) (hs : Stable k.heap k'.heap k.owners) :
    k.Spares k' r :=
  fun u hu _ => .inl ⟨ho ▸ hu, hs.unaffected u hu⟩

/-! ## A call for an owner -/

/-- The task at position `j` owns what it works on. -/
def OwnedBy (k : Kernel) (owner : Option Nat) : Prop :=
  ∀ j, owner = some j → ∃ u, k.tasks[j]? = some u ∧ u.isThread = false

/-- The root of the owner's address space. -/
def rootOf (k : Kernel) (owner : Option Nat) : Nat :=
  ((owner.bind fun j => k.tasks[j]?).map fun t => t.pml4).getD 0

/-- The task `t` in the list, with other memory. -/
theorem replaced (h : Tasks c m (ts₁ ++ t :: ts₂) rest ps) (hk : SameSpace t.toUserTask u)
    (hw : World c' m' (users ts₁ ++ u :: users ts₂) (stackFrames (ts₁ ++ t :: ts₂) ++ rest)
      (taskBlocks (ts₁ ++ t :: ts₂) ++ ps)) :
    Tasks c' m' (ts₁ ++ { t with toUserTask := u } :: ts₂) rest ps := by
  refine ⟨?_, h.grouped.congr ?_⟩
  · have hst : stackFrames (ts₁ ++ { t with toUserTask := u } :: ts₂) = stackFrames
        (ts₁ ++ t :: ts₂) := by
      unfold stackFrames
      simp only [List.flatMap_append, List.flatMap_cons]
      rfl
    have hbl : taskBlocks (ts₁ ++ { t with toUserTask := u } :: ts₂) = taskBlocks
        (ts₁ ++ t :: ts₂) := by
      unfold taskBlocks
      simp only [List.map_append, List.map_cons]
    rw [users_middle, hst, hbl]
    exact hw
  · simp only [List.map_append, List.map_cons]
    unfold Process.ident
    rw [hk.thread, hk.root]

theorem owners_replaced (ts₁ ts₂ : List Process) (u : UserTask) (ho : u.owns = true) :
    GenOS.owners (users (ts₁ ++ { t with toUserTask := u } :: ts₂)) =
      GenOS.owners (users ts₁) ++ u.toOwner :: GenOS.owners (users ts₂) := by
  rw [users_middle]
  exact owners_middle ho

/-- **A call for the owner at position `j`** that keeps the world. -/
theorem set_owner (h : k.Sound rest ps) (hs : k.tasks = ts₁ ++ t :: ts₂)
    (hset : ∀ y, k.tasks.set j y = ts₁ ++ y :: ts₂) (ho : t.toUserTask.owns = true)
    (hk : SameSpace t.toUserTask u)
    (hw : World c' m' (users ts₁ ++ u :: users ts₂) (stackFrames k.tasks ++ rest)
      (taskBlocks k.tasks ++ ps))
    (hun : ∀ o ∈ GenOS.owners (users ts₁) ++ GenOS.owners (users ts₂), Unaffected k.phys c'.phys o)
    (hk' :
      k' = { k with heap := c', shm := m', tasks := k.tasks.set j { t with toUserTask := u } }) :
    k'.Sound rest ps ∧ k.Spares k' t.pml4 := by
  subst hk'
  refine ⟨?_, fun o hom hne => .inl ?_⟩
  · show Tasks c' m' (k.tasks.set j { t with toUserTask := u }) rest ps
    rw [hset]
    rw [hs] at hw
    exact replaced (by rw [← hs]; exact h) hk hw
  · have hom' : o ∈ GenOS.owners (users ts₁) ++ GenOS.owners (users ts₂) := by
      unfold owners at hom
      rw [hs, users_middle, owners_middle ho] at hom
      rcases List.mem_append.mp hom with hx | hx
      · exact List.mem_append_left _ hx
      · exact List.mem_append_right _
          ((List.mem_cons.mp hx).resolve_left fun he => hne (by rw [he]))
    refine ⟨?_, hun o hom'⟩
    show o ∈ GenOS.owners (users (k.tasks.set j { t with toUserTask := u }))
    rw [hset, owners_replaced _ _ _ (hk.owns.trans ho)]
    exact mem_middle hom'

/-- A task that is set to itself. -/
theorem set_self (ht : k.tasks[j]? = some t) : { k with tasks := k.tasks.set j t } = k := by
  obtain ⟨hj, rfl⟩ := List.getElem?_eq_some_iff.mp ht
  rw [List.set_getElem_self hj]

theorem rootOf_some (ht : k.tasks[j]? = some t) : k.rootOf (some j) = t.pml4 := by
  unfold rootOf
  simp only [Option.bind_some, ht, Option.map_some, Option.getD_some]

/-- **A call of shared memory** keeps the tasks when it keeps the world of its owner. -/
theorem forAttacher_spec {α : Type} {owner : Option Nat} {fail : α}
    {f : HeapClient → Shm → UserTask → Option (α × HeapClient × Shm × UserTask)}
    (h : k.Sound rest ps)
    (ho : k.OwnedBy owner)
    (hf : ∀ {us₁ us₂ t rest ps}, World k.heap k.shm (us₁ ++ t :: us₂) rest ps → t.owns = true →
      ∃ r c' m' t', f k.heap k.shm t = some (r, c', m', t') ∧ SameSpace t t' ∧
        World c' m' (us₁ ++ t' :: us₂) rest ps ∧
        ∀ u ∈ GenOS.owners us₁ ++ GenOS.owners us₂, Unaffected k.phys c'.phys u)
    (hb : ∀ c m t, t.pml4 = 0 → ∃ r, f c m t = some (r, c, m, t)) :
    ∃ r k', k.forAttacher owner fail f = some (r, k') ∧ k'.Sound rest ps ∧
      k.Spares k' (k.rootOf owner) := by
  unfold forAttacher
  cases owner with
  | none => exact ⟨fail, k, rfl, h, .refl⟩
  | some j =>
    obtain ⟨t, ht, hp⟩ := ho j rfl
    simp only [Option.bind_some, ht, Option.map_some]
    by_cases hr : t.pml4 = 0
    · obtain ⟨r, he⟩ := hb k.heap k.shm t.toUserTask hr
      simp only [he, Option.bind_eq_bind, Option.bind_some]
      refine ⟨r, k, ?_, h, .refl⟩
      exact congrArg (fun k' => some (r, k')) (set_self ht)
    · have hown : t.toUserTask.owns = true := owns_iff.mpr ⟨hp, hr⟩
      obtain ⟨ts₁, ts₂, hs, -, hset⟩ := split_slot ht
      have hw : World k.heap k.shm (users ts₁ ++ t.toUserTask :: users ts₂)
        (stackFrames k.tasks ++ rest)
          (taskBlocks k.tasks ++ ps) := by
        have := h.world
        rwa [congrArg users hs, users_middle] at this
      obtain ⟨r, c', m', u, he, hk, hw', hun⟩ := hf hw hown
      simp only [he, Option.bind_eq_bind, Option.bind_some]
      rw [rootOf_some ht]
      exact ⟨r, _, rfl, set_owner h hs hset hown hk hw' hun rfl⟩

/-- A call of user memory is one that leaves the segments alone. -/
theorem forOwner_eq {α : Type} (k : Kernel) (owner : Option Nat) (fail : α)
    (f : HeapClient → UserTask → Option (α × HeapClient × UserTask)) :
    k.forOwner owner fail f = k.forAttacher owner fail fun c m t =>
      (f c t).map fun x => (x.1, x.2.1, m, x.2.2) := by
  unfold forOwner forAttacher
  cases owner.bind fun j => (k.tasks[j]?).map fun t => (j, t) with
  | none => rfl
  | some x =>
    simp only [Option.bind_eq_bind]
    cases f k.heap x.2.toUserTask with
    | none => rfl
    | some y => rfl

/-- **A call of user memory** keeps the tasks when it keeps the world of its owner. -/
theorem forOwner_spec {α : Type} {owner : Option Nat} {fail : α}
    {f : HeapClient → UserTask → Option (α × HeapClient × UserTask)} (h : k.Sound rest ps)
    (ho : k.OwnedBy owner)
    (hf : ∀ {us₁ us₂ t rest ps}, World k.heap k.shm (us₁ ++ t :: us₂) rest ps → t.owns = true →
      ∃ r c' t', f k.heap t = some (r, c', t') ∧ SameSpace t t' ∧
        World c' k.shm (us₁ ++ t' :: us₂) rest ps ∧
        ∀ u ∈ GenOS.owners us₁ ++ GenOS.owners us₂, Unaffected k.phys c'.phys u)
    (hb : ∀ c t, t.pml4 = 0 → ∃ r, f c t = some (r, c, t)) :
    ∃ r k', k.forOwner owner fail f = some (r, k') ∧ k'.Sound rest ps ∧
      k.Spares k' (k.rootOf owner) := by
  rw [forOwner_eq]
  refine forAttacher_spec h ho (fun hw hown => ?_) fun c m t hr => ?_
  · obtain ⟨r, c', t', he, hk, hw', hun⟩ := hf hw hown
    exact ⟨r, c', k.shm, t', by rw [he]; rfl, hk, hw', hun⟩
  · obtain ⟨r, he⟩ := hb c t hr
    exact ⟨r, by rw [he]; rfl⟩

/-! ## The system calls -/

theorem ownedBy_task (h : k.Sound rest ps) (i : Nat) :
    k.OwnedBy (k.taskMemoryOwner i) := fun _ ho => by
  obtain ⟨-, u, -, hu, hp, -⟩ := taskMemoryOwner_process h ho
  exact ⟨u, hu, hp⟩

theorem ownedBy_pid (h : k.Sound rest ps) (pid : Nat) : k.OwnedBy (k.ownerOfPid pid) :=
  fun _ ho => ownerOfPid_process h ho

theorem userAlloc_sound (h : k.Sound rest ps) (i size : Nat) : ∃ r k',
    k.userAlloc i size = some (r, k') ∧
    k'.Sound rest ps ∧ k.Spares k' (k.rootOf (k.taskMemoryOwner i)) := by
  refine forOwner_spec h (ownedBy_task h i) (fun hw ho => ?_) fun c t hr => ⟨0, ?_⟩
  · obtain ⟨r, c', t', he, hk, hw', -, hun⟩ := userAlloc_world hw ho size
    exact ⟨r, c', t', he, hk, hw', hun⟩
  · unfold GenOS.userAlloc
    exact if_pos (.inl hr)

theorem userFree_sound (h : k.Sound rest ps) (i base : Nat) : ∃ r k',
    k.userFree i base = some (r, k') ∧
    k'.Sound rest ps ∧ k.Spares k' (k.rootOf (k.taskMemoryOwner i)) := by
  unfold userFree
  split
  · exact ⟨0, k, rfl, h, .refl⟩
  next hb =>
  refine forOwner_spec h (ownedBy_task h i) (fun {_ _ t _ _} hw ho => ?_) fun c t hr => ⟨-1, ?_⟩
  · rcases userFree_world hw ho hb with ⟨he, -⟩ | ⟨_, _, _, c', t', he, -, hk, hw', -, hun⟩
    · exact ⟨-1, k.heap, t, he, ⟨rfl, rfl⟩, hw, fun _ _ => .refl⟩
    · exact ⟨0, c', t', he, hk, hw', hun⟩
  · unfold GenOS.userFree
    rw [if_neg hb, if_pos hr]

theorem userRealloc_sound (h : k.Sound rest ps) (i base size : Nat) :
    ∃ r k', k.userRealloc i base size = some (r, k') ∧ k'.Sound rest ps ∧
      k.Spares k' (k.rootOf (k.taskMemoryOwner i)) := by
  refine forOwner_spec h (ownedBy_task h i) (fun {_ _ t _ _} hw ho => ?_) fun c t hr => ⟨0, ?_⟩
  · by_cases hb : base = 0
    · obtain ⟨r, c', t', he, hk, hw', -, hun⟩ := userAlloc_world hw ho size
      refine ⟨r, c', t', ?_, hk, hw', hun⟩
      unfold GenOS.userRealloc
      rw [if_pos hb]
      exact he
    by_cases hs : size = 0
    · unfold GenOS.userRealloc
      rw [if_neg hb, if_neg (owns_iff.mp ho).2]
      cases hfind : t.allocations.find? (·.base == base) with
      | none => exact ⟨0, k.heap, t, rfl, ⟨rfl, rfl⟩, hw, fun _ _ => .refl⟩
      | some a =>
        dsimp only
        rw [if_pos hs]
        rcases userFree_world hw ho hb with ⟨he, -⟩ | ⟨_, _, _, c', t', he, -, hk, hw', -, hun⟩
        · rw [he]
          exact ⟨0, k.heap, t, rfl, ⟨rfl, rfl⟩, hw, fun _ _ => .refl⟩
        · rw [he]
          exact ⟨0, c', t', rfl, hk, hw', hun⟩
    · obtain ⟨r, c', t', he, hk, hw', -, hun⟩ := userRealloc_world hw ho hb hs
      exact ⟨r, c', t', he, hk, hw', hun⟩
  · unfold GenOS.userRealloc GenOS.userAlloc
    split
    · exact if_pos (.inl hr)
    · rfl

theorem shmAttach_sound (h : k.Sound rest ps) (id : Int) (pid pml4 : Nat) :
    ∃ r k', k.shmAttach id pid pml4 = some (r, k') ∧ k'.Sound rest ps ∧
      k.Spares k' (k.rootOf (k.ownerOfPid pid)) := by
  refine forAttacher_spec h (ownedBy_pid h pid)
    (fun {us₁ us₂ t _ _} hw ho => ?_) fun c m t hr => ⟨0, ?_⟩
  · rcases shmAttach_spec hw (owns_iff.mp ho).1 id pml4 with ⟨c', he, hw', hst⟩ |
      ⟨base, c', m', t', he, -, -, hw', hstep, hun⟩
    · refine ⟨0, c', k.shm, t, congrArg some he, ⟨rfl, rfl⟩, hw', fun u hu => hst.unaffected u ?_⟩
      rw [owners_middle ho]
      exact mem_middle hu
    · obtain ⟨l, rfl⟩ := hstep.state
      exact ⟨base, c', m', _, congrArg some he, ⟨rfl, rfl⟩, hw', hun⟩
  · unfold GenOS.shmAttach
    split
    · rfl
    · rw [if_pos ?_]
      by_cases hp : pml4 = 0
      · exact .inl hp
      · exact .inr (.inl (by rw [hr]; exact Ne.symm hp))

theorem shmDetach_sound (h : k.Sound rest ps) (base pid pml4 : Nat) :
    ∃ r k', k.shmDetach base pid pml4 = some (r, k') ∧ k'.Sound rest ps ∧
      k.Spares k' (k.rootOf (k.ownerOfPid pid)) := by
  refine forAttacher_spec h (ownedBy_pid h pid)
    (fun {us₁ us₂ t _ _} hw ho => ?_) fun c m t hr => ⟨-1, ?_⟩
  · rcases shmDetach_spec hw (owns_iff.mp ho).1 base pml4 with he |
      ⟨slot, a, c', m', -, -, -, -, he, hw', -, hun⟩
    · exact ⟨-1, k.heap, k.shm, t, he, ⟨rfl, rfl⟩, hw, fun _ _ => .refl⟩
    · exact ⟨0, c', m', t.unslot slot, he, ⟨rfl, rfl⟩, hw', hun⟩
  · unfold GenOS.shmDetach
    refine if_pos ?_
    by_cases hp : pml4 = 0
    · exact .inl hp
    · exact .inr (by rw [hr]; exact Ne.symm hp)

/-- The segments change, and the tasks do not. -/
theorem sound_of_world (h : k.Sound rest ps)
    (hw : World c' m' (users k.tasks) (stackFrames k.tasks ++ rest')
    (taskBlocks k.tasks ++ ps')) (hk : k' = { k with heap := c', shm := m' }) :
      k'.Sound rest' ps' := by
  subst hk
  exact ⟨hw, h.grouped⟩

theorem shmCreate_sound (h : k.Sound rest ps) (pid size : Nat) : ∃ r k',
    k.shmCreate pid size = some (r, k') ∧
    k'.Sound rest ps ∧ k.Spares k' 0 := by
  unfold shmCreate
  rcases shmCreate_spec h.world pid
    ((k.ownerOfPid pid).bind fun j => (k.tasks[j]?).map fun t => t.pid) size with
    ⟨c', he, hw, hst⟩ | ⟨c', m', i, new, he, -, hw, hst, -⟩
  · simp only [he, Option.bind_eq_bind, Option.bind_some]
    exact ⟨-1, _, rfl, sound_of_world h hw rfl, .of_stable rfl hst⟩
  · simp only [he, Option.bind_eq_bind, Option.bind_some]
    exact ⟨_, _, rfl, sound_of_world h hw rfl, .of_stable rfl hst⟩

theorem shmDestroy_sound (h : k.Sound rest ps) (id : Int) : ∃ r k', k.shmDestroy id = some (r, k') ∧
    k'.Sound rest ps ∧ k.Spares k' 0 := by
  unfold shmDestroy
  rcases shmDestroy_spec h.world id with he | ⟨i, seg, c', -, -, he, hw, hst⟩
  · simp only [he, Option.bind_eq_bind, Option.bind_some]
    exact ⟨-1, k, rfl, h, .refl⟩
  · simp only [he, Option.bind_eq_bind, Option.bind_some]
    exact ⟨0, _, rfl, sound_of_world h hw rfl, .of_stable rfl hst⟩

/-- **The fault handler.** -/
theorem cowResolve_sound (h : k.Sound rest ps) (pid faultAddr : Nat) (errorCode : Word) :
    (k.cowResolve pid faultAddr errorCode).2.Sound rest ps ∧
      k.Spares (k.cowResolve pid faultAddr errorCode).2 (k.rootOf (k.ownerOfPid pid)) := by
  have hob := ownedBy_pid h pid
  unfold cowResolve
  cases ho : k.ownerOfPid pid with
  | none => exact ⟨h, .refl⟩
  | some j =>
    obtain ⟨t, ht, hp⟩ := hob j ho
    rw [rootOf_some ht]
    simp only [Option.bind_some, ht, Option.map_some]
    by_cases hr : t.pml4 = 0
    · have he : k.phys.cowResolve (some t.toOwner) faultAddr errorCode =
          (false, k.phys, some t.toOwner) := by
        unfold Phys.cowResolve
        split
        · rfl
        · exact if_pos hr
      rw [he]
      have hk :
          ({ k.setPhys k.phys with tasks := k.tasks.set j { t with toOwner := t.toOwner } } :
            Kernel) = k :=
        set_self ht
      simp only [Option.getD_some]
      rw [hk]
      exact ⟨h, .refl⟩
    · have hown : t.toUserTask.owns = true := owns_iff.mpr ⟨hp, hr⟩
      obtain ⟨ts₁, ts₂, hs, -, hset⟩ := split_slot ht
      have hw : World k.heap k.shm (users ts₁ ++ t.toUserTask :: users ts₂)
        (stackFrames k.tasks ++ rest)
          (taskBlocks k.tasks ++ ps) := by
        have := h.world
        rwa [congrArg users hs, users_middle] at this
      obtain ⟨handled, s', o', he, hk, hw', hspec⟩ := cowResolve_world hw hown faultAddr errorCode
      have he' : k.phys.cowResolve (some t.toOwner) faultAddr errorCode =
        (handled, s', some o') := he
      rw [he']
      exact set_owner h hs hset hown hk hw' hspec.unaffected rfl

end Kernel

end GenOS
