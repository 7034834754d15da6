import GenOS.Kernel.Process
import GenOS.Mm.OwnerEnd
import GenOS.Mm.WorldCalls

/-!
# The invariant of the process list

`Tasks c m ts rest ps` is `World` for the tasks `ts`, which also hold the frames of their kernel
stackFrames and their blocks on the kernel heap. `Grouped` says that the owner of a thread's memory
stands before it in the list, so that `task_memory_owner` finds that one or none, whatever the pid
counter does.
-/

namespace GenOS

open Phys Pmm

variable {c c' : HeapClient} {s s' : Phys} {m m' : Shm} {t t' : Process}
  {ts ts' ts₁ ts₂ : List Process}
variable {rest rest' ps ps' : List Nat} {i j : Nat}

/-! ## The list -/

namespace Process

/-- What the group of a task depends on. -/
def ident (t : Process) : Bool × Nat × Nat × Nat := (t.isThread, t.pml4, t.pid, t.tgid)

/-- `l` owns the memory of the thread `t`. -/
structure Leads (l t : Process) : Prop where
  process : l.isThread = false
  space : l.pml4 = t.pml4
  root : l.pml4 ≠ 0
  pid : l.pid = t.tgid

theorem Leads.congr {l l' : Process} (h : Leads l t) (hl : l'.ident = l.ident)
    (ht : t'.ident = t.ident) :
    Leads l' t' := by
  unfold ident at hl ht
  obtain ⟨h1, h2, h3, -⟩ : l'.isThread = l.isThread ∧ l'.pml4 = l.pml4 ∧ l'.pid = l.pid ∧ _ := by
    simpa using hl
  obtain ⟨-, h5, -, h6⟩ : _ ∧ t'.pml4 = t.pml4 ∧ _ ∧ t'.tgid = t.tgid := by simpa using ht
  exact ⟨h1.trans h.process, by rw [h2, h5, h.space], h2 ▸ h.root, by rw [h3, h6, h.pid]⟩

end Process

structure Grouped (ts : List Process) : Prop where
  leader : ∀ {l₁ t l₂}, ts = l₁ ++ t :: l₂ → t.isThread = true → ∃ l ∈ l₁, l.Leads t
  self : ∀ t ∈ ts, t.isThread = false → t.tgid = t.pid

namespace Grouped

theorem nil : Grouped [] := ⟨fun h _ => by simp at h, nofun⟩

/-- What else the tasks hold does not matter. -/
theorem congr (h : Grouped ts) (he : ts'.map Process.ident = ts.map Process.ident) :
    Grouped ts' := by
  refine ⟨fun {l₁ t l₂} hs ht => ?_, fun t ht hp => ?_⟩
  · rw [hs, List.map_append, List.map_cons] at he
    obtain ⟨a₁, b, rfl, h1, h2⟩ := List.map_eq_append_iff.mp he.symm
    obtain ⟨u, a₂, rfl, h3, -⟩ := List.map_eq_cons_iff.mp h2
    have hu : u.isThread = true := by
      have : u.isThread = t.isThread := congrArg Prod.fst h3
      rw [this, ht]
    obtain ⟨l, hl, hlead⟩ := h.leader rfl hu
    have : l.ident ∈ l₁.map Process.ident := h1 ▸ List.mem_map_of_mem hl
    obtain ⟨l', hl', he'⟩ := List.mem_map.mp this
    exact ⟨l', hl', hlead.congr he' h3.symm⟩
  · have : t.ident ∈ ts.map Process.ident := he ▸ List.mem_map_of_mem ht
    obtain ⟨u, hu, he'⟩ := List.mem_map.mp this
    have h1 : u.isThread = t.isThread := congrArg Prod.fst he'
    have h2 : (u.pid, u.tgid) = (t.pid, t.tgid) := congrArg (fun x => x.2.2) he'
    have h3 := h.self u hu (h1.trans hp)
    simp only [Prod.mk.injEq] at h2
    omega

/-- A task comes at the end. -/
theorem snoc (h : Grouped ts) (hp : t.isThread = false → t.tgid = t.pid)
    (ht : t.isThread = true → ∃ l ∈ ts, l.Leads t) : Grouped (ts ++ [t]) := by
  refine ⟨fun {l₁ u l₂} hs hu => ?_, fun u hu hup => ?_⟩
  · rcases List.eq_nil_or_concat l₂ with rfl | ⟨l₂', x, rfl⟩
    · obtain ⟨rfl, h2⟩ := List.append_inj' hs rfl
      obtain rfl := List.singleton_inj.mp h2
      exact ht hu
    · rw [List.concat_eq_append, ← List.cons_append, ← List.append_assoc] at hs
      exact h.leader (List.append_inj' hs rfl).1 hu
  · rcases List.mem_append.mp hu with hu | hu
    · exact h.self u hu hup
    · rw [List.mem_singleton.mp hu] at hup ⊢
      exact hp hup

/-- A task goes that leads no other. -/
theorem remove (h : Grouped (ts₁ ++ t :: ts₂)) (hno : ∀ u ∈ ts₂, ¬ t.Leads u) :
    Grouped (ts₁ ++ ts₂) := by
  refine ⟨fun {l₁ u l₂} hs hu => ?_, fun u hu => h.self u ?_⟩
  · rcases List.append_eq_append_iff.mp hs with ⟨a, h1, h2⟩ | ⟨a, h1, h2⟩
    · -- `u` is behind the task
      have hs' :
        ts₁ ++ t :: ts₂ = (ts₁ ++ t :: a) ++
          u :: l₂ := by rw [h2, List.append_assoc, List.cons_append]
      obtain ⟨l, hl, hlead⟩ := h.leader hs' hu
      have hum : u ∈ ts₂ := h2 ▸ List.mem_append_right _ List.mem_cons_self
      rcases List.mem_append.mp hl with hl | hl
      · exact ⟨l, h1 ▸ List.mem_append_left _ hl, hlead⟩
      rcases List.mem_cons.mp hl with rfl | hl
      · exact absurd hlead (hno u hum)
      · exact ⟨l, h1 ▸ List.mem_append_right _ hl, hlead⟩
    · rcases List.cons_eq_append_iff.mp h2 with ⟨rfl, h3⟩ | ⟨a', rfl, h3⟩
      · -- `u` is right behind it
        rw [List.append_nil] at h1
        have hs' : ts₁ ++ t :: ts₂ = (ts₁ ++ [t]) ++ u :: l₂ := by
          rw [← h3, List.append_assoc]
          rfl
        obtain ⟨l, hl, hlead⟩ := h.leader hs' hu
        rcases List.mem_append.mp hl with hl | hl
        · exact ⟨l, h1 ▸ hl, hlead⟩
        · rw [List.mem_singleton.mp hl] at hlead
          exact absurd hlead (hno u (h3 ▸ List.mem_cons_self))
      · exact h.leader (by rw [h1, List.append_assoc, List.cons_append]) hu
  · exact (List.mem_append.mp hu).elim (List.mem_append_left _)
      fun hu => List.mem_append_right _ (List.mem_cons_of_mem _ hu)

end Grouped

/-! ## The tasks and their memory -/

/-- What the tasks own. -/
abbrev users (ts : List Process) : List UserTask := ts.map Process.toUserTask

/-- The frames of the kernel stackFrames. -/
abbrev stackFrames (ts : List Process) : List Nat := ts.flatMap Process.stack

abbrev taskBlocks (ts : List Process) : List Nat := ts.map Process.block

/-- The tasks `ts` with all they hold; `rest` are the frames and `ps` the blocks of everything
else. -/
structure Tasks (c : HeapClient) (m : Shm) (ts : List Process) (rest ps : List Nat) : Prop where
  world : World c m (users ts) (stackFrames ts ++ rest) (taskBlocks ts ++ ps)
  grouped : Grouped ts

theorem users_middle : users (ts₁ ++ t :: ts₂) = users ts₁ ++ t.toUserTask :: users ts₂ := by
  unfold users
  rw [List.map_append, List.map_cons]

theorem users_append : users (ts₁ ++ ts₂) = users ts₁ ++ users ts₂ := List.map_append

theorem stackFrames_middle :
    (stackFrames (ts₁ ++ t :: ts₂)).Perm (t.stack ++ stackFrames (ts₁ ++ ts₂)) := by
  unfold stackFrames
  simp only [List.flatMap_append, List.flatMap_cons]
  exact List.perm_append_comm_assoc ..

theorem taskBlocks_middle :
    (taskBlocks (ts₁ ++ t :: ts₂)).Perm (t.block :: taskBlocks (ts₁ ++ ts₂)) := by
  unfold taskBlocks
  simp only [List.map_append, List.map_cons]
  exact List.perm_middle

/-- The frames and blocks of everything else are not ordered. -/
theorem World.perm {us : List UserTask} (h : World c m us rest ps) (hr : rest.Perm rest')
    (hp : ps.Perm ps') : World c m us rest' ps' :=
  ⟨h.memory.perm (.refl _) hr (hp.append_left _), h.shm, h.small, h.owner, h.bare, h.counts⟩

/-- Two owners do not have the same root. -/
theorem World.root_unique {us us₁ us₂ : List UserTask} {t u : UserTask} (h : World c m us rest ps)
    (hs : us = us₁ ++ t :: us₂) (hu : u ∈ us₁ ++ us₂) (ht : t.owns = true) (huo : u.owns = true) :
    u.pml4 ≠ t.pml4 := fun he => by
  have hm := (h.userOk hs ht).memory
  have hmem : u.toOwner ∈ owners us₁ ++ owners us₂ := by
    rw [← owners_append]
    exact mem_owners hu huo
  refine hm.spaces.tables_disjoint (mem_allTables hmem (Radix.root_mem_tables ..)) ?_
  show u.pml4 ∈ _
  rw [he]
  exact Radix.root_mem_tables ..

/-- A root belongs to one owner. -/
theorem World.owner_unique {us : List UserTask} {o o' : Owner} (h : World c m us rest ps)
    (ho : o ∈ owners us) (ho' : o' ∈ owners us) (he : o'.pml4 = o.pml4) : o' = o := by
  obtain ⟨t, ht, hto, rfl⟩ := of_mem_owners ho
  obtain ⟨u, hu, huo, rfl⟩ := of_mem_owners ho'
  by_contra hne
  obtain ⟨us₁, us₂, rfl⟩ := List.append_of_mem ht
  refine h.root_unique rfl (u := u) ?_ hto huo he
  rcases List.mem_append.mp hu with hx | hx
  · exact List.mem_append_left _ hx
  · exact List.mem_append_right _ ((List.mem_cons.mp hx).resolve_left fun hx => hne (by rw [hx]))

namespace Tasks

/-- The leader of a group is one task. -/
theorem leader_unique (h : Tasks c m ts rest ps) {l l' : Process} (hl : l ∈ ts) (hl' : l' ∈ ts)
    (hp : l.isThread = false) (hp' : l'.isThread = false) (hr : l.pml4 ≠ 0)
    (he : l'.pml4 = l.pml4) :
    l' = l := by
  by_contra hne
  obtain ⟨ts₁, ts₂, rfl⟩ := List.append_of_mem hl
  have hm : l' ∈ ts₁ ++ ts₂ := by
    rcases List.mem_append.mp hl' with hx | hx
    · exact List.mem_append_left _ hx
    · exact List.mem_append_right _ ((List.mem_cons.mp hx).resolve_left hne)
  refine h.world.root_unique users_middle (u := l'.toUserTask) ?_ (owns_iff.mpr ⟨hp, hr⟩)
    (owns_iff.mpr ⟨hp', he ▸ hr⟩) he
  rw [← users_append]
  exact List.mem_map_of_mem hm

/-- **The task that a thread's `tgid` finds**, with the thread's address space, owns it. -/
theorem found_process (h : Tasks c m ts rest ps) {t f : Process} (ht : t ∈ ts)
    (hth : t.isThread = true)
    (hf : ts.find? (fun x => x.pid == t.tgid) = some f) (he : f.pml4 = t.pml4) :
      f.isThread = false := by
  obtain ⟨ts₁, ts₂, hs⟩ := List.append_of_mem ht
  obtain ⟨l, hl, hlead⟩ := h.grouped.leader hs hth
  obtain ⟨hpid, as, bs, hs', hno⟩ := List.find?_eq_some_iff_append.mp hf
  by_contra hfp
  obtain ⟨l', hl', hlead'⟩ := h.grouped.leader hs' (Bool.eq_true_of_not_eq_false hfp)
  obtain rfl : l' = l := h.leader_unique (hs ▸ List.mem_append_left _ hl)
    (hs' ▸ List.mem_append_left _ hl')
    hlead.process hlead'.process hlead.root (by rw [hlead'.space, he, hlead.space])
  have := hno l' hl'
  rw [hlead.pid, beq_self_eq_true] at this
  cases this

end Tasks

namespace Kernel

/-- The kernel's tasks, with everything they hold. -/
abbrev Sound (k : Kernel) (rest ps : List Nat) : Prop := Tasks k.heap k.shm k.tasks rest ps

variable {k k' : Kernel}

theorem find_of_findIdx {p : Process → Bool} (h : ts.findIdx? p = some j) : ∃ f, ts[j]? = some f ∧
    ts.find? p = some f := by
  obtain ⟨hj, hp, hno⟩ := List.findIdx?_eq_some_iff_getElem.mp h
  refine ⟨ts[j], List.getElem?_eq_getElem hj,
    List.find?_eq_some_iff_getElem.mpr ⟨hp, j, hj, rfl, ?_⟩⟩
  exact fun i hi => by simpa using hno i hi

/-- **`task_memory_owner` finds a task that is no thread**, with the same address space. -/
theorem taskMemoryOwner_process (h : k.Sound rest ps) (ho : k.taskMemoryOwner i = some j) :
    ∃ t u, k.tasks[i]? = some t ∧ k.tasks[j]? = some u ∧ u.isThread = false ∧ u.pml4 = t.pml4 := by
  unfold taskMemoryOwner at ho
  obtain ⟨t, ht, ho⟩ := Option.bind_eq_some_iff.mp ho
  by_cases hth : t.isThread = true
  · rw [hth] at ho
    simp only [Bool.not_true, Bool.false_eq_true, ↓reduceIte] at ho
    obtain ⟨l, hl, ho⟩ := Option.bind_eq_some_iff.mp ho
    obtain ⟨f, hf, ho⟩ := Option.bind_eq_some_iff.mp ho
    split at ho
    · next he =>
      obtain rfl := Option.some.inj ho
      obtain ⟨f', hf', hfind⟩ := find_of_findIdx hl
      obtain rfl : f' = f := Option.some.inj (hf'.symm.trans hf)
      exact ⟨t, f', ht, hf, h.found_process (List.mem_of_getElem? ht) hth hfind he, he⟩
    · cases ho
  · rw [Bool.eq_false_of_not_eq_true hth] at ho
    obtain rfl := Option.some.inj ho
    exact ⟨t, t, ht, ht, Bool.eq_false_of_not_eq_true hth, rfl⟩

theorem ownerOfPid_process (h : k.Sound rest ps) {pid : Nat} (ho : k.ownerOfPid pid = some j) :
    ∃ u, k.tasks[j]? = some u ∧ u.isThread = false := by
  obtain ⟨i, -, ho⟩ := Option.bind_eq_some_iff.mp ho
  obtain ⟨-, u, -, hu, hp, -⟩ := taskMemoryOwner_process h ho
  exact ⟨u, hu, hp⟩

end Kernel

end GenOS
