import GenOS.Kernel.ProcessLife
import GenOS.Mm.CloneSpace

/-!
# Fork

`task_discard` takes back what a task in the making holds, wherever its construction stopped. With
it a failed `task_fork` leaves no trace, and a successful one makes a process with the pages of the
caller's group.
-/

namespace GenOS

open Phys Pmm

variable {c : HeapClient} {m : Shm} {t child : Process} {u : UserTask} {tw : Owner}
  {us : List UserTask}
variable {rest rest' ps ps' lost : List Nat} {i r : Nat} {k k₁ k' : Kernel}

/-! ## `task_discard` -/

theorem shmCleanupProcess_zero (hu : ∀ a ∈ u.shmAttached, a.shmid < 0) :
    shmCleanupProcess c m u 0 = some (c, m, u) := by
  unfold shmCleanupProcess
  split
  · rfl
  simp only [detachSlots_unattached hu, Option.bind_eq_bind, Option.bind_some]
  exact if_neg (not_not.mpr rfl)

namespace Kernel

/-- The task `t` of the kernel `k₁` is in the making, after work that left `k` alone: `tw` is what
it owns, and `lost` are frames that it recorded and did not map. -/
structure Unfinished (k k₁ : Kernel) (t : Process) (tw : Owner)
    (lost rest ps : List Nat) : Prop where
  still : Traded k k₁ [] (t.stack ++ (lost ++ owned k₁.phys tw))
  memory :
    Memory k₁.heap (k.owners ++ [tw]) k.shm.frames
      (lost ++ (t.stack ++ (stackFrames k.tasks ++ rest)))
    (t.blocks ++
      (userBlocks (users k.tasks) ++ k.shm.blocks ++ (t.block :: (taskBlocks k.tasks ++ ps))))
  process : t.isThread = false
  pid : t.pid = 0
  root : t.pml4 = tw.pml4
  pages : (t.userPages.map PageRecord.phys).Perm (tw.userPages.map PageRecord.phys ++ lost)
  attached : ∀ a ∈ t.shmAttached, a.shmid < 0

/-- The stack and the structure of a task go. -/
theorem discardTask_spec (h : k.Sound (t.stack ++ rest) (t.block :: ps)) :
    ∃ k', (k.taskFreeStack t).1.free t.block = some k' ∧ Traded k k' t.stack [] ∧
    k'.Sound rest ps := by
  obtain ⟨hst, hs⟩ := taskFreeStack_spec h
  obtain ⟨k', he, hst', hs'⟩ := free_spec hs
  exact ⟨k', he, hst.trans hst', hs'⟩

/-- **`task_discard`** of a task in the making leaves no trace of it. -/
theorem taskDiscard_spec (h : k.Sound rest ps) (hu : Unfinished k k₁ t tw lost rest ps) :
    ∃ k', k₁.taskDiscard t = some k' ∧ Traded k k' [] [] ∧ k'.Sound rest ps := by
  obtain ⟨c', he, hm, hst, htr⟩ := @releaseOwner_spec _ t.toUserTask tw k.owners
    [] _ _ _ _ hu.memory
    hu.process hu.root hu.pages
  rw [List.append_nil] at hm hst
  have hroot : t.pml4 ≠ 0 := hu.root ▸ (hu.memory.spaces.owner tw
    (List.mem_append_right _ (List.mem_singleton.mpr rfl))).root
  -- the kernel without the memory of the task
  obtain ⟨k₂, hk₂⟩ : ∃ x : Kernel, x = { k₁ with
    heap := c'.setPhys (c'.phys.vmmDestroyAddressSpace t.pml4) } := ⟨_, rfl⟩
  have hstill : Traded k k₂ [] t.stack := by
    have hback := htr.frame t.stack
    rw [hk₂]
    refine ⟨⟨hu.still.tasks, hu.still.shm, hu.still.next, hu.still.stable.trans hst⟩,
      hu.still.trade.trans ?_⟩
    exact hback.perm List.perm_append_comm (.refl _)
  have hw : World k₂.heap k.shm (users k.tasks) (t.stack ++ (stackFrames k.tasks ++ rest))
      (t.block :: (taskBlocks k.tasks ++ ps)) := h.world.keep (by rw [hk₂]; exact hm) hstill.stable
  have hs₂ : k₂.Sound (t.stack ++ rest) (t.block :: ps) :=
    hstill.sound h (hw.perm (List.perm_append_comm_assoc ..) List.perm_middle.symm)
  obtain ⟨k', he', hst', hs'⟩ := discardTask_spec hs₂
  refine ⟨k', ?_, hstill.trans hst', hs'⟩
  have hz : shmCleanupProcess k₁.heap k₁.shm t.toUserTask t.pid =
      some (k₁.heap, k₁.shm, t.toUserTask) := by
    rw [hu.pid]
    exact shmCleanupProcess_zero hu.attached
  have hrel :
      k₁.releaseMemory t =
        some ({ k₁ with heap := c' }, { t with toUserTask := t.toUserTask.released }) := by
    unfold releaseMemory
    simp only [hz, he, Option.bind_eq_bind, Option.bind_some]
  unfold taskDiscard
  rw [hrel]
  simp only [Option.bind_eq_bind, Option.bind_some]
  rw [if_neg
    (by rw [show t.toUserTask.released.isThread = false from hu.process]; exact Bool.false_ne_true)]
  unfold destroySpace
  rw [if_pos (show t.toUserTask.released.pml4 ≠ 0 from hroot)]
  subst hk₂
  exact he'

/-- A task that holds nothing but its stack and its structure. -/
theorem taskDiscard_bare (h : k.Sound (t.stack ++ rest) (t.block :: ps)) (hb : Bare t.toUserTask)
    (hr : t.pml4 = 0)
    (hpid : t.pid = 0) : ∃ k', k.taskDiscard t = some k' ∧ Traded k k' t.stack [] ∧
    k'.Sound rest ps := by
  obtain ⟨k', he, hst, hs⟩ := discardTask_spec h
  obtain ⟨u, he₂, hroot⟩ := userMemoryRelease_bare (c := k.heap) hb
  have hz : shmCleanupProcess k.heap k.shm t.toUserTask t.pid =
      some (k.heap, k.shm, t.toUserTask) := by
    rw [hpid]
    exact shmCleanupProcess_zero (World.bare_unattached hb)
  have hrel : k.releaseMemory t = some (k, { t with toUserTask := u }) := by
    unfold releaseMemory
    simp only [hz, he₂, Option.bind_eq_bind, Option.bind_some]
  refine ⟨k', ?_, hst, hs⟩
  unfold taskDiscard
  rw [hrel]
  simp only [Option.bind_eq_bind, Option.bind_some]
  have hsame : (if u.isThread then k else k.destroySpace u.pml4) = k := by
    unfold destroySpace
    rw [if_neg (not_not.mpr (hroot.trans hr))]
    exact ite_self k
  rw [hsame]
  exact he

/-! ## `task_fork` -/

/-- A request for a page is denied. -/
theorem asked_spec (h : k.Sound rest ps) (n : Nat) :
    Traded k (k.setPhys { k.phys with asked := n }) [] [] ∧
    (k.setPhys { k.phys with asked := n }).Sound rest ps := by
  have ht : Taken k.phys { k.phys with asked := n } [] :=
    ⟨.refl h.world.memory.spaces.inv, nofun, .nil, fun _ _ => rfl, rfl⟩
  obtain ⟨hw, hst, htr⟩ := h.world.takeFrames ht
  have hstill : Traded k (k.setPhys { k.phys with asked := n }) [] [] := ⟨⟨rfl, rfl, rfl, hst⟩, htr⟩
  exact ⟨hstill, hstill.sound h hw⟩

/-- A task in the making gets no address space, and goes. -/
theorem noSpace_spec (hm : Made k k₁ t rest ps) (hb : Bare t.toUserTask) (hr : t.pml4 = 0)
    (hpid : t.pid = 0)
    (n : Nat) : ∃ k', (k₁.setPhys { k₁.phys with asked := n }).taskDiscard t = some k' ∧
    Traded k k' [] [] ∧
      k'.Sound rest ps := by
  obtain ⟨hst, hs⟩ := asked_spec hm.sound n
  obtain ⟨k', hd, hst', hs'⟩ := taskDiscard_bare hs hb hr hpid
  exact ⟨k', hd, (hm.still.trans (hst.frame t.stack)).trans hst', hs'⟩

theorem ownerAt_congr (h : k'.tasks = k.tasks) (i : Nat) : k'.ownerAt i = k.ownerAt i := by
  unfold ownerAt taskMemoryOwner taskFindByPid
  rw [h]

/-- A task in the making gets an address space. -/
theorem addSpace_spec {s : Phys} {a : Nat} (hm : Made k k₁ t rest ps)
    (hc : Created k₁.phys s a) (ha : a ≠ 0)
    (hp : t.isThread = false) (hb : Bare t.toUserTask) :
      Traded k (k₁.setPhys s) [] (t.stack ++ owned s { t.toUserTask with pml4 := a }.toOwner) ∧
      World (k₁.setPhys s).heap k.shm (users k.tasks ++ [{ t.toUserTask with pml4 := a }])
        (t.stack ++ (stackFrames k.tasks ++ rest)) (t.block :: (taskBlocks k.tasks ++ ps)) ∧
      ∀ va < 0x800000000000, (k₁.setPhys s).phys.translate a va = none := by
  have hw : World k₁.heap k.shm (users k.tasks) (t.stack ++ (stackFrames k.tasks ++ rest))
      (t.block :: (taskBlocks k.tasks ++ ps)) := by
    have := @Sound.front _ _ t.stack [t.block] _ hm.sound
    rw [hm.still.tasks, hm.still.shm] at this
    exact this
  obtain ⟨hw', hst, htr⟩ := hw.addOwner (t := { t.toUserTask with pml4 := a }) hc ha rfl hp
    (hb.withRoot a)
  refine ⟨⟨⟨hm.still.tasks, hm.still.shm, hm.still.next, hm.still.stable.trans hst⟩,
    hm.still.trade.trans ?_⟩, hw',
    fun va hva => hc.translate hva⟩
  exact (htr.frame t.stack).perm (.refl _) List.perm_append_comm

/-- What a successful fork of the task at position `i` did: `j` is the position of the owner of its
memory. -/
structure Forked (k k' : Kernel) (i j : Nat) (t child : Process) : Prop where
  owner : k.taskMemoryOwner i = some j
  found : k.tasks[j]? = some t
  tasks : k'.tasks = k.tasks ++ [child]
  pid : child.pid = k.nextPid ∧ child.tgid = k.nextPid ∧ child.isThread = false
  next : k'.nextPid = (k.nextPid + 1) % 2 ^ 32
  cloned : Cloned k.phys k'.phys k.shm k'.shm t.toUserTask child.toUserTask
  others : ∀ u ∈ k.owners, u.pml4 ≠ t.pml4 → Unaffected k.phys k'.phys u

/-- The memory of the child: its owner is found, and cloned. -/
theorem forkMemory_spec {current : Process} (h : k.Sound rest ps) (hc : k.tasks[i]? = some current)
    (hroot : current.pml4 ≠ 0) (ht : u.isThread = false) (hr : u.pml4 ≠ 0) (hb : Bare u)
    (hw : World k₁.heap k.shm (users k.tasks ++ [u]) rest' ps')
    (hempty : ∀ va < 0x800000000000, k₁.phys.translate u.pml4 va = none) :
    (∃ c' child' tw,
      cowCloneAddressSpace k₁.heap k.shm (k.ownerAt i) u = some (false, c', k.shm, child') ∧
      CloneFailed k₁.heap c' k.shm (users k.tasks) rest' ps' u child' tw) ∨
    ∃ j t c' m' child', k.taskMemoryOwner i = some j ∧ k.tasks[j]? = some t ∧ t.owns = true ∧
      cowCloneAddressSpace k₁.heap k.shm (k.ownerAt i) u = some (true, c', m', child') ∧
      SameSpace u child' ∧ World c' m' (users k.tasks ++ [child']) rest' ps' ∧
      Cloned k₁.phys c'.phys k.shm m' t.toUserTask child' ∧
      ∀ o ∈ k.owners, o.pml4 ≠ t.pml4 → Unaffected k₁.phys c'.phys o := by
  have hu : u.owns = true := owns_iff.mpr ⟨ht, hr⟩
  unfold ownerAt
  cases ho : k.taskMemoryOwner i with
  | none =>
    refine .inl ⟨k₁.heap, u, u.toOwner, rfl, ?_, .refl, .refl hw.memory.spaces.inv,
      ⟨rfl, rfl⟩, rfl, rfl, rfl⟩
    have hm := hw.memory
    rw [show GenOS.owners (users k.tasks ++ [u]) = _ from owners_middle hu,
      World.userBlocks_bare hb,
      List.append_nil] at hm
    rw [hb.blocks]
    exact hm
  | some j =>
    obtain ⟨t₀, t, h₀, hj, hp, hsame⟩ := taskMemoryOwner_process h ho
    obtain rfl : t₀ = current := Option.some.inj (h₀.symm.trans hc)
    have hto : t.toUserTask.owns = true := owns_iff.mpr ⟨hp, hsame ▸ hroot⟩
    obtain ⟨ts₁, ts₂, hts, -, -⟩ := split_slot hj
    have hus : users k.tasks = users ts₁ ++ t.toUserTask :: users ts₂ := by rw [hts, users_middle]
    simp only [Option.bind_some, hj, Option.map_some]
    rcases cowCloneAddressSpace_spec hw hus hto hu hb hempty with hfail |
      ⟨c', m', child', he, hk, hw', hC, hun⟩
    · exact .inl hfail
    · refine .inr ⟨j, t, c', m', child', rfl, hj, hto, he, hk, hw', hC, fun o hom hne => hun o ?_⟩
      have hom : o ∈ GenOS.owners (users k.tasks) := hom
      rw [hus, owners_middle hto] at hom
      exact (middle_cases hom).resolve_left fun he => hne (by rw [he])

/-- **`task_fork`** makes a process that shares the pages of the caller's group copy-on-write, or
leaves everything as it was. -/
theorem taskFork_spec (h : k.Sound rest ps) (i : Nat) (userFrame : Bool) :
    ∃ x k', k.taskFork i userFrame = some (x, k') ∧ k'.Sound rest ps ∧
    ((x = -1 ∧ Traded k k' [] []) ∨
      x = pidResult k.nextPid ∧ ∃ j t child, Forked k k' i j t child) := by
  unfold taskFork
  cases hc : k.tasks[i]? with
  | none => exact ⟨-1, k, rfl, h, .inl ⟨rfl, .refl h⟩⟩
  | some current =>
    dsimp only
    split
    · exact ⟨-1, k, rfl, h, .inl ⟨rfl, .refl h⟩⟩
    next hargs =>
    have hroot : current.pml4 ≠ 0 := (not_or.mp hargs).2
    rcases make_cases h with ⟨k', he, hst, hs⟩ |
      ⟨b, k₁, hb, he, ⟨k₂, k', he₂, hf, hst, hs⟩ | ⟨k₂, start, he₂, hm⟩⟩
    · simp only [he, Option.bind_eq_bind, Option.bind_some]
      exact ⟨-1, k', rfl, hs, .inl ⟨rfl, hst⟩⟩
    · have hf : k₂.free (Process.blank b).block = some k' := hf
      simp only [he, he₂, hf, Option.bind_eq_bind, Option.bind_some]
      exact ⟨-1, k', rfl, hs, .inl ⟨rfl, hst⟩⟩
    obtain ⟨child, hchild⟩ : ∃ x : Process, x = { Process.blank b with
      kernelStackPhys := start, kernelStackPages := GenOS.kernelStackPages } := ⟨_, rfl⟩
    have hbare : Bare child.toUserTask := by
      rw [hchild]
      exact bare_blank b
    have hpid : child.pid = 0 ∧ child.isThread = false ∧ child.pml4 = 0 := by
      rw [hchild]
      exact ⟨rfl, rfl, rfl⟩
    rw [← hchild] at hm he₂
    simp only [he, he₂, Option.bind_eq_bind, Option.bind_some]
    rcases vmmCreateAddressSpace_spec hm.sound.world.memory.spaces.inv with ha | ⟨a, s, ha, h0, hcr⟩
    · -- no address space
      have ha :
        k₂.phys.vmmCreateAddressSpace = (0, { k₂.phys with asked := k₂.phys.asked + 1 }) := ha
      obtain ⟨k', hd, hst, hs⟩ := noSpace_spec hm hbare hpid.2.2 hpid.1 (k₂.phys.asked + 1)
      rw [ha]
      dsimp only
      rw [if_pos rfl, hd]
      exact ⟨-1, k', rfl, hs, .inl ⟨rfl, hst⟩⟩
    · have ha : k₂.phys.vmmCreateAddressSpace = (a, s) := ha
      obtain ⟨hst, hw, hempty⟩ := addSpace_spec hm hcr h0 hpid.2.1 hbare
      rw [ha]
      dsimp only
      rw [if_neg h0, ownerAt_congr hst.tasks, hst.shm]
      rcases forkMemory_spec (u := { child.toUserTask with pml4 := a }) h hc hroot hpid.2.1 h0
        (hbare.withRoot a) hw
        hempty with ⟨c', u, tw, hcl, hf⟩ | ⟨j, t, c', m', u, ho, hj, hto, hcl, hk, hw', hC, hun⟩
      · -- the clone failed
        simp only [hcl, Option.bind_some, Bool.false_eq_true, if_false]
        have hU : Unfinished k { k₂.setPhys s with heap := c', shm := k.shm }
          { child with toUserTask := u } tw []
            rest ps := by
          refine ⟨⟨⟨hst.tasks, rfl, hst.next, hst.stable.trans hf.stable⟩, hst.trade.trans ?_⟩,
            hf.memory,
            hf.same.thread.trans hpid.2.1, hpid.1, hf.root.symm, by rw [List.append_nil, hf.pages],
            fun x hx => World.bare_unattached hbare x (hf.attached ▸ hx)⟩
          exact (hf.trade.frame child.stack).perm List.perm_append_comm List.perm_append_comm
        obtain ⟨k', hd, hst', hs'⟩ := taskDiscard_spec h hU
        rw [hd]
        exact ⟨-1, k', rfl, hs', .inl ⟨rfl, hst'⟩⟩
      · simp only [hcl, Option.bind_some, if_true]
        obtain ⟨k₃, hk₃⟩ : ∃ x : Kernel, x = { k₂.setPhys s with heap := c', shm := m' } := ⟨_, rfl⟩
        have htasks : k₃.tasks = k.tasks := by
          rw [hk₃]
          exact hst.tasks
        have hnext : k₃.nextPid = k.nextPid := by
          rw [hk₃]
          exact hst.next
        have hth : u.isThread = false := hk.thread.trans hpid.2.1
        obtain ⟨hs, ⟨hid, hgroup⟩, hnext'⟩ :=
          publish_process (t := { child with toUserTask := u }) h htasks hnext hth
          (by rw [hk₃]; exact hw')
        rw [← hk₃]
        refine ⟨_, _, rfl, hs,
          .inr ⟨congrArg pidResult hst.next, j, t, _, ho, hj, congrArg (· ++ _) htasks,
          ⟨hid, hgroup, hth⟩, hnext', ?_, ?_⟩⟩
        · subst hk₃
          exact hC.after
            (hst.stable.unaffected _
              (mem_owners (List.mem_map_of_mem (List.mem_of_getElem? hj)) hto))
        · subst hk₃
          exact fun o hom hne => (hst.stable.unaffected o hom).trans (hun o hom hne)

/-- The other address spaces see nothing of a fork. -/
theorem Forked.spares {j : Nat} (h : Forked k k' i j t child) :
    k.Spares k' (k.rootOf (k.taskMemoryOwner i)) := by
  rw [h.owner, rootOf_some h.found]
  refine fun u hu hne => .inl ⟨?_, h.others u hu hne⟩
  unfold owners
  rw [h.tasks, users_append, owners_append]
  exact List.mem_append_left _ hu

end Kernel

end GenOS
