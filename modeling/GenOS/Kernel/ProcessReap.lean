import GenOS.Kernel.ProcessRun

/-!
# What the reaper reaps

`reapList` is what the loop of `task_reap_dead` does to the list alone. The first pass over a dead
process marks its threads and reaps them, as they come after it; the second reaps the process
(`reapList_leader`, `reapList_quiet`). Whoever lives in a group whose process lives stays
(`mem_reapList`).
-/

namespace GenOS

open Phys Pmm

variable {active : Nat → Bool} {kept todo ts ts₁ ts₂ : List Process} {l t x : Process}
variable {rest ps : List Nat} {r p : Nat} {k k' : Kernel}

namespace Kernel

/-- The list after the loop of `task_reap_dead`: `kept`, and what it keeps of the others. -/
def reapList (active : Nat → Bool) (kept : List Process) : List Process → List Process
  | [] => kept
  | t :: rest =>
    if !t.dead || active t.block || t.pid == 0 then reapList active (kept ++ [t]) rest
    else if !t.isThread && t.pml4 != 0 && (kept ++ rest).any fun th => th.pml4 == t.pml4 then
      reapList active (dieWith t.pml4 kept ++ [t]) (dieWith t.pml4 rest)
    else reapList active kept rest
termination_by rest => rest.length
decreasing_by all_goals simp [dieWith]

theorem reapLoop_tasks {k : Kernel} (he : reapLoop active k kept todo = some k') :
    k'.tasks = reapList active kept todo := by
  induction kept, todo using reapList.induct active generalizing k with
  | case1 kept =>
    rw [reapLoop] at he
    rw [reapList]
    cases he
    rfl
  | case2 kept t todo h1 ih =>
    rw [reapLoop, if_pos h1] at he
    rw [reapList, if_pos h1]
    exact ih he
  | case3 kept t todo h1 h2 ih =>
    rw [reapLoop, if_neg h1, if_pos h2] at he
    rw [reapList, if_neg h1, if_pos h2]
    exact ih he
  | case4 kept t todo h1 h2 ih =>
    rw [reapLoop, if_neg h1, if_neg h2] at he
    rw [reapList, if_neg h1, if_neg h2]
    obtain ⟨k₁, -, he⟩ := Option.bind_eq_some_iff.mp he
    exact ih he

/-! ## Marking a group -/

/-- A task of another group is as it was. -/
theorem mem_dieWith (hx : x ∈ dieWith p ts) : x ∈ ts ∨ x.pml4 = p := by
  obtain ⟨t, ht, rfl⟩ := List.mem_map.mp hx
  by_cases hp : t.pml4 = p
  · rw [if_pos hp]
    exact .inr hp
  · rw [if_neg hp]
    exact .inl ht

theorem mem_dieWith_of_ne (ht : t ∈ ts) (hp : t.pml4 ≠ p) : t ∈ dieWith p ts :=
  List.mem_map.mpr ⟨t, ht, if_neg hp⟩

/-- A task that the reaper takes off the list. -/
structure Reapable (active : Nat → Bool) (t : Process) : Prop where
  dead : t.dead = true
  idle : active t.block = false
  pid : t.pid ≠ 0

theorem Reapable.taken (h : Reapable active t) :
    ¬ (!t.dead || active t.block || t.pid == 0) = true := by
  rw [h.dead, h.idle, beq_false_of_ne h.pid]
  exact Bool.false_ne_true

/-- The tasks whose process the reaper comes upon. -/
theorem marking_process {b : Bool} (h : (!t.isThread && t.pml4 != 0 && b) = true) :
    t.isThread = false ∧ t.pml4 ≠ 0 ∧ b = true := by
  obtain ⟨h, hb⟩ := (Bool.and_eq_true _ _).mp h
  obtain ⟨ht, hr⟩ := (Bool.and_eq_true _ _).mp h
  exact ⟨by simpa using ht, by simpa using hr, hb⟩

/-- **Whoever lives in a group whose process lives stays**: no process that died has the task's
address space. -/
theorem mem_reapList (ht : t ∈ kept ++ todo) (hlive : t.dead = false)
    (h : ∀ x ∈ kept ++ todo, x.dead = true → x.isThread = false → x.pml4 ≠ 0 → x.pml4 ≠ t.pml4) :
    t ∈ reapList active kept todo := by
  induction kept, todo using reapList.induct active with
  | case1 kept =>
    rw [reapList]
    rwa [List.append_nil] at ht
  | case2 kept x todo h1 ih =>
    rw [reapList, if_pos h1]
    refine ih ?_ fun y hy => h y ?_
    · rwa [List.append_assoc]
    · rwa [List.append_assoc] at hy
  | case3 kept x todo h1 h2 ih =>
    obtain ⟨hp, h0, -⟩ := marking_process h2
    have hdead : x.dead = true := by
      by_contra hd
      exact h1 (by rw [Bool.eq_false_of_not_eq_true hd]; rfl)
    have hne : x.pml4 ≠ t.pml4 := h x (List.mem_append_right _ List.mem_cons_self) hdead hp h0
    rw [reapList, if_neg h1, if_pos h2]
    refine ih ?_ fun y hy hyd hyp hy0 => ?_
    · rcases List.mem_append.mp ht with ht | ht
      · exact List.mem_append_left _ (List.mem_append_left _ (mem_dieWith_of_ne ht hne.symm))
      · rcases List.mem_cons.mp ht with rfl | ht
        · rw [hlive] at hdead
          cases hdead
        · exact List.mem_append_right _ (mem_dieWith_of_ne ht hne.symm)
    · -- whoever the marking killed is of the other group
      have hy : y ∈ kept ++ x :: todo ∨ y.pml4 = x.pml4 := by
        rcases List.mem_append.mp hy with hy | hy
        · rcases List.mem_append.mp hy with hy | hy
          · exact (mem_dieWith hy).imp_left (List.mem_append_left _)
          · exact .inl (List.mem_singleton.mp hy ▸ List.mem_append_right _ List.mem_cons_self)
        · exact (mem_dieWith hy).imp_left fun hy => List.mem_append_right _
            (List.mem_cons_of_mem _ hy)
      rcases hy with hy | hy
      · exact h y hy hyd hyp hy0
      · rwa [hy]
  | case4 kept x todo h1 h2 ih =>
    rw [reapList, if_neg h1, if_neg h2]
    refine ih ?_ fun y hy => h y ?_
    · rcases List.mem_append.mp ht with ht | ht
      · exact List.mem_append_left _ ht
      · rcases List.mem_cons.mp ht with rfl | ht
        · exact absurd (by rw [hlive]; rfl) h1
        · exact List.mem_append_right _ ht
    · exact (List.mem_append.mp hy).elim (List.mem_append_left _) fun hy =>
        List.mem_append_right _ (List.mem_cons_of_mem _ hy)

/-! ## The kernel -/

/-- **A live task of a live process stays**, with its identity and all it owns. -/
theorem reaper_spares_live (h : k.Sound rest ps) (ht : t ∈ k.tasks) (hlive : t.dead = false)
    (hg : ∀ l ∈ k.tasks, l.isThread = false → l.pml4 ≠ 0 → l.pml4 = t.pml4 → l.dead = false) :
    ∃ k', k.taskReapDead active = some k' ∧ t ∈ k'.tasks := by
  obtain ⟨k', he, -⟩ := reapLoop_spec active k [] k.tasks h
  refine ⟨k', he, ?_⟩
  rw [reapLoop_tasks he]
  refine mem_reapList ht hlive fun x hx hd hp h0 hx' => ?_
  rw [hg x hx hp h0 hx'] at hd
  cases hd

/-- One process of two exits. -/
theorem reaper_spares_other : ∃ (m : Machine) (k' : Kernel) (t d : Process), m.Reachable ∧
    t ∈ m.kernel.tasks ∧ t.pml4 ≠ 0 ∧ d ∈ m.kernel.tasks ∧ d.dead = true ∧ d.pml4 ≠ 0 ∧
    m.kernel.taskReapDead (fun _ => false) = some k' ∧ t ∈ k'.tasks := by
  obtain ⟨m, hm, t, ht, hr, hlive, hg, d, hd, hdead, hd0⟩ := @Machine.reachable_of_run
    (fun m => ∃ t ∈ m.kernel.tasks, t.pml4 ≠ 0 ∧ t.dead = false ∧
      (∀ l ∈ m.kernel.tasks, l.isThread = false → l.pml4 ≠ 0 → l.pml4 = t.pml4 → l.dead = false) ∧
      ∃ d ∈ m.kernel.tasks, d.dead = true ∧ d.pml4 ≠ 0) _ (fun _ => false)
    [.createUserTask 4096 Machine.smallElf, .createUserTask 4096 Machine.smallElf, .exit 2]
    (by decide +kernel)
  obtain ⟨k', he, hmem⟩ := @reaper_spares_live (fun _ => false) _ _ _ _ hm.sound ht hlive hg
  exact ⟨m, k', t, d, hm, ht, hr, hd, hdead, hd0, he, hmem⟩

end Kernel

end GenOS
