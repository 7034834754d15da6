import GenOS.Kernel.TaskSafety

/-!
# Waiting for a process

`wait_for_pid` blocks its caller until the target is dead or gone. A task that waits has its target
on the task list in every reachable state, and every way in which a target dies by its own exit or
by an abort, or disappears, wakes all who wait for it.
-/

namespace GenOS.Sched

open Machine

variable {b : Boot} {s s' : Sched} {i : Nat}

/-- Every waiting task waits for a listed one; the reaper "waits" for the boot task, which stays. -/
structure WaitsOk (b : Boot) (s : Sched) : Prop where
  boot : b.init ∈ s.list ∧ (s.mem b.init).pid = 0
  reaper : s.reaperTask = some b.reaper ∧ (s.mem b.reaper).waitTargetPid = 0 ∧
    (s.mem b.reaper).pid ≠ 0
  waits : ∀ w ∈ s.list, (s.mem w).state = .waiting →
    ∃ t ∈ s.list, (s.mem t).pid = (s.mem w).waitTargetPid
  idle : ∀ i d, (s.cpus i).idleTask = some d → (s.mem d).state ≠ .waiting

theorem Placed.reaper_not_mortal (h : Placed s) {r : Nat} (hr : s.reaperTask = some r) :
    ¬ s.Mortal r := by
  rintro (h4 | ⟨_, hne⟩)
  · exact h4 (h.reaper r hr).2.1
  · exact hne hr

theorem Placed.idle_not_mortal (h : Placed s) {d : Nat} (hd : (s.cpus i).idleTask = some d) :
    ¬ s.Mortal d := by
  obtain ⟨_, _, h4, he, _⟩ := h.idle i d hd
  rintro (hm | hm)
  · exact hm h4
  · exact hm.1 he

theorem WaitsOk.same (h : WaitsOk b s) (hp : Placed s) (hs : Same s s') : WaitsOk b s' where
  boot := by rw [hs.list, hs.pid]; exact h.boot
  reaper := by
    rw [hs.reaperTask, hs.pid]
    refine ⟨h.reaper.1, ?_, h.reaper.2.2⟩
    rcases hs.wait b.reaper with ⟨ht, _⟩ | ⟨hm, _⟩
    · exact ht.trans h.reaper.2.1
    · exact absurd hm (hp.reaper_not_mortal h.reaper.1)
  waits w hl hw := by
    rw [hs.list] at hl ⊢
    simp only [hs.pid]
    rcases hs.wait w with ⟨ht, hwait⟩ | ⟨_, t, htl, hpid⟩
    · rw [ht]
      rcases hwait hw with hw | hr
      · exact h.waits w hl hw
      · obtain rfl : b.reaper = w := Option.some.inj (h.reaper.1.symm.trans hr)
        exact ⟨b.init, h.boot.1, h.boot.2.trans h.reaper.2.1.symm⟩
    · exact ⟨t, htl, hpid⟩
  idle i d hd hw := by
    rw [hs.cpus] at hd
    rcases hs.wait d with ⟨_, hwait⟩ | ⟨hm, _⟩
    · rcases hwait hw with hw | hr
      · exact h.idle i d hd hw
      · obtain rfl : b.reaper = d := Option.some.inj (h.reaper.1.symm.trans hr)
        exact h.reaper.2.2 (hp.idle i _ hd).2.1
    · exact hp.idle_not_mortal hd hm

/-- The invariant only reads the list, the identifiers, the states and the targets. -/
theorem WaitsOk.congr (h : WaitsOk b s) (hl : s'.list = s.list) (hc : s'.cpus = s.cpus)
    (hr : s'.reaperTask = s.reaperTask) (ht : ∀ w, (s'.mem w).pid = (s.mem w).pid ∧
      (s'.mem w).state = (s.mem w).state ∧ (s'.mem w).waitTargetPid = (s.mem w).waitTargetPid) :
    WaitsOk b s' where
  boot := by rw [hl, (ht _).1]; exact h.boot
  reaper := by rw [hr, (ht _).1, (ht _).2.2]; exact h.reaper
  waits w := by
    simp only [hl, (ht _).1, (ht w).2.1, (ht w).2.2]
    exact h.waits w
  idle i d := by rw [hc, (ht d).2.1]; exact h.idle i d

theorem WaitsOk.setCpu (h : WaitsOk b s) {p : Cpu} (hp : p.idleTask = (s.cpus i).idleTask) :
    WaitsOk b (s.setCpu i p) :=
  { h with
    idle := by
      intro j d hd
      by_cases hj : j = i
      · subst hj
        rw [setCpu_cpus_self, hp] at hd
        exact h.idle j d hd
      · rw [setCpu_cpus_ne hj] at hd
        exact h.idle j d hd }

theorem WaitsOk.published (h : WaitsOk b s) (hpl : Placed s) {a : Nat} (hf : a ∉ s.list)
    (hi : ∀ i < s.cpuCount, (s.cpus i).idleTask ≠ some a) (hp : Published s s' a) :
    WaitsOk b s' := by
  have hmem : ∀ t ∈ s.list, ∃ n, s'.mem t = { s.mem t with threadCount := n } := fun t ht =>
    hp.others t fun e => hf (e ▸ ht)
  obtain ⟨n0, e0⟩ := hmem _ h.boot.1
  obtain ⟨n1, e1⟩ := hmem _ (hpl.reaper _ h.reaper.1).1
  refine ⟨?_, ?_, fun w hl hw => ?_, fun i d hd => ?_⟩
  · rw [hp.list, e0]
    exact ⟨List.mem_append_left _ h.boot.1, h.boot.2⟩
  · rw [hp.reaperTask, e1]
    exact h.reaper
  · rw [hp.list] at hl
    rcases List.mem_append.mp hl with hl | hl
    · obtain ⟨n, e⟩ := hmem w hl
      rw [e] at hw
      obtain ⟨t, ht, hpid⟩ := h.waits w hl hw
      obtain ⟨m, e'⟩ := hmem t ht
      exact ⟨t, hp.list ▸ List.mem_append_left _ ht, by rw [e', e]; exact hpid⟩
    · rw [List.mem_singleton.mp hl, hp.state] at hw
      cases hw
  · rw [hp.cpus] at hd
    obtain ⟨n, e⟩ := hp.others d fun e => hi i (hpl.idle i d hd).1 (e ▸ hd)
    rw [e]
    exact h.idle i d hd

/-- Who still waits after a removal waited for another identifier. -/
theorem Removed.waiting {t w : Nat} (h : Removed s s' t) (hl : w ∈ s'.list)
    (hw : (s'.mem w).state = .waiting) : w ∈ s.list ∧ (s.mem w).state = .waiting ∧
      (s'.mem w).waitTargetPid = (s.mem w).waitTargetPid ∧
      (s.mem w).waitTargetPid ≠ (s.mem t).pid := by
  rw [h.list] at hl
  obtain ⟨n, e⟩ := h.task w
  rw [if_pos hl] at e
  rw [e] at hw ⊢
  obtain ⟨h1, h2⟩ := (wakeWaiter_same _ _).2.2.2 hw
  exact ⟨List.mem_of_mem_erase hl, h1, (wakeWaiter_same _ _).2.2.1, h2⟩

theorem WaitsOk.removed (h : WaitsOk b s) (hpl : Placed s) {t : Nat}
    (hd : (s.mem t).state = .dead) (hp : (s.mem t).pid ≠ 0) (hr : Removed s s' t) :
    WaitsOk b s' := by
  have hb : b.init ≠ t := fun e => hp (e ▸ h.boot.2)
  have hrt : b.reaper ≠ t := fun e => (hpl.reaper _ h.reaper.1).2.2 (e ▸ hd)
  refine ⟨?_, ?_, fun w hl hw => ?_, fun i d hi hw => ?_⟩
  · rw [hr.list, hr.ident, List.mem_erase_of_ne hb]
    exact h.boot
  · rw [hr.reaperTask, hr.ident]
    refine ⟨h.reaper.1, ?_, h.reaper.2.2⟩
    obtain ⟨n, e⟩ := hr.task b.reaper
    rw [e]
    split
    · exact (wakeWaiter_same _ _).2.2.1.trans h.reaper.2.1
    · exact h.reaper.2.1
  · obtain ⟨hl, hw, ht, hne⟩ := hr.waiting hl hw
    obtain ⟨u, hu, hpid⟩ := h.waits w hl hw
    refine ⟨u, ?_, by rw [hr.ident, ht, hpid]⟩
    rw [hr.list]
    exact (List.mem_erase_of_ne fun e => hne (by rw [← hpid, e])).mpr hu
  · rw [hr.cpus] at hi
    obtain ⟨n, e⟩ := hr.task d
    rw [e] at hw
    split at hw
    · exact h.idle i d hi ((wakeWaiter_same _ _).2.2.2 hw).1
    · exact h.idle i d hi hw

theorem WaitsOk.reap (h : WaitsOk b s) (hp : Placed s) : WaitsOk b s.taskReapDead := by
  refine (taskReapDead_induct (P := fun s => WaitsOk b s ∧ Placed s) hp.nodup ⟨h, hp⟩ ?_).1
  intro s t ⟨h, hp⟩ _ _
  refine ⟨?_, hp.reapOne t⟩
  rcases reapOne_cases s t with ⟨hs, _⟩ | ⟨hd, _, hpid, _, e⟩
  · exact h.same hp hs
  · rw [e]
    exact h.removed hp hd hpid removeTask_removed

theorem WaitsOk.effect (h : WaitsOk b s) (hp : Placed s) (he : Effect s s') : WaitsOk b s' := by
  cases he with
  | none => exact h
  | tick n => exact { h with }
  | cpu i hm => exact h.setCpu hm.idleTask
  | @switch i c idle next hph hc hi hn =>
    have hs := switch_same (hp.next_alive hi hn)
    unfold leave switchTo
    dsimp only
    rw [setCpu_setCpu, setCpu_cpus_self]
    exact (h.same hp hs).setCpu rfl
  | kernel hf hi _ _ _ hs => exact h.published hp hf hi (taskPublish_published hs)
  | process hf hi _ _ _ _ _ hs => exact h.published hp hf hi (placed_published hs)
  | thread hf hi _ _ _ _ _ _ _ hs => exact h.published hp hf hi (joined_published hs)
  | discard root => exact { h with }
  | @setCpu t cpu ha =>
    refine h.congr rfl rfl rfl fun w => ?_
    rw [setTask_mem]
    split
    · next e => rw [e]; exact ⟨rfl, rfl, rfl⟩
    · exact ⟨rfl, rfl, rfl⟩
  | reap => exact h.reap hp

theorem WaitsOk.step {op : Op} {r : Sched × Int} (h : WaitsOk b s) (hp : Placed s)
    (hs : s.Step op r) : WaitsOk b r.1 := by
  obtain ⟨s₁, h₁, he⟩ := hs.effect hp.reaper_alive
  exact (h.same hp h₁).effect (hp.same h₁) he

theorem taskInit_waitsOk (b : Boot) : WaitsOk b (taskInit b) := by
  have hinit : ((taskInit b).mem b.init).pid = 0 := by rw [taskInit_mem_init]; rfl
  have hreaper : ((taskInit b).mem b.reaper).waitTargetPid = 0 := by rw [taskInit_mem_reaper]; rfl
  have hmem : b.init ∈ (taskInit b).list := by simp [taskInit_list]
  have hpid : ((taskInit b).mem b.reaper).pid ≠ 0 := by
    rw [taskInit_mem_reaper]
    exact Nat.one_ne_zero
  refine ⟨⟨hmem, hinit⟩, ⟨taskInit_reaperTask b, hreaper, hpid⟩, fun w hl hw => ?_,
    fun i d hd hw => ?_⟩
  · rw [taskInit_list] at hl
    rcases List.mem_cons.mp hl with rfl | hl
    · rw [taskInit_mem_init] at hw
      cases hw
    · rw [List.mem_singleton.mp hl]
      exact ⟨_, hmem, hinit.trans hreaper.symm⟩
  · rw [taskInit_cpus] at hd
    have hne : d ≠ b.reaper := by
      rcases bootTable_idle hd with ⟨_, e⟩ | ⟨_, _, e⟩
      · exact e ▸ b.reaper_ne.symm
      · exact e ▸ (b.apIdle_ne i).2
    rw [taskInit_mem_ne hne] at hw
    simp only [bootTable] at hw
    split at hw <;> cases hw

theorem Reaches.waitsOk (h : Reaches b s) : WaitsOk b s := by
  obtain ⟨ops, h⟩ := h
  exact (h.invariant (I := fun s => WaitsOk b s ∧ Placed s)
    ⟨taskInit_waitsOk b, taskInit_placed b⟩
    fun s _ t ⟨hs, hp⟩ ⟨r, ha⟩ => ⟨hs.step hp ha, hp.step ha⟩).1

/-! ## Who wakes whom -/

/-- What a step does for the tasks that wait. -/
structure Wakes (s : Sched) (op : Op) (s' : Sched) : Prop where
  /-- An exit leaves no waiter on the task that exits. -/
  exit : ∀ i c, op = .exit i → (s.cpus i).current = some c → (s'.mem c).state = .dead ∧
    ∀ w ∈ s'.list, (s'.mem w).state = .waiting → (s'.mem w).waitTargetPid ≠ (s.mem c).pid
  /-- An abort kills the group and leaves no waiter on any of it. -/
  abort : ∀ i c, op = .abort i → (s.cpus i).current = some c → (s.mem c).pml4 ≠ 0 →
    ∀ t ∈ s.list, (s.mem t).pml4 = (s.mem c).pml4 → (s'.mem t).state = .dead ∧
      ∀ w ∈ s'.list, (s'.mem w).state = .waiting →
        s'.taskFindByPid (s'.mem w).waitTargetPid ≠ some t
  /-- A removal leaves no waiter on the task that is gone. -/
  removed : ∀ t ∈ s.list, t ∉ s'.list →
    ∀ w ∈ s'.list, (s'.mem w).state = .waiting → (s'.mem w).waitTargetPid ≠ (s.mem t).pid

theorem exitCurrentTask_wakes {c w : Nat} (hl : w ∈ s.list)
    (hw : ((s.exitCurrentTask c).mem w).state = .waiting) :
    ((s.exitCurrentTask c).mem w).waitTargetPid ≠ (s.mem c).pid := by
  unfold exitCurrentTask at hw ⊢
  rw [forTasks_mem, setTask_list, if_pos hl] at hw ⊢
  rw [(wakeWaiter_same _ _).2.2.1]
  exact ((wakeWaiter_same _ _).2.2.2 hw).2

theorem exitCurrentTask_dead {c : Nat} : ((s.exitCurrentTask c).mem c).state = .dead := by
  unfold exitCurrentTask
  rw [forTasks_mem, setTask_mem_self]
  split
  · exact (wakeWaiter_same _ _).1.dead rfl
  · rfl

/-- The two loops of `task_abort_current_group`. -/
theorem taskAbortCurrentGroup_wakes {c t : Nat} (h4 : (s.mem c).pml4 ≠ 0) (ht : t ∈ s.list)
    (hg : (s.mem t).pml4 = (s.mem c).pml4) :
    ((s.taskAbortCurrentGroup c).mem t).state = .dead ∧ ∀ w ∈ s.list,
      ((s.taskAbortCurrentGroup c).mem w).state = .waiting →
      (s.taskAbortCurrentGroup c).taskFindByPid
        ((s.taskAbortCurrentGroup c).mem w).waitTargetPid ≠ some t := by
  unfold taskAbortCurrentGroup
  rw [if_neg h4]
  dsimp only
  have hdead : ((s.forTasks fun _ t =>
      if t.pml4 = (s.mem c).pml4 then { t with state := .dead } else t).mem t).state = .dead := by
    rw [forTasks_mem, if_pos ht, if_pos hg]
  generalize hs₁ : (s.forTasks fun _ t =>
    if t.pml4 = (s.mem c).pml4 then { t with state := .dead } else t) = s₁ at hdead
  have hl : s₁.list = s.list := by rw [← hs₁]; rfl
  generalize hs₂ :
    (s₁.forTasks fun _ w => if w.state = .waiting ∧ s₁.taskIsDead w.waitTargetPid then
    { w with state := .ready } else w) = s₂
  have hpid : ∀ w, (s₂.mem w).pid = (s₁.mem w).pid := by
    intro w
    rw [← hs₂, forTasks_mem]
    split
    · split <;> rfl
    · rfl
  have hl₂ : s₂.list = s₁.list := by rw [← hs₂]; rfl
  have hfind : ∀ p, s₂.taskFindByPid p = s₁.taskFindByPid p := by
    intro p
    unfold taskFindByPid
    simp only [hpid, hl₂]
  refine ⟨?_, fun w hwl hw hf => ?_⟩
  · rw [← hs₂, forTasks_mem, if_pos (hl ▸ ht), if_neg (fun h => by rw [hdead] at h; cases h.1)]
    exact hdead
  · -- a waiter whose target is found dead has been woken
    rw [← hs₂, forTasks_mem, if_pos (hl ▸ hwl)] at hw
    have hm : s₂.mem w = if (s₁.mem w).state = .waiting ∧
      s₁.taskIsDead (s₁.mem w).waitTargetPid then
        { s₁.mem w with state := .ready } else s₁.mem w := by
      rw [← hs₂, forTasks_mem, if_pos (hl ▸ hwl)]
    rw [hfind, hm] at hf
    split at hw
    · cases hw
    · next hn =>
      rw [if_neg hn] at hf
      refine hn ⟨hw, ?_⟩
      unfold taskIsDead
      rw [hf]
      exact decide_eq_true hdead

theorem reap_wakes (h : s.list.Nodup) {t w : Nat} (ht : t ∈ s.list) (hn : t ∉ s.taskReapDead.list)
    (hl : w ∈ s.taskReapDead.list) (hw : (s.taskReapDead.mem w).state = .waiting) :
    (s.taskReapDead.mem w).waitTargetPid ≠ (s.mem t).pid := by
  have hP := taskReapDead_induct (s := s) (P := fun s' => (∀ u, (s'.mem u).pid = (s.mem u).pid) ∧
    ∀ t ∈ s.list, t ∉ s'.list → ∀ w ∈ s'.list, (s'.mem w).state = .waiting →
      (s'.mem w).waitTargetPid ≠ (s.mem t).pid) h ⟨fun _ => rfl, fun _ h hn => absurd h hn⟩ ?_
  · exact hP.2 t ht hn w hl hw
  · intro s' u ⟨hpid, hs'⟩ _ _
    rcases reapOne_cases s' u with ⟨hs, hcalm⟩ | ⟨_, _, _, _, e⟩
    · refine ⟨fun v => (hs.pid v).trans (hpid v), fun t ht hn w hl hw => ?_⟩
      rw [hs.list] at hn hl
      have e := hcalm w hw
      rw [e] at hw ⊢
      exact hs' t ht hn w hl hw
    · rw [e]
      have hr : Removed s' (s'.removeTask u) u := removeTask_removed
      refine ⟨fun v => by rw [hr.ident]; exact hpid v, fun t ht hn w hl hw => ?_⟩
      obtain ⟨hl', hw', htgt, hne⟩ := hr.waiting hl hw
      rw [htgt]
      by_cases htu : t = u
      · rw [htu, ← hpid u]
        exact hne
      · rw [hr.list, List.mem_erase_of_ne htu] at hn
        exact hs' t ht hn w hl' hw'

theorem Effect.removed (hp : Placed s) (he : Effect s s') {t w : Nat} (ht : t ∈ s.list)
    (hn : t ∉ s'.list) (hl : w ∈ s'.list) (hw : (s'.mem w).state = .waiting) :
    (s'.mem w).waitTargetPid ≠ (s.mem t).pid := by
  have hpub : ∀ a, s'.list = s.list ++ [a] → False := fun a e =>
    hn (e ▸ List.mem_append_left _ ht)
  cases he with
  | none => exact absurd ht hn
  | tick n => exact absurd ht hn
  | cpu i hm => exact absurd ht hn
  | switch => exact absurd ht hn
  | kernel => exact (hpub _ rfl).elim
  | process => exact (hpub _ rfl).elim
  | thread => exact (hpub _ rfl).elim
  | discard root => exact absurd ht hn
  | setCpu ha => exact absurd ht hn
  | reap => exact reap_wakes hp.nodup ht hn hl hw

theorem Placed.wakes {op : Op} {r : Sched × Int} (h : Placed s) (hs : s.Step op r) :
    Wakes s op r.1 := by
  refine ⟨fun i c hop hc => ?_, fun i c hop hc h4 t ht hg => ?_, fun t ht hn w hl hw => ?_⟩
  · subst hop
    cases hs with
    | @exit _ c' hr hu hne =>
      obtain rfl : c' = c := Option.some.inj (hr.2.1.symm.trans hc)
      exact ⟨exitCurrentTask_dead, fun w hl hw => exitCurrentTask_wakes hl hw⟩
  · subst hop
    cases hs with
    | @abort _ c' hr =>
      obtain rfl : c' = c := Option.some.inj (hr.2.1.symm.trans hc)
      have hl : (s.taskAbortCurrentGroup c').list = s.list := taskAbortCurrentGroup_same.list
      obtain ⟨hd, hw⟩ := taskAbortCurrentGroup_wakes h4 ht hg
      exact ⟨hd, fun w hwl => hw w (hl ▸ hwl)⟩
  · obtain ⟨s₁, h₁, he⟩ := hs.effect h.reaper_alive
    rw [← h₁.pid t]
    exact he.removed (h.same h₁) (h₁.list ▸ ht) hn hl hw

/-- **No wake-up is lost.** In every reachable state every waiting task waits for a listed one, and
every exit, abort and removal leaves nobody waiting for the task that is gone. -/
theorem no_lost_wakeup (h : Reaches b s) :
    (∀ w, w ∈ s.list ∨ (∃ i, (s.cpus i).idleTask = some w) → (s.mem w).state = .waiting →
      ∃ t ∈ s.list, (s.mem t).pid = (s.mem w).waitTargetPid) ∧
    ∀ op r, s.Step op r → Wakes s op r.1 := by
  refine ⟨fun w hw hs => ?_, fun _ _ hs => h.placed.wakes hs⟩
  rcases hw with hl | ⟨i, hi⟩
  · exact h.waitsOk.waits w hl hs
  · exact absurd hs (h.waitsOk.idle i w hi)

/-- Two processes on the two processors of `smallBoot`; the first waits for the second. -/
def smallWait : Sched :=
  let s := ((taskInit smallBoot).createUserTask 0 ⟨some 10, true, some 4096, true, 0⟩).1
  let s := (s.createUserTask 0 ⟨some 11, true, some 8192, true, 0⟩).1
  let s := (s.interrupt 0).interrupt 1
  (s.taskMarkRunning 10).waitForPid 10 3

def smallWaitOps : List Op :=
  [userOp 10 4096] ++ [userOp 11 8192] ++ [.enter 0, .schedule 0, .iret 0] ++
    [.enter 1, .schedule 1, .iret 1] ++ [.syscall 0 (.waitPid 3)]

theorem smallWait_run : Run Next (taskInit smallBoot) smallWaitOps smallWait := by
  have h₁ : Run Next (taskInit smallBoot) [userOp 10 4096] _ :=
    .single (userOp_next (by decide) (by decide))
  have h₂ := h₁.snoc (@userOp_next _ 11 8192 (by decide) (by decide))
  have h₃ := h₂.append (interrupt_run (i := 0) (c := 0) ⟨by decide, by decide, by decide⟩)
  have h₄ := h₃.append (interrupt_run (i := 1) (c := 3) ⟨by decide, by decide, by decide⟩)
  exact h₄.snoc ⟨1, @Step.syscall _ 0 10 (.waitPid 3)
    ⟨by decide, by decide, by decide⟩ (by decide) (by decide) trivial⟩

/-- The second process exits, and the first is READY again. -/
theorem no_lost_wakeup_small :
    (smallWait.mem 10).state = .waiting ∧
    (∃ t ∈ smallWait.list, (smallWait.mem t).pid = (smallWait.mem 10).waitTargetPid) ∧
    Wakes smallWait (.exit 1) (smallWait.exitCurrentTask 11) ∧
    ((smallWait.exitCurrentTask 11).mem 10).state = .ready := by
  have h := no_lost_wakeup ⟨_, smallWait_run⟩
  exact ⟨by decide, h.1 10 (.inl (by decide)) (by decide),
    h.2 (.exit 1) _ (.exit (i := 1) (c := 11) ⟨by decide, by decide, by decide⟩ (by decide)
      (by decide)), by decide⟩

end GenOS.Sched
