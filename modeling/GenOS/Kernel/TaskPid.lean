import GenOS.Kernel.TaskGroup

/-!
# Process identifiers

`task_publish` hands out `next_pid++`, 32 bits wide, and `task_fork` and `task_clone` return the
identifier as an `int32_t`. Identifiers are unambiguous along every run in which `next_pid` is free
and positive as a return value whenever a task is published.
-/

namespace GenOS.Sched

open Machine

variable {b : Boot} {s s' : Sched} {i : Nat}

/-- Identifiers are unambiguous in a state. -/
structure PidsOk (b : Boot) (s : Sched) : Prop where
  /-- The boot task stays, with identifier 0. -/
  boot : b.init ∈ s.list ∧ (s.mem b.init).pid = 0
  distinct : (s.list.map fun t => (s.mem t).pid).Nodup
  nonzero : ∀ t ∈ s.list, t ≠ b.init → (s.mem t).pid ≠ 0

/-- `task_fork` and `task_clone` name the task that they have published. -/
def ReturnsPid (s : Sched) (op : Op) (r : Sched × Int) : Prop :=
  match op with
  | .syscall _ (.fork _ _) => ∀ t, r.1.list = s.list ++ [t] → 0 < r.2 ∧ r.2 = (r.1.mem t).pid
  | .syscall _ (.clone _ _ _) => ∀ t, r.1.list = s.list ++ [t] → 0 < r.2 ∧ r.2 = (r.1.mem t).pid
  | _ => True

/-- The identifier about to be handed out is not 0 and not in use, and for `task_fork` and
`task_clone` it is also positive as an `int32_t`. -/
def PidFree (s : Sched) (op : Op) : Prop :=
  s.Publishes op → s.nextPid ≠ 0 ∧ (∀ t ∈ s.list, (s.mem t).pid ≠ s.nextPid) ∧
    match op with
    | .syscall _ (.fork _ _) => s.nextPid < 2147483648
    | .syscall _ (.clone _ _ _) => s.nextPid < 2147483648
    | _ => True

/-! ## The invariant -/

/-- The task table as identifiers see it. -/
theorem PidsOk.of_pids (h : PidsOk b s) (hl : s'.list = s.list)
    (hp : ∀ t, (s'.mem t).pid = (s.mem t).pid) : PidsOk b s' where
  boot := by rw [hl, hp]; exact h.boot
  distinct := by simp only [hl, hp]; exact h.distinct
  nonzero := by simp only [hl, hp]; exact h.nonzero

theorem PidsOk.published (h : PidsOk b s) {a : Nat} (hf : a ∉ s.list) (hp : Published s s' a)
    (h0 : s.nextPid ≠ 0) (hn : ∀ t ∈ s.list, (s.mem t).pid ≠ s.nextPid) : PidsOk b s' := by
  have hpid : ∀ t ∈ s.list, (s'.mem t).pid = (s.mem t).pid := by
    intro t ht
    obtain ⟨n, e⟩ := hp.others t (fun e => hf (e ▸ ht))
    rw [e]
  refine ⟨?_, ?_, fun t ht hne => ?_⟩
  · rw [hp.list, hpid _ h.boot.1]
    exact ⟨List.mem_append_left _ h.boot.1, h.boot.2⟩
  · rw [hp.list, List.map_append, List.map_congr_left hpid]
    refine List.nodup_append.mpr ⟨h.distinct, List.nodup_singleton _, ?_⟩
    intro x hx y hy e
    obtain ⟨t, ht, rfl⟩ := List.mem_map.mp hx
    rw [List.map_singleton, List.mem_singleton, hp.pid] at hy
    exact hn t ht (e.trans hy)
  · rw [hp.list] at ht
    rcases List.mem_append.mp ht with ht | ht
    · rw [hpid t ht]
      exact h.nonzero t ht hne
    · rw [List.mem_singleton.mp ht, hp.pid]
      exact h0

theorem PidsOk.reaped (h : PidsOk b s) (hr : Reaped s s') : PidsOk b s' := by
  refine ⟨⟨?_, hr.pid _ ▸ h.boot.2⟩, ?_, fun t ht hne => ?_⟩
  · by_contra hn
    exact (hr.gone _ h.boot.1 hn).2 h.boot.2
  · simp only [hr.pid]
    exact h.distinct.sublist (hr.list.map _)
  · rw [hr.pid]
    exact h.nonzero t (hr.list.subset ht) hne

theorem PidsOk.effect (h : PidsOk b s) (hp : Placed s) (he : Effect s s')
    (hfree : s.list.length < s'.list.length →
      s.nextPid ≠ 0 ∧ ∀ t ∈ s.list, (s.mem t).pid ≠ s.nextPid) : PidsOk b s' := by
  have hpub : ∀ {a}, a ∉ s.list → Published s s' a → PidsOk b s' := by
    intro a hf hpu
    obtain ⟨h0, hn⟩ := hfree (by rw [hpu.list]; simp)
    exact h.published hf hpu h0 hn
  cases he with
  | none => exact h
  | tick n => exact h.of_pids rfl fun _ => rfl
  | cpu i hm => exact h.of_pids rfl fun _ => rfl
  | switch hph hc hi hn =>
    exact h.of_pids rfl fun t => (switch_same (hp.next_alive hi hn)).pid t
  | kernel hf _ _ _ _ hs => exact hpub hf (taskPublish_published hs)
  | process hf _ _ _ _ _ _ hs => exact hpub hf (placed_published hs)
  | thread hf _ _ _ _ _ _ _ _ hs => exact hpub hf (joined_published hs)
  | discard root => exact h.of_pids rfl fun _ => rfl
  | @setCpu t cpu ha =>
    refine h.of_pids rfl fun u => ?_
    rw [setTask_mem]
    split
    · next e => rw [e]
    · rfl
  | reap => exact h.reaped (taskReapDead_reaped hp.nodup)

theorem PidsOk.step {op : Op} {r : Sched × Int} (h : PidsOk b s) (hp : Placed s)
    (hs : s.Step op r) (hfree : s.PidFree op) : PidsOk b r.1 := by
  obtain ⟨s₁, h₁, he⟩ := hs.effect hp.reaper_alive
  refine (h.of_pids h₁.list h₁.pid).effect (hp.same h₁) he fun hlt => ?_
  rw [h₁.list] at hlt ⊢
  obtain ⟨h0, hn, _⟩ := hfree (hs.publishes hp hlt)
  rw [h₁.nextPid]
  exact ⟨h0, fun t ht => by rw [h₁.pid]; exact hn t ht⟩

/-! ## What the constructors return -/

theorem toInt32_pos {n : Nat} (h0 : n ≠ 0) (h : n < 2147483648) :
    0 < toInt32 n ∧ toInt32 n = n := by
  unfold toInt32
  rw [if_pos h]
  exact ⟨by omega, rfl⟩

/-- A published task's identifier, returned through 32 signed bits. -/
theorem returns_of_published {s₁ : Sched} {a t : Nat} (hp : Published s₁ s' a)
    (ht : s'.list = s₁.list ++ [t]) (h0 : s₁.nextPid ≠ 0) (h : s₁.nextPid < 2147483648) :
    0 < toInt32 s₁.nextPid ∧ toInt32 s₁.nextPid = (s'.mem t).pid := by
  have e : a = t := by
    rw [hp.list] at ht
    exact List.singleton_inj.mp (List.append_cancel_left ht)
  subst e
  rw [hp.pid]
  exact toInt32_pos h0 h

theorem Step.returnsPid {op : Op} {r : Sched × Int} (hp : Placed s) (hs : s.Step op r)
    (hfree : s.PidFree op) : ReturnsPid s op r := by
  cases hs with
  | @syscall i c call h hu hd hf =>
    have hm : Same s (s.taskMarkRunning c) := taskMarkRunning_same
    have hpub := Step.publishes hp (Step.syscall h hu hd hf)
    cases call with
    | fork ok al =>
      intro t ht
      obtain ⟨h0, _, hlt⟩ := hfree (hpub (by rw [ht]; simp))
      dsimp only [dispatch] at ht ⊢
      rw [← hm.list] at ht
      rcases taskFork_cases (s := s.taskMarkRunning c) (i := i) ok al
        (Alloc.Fresh.space_ne hf) with
        e | ⟨_, _, e⟩ | ⟨a, root, u, _, _, _, e, _, _, _, hst, -⟩ <;> rw [e] at ht ⊢
      · exact absurd ht (by simp)
      · exact absurd ht (by simp [withLog])
      · exact returns_of_published (placed_published hst) ht (hm.nextPid ▸ h0) (hm.nextPid ▸ hlt)
    | clone entry stackTop al =>
      intro t ht
      obtain ⟨h0, _, hlt⟩ := hfree (hpub (by rw [ht]; simp))
      dsimp only [dispatch] at ht ⊢
      rw [← hm.list] at ht
      rcases taskClone_cases (s := s.taskMarkRunning c) (i := i) entry stackTop al with
        e | ⟨c', leader, a, u, _, _, _, _, _, _, e, _, _, _, hst, -⟩ <;> rw [e] at ht ⊢
      · exact absurd ht (by simp)
      · exact returns_of_published (joined_published hst) ht (hm.nextPid ▸ h0) (hm.nextPid ▸ hlt)
    | exec => trivial
    | sleep => trivial
    | waitPid => trivial
    | nice => trivial
    | other => trivial
  | _ => trivial

/-! ## Runs -/

theorem taskInit_pidsOk (b : Boot) : PidsOk b (taskInit b) := by
  have hinit : ((taskInit b).mem b.init).pid = 0 := by rw [taskInit_mem_init]; rfl
  have hreaper : ((taskInit b).mem b.reaper).pid = 1 := by rw [taskInit_mem_reaper]; rfl
  refine ⟨⟨by simp [taskInit_list], hinit⟩, ?_, fun t ht hne => ?_⟩
  · simp [taskInit_list, hinit, hreaper]
  · rw [taskInit_list] at ht
    rcases List.mem_cons.mp ht with e | ht
    · exact absurd e hne
    · rw [List.mem_singleton.mp ht, hreaper]
      decide

/-- The counter is above every identifier in use, so one that is positive as an `int32_t` is
free. -/
theorem Grouped.pidFree (h : Grouped s) {op : Op} (h0 : s.nextPid ≠ 0)
    (hlt : s.Publishes op → s.nextPid < 2147483648) : s.PidFree op := by
  intro hp
  refine ⟨h0, fun t ht => (h.pid_lt t ht).ne, ?_⟩
  split
  · exact hlt hp
  · exact hlt hp
  · trivial

/-- Along a run with at most `2^31 - 2` calls of the constructors every identifier is free when it
is handed out. -/
theorem run_pidFree {ops : List Op} (h : Run Next (taskInit b) ops s)
    (hlt : constructs ops ≤ 2147483646) : Run (Restrict Next PidFree) (taskInit b) ops s := by
  suffices Grouped s ∧ Placed s ∧ Run (Restrict Next PidFree) (taskInit b) ops s from this.2.2
  induction h with
  | nil => exact ⟨taskInit_grouped b, taskInit_placed b, .nil⟩
  | @snoc l t u op hr ha ih =>
    obtain ⟨r, hs⟩ := id ha
    have e : constructs (l ++ [op]) = constructs l + if (alloc op).isSome then 1 else 0 := by
      simp [constructs, List.countP_append, List.countP_singleton]
    have hl : constructs l ≤ constructs (l ++ [op]) := by omega
    have hu := run_nextPid (hr.snoc ha) (by omega)
    have ht := run_nextPid hr (by omega)
    obtain ⟨hg, hp, hrun⟩ := ih (by omega)
    refine ⟨hg.step hp hs (by show u.nextPid ≠ 0; omega), hp.step hs,
      hrun.snoc ⟨ha, hg.pidFree (by omega) fun hpub => ?_⟩⟩
    rw [hpub.alloc] at e
    simp only [↓reduceIte] at e
    omega

/-- **Process identifiers are unambiguous** along every run whose publications find `next_pid` free:
the identifiers of the listed tasks are distinct and not 0 except for the boot task's, and
`task_fork` and `task_clone` return the identifier of the new task, a positive number. It is free
along every run in which the constructors are called at most `2^31 - 2` times. -/
theorem pids_unambiguous (b : Boot) :
    (∀ ops s, Run (Restrict Next PidFree) (taskInit b) ops s →
      PidsOk b s ∧ ∀ op r, s.Step op r → s.PidFree op → ReturnsPid s op r) ∧
    ∀ ops s, Run Next (taskInit b) ops s → constructs ops ≤ 2147483646 →
      Run (Restrict Next PidFree) (taskInit b) ops s := by
  refine ⟨fun ops s h => ?_, fun ops s h hlt => run_pidFree h hlt⟩
  have hi : PidsOk b s ∧ Placed s := by
    refine h.invariant (I := fun s => PidsOk b s ∧ Placed s)
      ⟨taskInit_pidsOk b, taskInit_placed b⟩ ?_
    intro s op t ⟨hs, hp⟩ ⟨⟨r, hstep⟩, hfree⟩
    exact ⟨hs.step hp hstep hfree, hp.step hstep⟩
  exact ⟨hi.1, fun _ _ hs hfree => hs.returnsPid hi.2 hfree⟩

/-- A process that runs on the first processor. -/
def smallProcess : Sched :=
  ((taskInit smallBoot).createUserTask 0 ⟨some 10, true, some 4096, true, 0⟩).1.interrupt 0

/-- It forks a child. -/
def forkOp : Op := .syscall 0 (.fork true ⟨some 11, true, some 8192, true, 0⟩)

def smallFork : Sched × Int :=
  (smallProcess.taskMarkRunning 10).taskFork 0 true ⟨some 11, true, some 8192, true, 0⟩

theorem pids_unambiguous_small :
    smallProcess.Step forkOp smallFork ∧ smallFork.1.list = [0, 1, 10, 11] ∧ smallFork.2 = 3 ∧
    ReturnsPid smallProcess forkOp smallFork ∧ PidsOk smallBoot smallFork.1 := by
  have h₁ : Run Next (taskInit smallBoot) [userOp 10 4096] _ :=
    .single (userOp_next (by decide) (by decide))
  have h₂ := h₁.append (interrupt_run (i := 0) (c := 0) ⟨by decide, by decide, by decide⟩)
  have hs : smallProcess.Step forkOp smallFork :=
    @Step.syscall _ 0 10 (.fork true ⟨some 11, true, some 8192, true, 0⟩)
      ⟨by decide, by decide, by decide⟩ (by decide) (by decide)
      ⟨fun _ h => Option.some.inj h ▸ by decide, fun _ h => Option.some.inj h ▸ by decide⟩
  have hfew := (pids_unambiguous smallBoot).2
  have hfork := hfew _ _ (h₂.snoc ⟨_, hs⟩) (by decide)
  have hfree : smallProcess.PidFree forkOp :=
    fun _ => ⟨by decide, by decide, show smallProcess.nextPid < 2147483648 by decide⟩
  exact ⟨hs, by decide, by decide,
    ((pids_unambiguous smallBoot).1 _ _ (hfew _ _ h₂ (by decide))).2 _ _ hs hfree,
    ((pids_unambiguous smallBoot).1 _ _ hfork).1⟩

/-! ## The counter wraps -/

/-- One processor. -/
def oneBoot : Boot := { smallBoot with cpuCount := 1, positive := Nat.one_pos }

/-- The processor idles, the reaper waits, and `n` is the next identifier. -/
structure Resting (n : Nat) (s : Sched) : Prop where
  list : s.list = [0, 1]
  cpu : s.cpus 0 = idleCpu 0
  cpuCount : s.cpuCount = 1
  nextPid : s.nextPid = n
  reaperTask : s.reaperTask = some 1
  boot : (s.mem 0).pid = 0 ∧ (s.mem 0).state = .running ∧ (s.mem 0).pml4 = 0
  reaper : (s.mem 1).pid = 1 ∧ (s.mem 1).state = .waiting ∧ (s.mem 1).waitTargetPid = 0 ∧
    (s.mem 1).pml4 = 0

variable {n : Nat}


/-- The worker is in state `st` while the processor's data is `p`. -/
structure Working (n : Nat) (p : Cpu) (boot st : TaskState) (s : Sched) : Prop where
  list : s.list = [0, 1, 2]
  cpu : s.cpus 0 = p
  cpuCount : s.cpuCount = 1
  nextPid : s.nextPid = n + 1
  reaperTask : s.reaperTask = some 1
  boot : (s.mem 0).pid = 0 ∧ (s.mem 0).state = boot ∧ (s.mem 0).pml4 = 0
  reaper : (s.mem 1).pid = 1 ∧ (s.mem 1).state = .waiting ∧ (s.mem 1).waitTargetPid = 0 ∧
    (s.mem 1).pml4 = 0
  worker : (s.mem 2).toIdent = { pid := n, tgid := n, entryPoint := 4096 } ∧
    (s.mem 2).state = st ∧ (s.mem 2).cpuId = 0 ∧ (s.mem 2).priority = 2

theorem Working.setCpu {p q : Cpu} {boot st : TaskState} (h : Working n p boot st s) :
    Working n q boot st (s.setCpu 0 q) :=
  { h with cpu := setCpu_cpus_self }

/-- `create_task` on the one processor, with the address that `kmalloc` returns. -/
def createOp (a : Nat) : Op := .createTask 0 4096 ⟨some a, true, none, true, 0⟩

/-- A kernel task is created, runs, returns and is reaped. -/
def workerOps : List Op :=
  [createOp 2, .enter 0, .schedule 0, .iret 0, .exit 0,
    .enter 0, .schedule 0, .iret 0, .entry 0, .reap]

theorem createOp_next {a : Nat} (ha : a ∉ s.list) (hi : (s.cpus 0).idleTask ≠ some a)
    (hc : s.cpuCount = 1) (hl : s.list ≠ []) : Next s (createOp a)
      (s.taskPublish a { taskAlloc 0 (elapsed s.ticks 0) with entryPoint := 4096 }) := by
  have hf : Alloc.Fresh ⟨some a, true, none, true, 0⟩ s := by
    refine ⟨fun b hb => ?_, nofun⟩
    cases hb
    refine ⟨ha, fun i hlt => ?_⟩
    rw [show i = 0 by omega]
    exact hi
  refine ⟨0, ?_⟩
  have e := Step.createTask (s := s) 0 4096 hf
  have hne : ¬ (4096 = 0 ∨ s.list = []) := not_or.mpr ⟨by decide, hl⟩
  simpa [createTask, hne, hl, createOp] using e

theorem Resting.create (h : Resting n s) (hn : n + 1 < 4294967296) :
    Working n (idleCpu 0) .running .ready
      (s.taskPublish 2 { taskAlloc 0 (elapsed s.ticks 0) with entryPoint := 4096 }) := by
  constructor
  · simp [h.list]
  · exact h.cpu
  · exact h.cpuCount
  · show (s.nextPid + 1) % 4294967296 = _
    rw [h.nextPid, Nat.mod_eq_of_lt hn]
  · exact h.reaperTask
  · simpa using h.boot
  · simpa using h.reaper
  · simp [taskAlloc, taskInitPriority, h.nextPid]

/-- Nobody sleeps, and the reaper has nothing to do. -/
theorem wakeTasks_eq (hs : ∀ t ∈ s.list, (s.mem t).state ≠ .sleeping)
    (hd : ∀ t ∈ s.list, (s.mem t).state = .dead → s.taskActive t = true) : s.wakeTasks = s := by
  have hf : (s.forTasks fun _ => wakeSleeper s.ticks) = s := by
    have hm : (s.forTasks fun _ => wakeSleeper s.ticks).mem = s.mem := by
      funext a
      rw [forTasks_mem]
      split
      · next ha => rw [wakeSleeper, if_neg fun h => hs a ha h.1]
      · rfl
    calc (s.forTasks fun _ => wakeSleeper s.ticks)
        = { s with mem := (s.forTasks fun _ => wakeSleeper s.ticks).mem } := rfl
      _ = s := by rw [hm]
  have hno : ¬ ∃ t ∈ s.list, (s.mem t).state = .dead ∧ ¬ s.taskActive t = true :=
    fun ⟨t, ht, h, hn⟩ => hn (hd t ht h)
  unfold wakeTasks
  dsimp only
  rw [hf]
  split
  · rfl
  · rw [if_neg fun h => hno h.1]

theorem effectivePriority_pos {t : Nat} (h : (s.mem t).priority = 2) :
    s.effectivePriority t > -1 := by
  unfold effectivePriority
  split
  · decide
  · rw [h]; decide

/-- The idle processor picks the worker. -/
theorem Working.start {p : Cpu} (h : Working n p .running .ready s) (hp : p.current = some 0)
    (hi : p.idleTask = some 0) (hr : p.retiring = none) (hn : n ≠ 0) :
    Working n { p with current := some 2, activeCr3 := 0 } .ready .running (s.schedule 0) := by
  obtain ⟨hb1, hb2, hb3⟩ := h.boot
  obtain ⟨hr1, hr2, hr3, hr4⟩ := h.reaper
  obtain ⟨hw1, hw2, hw3, hw4⟩ := h.worker
  have hw5 : (s.mem 2).pid = n := by rw [hw1]
  have hw6 : (s.mem 2).pml4 = 0 := by rw [hw1]
  have hw : s.wakeTasks = s := wakeTasks_eq (by simp [h.list, hb2, hr2, hw2])
    (by simp [h.list, hb2, hr2, hw2])
  have hpick : ∀ s₁ : Sched, s₁.list = [0, 1, 2] → s₁.cpus 0 = p → (s₁.mem 1).state = .waiting →
      s₁.mem 2 = s.mem 2 → s₁.pickBest 0 0 = some 2 := by
    intro s₁ h1 h2 h3 h4
    have h5 : s₁.effectivePriority 2 > -1 := effectivePriority_pos (by rw [h4, hw4])
    have h6 : s₁.eligible 0 2 = true := by simp [eligible, h2, hi, h4, hw5, hw3, hw2, hn]
    have h7 : s₁.eligible 0 1 = false := by simp [eligible, h3]
    have h8 : s₁.eligible 0 0 = false := by simp [eligible, h2, hi]
    simp [pickBest, scanOrder, h1, pickBetter, h6, h7, h8, h5]
  unfold schedule
  rw [h.cpu, hp, hi, hw]
  simp only [chargeQuantum, h.cpu, hi, ne_eq, not_true_eq_false, false_and, ↓reduceIte]
  rw [hpick _ ?_ ?_ ?_ ?_]
  · constructor
    · simp [switchTo, preempt, h.list, hb2]
    · simp [switchTo, preempt, h.cpu, hb2, hb1, hr, hw6, hi]
    · simp [switchTo, preempt, h.cpuCount, hb2]
    · simp [switchTo, preempt, h.nextPid, hb2]
    · simp [switchTo, preempt, h.reaperTask, hb2]
    · simp [switchTo, preempt, hb1, hb2, hb3]
    · simp [switchTo, preempt, hr1, hr2, hr3, hr4, hb2]
    · simp [switchTo, preempt, hw1, hw3, hw4, hb2]
  all_goals simp [preempt, h.list, h.cpu, hb2, hr2]

/-- A dead worker leaves the processor to the idle task. -/
theorem Working.stop {p : Cpu} (h : Working n p .ready .dead s) (hp : p.current = some 2)
    (hi : p.idleTask = some 0) (hn : n ≠ 0) :
    Working n { p with current := some 0, retiring := some 2, activeCr3 := 0 } .running .dead
      (s.schedule 0) := by
  obtain ⟨hb1, hb2, hb3⟩ := h.boot
  obtain ⟨hr1, hr2, hr3, hr4⟩ := h.reaper
  obtain ⟨hw1, hw2, hw3, hw4⟩ := h.worker
  have hw5 : (s.mem 2).pid = n := by rw [hw1]
  have ha : s.taskActive 2 = true :=
    taskActive_iff.mpr ⟨0, by simp [h.cpuCount], .inl (by rw [h.cpu, hp])⟩
  have hw : s.wakeTasks = s := wakeTasks_eq (by simp [h.list, hb2, hr2, hw2])
    (by simp [h.list, hb2, hr2, hw2, ha])
  have hpick : ∀ s₁ : Sched, s₁.list = [0, 1, 2] → s₁.cpus 0 = p → (s₁.mem 1).state = .waiting →
      (s₁.mem 2).state = .dead → s₁.pickBest 0 2 = none := by
    intro s₁ h1 h2 h3 h4
    have h6 : s₁.eligible 0 2 = false := by simp [eligible, h4]
    have h7 : s₁.eligible 0 1 = false := by simp [eligible, h3]
    have h8 : s₁.eligible 0 0 = false := by simp [eligible, h2, hi]
    simp [pickBest, scanOrder, h1, pickBetter, h6, h7, h8]
  unfold schedule
  rw [h.cpu, hp, hi, hw]
  simp only [chargeQuantum, h.cpu, hi, hw2, ne_eq, reduceCtorEq, and_false, ↓reduceIte]
  rw [hpick _ ?_ ?_ ?_ ?_]
  · constructor
    · simp [switchTo, preempt, h.list]
    · simp [switchTo, preempt, h.cpu, hb3, hw5, hi, hn]
    · simp [switchTo, preempt, h.cpuCount]
    · simp [switchTo, preempt, h.nextPid]
    · simp [switchTo, preempt, h.reaperTask]
    · simp [switchTo, preempt, hb1, hb3]
    · simp [switchTo, preempt, hr1, hr2, hr3, hr4]
    · simp [switchTo, preempt, hw1, hw3, hw4]
  all_goals simp [preempt, h.list, h.cpu, hr2]

theorem Working.exit {p : Cpu} (h : Working n p .ready .running s) (hn : n ≠ 0) :
    Working n p .ready .dead (s.exitCurrentTask 2) := by
  obtain ⟨hb1, hb2, hb3⟩ := h.boot
  obtain ⟨hr1, hr2, hr3, hr4⟩ := h.reaper
  obtain ⟨hw1, hw2, hw3, hw4⟩ := h.worker
  have hw5 : (s.mem 2).pid = n := by rw [hw1]
  have hn' : ¬ 0 = n := fun e => hn e.symm
  exact
    { list := h.list
      cpu := h.cpu
      cpuCount := h.cpuCount
      nextPid := h.nextPid
      reaperTask := h.reaperTask
      boot := by simp [exitCurrentTask, forTasks_mem, h.list, wakeWaiter, hb1, hb2, hb3]
      reaper := by
        simp [exitCurrentTask, forTasks_mem, h.list, wakeWaiter, hr1, hr2, hr3, hr4, hw5, hn']
      worker := by simp [exitCurrentTask, forTasks_mem, h.list, wakeWaiter, hw1, hw3, hw4] }

theorem Working.reap (h : Working n (idleCpu 0) .running .dead s) (hn : n ≠ 0) :
    Resting (n + 1) s.taskReapDead := by
  obtain ⟨hb1, hb2, hb3⟩ := h.boot
  obtain ⟨hr1, hr2, hr3, hr4⟩ := h.reaper
  obtain ⟨hw1, hw2, hw3, hw4⟩ := h.worker
  have hw5 : (s.mem 2).pid = n := by rw [hw1]
  have hw6 : (s.mem 2).pml4 = 0 := by rw [hw1]
  have hw7 : (s.mem 2).isThread = false := by rw [hw1]
  have ha : s.taskActive 2 = false := by
    rw [Bool.eq_false_iff, ne_eq, taskActive_iff]
    rintro ⟨i, hi, hc⟩
    rw [h.cpuCount] at hi
    rw [show i = 0 by omega, h.cpu] at hc
    rcases hc with hc | hc <;> simp [idleCpu] at hc
  have h0 : s.reapOne 0 = s := by simp [reapOne, hb2]
  have h1 : s.reapOne 1 = s := by simp [reapOne, hr2]
  have h2 : s.reapOne 2 = s.removeTask 2 := by simp [reapOne, hw2, ha, hw5, hn, hw6]
  have e : s.taskReapDead = s.removeTask 2 := by
    unfold taskReapDead
    rw [h.list]
    simp only [List.foldl_cons, List.foldl_nil, h0, h1, h2]
  have hl : s.list.erase 2 = [0, 1] := by rw [h.list]; rfl
  have hr : Removed s (s.removeTask 2) 2 := removeTask_removed
  obtain ⟨m0, e0⟩ := hr.task 0
  obtain ⟨m1, e1⟩ := hr.task 1
  rw [hl] at e0 e1
  rw [e]
  constructor
  · exact hr.list.trans hl
  · exact hr.cpus ▸ h.cpu
  · exact hr.cpuCount.trans h.cpuCount
  · exact hr.nextPid.trans h.nextPid
  · exact hr.reaperTask.trans h.reaperTask
  · simp [e0, wakeWaiter, hb1, hb2, hb3]
  · simp [e1, wakeWaiter, hr1, hr2, hr3, hr4, hw5, Ne.symm hn]

/-- The processor while it executes the worker. -/
def workerCpu (ph : Phase) : Cpu := { idleCpu 2 with idleTask := some 0, phase := ph }

/-- The one processor takes an interrupt. -/
theorem enter_next {p q : Cpu} {c : Nat} (hc : s.cpuCount = 1) (hp : s.cpus 0 = p)
    (hcur : p.current = some c) (hph : p.phase = .exec) (hret : p.retiring = none)
    (hq : { p with phase := .entered } = q) : Next s (.enter 0) (s.setCpu 0 q) := by
  subst hq
  have e := Step.enter (s := s) (i := 0) (c := c)
    ⟨by omega, by rw [hp, hcur], by rw [hp, hph]⟩
  rw [taskContextEnter_eq, setCpu_setCpu, setCpu_cpus_self, hp, ackRetiring_none hret] at e
  exact ⟨0, e⟩

/-- The scheduler runs on it, and it returns from the interrupt. -/
theorem pass_run {p q : Cpu} (hph : (s.cpus 0).phase = .entered) (hp : (s.schedule 0).cpus 0 = p)
    (hq : { p with stack := p.current, phase := .exec } = q) :
    Run Next s [.schedule 0, .iret 0] ((s.schedule 0).setCpu 0 q) := by
  subst hq
  have e := Step.iret (s := (s.schedule 0).leave 0) (i := 0) (by rw [leave, setCpu_cpus_self])
  rw [leave, setCpu_setCpu, setCpu_cpus_self, hp] at e
  exact .snoc (.single ⟨0, .schedule hph⟩) ⟨0, by rw [leave, hp]; exact e⟩

/-- One worker's life, from one identifier to the next. -/
theorem Resting.round (h : Resting n s) (h0 : n ≠ 0) (hn : n + 1 < 4294967296) :
    ∃ s', Run Next s workerOps s' ∧ Resting (n + 1) s' := by
  have h1 := h.create hn
  have h2 := h1.setCpu (q := { idleCpu 0 with phase := .entered })
  have h3 := h2.start rfl rfl rfl h0
  have h4 := h3.setCpu (q := workerCpu .exec)
  have h5 := h4.exit h0
  have h6 := h5.setCpu (q := workerCpu .entered)
  have h7 := h6.stop rfl rfl h0
  have h8 := h7.setCpu (q := { idleCpu 0 with retiring := some 2 })
  have h9 := h8.setCpu (q := idleCpu 0)
  refine ⟨_, ?_, h9.reap h0⟩
  have r1 : Run Next s [createOp 2] _ := .single (createOp_next (by simp [h.list])
    (by simp [h.cpu, idleCpu]) h.cpuCount (by simp [h.list]))
  have r2 :=
    r1.snoc (enter_next (q := { idleCpu 0 with phase := .entered }) h1.cpuCount h1.cpu rfl rfl rfl
    rfl)
  have r4 := r2.append (pass_run (q := workerCpu .exec) (congrArg Cpu.phase h2.cpu) h3.cpu rfl)
  have r5 := r4.snoc ⟨0, .exit (i := 0) (c := 2)
    ⟨by rw [h4.cpuCount]; decide, by rw [h4.cpu]; rfl, by rw [h4.cpu]; rfl⟩
    (.inr (by rw [h4.worker.1]; exact Nat.succ_ne_zero _)) (by rw [h4.reaperTask]; decide)⟩
  have r6 := r5.snoc (enter_next (q := workerCpu .entered) h5.cpuCount h5.cpu rfl rfl rfl rfl)
  have r8 := r6.append (pass_run (q := { idleCpu 0 with retiring := some 2 })
    (congrArg Cpu.phase h6.cpu) h7.cpu rfl)
  have r9 := r8.snoc ⟨0, .entry 0⟩
  rw [taskContextEnter_eq, h8.cpu] at r9
  exact r9.snoc ⟨0, .reap⟩

/-- Any number of workers, one after the other. -/
theorem Resting.rounds (h : Resting 2 s) : ∀ k, k + 2 < 4294967296 →
    ∃ s', Run Next s (List.replicate k workerOps).flatten s' ∧ Resting (k + 2) s'
  | 0, _ => ⟨s, .nil, h⟩
  | k + 1, hk => by
    obtain ⟨s₁, h₁, hr⟩ := h.rounds k (by omega)
    obtain ⟨s₂, h₂, hr₂⟩ := hr.round (by omega) (by omega)
    refine ⟨s₂, ?_, hr₂⟩
    rw [List.replicate_succ', List.flatten_concat]
    exact h₁.append h₂

theorem taskInit_resting : Resting 2 (taskInit oneBoot) := by
  constructor
  all_goals first | rfl | exact ⟨rfl, rfl, rfl⟩ | exact ⟨rfl, rfl, rfl, rfl⟩

/-- After 2^32 - 3 workers and one more task `next_pid` is 0, and the next task gets it. -/
theorem pids_wrap : ∃ s, Run Next (taskInit oneBoot)
      ((List.replicate 4294967293 workerOps).flatten ++ [createOp 2] ++ [createOp 3]) s ∧
    3 ∈ s.list ∧ 3 ≠ oneBoot.init ∧ (s.mem 3).pid = 0 := by
  obtain ⟨s, h, hr⟩ := taskInit_resting.rounds 4294967293 (by decide)
  have h1 := h.snoc (createOp_next (a := 2) (by simp [hr.list]) (by simp [hr.cpu, idleCpu])
    hr.cpuCount (by simp [hr.list]))
  generalize hs₁ :
    s.taskPublish 2 { taskAlloc 0 (elapsed s.ticks 0) with entryPoint := 4096 } = s₁ at h1
  have hl : s₁.list = [0, 1, 2] := by rw [← hs₁, taskPublish_list, hr.list]; rfl
  have hc : s₁.cpus 0 = idleCpu 0 := by rw [← hs₁]; exact hr.cpu
  have hn : s₁.nextPid = 0 := by
    rw [← hs₁]
    show (s.nextPid + 1) % 4294967296 = 0
    rw [hr.nextPid]
  have h2 := h1.snoc (createOp_next (a := 3) (by simp [hl]) (by simp [hc, idleCpu])
    (by rw [← hs₁]; exact hr.cpuCount) (by simp [hl]))
  refine ⟨_, h2, by simp, by decide, ?_⟩
  rw [taskPublish_mem_self]
  exact hn

end GenOS.Sched
