import GenOS.Kernel.TaskStep

/-!
# What the operations of the scheduler change

Most of `task.c` only writes scheduling fields. `Same` says so once: the task list, the per-CPU data
and what names a task stay, and a dead task stays dead. A constructor adds one task at the end of
the list (`Published`), a turn of the reaper removes one (`reapOne_cases`).
-/

namespace GenOS.Sched

variable {s s' s'' : Sched} {a b c t : Nat} {i : Nat} {f : Nat → Task → Task} {u : Task}

/-! ## Stores -/

@[simp] theorem setTask_mem_self : (s.setTask a u).mem a = u := by simp [setTask]

@[simp] theorem setTask_mem_ne (h : b ≠ a) : (s.setTask a u).mem b = s.mem b := by
  simp [setTask, Function.update_of_ne h]

theorem setTask_mem : (s.setTask a u).mem b = if b = a then u else s.mem b := by
  by_cases h : b = a
  · subst h; simp
  · simp [h]

@[simp] theorem setTask_list : (s.setTask a u).list = s.list := rfl
@[simp] theorem setTask_cpus : (s.setTask a u).cpus = s.cpus := rfl
@[simp] theorem setTask_cpuCount : (s.setTask a u).cpuCount = s.cpuCount := rfl
@[simp] theorem setTask_nextPid : (s.setTask a u).nextPid = s.nextPid := rfl
@[simp] theorem setTask_reaperTask : (s.setTask a u).reaperTask = s.reaperTask := rfl
@[simp] theorem setTask_ticks : (s.setTask a u).ticks = s.ticks := rfl
@[simp] theorem setTask_log : (s.setTask a u).log = s.log := rfl

@[simp] theorem setCpu_cpus_self {p : Cpu} : (s.setCpu i p).cpus i = p := by simp [setCpu]

@[simp] theorem setCpu_cpus_ne {p : Cpu} {j : Nat} (h : j ≠ i) :
    (s.setCpu i p).cpus j = s.cpus j := by
  simp [setCpu, Function.update_of_ne h]

@[simp] theorem setCpu_mem {p : Cpu} : (s.setCpu i p).mem = s.mem := rfl
@[simp] theorem setCpu_list {p : Cpu} : (s.setCpu i p).list = s.list := rfl
@[simp] theorem setCpu_cpuCount {p : Cpu} : (s.setCpu i p).cpuCount = s.cpuCount := rfl
@[simp] theorem setCpu_nextPid {p : Cpu} : (s.setCpu i p).nextPid = s.nextPid := rfl
@[simp] theorem setCpu_reaperTask {p : Cpu} : (s.setCpu i p).reaperTask = s.reaperTask := rfl
@[simp] theorem setCpu_ticks {p : Cpu} : (s.setCpu i p).ticks = s.ticks := rfl
@[simp] theorem setCpu_log {p : Cpu} : (s.setCpu i p).log = s.log := rfl

theorem forTasks_mem : (s.forTasks f).mem a = if a ∈ s.list then f a (s.mem a) else s.mem a := rfl
@[simp] theorem forTasks_list : (s.forTasks f).list = s.list := rfl
@[simp] theorem forTasks_cpus : (s.forTasks f).cpus = s.cpus := rfl
@[simp] theorem forTasks_cpuCount : (s.forTasks f).cpuCount = s.cpuCount := rfl
@[simp] theorem forTasks_nextPid : (s.forTasks f).nextPid = s.nextPid := rfl
@[simp] theorem forTasks_reaperTask : (s.forTasks f).reaperTask = s.reaperTask := rfl
@[simp] theorem forTasks_ticks : (s.forTasks f).ticks = s.ticks := rfl
@[simp] theorem forTasks_log : (s.forTasks f).log = s.log := rfl

/-! ## Task lookup and activity -/

theorem taskFindByPid_some {p : Nat} (h : s.taskFindByPid p = some t) :
    t ∈ s.list ∧ (s.mem t).pid = p := by
  unfold taskFindByPid at h
  exact ⟨List.mem_of_find?_eq_some h, by simpa using List.find?_some h⟩

theorem taskFindByPid_none {p : Nat} (h : s.taskFindByPid p = none) :
    ∀ t ∈ s.list, (s.mem t).pid ≠ p := by
  unfold taskFindByPid at h
  simpa using h

theorem taskActive_iff : s.taskActive t = true ↔
    ∃ i < s.cpuCount, (s.cpus i).current = some t ∨ (s.cpus i).retiring = some t := by
  simp [taskActive]

/-! ## The frame of the state changes -/

/-- `u'` is `u` in another scheduling state. -/
structure SameTask (u u' : Task) : Prop where
  ident : u'.toIdent = u.toIdent
  cpuId : u'.cpuId = u.cpuId
  threadCount : u'.threadCount = u.threadCount
  dead : u.state = .dead → u'.state = .dead

/-- A user task, or a kernel task whose body returns. -/
def Mortal (s : Sched) (t : Nat) : Prop :=
  (s.mem t).pml4 ≠ 0 ∨ (s.mem t).entryPoint ≠ 0 ∧ s.reaperTask ≠ some t

/-- `u'` may replace `w`: it does not wait unless `w` did or is the reaper, or its target is
listed. -/
def WaitFrame (s : Sched) (w : Nat) (u' : Task) : Prop :=
  u'.waitTargetPid = (s.mem w).waitTargetPid ∧
    (u'.state = .waiting → (s.mem w).state = .waiting ∨ s.reaperTask = some w) ∨
  s.Mortal w ∧ ∃ t ∈ s.list, (s.mem t).pid = u'.waitTargetPid

/-- `s'` differs from `s` in the scheduling fields of tasks only, only a mortal task dies, and who
starts to wait has a target. -/
structure Same (s s' : Sched) : Prop where
  list : s'.list = s.list
  cpus : s'.cpus = s.cpus
  cpuCount : s'.cpuCount = s.cpuCount
  nextPid : s'.nextPid = s.nextPid
  reaperTask : s'.reaperTask = s.reaperTask
  ticks : s'.ticks = s.ticks
  log : s'.log = s.log
  task : ∀ a, SameTask (s.mem a) (s'.mem a)
  kills : ∀ a, (s'.mem a).state = .dead → (s.mem a).state = .dead ∨ s.Mortal a
  wait : ∀ a, s.WaitFrame a (s'.mem a)

theorem SameTask.refl (u : Task) : SameTask u u := ⟨rfl, rfl, rfl, id⟩

theorem WaitFrame.refl (a : Nat) : s.WaitFrame a (s.mem a) := .inl ⟨rfl, .inl⟩

theorem Same.refl (s : Sched) : Same s s :=
  ⟨rfl, rfl, rfl, rfl, rfl, rfl, rfl, fun _ => .refl _, fun _ => .inl, WaitFrame.refl⟩

theorem Same.mortal (h : Same s s') (a : Nat) : s'.Mortal a ↔ s.Mortal a := by
  unfold Mortal
  rw [(h.task a).ident, h.reaperTask]

theorem Same.pid (h : Same s s') (a : Nat) : (s'.mem a).pid = (s.mem a).pid := by
  rw [(h.task a).ident]

theorem Same.trans (h : Same s s') (h' : Same s' s'') : Same s s'' where
  list := h'.list.trans h.list
  cpus := h'.cpus.trans h.cpus
  cpuCount := h'.cpuCount.trans h.cpuCount
  nextPid := h'.nextPid.trans h.nextPid
  reaperTask := h'.reaperTask.trans h.reaperTask
  ticks := h'.ticks.trans h.ticks
  log := h'.log.trans h.log
  task a :=
    { ident := (h'.task a).ident.trans (h.task a).ident
      cpuId := (h'.task a).cpuId.trans (h.task a).cpuId
      threadCount := (h'.task a).threadCount.trans (h.task a).threadCount
      dead := fun hd => (h'.task a).dead ((h.task a).dead hd) }
  kills a hd := by
    rcases h'.kills a hd with hd | hm
    · exact h.kills a hd
    · exact .inr ((h.mortal a).mp hm)
  wait a := by
    rcases h'.wait a with ⟨ht, hw⟩ | ⟨hm, t, hl, hp⟩
    · rcases h.wait a with ⟨ht', hw'⟩ | ⟨hm', t, hl, hp⟩
      · refine .inl ⟨ht.trans ht', fun hs => ?_⟩
        rcases hw hs with hs | hr
        · exact hw' hs
        · exact .inr (h.reaperTask ▸ hr)
      · exact .inr ⟨hm', t, hl, hp.trans ht.symm⟩
    · exact .inr ⟨(h.mortal a).mp hm, t, h.list ▸ hl, (h.pid t).symm.trans hp⟩

theorem Same.pml4 (h : Same s s') (a : Nat) : (s'.mem a).pml4 = (s.mem a).pml4 := by
  rw [(h.task a).ident]

/-- A store of another scheduling state. -/
theorem same_setTask (h : SameTask (s.mem a) u)
    (hk : u.state = .dead → (s.mem a).state = .dead ∨ s.Mortal a) (hw : s.WaitFrame a u) :
    Same s (s.setTask a u) where
  list := rfl
  cpus := rfl
  cpuCount := rfl
  nextPid := rfl
  reaperTask := rfl
  ticks := rfl
  log := rfl
  task b := by
    by_cases hb : b = a
    · subst hb; simpa using h
    · simpa [hb] using .refl _
  kills b hd := by
    by_cases hb : b = a
    · subst hb; exact hk (by simpa using hd)
    · exact .inl (by simpa [hb] using hd)
  wait b := by
    by_cases hb : b = a
    · subst hb; simpa using hw
    · simpa [hb] using WaitFrame.refl b

/-- A loop that only changes scheduling states. -/
theorem same_forTasks (h : ∀ a ∈ s.list, SameTask (s.mem a) (f a (s.mem a)))
    (hk : ∀ a ∈ s.list, (f a (s.mem a)).state = .dead → (s.mem a).state = .dead ∨ s.Mortal a)
    (hw : ∀ a ∈ s.list, s.WaitFrame a (f a (s.mem a))) : Same s (s.forTasks f) where
  list := rfl
  cpus := rfl
  cpuCount := rfl
  nextPid := rfl
  reaperTask := rfl
  ticks := rfl
  log := rfl
  task b := by
    rw [forTasks_mem]
    split
    · exact h b ‹_›
    · exact .refl _
  kills b hd := by
    rw [forTasks_mem] at hd
    split at hd
    · exact hk b ‹_› hd
    · exact .inl hd
  wait b := by
    rw [forTasks_mem]
    split
    · exact hw b ‹_›
    · exact .refl b

theorem Same.taskFindByPid (h : Same s s') (p : Nat) : s'.taskFindByPid p = s.taskFindByPid p := by
  unfold Sched.taskFindByPid
  simp only [h.list, h.pid]

/-! ## Operations that only change states -/

theorem taskMarkRunning_same : Same s (s.taskMarkRunning c) := by
  unfold taskMarkRunning
  split
  · exact .refl s
  · exact same_setTask ⟨rfl, rfl, rfl, fun h => absurd h ‹_›⟩ nofun (.inl ⟨rfl, nofun⟩)

theorem sleepCurrentTask_same {w : Nat} (h : (s.mem c).state ≠ .dead) :
    Same s (s.sleepCurrentTask c w) :=
  same_setTask ⟨rfl, rfl, rfl, fun hd => absurd hd h⟩ nofun (.inl ⟨rfl, nofun⟩)

theorem waitForPid_same {p : Nat} (h : (s.mem c).state ≠ .dead) (hm : s.Mortal c) :
    Same s (s.waitForPid c p) := by
  unfold waitForPid
  split
  · exact .refl s
  · next t ht =>
    split
    · exact .refl s
    · exact same_setTask ⟨rfl, rfl, rfl, fun hd => absurd hd h⟩ nofun
        (.inr ⟨hm, t, taskFindByPid_some ht⟩)

theorem taskSetNice_same {v : Int} : Same s (s.taskSetNice c v) :=
  same_setTask ⟨rfl, rfl, rfl, id⟩ .inl (.inl ⟨rfl, .inl⟩)

theorem wakeWaiter_same (p : Nat) (w : Task) :
    SameTask w (wakeWaiter p w) ∧ ((wakeWaiter p w).state = .dead → w.state = .dead) ∧
      (wakeWaiter p w).waitTargetPid = w.waitTargetPid ∧
      ((wakeWaiter p w).state = .waiting → w.state = .waiting ∧ w.waitTargetPid ≠ p) := by
  unfold wakeWaiter
  split
  · next h => exact ⟨⟨rfl, rfl, rfl, fun hd => by simp [h.1] at hd⟩, nofun, rfl, nofun⟩
  · next h => exact ⟨.refl w, id, rfl, fun hw => ⟨hw, fun e => h ⟨hw, e⟩⟩⟩

theorem same_wakeWaiters (p : Nat) : Same s (s.forTasks fun _ => wakeWaiter p) :=
  same_forTasks (fun _ _ => (wakeWaiter_same p _).1)
    (fun _ _ h => .inl ((wakeWaiter_same p _).2.1 h))
    fun _ _ => .inl ⟨(wakeWaiter_same p _).2.2.1, fun h => .inl ((wakeWaiter_same p _).2.2.2 h).1⟩

theorem exitCurrentTask_same (h : s.Mortal c) : Same s (s.exitCurrentTask c) :=
  (same_setTask (a := c) (u := { s.mem c with state := .dead }) ⟨rfl, rfl, rfl, fun _ => rfl⟩
    (fun _ => .inr h) (.inl ⟨rfl, nofun⟩)).trans (same_wakeWaiters _)

/-- Marking of tasks of one address space as dead. -/
theorem same_kill {q : Nat → Task → Prop} [∀ a t, Decidable (q a t)]
    (hq : ∀ a ∈ s.list, q a (s.mem a) → (s.mem a).pml4 ≠ 0) :
    Same s (s.forTasks fun a t => if q a t then { t with state := .dead } else t) := by
  apply same_forTasks
  · intro a _
    split
    · exact ⟨rfl, rfl, rfl, fun _ => rfl⟩
    · exact .refl _
  · intro a ha hd
    split at hd
    · next h => exact .inr (.inl (hq a ha h))
    · exact .inl hd
  · intro a _
    split
    · exact .inl ⟨rfl, nofun⟩
    · exact .refl a

theorem taskAbortCurrentGroup_same : Same s (s.taskAbortCurrentGroup c) := by
  unfold taskAbortCurrentGroup
  split
  · exact .refl s
  · next h0 =>
    refine (same_kill fun a _ h => by rw [h]; exact h0).trans (same_forTasks ?_ ?_ ?_)
    · intro a _
      split
      · next h => exact ⟨rfl, rfl, rfl, fun hd => by rw [h.1] at hd; cases hd⟩
      · exact .refl _
    · intro a _ hd
      split at hd
      · cases hd
      · exact .inl hd
    · intro a _
      split
      · exact .inl ⟨rfl, nofun⟩
      · exact .refl a

theorem wakeSleeper_same (now : Nat) (u : Task) :
    SameTask u (wakeSleeper now u) ∧ ((wakeSleeper now u).state = .dead → u.state = .dead) ∧
      (wakeSleeper now u).waitTargetPid = u.waitTargetPid ∧
      ((wakeSleeper now u).state = .waiting → u.state = .waiting) := by
  unfold wakeSleeper
  split
  · next h => exact ⟨⟨rfl, rfl, rfl, fun hd => by simp [h.1] at hd⟩, nofun, rfl, nofun⟩
  · exact ⟨.refl u, id, rfl, id⟩

theorem wakeTasks_same : Same s s.wakeTasks := by
  have h : Same s (s.forTasks fun _ => wakeSleeper s.ticks) :=
    same_forTasks (fun _ _ => (wakeSleeper_same _ _).1)
      (fun _ _ h => .inl ((wakeSleeper_same _ _).2.1 h))
      fun _ _ => .inl ⟨(wakeSleeper_same _ _).2.2.1, fun h => .inl ((wakeSleeper_same _ _).2.2.2 h)⟩
  unfold wakeTasks
  dsimp only
  split
  · exact h
  · split
    · next hr =>
      exact h.trans (same_setTask ⟨rfl, rfl, rfl, fun hd => by rw [hr.2] at hd; cases hd⟩ nofun
        (.inl ⟨rfl, nofun⟩))
    · exact h

theorem chargeQuantum_same : Same s (s.chargeQuantum i c).1 := by
  unfold chargeQuantum
  dsimp only
  split
  · exact same_setTask ⟨rfl, rfl, rfl, id⟩ .inl (.inl ⟨rfl, .inl⟩)
  · exact same_setTask ⟨rfl, rfl, rfl, id⟩ .inl (.inl ⟨rfl, .inl⟩)

theorem preempt_same : Same s (s.preempt c) := by
  unfold preempt
  split
  · next h =>
    exact same_setTask ⟨rfl, rfl, rfl, fun hd => by rw [h] at hd; cases hd⟩ nofun
      (.inl ⟨rfl, nofun⟩)
  · exact .refl s

/-! ## Publication -/

theorem elapsed_zero {n : Nat} (h : n < 18446744073709551616) : elapsed n 0 = n := by
  unfold elapsed
  omega

/-- `s'` is `s` with a new task at `a`; of the other tasks only a thread count differs. -/
structure Published (s s' : Sched) (a : Nat) : Prop where
  list : s'.list = s.list ++ [a]
  cpus : s'.cpus = s.cpus
  cpuCount : s'.cpuCount = s.cpuCount
  nextPid : s'.nextPid = (s.nextPid + 1) % 4294967296
  reaperTask : s'.reaperTask = s.reaperTask
  ticks : s'.ticks = s.ticks
  pid : (s'.mem a).pid = s.nextPid
  state : (s'.mem a).state = .ready
  others : ∀ b, b ≠ a → ∃ n, s'.mem b = { s.mem b with threadCount := n }

@[simp] theorem taskPublish_mem_self : (s.taskPublish a u).mem a =
    { u with pid := s.nextPid, tgid := if u.isThread then u.tgid else s.nextPid } := by
  simp [taskPublish]

@[simp] theorem taskPublish_mem_ne (h : b ≠ a) : (s.taskPublish a u).mem b = s.mem b := by
  simp [taskPublish, h]

@[simp] theorem taskPublish_list : (s.taskPublish a u).list = s.list ++ [a] := rfl
@[simp] theorem taskPublish_log : (s.taskPublish a u).log = s.log := rfl

theorem taskPublish_published (hu : u.state = .ready) :
    Published s (s.taskPublish a u) a where
  list := rfl
  cpus := rfl
  cpuCount := rfl
  nextPid := rfl
  reaperTask := rfl
  ticks := rfl
  pid := by simp
  state := by simpa using hu
  others b hb := ⟨(s.mem b).threadCount, by simp [hb]⟩

/-- The allocations of a kernel task or a thread succeed. -/
def Alloc.TaskOk (al : Alloc) : Prop := al.task.isSome = true ∧ al.stack = true

/-- The allocations of a process succeed. -/
def Alloc.SpaceOk (al : Alloc) : Prop := al.TaskOk ∧ al.space.isSome = true ∧ al.copied = true

/-- `create_task` does nothing, or publishes a kernel task. -/
theorem createTask_cases (entry : Nat) (al : Alloc) :
    (s.createTask i entry al = (s, none)) ∨
    ∃ a, al.task = some a ∧ (entry ≠ 0 ∧ s.list ≠ [] ∧ al.TaskOk) ∧ s.createTask i entry al =
      (s.taskPublish a { taskAlloc i (elapsed s.ticks al.delay) with entryPoint := entry },
        some a) := by
  unfold createTask
  split
  · exact .inl rfl
  · next h =>
    cases hk : al.task with
    | none => exact .inl rfl
    | some a =>
      dsimp only
      split
      · exact .inl rfl
      · next hs =>
        rw [not_or] at h
        exact .inr ⟨a, rfl, ⟨h.1, h.2, by simp [hk], by simpa using hs⟩, rfl⟩

theorem createTaskOnCpu_cases (entry cpu : Nat) (al : Alloc) :
    (s.createTaskOnCpu i entry cpu al = (s, none)) ∨
    ∃ a, al.task = some a ∧ (cpu < s.cpuCount ∧ (s.cpus cpu).idleTask ≠ none ∧ entry ≠ 0 ∧
        s.list ≠ [] ∧ al.TaskOk) ∧ s.createTaskOnCpu i entry cpu al =
      ((s.taskPublish a { taskAlloc i (elapsed s.ticks al.delay) with entryPoint := entry }).setTask
        a
        {
          (s.taskPublish a { taskAlloc i (elapsed s.ticks al.delay) with entryPoint := entry }).mem
            a with
          cpuId := cpu }, some a) := by
  unfold createTaskOnCpu
  split
  · exact .inl rfl
  · next hcpu =>
    rw [not_or, Nat.not_le] at hcpu
    rcases createTask_cases entry al with h | ⟨a, ha, hok, h⟩
    · exact .inl (by rw [h])
    · exact .inr ⟨a, ha, ⟨hcpu.1, hcpu.2, hok⟩, by rw [h]⟩

/-- The state after a failed constructor: only the log of address spaces has grown. -/
def withLog (s : Sched) (log : List SpaceEvent) : Sched := { s with log := log }

/-- A process that could not be completed: its address space comes and goes. -/
def discardLog (root : Nat) (log : List SpaceEvent) : List SpaceEvent :=
  (if root = 0 then [] else [.destroy root]) ++ [.memoryRelease root, .shmCleanup root] ++
    (if root = 0 then [] else [.create root]) ++ log

/-- `s` ready for the publication of a process with its own address space. -/
def placed (s : Sched) (root : Nat) : Sched :=
  let s := s.withLog (.create root :: s.log)
  { s with placementCursor := s.placementCpu.2 }

theorem createUserTask_cases (al : Alloc) (hr : al.space ≠ some 0) :
    (s.createUserTask i al = (s, none)) ∨
    (∃ root, (root ≠ 0 → al.space = some root) ∧
      s.createUserTask i al = (s.withLog (discardLog root s.log), none)) ∨
    ∃ a root u, al.task = some a ∧ al.space = some root ∧ al.SpaceOk ∧
      s.createUserTask i al = ((s.placed root).taskPublish a u, some a) ∧
      u.pml4 = root ∧ u.isThread = false ∧ u.threadCount = 1 ∧ u.state = .ready ∧
      u.readySince = elapsed s.ticks al.delay := by
  unfold createUserTask
  cases hk : al.task with
  | none => exact .inl rfl
  | some a =>
    dsimp only
    split
    · exact .inl rfl
    · next hst =>
      cases hsp : al.space with
      | none => exact .inr (.inl ⟨0, fun h => absurd rfl h, rfl⟩)
      | some root =>
        have h0 : root ≠ 0 := fun h => hr (by rw [hsp, h])
        dsimp only
        split
        · exact .inr (.inl ⟨root, fun _ => rfl, by simp [releaseSpace, withLog, discardLog, h0]⟩)
        · next hcp =>
          have hok : al.SpaceOk :=
            ⟨⟨by simp [hk], by simpa using hst⟩, by simp [hsp], by simpa using hcp⟩
          refine .inr (.inr ⟨a, root, _, rfl, rfl, hok, rfl, ?_⟩)
          split <;> exact ⟨rfl, rfl, rfl, rfl, rfl⟩

theorem taskFork_cases (ok : Bool) (al : Alloc) (hr : al.space ≠ some 0) :
    (s.taskFork i ok al = (s, -1)) ∨
    (∃ root, (root ≠ 0 → al.space = some root) ∧
      s.taskFork i ok al = (s.withLog (discardLog root s.log), -1)) ∨
    ∃ a root u, al.task = some a ∧ al.space = some root ∧ (ok = true ∧ al.SpaceOk) ∧
      s.taskFork i ok al = ((s.placed root).taskPublish a u, toInt32 s.nextPid) ∧
      u.pml4 = root ∧ u.isThread = false ∧ u.threadCount = 1 ∧ u.state = .ready ∧
      u.readySince = elapsed s.ticks al.delay := by
  unfold taskFork
  cases hc : (s.cpus i).current with
  | none => exact .inl rfl
  | some c =>
    dsimp only
    split
    · exact .inl rfl
    · next hfr =>
      cases hk : al.task with
      | none => exact .inl rfl
      | some a =>
        dsimp only
        split
        · exact .inl rfl
        · next hst =>
          cases hsp : al.space with
          | none => exact .inr (.inl ⟨0, fun h => absurd rfl h, rfl⟩)
          | some root =>
            have h0 : root ≠ 0 := fun h => hr (by rw [hsp, h])
            dsimp only
            split
            · exact .inr
                (.inl ⟨root, fun _ => rfl, by simp [releaseSpace, withLog, discardLog, h0]⟩)
            · next hcp =>
              rw [not_or] at hfr
              have hok : ok = true ∧ al.SpaceOk := ⟨by simpa using hfr.1,
                ⟨by simp [hk], by simpa using hst⟩, by simp [hsp], by simpa using hcp⟩
              exact .inr (.inr ⟨a, root, _, rfl, rfl, hok, by rw [taskPublish_mem_self]; rfl, rfl,
                rfl, rfl, rfl, rfl⟩)

/-- `s` ready for the publication of a thread of `leader`. -/
def joined (s : Sched) (leader : Nat) : Sched :=
  let s := s.setTask leader { s.mem leader with
    threadCount := ((s.mem leader).threadCount + 1) % 4294967296 }
  { s with placementCursor := s.placementCpu.2 }

/-- The task that `task_clone` publishes. -/
def newThread (s : Sched) (i c leader delay : Nat) : Task :=
  { inheritPriority { taskAlloc i (elapsed s.ticks delay) with
      tgid := (s.mem c).tgid, isThread := true, threadCount := 0,
      pml4 := (s.mem c).pml4 } (s.mem c) with
    cpuId := (s.setTask leader { s.mem leader with
      threadCount := ((s.mem leader).threadCount + 1) % 4294967296 }).placementCpu.1 }

theorem taskClone_cases (entry stackTop : Nat) (al : Alloc) :
    (s.taskClone i entry stackTop al = (s, -1)) ∨
    ∃ c leader a u, (s.cpus i).current = some c ∧ (s.mem c).pml4 ≠ 0 ∧
      s.taskFindByPid (s.mem c).tgid = some leader ∧ (s.mem leader).state ≠ .dead ∧
      al.task = some a ∧ (entry ≠ 0 ∧ entry < 0x800000000000 ∧ 4096 ≤ stackTop ∧
        stackTop < 0x800000000000 ∧ al.TaskOk) ∧
      s.taskClone i entry stackTop al = ((s.joined leader).taskPublish a u, toInt32 s.nextPid) ∧
      u.pml4 = (s.mem c).pml4 ∧ u.tgid = (s.mem c).tgid ∧ u.isThread = true ∧
      u.state = .ready ∧ u.readySince = elapsed s.ticks al.delay := by
  unfold taskClone
  cases hc : (s.cpus i).current with
  | none => exact .inl rfl
  | some c =>
    dsimp only
    split
    · exact .inl rfl
    · next h4 =>
      cases hl : s.taskFindByPid (s.mem c).tgid with
      | none => exact .inl rfl
      | some leader =>
        dsimp only
        split
        · exact .inl rfl
        · next hd =>
          split
          · exact .inl rfl
          · next harg =>
            cases hk : al.task with
            | none => exact .inl rfl
            | some a =>
              dsimp only
              split
              · exact .inl rfl
              · next hst =>
                simp only [not_or, Nat.not_le, Nat.not_lt] at harg
                refine .inr ⟨c, leader, a, s.newThread i c leader al.delay, rfl, h4, hl, hd, rfl,
                  ⟨harg.1, harg.2.1, harg.2.2.1, harg.2.2.2, by simp [hk], by simpa using hst⟩, ?_,
                  rfl, rfl, rfl, rfl, rfl⟩
                rw [taskPublish_mem_self]
                rfl

/-- The three kinds of publication. -/
theorem placed_published {root : Nat} (hu : u.state = .ready) :
    Published s ((s.placed root).taskPublish a u) a where
  list := rfl
  cpus := rfl
  cpuCount := rfl
  nextPid := rfl
  reaperTask := rfl
  ticks := rfl
  pid := by rw [taskPublish_mem_self]; rfl
  state := by rw [taskPublish_mem_self]; exact hu
  others b hb := ⟨(s.mem b).threadCount, by rw [taskPublish_mem_ne hb]; rfl⟩

theorem joined_mem {leader : Nat} : (s.joined leader).mem b =
    if b = leader then
      { s.mem leader with threadCount := ((s.mem leader).threadCount + 1) % 4294967296 }
    else s.mem b := setTask_mem

theorem joined_published {leader : Nat} (hu : u.state = .ready) :
    Published s ((s.joined leader).taskPublish a u) a where
  list := rfl
  cpus := rfl
  cpuCount := rfl
  nextPid := rfl
  reaperTask := rfl
  ticks := rfl
  pid := by rw [taskPublish_mem_self]; rfl
  state := by rw [taskPublish_mem_self]; exact hu
  others b hb := by
    rw [taskPublish_mem_ne hb, joined_mem]
    split
    · next h => exact ⟨_, by rw [h]⟩
    · exact ⟨(s.mem b).threadCount, rfl⟩

/-! ## The reaper -/

/-- `s'` is `s` without `t`: waiters on it are woken, and its leader counts one thread less. -/
structure Removed (s s' : Sched) (t : Nat) : Prop where
  list : s'.list = s.list.erase t
  cpus : s'.cpus = s.cpus
  cpuCount : s'.cpuCount = s.cpuCount
  nextPid : s'.nextPid = s.nextPid
  reaperTask : s'.reaperTask = s.reaperTask
  ticks : s'.ticks = s.ticks
  task : ∀ b, ∃ n, s'.mem b =
    if b ∈ s.list.erase t then { wakeWaiter (s.mem t).pid (s.mem b) with threadCount := n }
    else { s.mem b with threadCount := n }

theorem removeTask_removed : Removed s (s.removeTask t) t := by
  have hw : ∀ b, ∃ n, (({ s with list := s.list.erase t } : Sched).forTasks
      fun _ => wakeWaiter (s.mem t).pid).mem b =
      if b ∈ s.list.erase t then { wakeWaiter (s.mem t).pid (s.mem b) with threadCount := n }
      else { s.mem b with threadCount := n } := by
    intro b
    refine ⟨(s.mem b).threadCount, ?_⟩
    rw [forTasks_mem]
    split
    · unfold wakeWaiter
      split <;> rfl
    · rfl
  unfold removeTask
  dsimp only
  split
  · split
    · split
      · exact ⟨rfl, rfl, rfl, rfl, rfl, rfl, hw⟩
      · next leader _ _ =>
        refine ⟨rfl, rfl, rfl, rfl, rfl, rfl, fun b => ?_⟩
        obtain ⟨n, hn⟩ := hw b
        rw [setTask_mem]
        split
        · next hb =>
          subst hb
          rw [hn]
          split
          · exact ⟨_, rfl⟩
          · exact ⟨_, rfl⟩
        · exact ⟨n, hn⟩
    · exact ⟨rfl, rfl, rfl, rfl, rfl, rfl, hw⟩
  · exact ⟨rfl, rfl, rfl, rfl, rfl, rfl, hw⟩

theorem wakeWaiter_ident (p : Nat) (w : Task) : (wakeWaiter p w).toIdent = w.toIdent :=
  (wakeWaiter_same p w).1.ident

theorem Removed.ident (h : Removed s s' t) (b : Nat) : (s'.mem b).toIdent = (s.mem b).toIdent := by
  obtain ⟨n, e⟩ := h.task b
  rw [e]
  split
  · exact wakeWaiter_ident _ _
  · rfl

theorem Removed.cpuId (h : Removed s s' t) (b : Nat) : (s'.mem b).cpuId = (s.mem b).cpuId := by
  obtain ⟨n, e⟩ := h.task b
  rw [e]
  split
  · exact (wakeWaiter_same _ _).1.cpuId
  · rfl

theorem Removed.dead_iff (h : Removed s s' t) (b : Nat) :
    (s'.mem b).state = .dead ↔ (s.mem b).state = .dead := by
  obtain ⟨n, e⟩ := h.task b
  rw [e]
  split
  · exact ⟨(wakeWaiter_same _ _).2.1, (wakeWaiter_same _ _).1.dead⟩
  · rfl

/-- A turn of the reaper passes a task over, marks the threads of a dead leader, or removes a dead
task that no CPU uses, and for a process that nobody else's `pml4` names. -/
theorem reapOne_cases (s : Sched) (t : Nat) :
    (Same s (s.reapOne t) ∧ ∀ w, ((s.reapOne t).mem w).state = .waiting →
      (s.reapOne t).mem w = s.mem w) ∨
    ((s.mem t).state = .dead ∧ s.taskActive t = false ∧ (s.mem t).pid ≠ 0 ∧
      ((s.mem t).isThread = false → (s.mem t).pml4 ≠ 0 →
        ∀ th ∈ s.list, th ≠ t → (s.mem th).pml4 ≠ (s.mem t).pml4) ∧
      s.reapOne t = s.removeTask t) := by
  unfold reapOne
  split
  · exact .inl ⟨.refl s, fun _ _ => rfl⟩
  · next h =>
    simp only [not_or, not_not, Bool.not_eq_true, ne_eq] at h
    split
    · next h4 =>
      refine .inl ⟨same_kill fun a _ ha => by rw [ha.2]; exact h4.2.1, fun w hw => ?_⟩
      rw [forTasks_mem] at hw ⊢
      split at hw <;> [split at hw; skip]
      · cases hw
      · next hl hn => rw [if_pos hl, if_neg hn]
      · next hl => rw [if_neg hl]
    · next h' =>
      refine .inr ⟨h.1, h.2.1, h.2.2, fun hp h4 th hth hne heq => h' ?_, rfl⟩
      exact ⟨by simp [hp], h4, th, hth, hne, heq⟩

theorem reapOne_list : (s.reapOne t).list = s.list ∨ (s.reapOne t).list = s.list.erase t := by
  rcases reapOne_cases s t with ⟨h, _⟩ | ⟨_, _, _, _, h⟩
  · exact .inl h.list
  · exact .inr (h ▸ removeTask_removed.list)

/-- What every turn of the reaper preserves, the first turns of a pass preserve. -/
theorem reapOnes_induct {P : Sched → Prop} {l : List Nat} (hl : l.Nodup) (hs : l ⊆ s.list)
    (hn : s.list.Nodup) (h₀ : P s)
    (hstep : ∀ s t, P s → s.list.Nodup → t ∈ s.list → t ∈ l → P (s.reapOne t)) :
    P (l.foldl reapOne s) := by
  induction l generalizing s with
  | nil => exact h₀
  | cons t l ih =>
    have ht : t ∈ s.list := hs List.mem_cons_self
    have htl : t ∉ l := (List.nodup_cons.mp hl).1
    -- a turn of the loop takes at most the task at hand out of the list
    have hsub : l ⊆ (s.reapOne t).list := by
      intro x hx
      have hxs := hs (List.mem_cons_of_mem _ hx)
      rcases reapOne_list (s := s) (t := t) with h | h <;> rw [h]
      · exact hxs
      · exact (List.mem_erase_of_ne (by grind)).mpr hxs
    have hn' : (s.reapOne t).list.Nodup := by
      rcases reapOne_list (s := s) (t := t) with h | h <;> rw [h]
      · exact hn
      · exact hn.erase t
    exact ih (List.nodup_cons.mp hl).2 hsub hn' (hstep s t h₀ hn ht List.mem_cons_self)
      fun s u h hn hu hul => hstep s u h hn hu (List.mem_cons_of_mem _ hul)

/-- What every turn of the reaper preserves, `task_reap_dead` preserves. -/
theorem taskReapDead_induct {P : Sched → Prop} (hn : s.list.Nodup) (h₀ : P s)
    (hstep : ∀ s t, P s → s.list.Nodup → t ∈ s.list → P (s.reapOne t)) : P s.taskReapDead :=
  reapOnes_induct hn (List.Subset.refl _) hn h₀ fun s t h hn ht _ => hstep s t h hn ht

end GenOS.Sched
