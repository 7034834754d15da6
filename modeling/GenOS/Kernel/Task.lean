import Mathlib.Logic.Function.Basic
import Mathlib.Data.List.Basic
import GenOS.Lib.CInt

/-!
# Tasks and the scheduler

`kernel/task.c`. A `struct task` is found by its address: `Sched.mem` is the memory of the task
structures and `Sched.list` the addresses on `task_list`, in order. `NULL` is `none`, except in
`pml4` and `entry_point`, where it is 0. A CPU's `stack` is the task on whose kernel stack the CPU
is executing, which is what `rsp` tells `task_context_enter`.

Registers, FPU state, descriptors, credentials and the memory tracking of a task are left out: no
function below reads them. `Sched.log` records what happens to address spaces.

This is the scheduler's side of `kernel/task.c`: whether the memory for a new task is there is an
argument of each constructor, and what a task owns is not looked at. `GenOS.Kernel` models the other
side, in `Kernel/Process.lean`: what the same functions take and give back.
-/

namespace GenOS

/-- `task_state_t`. -/
inductive TaskState where
  | running | ready | sleeping | waiting | dead
  deriving DecidableEq, Repr

/-- The fields of `struct task` that are fixed when the task is published. -/
structure Ident where
  pid : Nat := 0
  tgid : Nat := 0
  /-- Root of the address space; 0 is a kernel task. -/
  pml4 : Nat := 0
  isThread : Bool := false
  entryPoint : Nat := 0
  deriving DecidableEq, Repr

/-- `struct task`, all zero as `memset` leaves it. -/
structure Task extends Ident where
  cpuId : Nat := 0
  readySince : Nat := 0
  state : TaskState := .running
  sleepUntil : Nat := 0
  waitTargetPid : Nat := 0
  threadCount : Nat := 0
  priority : Int := 0
  basePriority : Int := 0
  nice : Int := 0
  quantum : Nat := 0
  quantumMax : Nat := 0
  cpuTicks : Nat := 0
  sleepCount : Nat := 0
  deriving DecidableEq, Repr

/-- Where a CPU is between a timer interrupt and the `iretq` that ends it. -/
inductive Phase where
  /-- Executing the current task, in Ring 3 or in the kernel. -/
  | exec
  /-- In the interrupt handler, after `task_context_enter`. -/
  | entered
  /-- After `schedule`, before `iretq` has left the old stack. -/
  | leaving
  deriving DecidableEq, Repr

/-- `struct percpu_data`. -/
structure Cpu where
  current : Option Nat := none
  retiring : Option Nat := none
  idleTask : Option Nat := none
  /-- Root loaded in CR3; 0 is the kernel's own. -/
  activeCr3 : Nat := 0
  stack : Option Nat := none
  phase : Phase := .exec

/-- What happens to the memory of a user process, by the root of its address space. -/
inductive SpaceEvent where
  | create (root : Nat)
  | shmCleanup (root : Nat)
  | memoryRelease (root : Nat)
  | destroy (root : Nat)
  deriving DecidableEq, Repr

/-- The static variables of `task.c`, the per-CPU data and the tick counter. -/
structure Sched where
  mem : Nat → Task
  list : List Nat
  cpus : Nat → Cpu
  cpuCount : Nat
  nextPid : Nat
  placementCursor : Nat
  reaperTask : Option Nat
  ticks : Nat
  log : List SpaceEvent

/-- `STARVATION_BOOST_INTERVAL`. -/
abbrev starvationBoostInterval : Nat := 500

/-- `quantum_table`. -/
def quantumTable (prio : Int) : Nat :=
  if prio = 3 then 4 else if prio = 2 then 2 else 1

/-- `clamp_priority`: between `PRIO_IDLE` and `PRIO_HIGH`. -/
def clampPriority (p : Int) : Int := if p < 0 then 0 else if p > 3 then 3 else p

/-- `task_init_priority`. -/
def taskInitPriority (t : Task) (prio : Int) : Task :=
  { t with basePriority := prio, priority := prio, nice := 0, quantumMax := quantumTable prio,
           quantum := quantumTable prio, cpuTicks := 0, sleepCount := 0 }

/-- `task_alloc`, once `kmalloc` has returned; `PRIO_NORMAL` is 2. -/
def taskAlloc (cpu now : Nat) : Task :=
  taskInitPriority { state := .ready, cpuId := cpu, readySince := now, threadCount := 1 } 2

namespace Sched

/-! ## Access to the tables -/

/-- Store to one task structure. -/
def setTask (s : Sched) (a : Nat) (t : Task) : Sched := { s with mem := Function.update s.mem a t }

/-- Store to one CPU's data. -/
def setCpu (s : Sched) (i : Nat) (c : Cpu) : Sched := { s with cpus := Function.update s.cpus i c }

/-- `for (t = task_list_head; t; t = t->next)`, with a body that only writes `t`. -/
def forTasks (s : Sched) (f : Nat → Task → Task) : Sched :=
  { s with mem := fun a => if a ∈ s.list then f a (s.mem a) else s.mem a }

/-- `task_find_by_pid`. -/
def taskFindByPid (s : Sched) (pid : Nat) : Option Nat := s.list.find? fun a => (s.mem a).pid = pid

/-- `task_is_dead`. -/
def taskIsDead (s : Sched) (pid : Nat) : Bool :=
  match s.taskFindByPid pid with
  | some t => decide ((s.mem t).state = .dead)
  | none => true

/-- `task_memory_owner`. -/
def taskMemoryOwner (s : Sched) (t : Nat) : Option Nat :=
  if ¬ (s.mem t).isThread then some t
  else match s.taskFindByPid (s.mem t).tgid with
    | some leader => if (s.mem leader).pml4 = (s.mem t).pml4 then some leader else none
    | none => none

/-- `task_active`: running on a CPU, or its stack not left yet. -/
def taskActive (s : Sched) (t : Nat) : Bool :=
  (List.range s.cpuCount).any fun i =>
    decide ((s.cpus i).current = some t) || decide ((s.cpus i).retiring = some t)

/-- The scan of `placement_cpu`: at most `cpu_count` turns of the cursor. -/
def placementScan (s : Sched) : (fuel cursor : Nat) → Nat × Nat
  | 0, cursor => (0, cursor)
  | fuel + 1, cursor =>
    let cpu := cursor % s.cpuCount
    let cursor := (cursor + 1) % 4294967296
    if (s.cpus cpu).idleTask.isSome then (cpu, cursor) else s.placementScan fuel cursor

/-- `placement_cpu`: the chosen CPU and the new cursor. -/
def placementCpu (s : Sched) : Nat × Nat := s.placementScan s.cpuCount s.placementCursor

/-! ## Kernel entry and publication -/

/-- `task_context_enter` on CPU `i`: acknowledge that the outgoing stack has been left. -/
def taskContextEnter (s : Sched) (i : Nat) : Sched :=
  let p := s.cpus i
  match p.retiring with
  | none => s
  | some t => if p.stack = some t then s else s.setCpu i { p with retiring := none }

/-- `task_publish`. -/
def taskPublish (s : Sched) (a : Nat) (t : Task) : Sched :=
  let t := { t with pid := s.nextPid, tgid := if t.isThread then t.tgid else s.nextPid }
  { s.setTask a t with nextPid := (s.nextPid + 1) % 4294967296, list := s.list ++ [a] }

/-- The releases of `task_discard` and of `task_reap_dead`, for a task that is not a thread. -/
def releaseSpace (s : Sched) (root : Nat) : Sched :=
  { s with log := (if root = 0 then [] else [.destroy root])
                    ++ [.memoryRelease root, .shmCleanup root] ++ s.log }

/-! ## Creation -/

/-- Difference of two tick counts, in 64 bits. -/
def elapsed (now since : Nat) : Nat := (now + 18446744073709551616 - since) % 18446744073709551616

/-- What the allocators give a constructor: `kmalloc`, the kernel stack, the root of a new address
space, and whether everything after that succeeds. The clock runs on meanwhile: `task_alloc` has
read it `delay` ticks before `task_publish`. -/
structure Alloc where
  task : Option Nat
  stack : Bool
  space : Option Nat
  copied : Bool
  delay : Nat

/-- `create_task` on CPU `i`: the new task, or `none`. -/
def createTask (s : Sched) (i entry : Nat) (al : Alloc) : Sched × Option Nat :=
  if entry = 0 ∨ s.list = [] then (s, none)
  else match al.task with
    | none => (s, none)
    | some a =>
      if ¬ al.stack then (s, none)
      else (s.taskPublish a { taskAlloc i (elapsed s.ticks al.delay) with entryPoint := entry },
        some a)

/-- `create_task_on_cpu`. -/
def createTaskOnCpu (s : Sched) (i entry cpu : Nat) (al : Alloc) : Sched × Option Nat :=
  if s.cpuCount ≤ cpu ∨ (s.cpus cpu).idleTask = none then (s, none)
  else match s.createTask i entry al with
    | (s, some t) => (s.setTask t { s.mem t with cpuId := cpu }, some t)
    | (s, none) => (s, none)

/-- `create_user_task`, after `elf_validate`: `copied` says that loading the image and mapping the
stack succeed. -/
def createUserTask (s : Sched) (i : Nat) (al : Alloc) : Sched × Option Nat :=
  match al.task with
  | none => (s, none)
  | some a =>
    if ¬ al.stack then (s, none)
    else match al.space with
      | none => (s.releaseSpace 0, none)
      | some root =>
        let s := { s with log := .create root :: s.log }
        if ¬ al.copied then (s.releaseSpace root, none)
        else
          let t := { taskAlloc i (elapsed s.ticks al.delay) with pml4 := root }
          let t := if s.nextPid = 2 then taskInitPriority t 3 else t
          let (cpu, cursor) := s.placementCpu
          (({ s with placementCursor := cursor }).taskPublish a { t with cpuId := cpu }, some a)

/-- The priority fields that `task_fork` and `task_clone` take from the current task. -/
def inheritPriority (t c : Task) : Task :=
  { t with basePriority := c.basePriority, priority := c.priority, nice := c.nice,
           quantumMax := c.quantumMax, quantum := c.quantumMax, cpuTicks := 0, sleepCount := 0,
           sleepUntil := 0, waitTargetPid := 0 }

/-- `task_fork` on CPU `i`; `frameOk` is the check of the user frame's selectors. -/
def taskFork (s : Sched) (i : Nat) (frameOk : Bool) (al : Alloc) : Sched × Int :=
  match (s.cpus i).current with
  | none => (s, -1)
  | some c =>
    if ¬ frameOk ∨ (s.mem c).pml4 = 0 then (s, -1)
    else match al.task with
      | none => (s, -1)
      | some a =>
        if ¬ al.stack then (s, -1)
        else match al.space with
          | none => (s.releaseSpace 0, -1)
          | some root =>
            let s := { s with log := .create root :: s.log }
            if ¬ al.copied then (s.releaseSpace root, -1)
            else
              let child :=
                inheritPriority
                  { taskAlloc i (elapsed s.ticks al.delay) with pml4 := root } (s.mem c)
              let (cpu, cursor) := s.placementCpu
              let s := { s with placementCursor := cursor }
              let s := s.taskPublish a { child with cpuId := cpu }
              (s, toInt32 (s.mem a).pid)

/-- `task_clone` on CPU `i`. -/
def taskClone (s : Sched) (i entry stackTop : Nat) (al : Alloc) : Sched × Int :=
  match (s.cpus i).current with
  | none => (s, -1)
  | some c =>
    if (s.mem c).pml4 = 0 then (s, -1)
    else match s.taskFindByPid (s.mem c).tgid with
      | none => (s, -1)
      | some leader =>
        if (s.mem leader).state = .dead then (s, -1)
        else if entry = 0 ∨ 0x800000000000 ≤ entry ∨ stackTop < 4096 ∨
          0x800000000000 ≤ stackTop then
          (s, -1)
        else match al.task with
          | none => (s, -1)
          | some a =>
            if ¬ al.stack then (s, -1)
            else
              let thread := inheritPriority { taskAlloc i (elapsed s.ticks al.delay) with
                tgid := (s.mem c).tgid, isThread := true, threadCount := 0,
                pml4 := (s.mem c).pml4 } (s.mem c)
              let s := s.setTask leader { s.mem leader with
                threadCount := ((s.mem leader).threadCount + 1) % 4294967296 }
              let (cpu, cursor) := s.placementCpu
              let s := { s with placementCursor := cursor }
              let s := s.taskPublish a { thread with cpuId := cpu }
              (s, toInt32 (s.mem a).pid)

/-! ## State changes by the running task -/

/-- `task_mark_running` for the current task `c`. -/
def taskMarkRunning (s : Sched) (c : Nat) : Sched :=
  if (s.mem c).state = .dead then s else s.setTask c { s.mem c with state := .running }

/-- `sleep_current_task`. -/
def sleepCurrentTask (s : Sched) (c wakeTick : Nat) : Sched :=
  s.setTask c { s.mem c with
    sleepUntil := wakeTick, state := .sleeping,
    sleepCount := ((s.mem c).sleepCount + 1) % 4294967296 }

/-- `wait_for_pid`. -/
def waitForPid (s : Sched) (c targetPid : Nat) : Sched :=
  match s.taskFindByPid targetPid with
  | none => s
  | some t =>
    if (s.mem t).state = .dead then s
    else s.setTask c { s.mem c with state := .waiting, waitTargetPid := targetPid }

/-- `task_set_nice`. -/
def taskSetNice (s : Sched) (c : Nat) (niceVal : Int) : Sched :=
  let n := if niceVal < -2 then -2 else if niceVal > 2 then 2 else niceVal
  let p := clampPriority ((s.mem c).basePriority - n)
  s.setTask c { s.mem c with nice := n, priority := p, quantumMax := quantumTable p }

/-- `w->state = TASK_READY` for a waiter on `pid`. -/
def wakeWaiter (pid : Nat) (w : Task) : Task :=
  if w.state = .waiting ∧ w.waitTargetPid = pid then { w with state := .ready } else w

/-- `exit_current_task`, up to its endless loop. -/
def exitCurrentTask (s : Sched) (c : Nat) : Sched :=
  (s.setTask c { s.mem c with state := .dead }).forTasks fun _ => wakeWaiter (s.mem c).pid

/-- The first block of `task_abort_current_group`; `exit_current_task` follows on its own. -/
def taskAbortCurrentGroup (s : Sched) (c : Nat) : Sched :=
  if (s.mem c).pml4 = 0 then s
  else
    let s := s.forTasks fun _ t => if t.pml4 = (s.mem c).pml4 then { t with state := .dead } else t
    s.forTasks fun _ w =>
      if w.state = .waiting ∧ s.taskIsDead w.waitTargetPid then { w with state := .ready } else w

/-- `task_set_cpu`. -/
def taskSetCpu (s : Sched) (pid cpu : Nat) : Sched × Int :=
  match s.taskFindByPid pid with
  | none => (s, -1)
  | some t =>
    if pid = 0 ∨ s.reaperTask = some t ∨ s.cpuCount ≤ cpu ∨ (s.cpus cpu).idleTask = none ∨
        s.taskActive t ∨ (s.mem t).state = .dead then (s, -1)
    else (s.setTask t { s.mem t with cpuId := cpu }, 0)

/-! ## The reaper -/

/-- Unlinking and freeing of one dead task. -/
def removeTask (s : Sched) (t : Nat) : Sched :=
  let s := ({ s with list := s.list.erase t }).forTasks fun _ => wakeWaiter (s.mem t).pid
  if (s.mem t).isThread then
    match s.taskFindByPid (s.mem t).tgid with
    | some leader =>
      if (s.mem leader).threadCount = 0 then s
      else s.setTask leader { s.mem leader with threadCount := (s.mem leader).threadCount - 1 }
    | none => s
  else s.releaseSpace (s.mem t).pml4

/-- The body of the loop of `task_reap_dead`. -/
def reapOne (s : Sched) (t : Nat) : Sched :=
  if (s.mem t).state ≠ .dead ∨ s.taskActive t ∨ (s.mem t).pid = 0 then s
  else if ¬ (s.mem t).isThread ∧ (s.mem t).pml4 ≠ 0 ∧
      ∃ th ∈ s.list, th ≠ t ∧ (s.mem th).pml4 = (s.mem t).pml4 then
    -- a leader stays until its last thread is gone, and takes its threads with it
    s.forTasks fun a th =>
      if a ≠ t ∧ th.pml4 = (s.mem t).pml4 then { th with state := .dead } else th
  else s.removeTask t

/-- `task_reap_dead`: only the task at hand leaves the list in a turn of the loop, so the loop runs
over the list as it was. -/
def taskReapDead (s : Sched) : Sched := s.list.foldl reapOne s

/-! ## The scheduler -/

/-- A sleeper whose time has come. -/
def wakeSleeper (now : Nat) (t : Task) : Task :=
  if t.state = .sleeping ∧ t.sleepUntil ≤ now then { t with state := .ready, readySince := now }
  else t

/-- The first loop of `schedule`. Its two halves do not read what the other writes. -/
def wakeTasks (s : Sched) : Sched :=
  let s := s.forTasks fun _ => wakeSleeper s.ticks
  match s.reaperTask with
  | none => s
  | some r =>
    if (∃ t ∈ s.list, (s.mem t).state = .dead ∧ ¬ s.taskActive t) ∧ (s.mem r).state = .waiting then
      s.setTask r { s.mem r with state := .ready }
    else s

/-- The order of the second loop: from the task after `previous`, around, and back. An idle task
outside the list has no successor, and the loop starts at the head. -/
def scanOrder (s : Sched) (previous : Nat) : List Nat :=
  if previous ∈ s.list then s.list.rotate (s.list.idxOf previous + 1) else s.list

/-- `schedule` may select `t` on CPU `i`. -/
def eligible (s : Sched) (i t : Nat) : Bool :=
  decide ((s.cpus i).idleTask ≠ some t) && decide ((s.mem t).pid ≠ 0) &&
    decide ((s.mem t).cpuId = i) && decide ((s.mem t).state = .ready)

/-- `t` has the starvation boost. -/
def boosted (s : Sched) (t : Nat) : Bool :=
  decide (starvationBoostInterval ≤ elapsed s.ticks (s.mem t).readySince)

/-- The priority at which `t` competes; `PRIO_HIGH + 1` is 4. -/
def effectivePriority (s : Sched) (t : Nat) : Int :=
  if s.boosted t then 4 else (s.mem t).priority

/-- One turn of the second loop. -/
def pickBetter (s : Sched) (i : Nat) (best : Option Nat × Int) (t : Nat) : Option Nat × Int :=
  if s.eligible i t ∧ s.effectivePriority t > best.2 then (some t, s.effectivePriority t) else best

/-- The task that the second loop finds. -/
def pickBest (s : Sched) (i previous : Nat) : Option Nat :=
  ((s.scanOrder previous).foldl (s.pickBetter i) (none, -1)).1

/-- The time slice accounting: whether the current task goes on. -/
def chargeQuantum (s : Sched) (i c : Nat) : Sched × Bool :=
  let t := { s.mem c with cpuTicks := ((s.mem c).cpuTicks + 1) % 4294967296 }
  if (s.cpus i).idleTask ≠ some c ∧ t.state = .running then
    let t := { t with quantum := t.quantum - 1 }
    (s.setTask c t, decide (t.quantum ≠ 0))
  else (s.setTask c t, false)

/-- The running task goes back to READY. -/
def preempt (s : Sched) (c : Nat) : Sched :=
  if (s.mem c).state = .running then
    s.setTask c { s.mem c with state := .ready, readySince := s.ticks }
  else s

/-- The switch of CPU `i` from `previous` to `next`. -/
def switchTo (s : Sched) (i previous next : Nat) : Sched :=
  let p := s.cpus i
  let retiring :=
    if next ≠ previous ∧ (s.mem previous).pid ≠ 0 then some previous else p.retiring
  let t := s.mem next
  let s := s.setTask next
    { t with state := .running, readySince := s.ticks, quantum := t.quantumMax }
  s.setCpu i { p with current := some next, retiring := retiring, activeCr3 := t.pml4 }

/-- `schedule` on CPU `i`, once `preempt_try_disable` has succeeded. -/
def schedule (s : Sched) (i : Nat) : Sched :=
  match (s.cpus i).current, (s.cpus i).idleTask with
  | some c, some idle =>
    let s := s.wakeTasks
    match s.chargeQuantum i c with
    | (s, true) => s
    | (s, false) =>
      let s := s.preempt c
      s.switchTo i c ((s.pickBest i c).getD idle)
  | _, _ => s

end Sched

end GenOS
