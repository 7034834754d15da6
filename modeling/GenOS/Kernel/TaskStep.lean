import GenOS.Lib.Machine
import GenOS.Kernel.Task

/-!
# The scheduler as a transition system

Any CPU may take the next step. A timer interrupt is four steps: `enter` (`task_context_enter` on
the interrupted stack), `schedule` or, when `preempt_try_disable` fails, `skip`, and then `iret`,
which leaves the old stack. Other kernel entries are `entry`, at any moment. Everything else is one
step under the kernel lock, taken by the current task of a CPU that executes on that task's stack.

Ring 3 is entered only by a task with an address space, so only such a task makes system calls or
faults; `task_kernel_entry` ends a kernel task through `exit_current_task`, and the reaper's body
never returns. The allocators never hand out what is in use.
-/

namespace GenOS

open Machine

/-- The system calls of the scheduler, and any other call. -/
inductive Call where
  | exec (al : Sched.Alloc)
  | fork (frameOk : Bool) (al : Sched.Alloc)
  | clone (entry stackTop : Nat) (al : Sched.Alloc)
  | sleep (wakeTick : Nat)
  | waitPid (pid : Nat)
  | nice (v : Int)
  | other

/-- What a CPU can do next. -/
inductive Op where
  | tick
  | entry (i : Nat)
  | enter (i : Nat)
  | schedule (i : Nat)
  | skip (i : Nat)
  | iret (i : Nat)
  | createTask (i entry : Nat) (al : Sched.Alloc)
  | createTaskOnCpu (i entry cpu : Nat) (al : Sched.Alloc)
  | createUserTask (i : Nat) (al : Sched.Alloc)
  | setCpu (pid cpu : Nat)
  | syscall (i : Nat) (call : Call)
  | exit (i : Nat)
  | abort (i : Nat)
  | reap
  | reaperWait (i : Nat)

/-- Nothing in use is handed out by `kmalloc` and `vmm_create_address_space`. -/
def Sched.Alloc.Fresh (al : Sched.Alloc) (s : Sched) : Prop :=
  (∀ a, al.task = some a → a ∉ s.list ∧ ∀ i < s.cpuCount, (s.cpus i).idleTask ≠ some a) ∧
  ∀ r, al.space = some r → r ≠ 0 ∧ ∀ a ∈ s.list, (s.mem a).pml4 ≠ r

namespace Sched

/-- The body of `syscall_handler` for the caller `c` on CPU `i`, after `task_mark_running`. -/
def dispatch (s : Sched) (i c : Nat) : Call → Sched × Int
  | .exec al => match s.createUserTask i al with
    | (s, some t) => (s, (s.mem t).pid)
    | (s, none) => (s, -1)
  | .fork frameOk al => s.taskFork i frameOk al
  | .clone entry stackTop al => s.taskClone i entry stackTop al
  | .sleep wakeTick => (s.sleepCurrentTask c wakeTick, 0)
  | .waitPid pid => (s.waitForPid c pid, 1)
  | .nice v => (s.taskSetNice c v, 0)
  | .other => (s, 0)

/-- The allocations of a system call. -/
def Fresh (s : Sched) : Call → Prop
  | .exec al => al.Fresh s
  | .fork _ al => al.Fresh s
  | .clone _ _ al => al.Fresh s
  | _ => True

/-- Leaving the interrupt handler. -/
def leave (s : Sched) (i : Nat) : Sched := s.setCpu i { s.cpus i with phase := .leaving }

/-- `c` is the current task of CPU `i`, and the CPU executes it. -/
def Runs (s : Sched) (i c : Nat) : Prop :=
  i < s.cpuCount ∧ (s.cpus i).current = some c ∧ (s.cpus i).phase = .exec

/-- One step, with what the call returns to the task that made it. -/
inductive Step (s : Sched) : Op → Sched × Int → Prop
  | tick : Step s .tick ({ s with ticks := (s.ticks + 1) % 18446744073709551616 }, 0)
  | entry (i : Nat) : Step s (.entry i) (s.taskContextEnter i, 0)
  | enter {i c : Nat} (h : s.Runs i c) :
    Step s (.enter i)
      ((s.taskContextEnter i).setCpu i { (s.taskContextEnter i).cpus i with phase := .entered }, 0)
  | schedule {i : Nat} (h : (s.cpus i).phase = .entered) :
    Step s (.schedule i) ((s.schedule i).leave i, 0)
  | skip {i : Nat} (h : (s.cpus i).phase = .entered) : Step s (.skip i) (s.leave i, 0)
  | iret {i : Nat} (h : (s.cpus i).phase = .leaving) :
    Step s (.iret i) (s.setCpu i { s.cpus i with stack := (s.cpus i).current, phase := .exec }, 0)
  | createTask (i entry : Nat) {al : Alloc} (h : al.Fresh s) :
    Step s (.createTask i entry al) ((s.createTask i entry al).1, 0)
  | createTaskOnCpu (i entry cpu : Nat) {al : Alloc} (h : al.Fresh s) :
    Step s (.createTaskOnCpu i entry cpu al) ((s.createTaskOnCpu i entry cpu al).1, 0)
  | createUserTask (i : Nat) {al : Alloc} (h : al.Fresh s) :
    Step s (.createUserTask i al) ((s.createUserTask i al).1, 0)
  | setCpu (pid cpu : Nat) : Step s (.setCpu pid cpu) (s.taskSetCpu pid cpu)
  | syscall {i c : Nat} {call : Call} (h : s.Runs i c) (hu : (s.mem c).pml4 ≠ 0)
    (hd : (s.mem c).state ≠ .dead) (hf : s.Fresh call) :
    Step s (.syscall i call) ((s.taskMarkRunning c).dispatch i c call)
  | exit {i c : Nat} (h : s.Runs i c) (hu : (s.mem c).pml4 ≠ 0 ∨ (s.mem c).entryPoint ≠ 0)
    (hr : s.reaperTask ≠ some c) : Step s (.exit i) (s.exitCurrentTask c, 0)
  | abort {i c : Nat} (h : s.Runs i c) : Step s (.abort i) (s.taskAbortCurrentGroup c, 0)
  | reap : Step s .reap (s.taskReapDead, 0)
  | reaperWait {i c : Nat} (h : s.Runs i c) (hr : s.reaperTask = some c) :
    Step s (.reaperWait i) (s.setTask c { s.mem c with state := .waiting }, 0)

/-! ## Boot -/

/-- The configuration that `task_init` finds: the processors, which of them came up, and the
addresses of the structures it uses. -/
structure Boot where
  cpuCount : Nat
  active : Nat → Bool
  /-- The task that `task_init` runs in. -/
  init : Nat
  /-- The reaper task, and the address of `task_reaper_main`. -/
  reaper : Nat
  reaperMain : Nat
  /-- `ap_idle`. -/
  apIdle : Nat → Nat
  ticks : Nat
  positive : 0 < cpuCount
  reaper_ne : reaper ≠ init
  main_ne : reaperMain ≠ 0
  apIdle_ne : ∀ i, apIdle i ≠ init ∧ apIdle i ≠ reaper
  apIdle_inj : ∀ i j, apIdle i = apIdle j → i = j
  ticks_lt : ticks < 18446744073709551616

/-- An idle task that has a CPU from the start. -/
def idleCpu (t : Nat) : Cpu :=
  { current := some t, idleTask := some t, stack := some t }

/-- The state of the task table before `task_init` creates the reaper. -/
def bootTable (b : Boot) : Sched where
  mem a :=
    if a = b.init then taskInitPriority { taskAlloc 0 b.ticks with state := .running } 0
    else taskInitPriority { cpuId := ((List.range b.cpuCount).find? (b.apIdle · = a)).getD 0 } 0
  list := [b.init]
  cpus i :=
    if i = 0 then idleCpu b.init
    else if i < b.cpuCount ∧ b.active i then idleCpu (b.apIdle i) else {}
  cpuCount := b.cpuCount
  nextPid := 1
  placementCursor := 0
  reaperTask := none
  ticks := b.ticks
  log := []

/-- `task_init`. -/
def taskInit (b : Boot) : Sched :=
  let s := ((bootTable b).createTask 0 b.reaperMain ⟨some b.reaper, true, none, true, 0⟩).1
  let s := { s with reaperTask := some b.reaper }
  s.setTask b.reaper { taskInitPriority (s.mem b.reaper) 3 with state := .waiting }

/-- One step, forgetting what it returns. -/
def Next (s : Sched) (op : Op) (s' : Sched) : Prop := ∃ r, s.Step op (s', r)

/-- The states that a run from boot reaches. -/
def Reaches (b : Boot) (s : Sched) : Prop := ∃ ops, Run Next (taskInit b) ops s

end Sched

end GenOS
