import Mathlib.Logic.Function.Basic
import GenOS.Lib.Machine

/-!
# The mutation guard, access by access

`cpu/preempt.c`, with the timer interrupt of `kernel/task.c` around it. Each access to the lock word
or to a `preempt_count` is one step of the CPU that makes it; so are the moments at which interrupts
are masked (`irq_save`) and restored.

* A task runs on its CPU: it calls `preempt_disable`, `preempt_enable` for a call of
  `preempt_disable` that has returned, and the local pair; elsewhere it masks and unmasks
  interrupts as it likes, which covers its other calls of `tlb_poll`.
* A timer interrupt suspends the task of a CPU that has interrupts enabled, wherever it is, and runs
  `schedule` with interrupts disabled. Other interrupts take no guard.
* `schedule` picks any task that is not the current one of another CPU; a task that runs nowhere
  may be a new one.

`owner` and `held` are no variables of the code: the CPU that took the lock word from 0 to 1, and
the calls of `preempt_disable` that have returned and are not matched.
-/

namespace GenOS.Preempt

/-- Where a CPU is in `preempt_enable`. -/
inductive Enable where
  /-- `if (!p->preempt_count) __builtin_trap();` -/
  | check
  /-- `--p->preempt_count`, the load and the store. -/
  | read
  | write (v : Nat)
  | unlock
  /-- `irq_restore(flags);` -/
  | restore
  deriving DecidableEq

/-- Where a task is: elsewhere, or in `preempt_disable` or `preempt_enable`, with what these have in
registers. -/
inductive Pc where
  | out
  /-- `if (p->local_preempt_count) __builtin_trap();` -/
  | disableLocal (flags : Bool)
  /-- `p->preempt_count++`, the load and the store. -/
  | disableRead (flags : Bool)
  | disableWrite (flags : Bool) (previous : Nat)
  | disableRestore (flags : Bool) (previous : Nat)
  /-- `while (!spin_trylock(&mutation_lock)) tlb_poll();` -/
  | trylock
  | poll
  | polling (flags : Bool)
  | enable (flags : Bool) (e : Enable)
  | trap
  deriving DecidableEq

/-- Where a CPU is in the handler of an interrupt. -/
inductive Handler where
  /-- The three conditions of `preempt_try_disable`. -/
  | tryCount
  | tryLocal
  | trylock
  /-- `p->preempt_count = 1;` -/
  | trySet
  /-- `schedule`, with the guard. -/
  | body
  | enable (e : Enable)
  | iret
  | trap
  deriving DecidableEq

/-- A task as its CPU, or its interrupt frame, has it. -/
structure Context where
  pc : Pc
  interrupts : Bool
  held : Nat

/-- What `preempt.c` uses of `struct percpu_data`, and the handler that the CPU is in. -/
structure Cpu (τ : Type*) where
  preemptCount : Nat
  localPreemptCount : Nat
  current : τ
  handler : Option Handler

/-- All CPUs and tasks. -/
structure Guard (ι τ : Type*) where
  mutationLock : Bool
  owner : Option ι
  cpu : ι → Cpu τ
  ctx : τ → Context

/-- What a task does when it is not in a guard function. -/
inductive Call where
  | disable
  | enable
  | localDisable
  | localEnable
  | sti
  | cli
  deriving DecidableEq

/-- What a CPU does next. -/
inductive Act (τ : Type*) where
  | call (k : Call)
  | task
  | timer
  | irq
  | handler
  | stay
  | switch (t : τ)
  | create (t : τ)

variable {ι τ : Type*}

/-! ## The functions -/

/-- `preempt_enable` from one access to the next: the lock word, the count, and where it is then. -/
def Enable.next (lock : Bool) (count : Nat) : Enable → Bool × Nat × Option Enable
  | .check => (lock, count, if count = 0 then none else some .read)
  | .read => (lock, count, some (.write ((count + 4294967295) % 4294967296)))
  | .write v => (lock, v, some (if v = 0 then .unlock else .restore))
  | .unlock => (false, count, some .restore)
  | .restore => (lock, count, none)

/-- The call of a function by a task, up to the end of its `irq_save`. -/
def callStep (c : Cpu τ) (x : Context) : Call → Option (Cpu τ × Context)
  | .disable => some (c, { x with interrupts := false, pc := .disableLocal x.interrupts })
  | .enable =>
    if x.held = 0 then none
    else some (c, { x with interrupts := false, pc := .enable x.interrupts .check })
  | .localDisable =>
    if c.localPreemptCount = 4294967295 then some (c, { x with interrupts := false, pc := .trap })
    else some ({ c with localPreemptCount := c.localPreemptCount + 1 }, x)
  | .localEnable =>
    if c.localPreemptCount = 0 then some (c, { x with interrupts := false, pc := .trap })
    else some ({ c with localPreemptCount := c.localPreemptCount - 1 }, x)
  | .sti => some (c, { x with interrupts := true })
  | .cli => some (c, { x with interrupts := false })

/-- The next step of a task in a guard function: the lock word, the CPU and the task after it. -/
def taskStep (lock : Bool) (c : Cpu τ) (x : Context) : Option (Bool × Cpu τ × Context) :=
  match x.pc with
  | .out => none
  | .disableLocal flags =>
    some (lock, c, { x with pc := if c.localPreemptCount ≠ 0 then .trap else .disableRead flags })
  | .disableRead flags => some (lock, c, { x with pc := .disableWrite flags c.preemptCount })
  | .disableWrite flags previous =>
    some (lock, { c with preemptCount := (previous + 1) % 4294967296 },
      { x with pc := .disableRestore flags previous })
  | .disableRestore flags previous =>
    if previous = 0 then some (lock, c, { x with interrupts := flags, pc := .trylock })
    else some (lock, c, { interrupts := flags, pc := .out, held := x.held + 1 })
  | .trylock =>
    if lock then some (true, c, { x with pc := .poll })
    else some (true, c, { x with pc := .out, held := x.held + 1 })
  | .poll => some (lock, c, { x with interrupts := false, pc := .polling x.interrupts })
  | .polling flags => some (lock, c, { x with interrupts := flags, pc := .trylock })
  | .enable flags .restore => some (lock, c, { x with interrupts := flags, pc := .out })
  | .enable flags e =>
    match e.next lock c.preemptCount with
    | (lock, count, next) =>
      some (lock, { c with preemptCount := count },
        { x with
          pc := match next with
            | some e => .enable flags e
            | none => .trap
          held := match e with
            | .write _ => x.held - 1
            | _ => x.held })
  | .trap => none

/-- The next step of a handler. -/
def handlerStep (lock : Bool) (c : Cpu τ) : Handler → Option (Bool × Cpu τ)
  | .tryCount =>
    some (lock, { c with handler := some (if c.preemptCount ≠ 0 then .iret else .tryLocal) })
  | .tryLocal =>
    some (lock, { c with handler := some (if c.localPreemptCount ≠ 0 then .iret else .trylock) })
  | .trylock => some (true, { c with handler := some (if lock then .iret else .trySet) })
  | .trySet => some (lock, { c with preemptCount := 1, handler := some .body })
  | .body => none
  | .enable .restore => some (lock, { c with handler := some .iret })
  | .enable e =>
    match e.next lock c.preemptCount with
    | (lock, count, next) =>
      some (lock, { c with
        preemptCount := count
        handler := some (match next with
          | some e => .enable e
          | none => .trap) })
  | .iret => some (lock, { c with handler := none })
  | .trap => none

/-! ## Steps -/

variable [DecidableEq ι] [DecidableEq τ]

/-- CPU `i` has changed the lock word to `lock`, itself to `c` and its task to `x`. -/
def Guard.put (s : Guard ι τ) (i : ι) (lock : Bool) (c : Cpu τ) (x : Context) : Guard ι τ where
  mutationLock := lock
  owner := if lock = s.mutationLock then s.owner else if lock then some i else none
  cpu := Function.update s.cpu i c
  ctx := Function.update s.ctx (s.cpu i).current x

/-- The current task of a CPU. -/
abbrev Guard.running (s : Guard ι τ) (i : ι) : Context := s.ctx (s.cpu i).current

/-- A step of a CPU. -/
inductive Step (s : Guard ι τ) : ι × Act τ → Guard ι τ → Prop
  | call {i : ι} {k : Call} {c : Cpu τ} {x : Context} (hh : (s.cpu i).handler = none)
    (ho : (s.running i).pc = .out) (h : callStep (s.cpu i) (s.running i) k = some (c, x)) :
    Step s (i, .call k) (s.put i s.mutationLock c x)
  | task {i : ι} {lock : Bool} {c : Cpu τ} {x : Context} (hh : (s.cpu i).handler = none)
    (h : taskStep s.mutationLock (s.cpu i) (s.running i) = some (lock, c, x)) :
    Step s (i, .task) (s.put i lock c x)
  | timer {i : ι} (hh : (s.cpu i).handler = none) (hi : (s.running i).interrupts = true) :
    Step s (i, .timer)
      (s.put i s.mutationLock { s.cpu i with handler := some .tryCount } (s.running i))
  | irq {i : ι} (hh : (s.cpu i).handler = none) (hi : (s.running i).interrupts = true) :
    Step s (i, .irq)
      (s.put i s.mutationLock { s.cpu i with handler := some .iret } (s.running i))
  | handler {i : ι} {p : Handler} {lock : Bool} {c : Cpu τ} (hh : (s.cpu i).handler = some p)
    (h : handlerStep s.mutationLock (s.cpu i) p = some (lock, c)) :
    Step s (i, .handler) (s.put i lock c (s.running i))
  | stay {i : ι} (hh : (s.cpu i).handler = some .body) :
    Step s (i, .stay)
      (s.put i s.mutationLock { s.cpu i with handler := some (.enable .check) } (s.running i))
  | switch {i : ι} {t : τ} (hh : (s.cpu i).handler = some .body)
    (ht : ∀ j, j ≠ i → (s.cpu j).current ≠ t) :
    Step s (i, .switch t) { s with
      cpu := Function.update s.cpu i
        { s.cpu i with current := t, handler := some (.enable .check) } }
  | create {i : ι} {t : τ} (interrupts : Bool) (ht : ∀ j, (s.cpu j).current ≠ t) :
    Step s (i, .create t) { s with ctx := Function.update s.ctx t ⟨.out, interrupts, 0⟩ }

/-- No guard is taken, and no two CPUs run one task. -/
structure Boot (s : Guard ι τ) : Prop where
  lock : s.mutationLock = false
  owner : s.owner = none
  count : ∀ i, (s.cpu i).preemptCount = 0
  handler : ∀ i, (s.cpu i).handler = none
  apart : ∀ i j, (s.cpu i).current = (s.cpu j).current → i = j
  ctx : ∀ t, (s.ctx t).pc = .out ∧ (s.ctx t).held = 0

end GenOS.Preempt
