import Mathlib.Logic.Function.Basic

/-!
# TLB shootdown

`cpu/tlb.c`, in steps of one access to shared memory. A CPU polls from the handler of the IPI, while
it spins on a lock, or while it waits as the sender, with interrupts off: any CPU may take the next
step of `tlb_poll` at any time. It caches translations of the page table at any time too. The page
table is written, and `tlb_shootdown` is called, under the VMM lock.
-/

namespace GenOS

/-- `MAX_CPUS`. -/
abbrev maxCpus : Nat := 16

/-- `UINT64_MAX`, the address of a full flush. -/
abbrev tlbAll : Nat := 18446744073709551615

/-- Where a CPU is in `tlb_poll`. -/
inductive TlbPoll where
  | idle
  /-- It has read `tlb_request`. -/
  | requested (request : Nat)
  /-- `tlb_ack` is not that request. -/
  | behind (request : Nat)
  /-- It has read `address`. -/
  | invalidating (request va : Nat)
  | invalidated (request va : Nat)
  deriving DecidableEq

/-- `struct percpu_data`, with the translations that the CPU caches, by page. -/
structure TlbCpu where
  schedulerOnline : Bool := false
  tlbRequest : Nat := 0
  tlbAck : Nat := 0
  cached : List (Nat × Nat) := []
  poll : TlbPoll := .idle
  deriving DecidableEq

/-- The locals of `tlb_shootdown`. -/
structure TlbCall where
  self : Nat
  va : Nat
  seq : Nat
  targets : BitVec 32 := 0
  deriving DecidableEq

/-- Where the sender is in `tlb_shootdown`. -/
inductive TlbSender where
  /-- No CPU is in `tlb_shootdown`. -/
  | idle
  /-- `sequence` is counted up. -/
  | counted (c : TlbCall)
  /-- The first loop, before the test of CPU `i`. -/
  | scan (c : TlbCall) (i : Nat)
  /-- CPU `i` is online. -/
  | post (c : TlbCall) (i : Nat)
  /-- After the first loop. -/
  | flush (c : TlbCall)
  /-- The second loop. -/
  | wait (c : TlbCall) (i : Nat)
  deriving DecidableEq

structure TlbState where
  cpus : Nat → TlbCpu := fun _ => {}
  sequence : Nat := 0
  address : Nat := 0
  sender : TlbSender := .idle
  /-- The page table, by page. -/
  table : Nat → Nat := fun _ => 0

inductive TlbAct where
  /-- A CPU caches the translation of a page. -/
  | refill (i page : Nat)
  | evict (i page : Nat)
  | online (i : Nat)
  | write (page pte : Nat)
  /-- The next step of `tlb_poll`. -/
  | poll (i : Nat)
  | call (self va : Nat)
  /-- The next step of `tlb_shootdown`. -/
  | send
  deriving DecidableEq

/-- `invalidate(va)` drops the translation of this page. -/
def tlbCovers (va page : Nat) : Bool := va = tlbAll ∨ va / 4096 = page

/-- `invalidate`: `invlpg`, or a full flush by `cr4` or `cr3`. -/
def tlbInvalidate (va : Nat) (cached : List (Nat × Nat)) : List (Nat × Nat) :=
  cached.filter fun e => !tlbCovers va e.1

/-- `targets & (1U << i)`. -/
def TlbCall.isTarget (c : TlbCall) (i : Nat) : Bool := c.targets &&& 1#32 <<< i ≠ 0

namespace TlbState

def setCpu (s : TlbState) (i : Nat) (p : TlbCpu) : TlbState :=
  { s with cpus := Function.update s.cpus i p }

/-- The next step of `tlb_poll` on a CPU. -/
def pollCpu (s : TlbState) (p : TlbCpu) : TlbCpu :=
  match p.poll with
  | .idle => { p with poll := .requested p.tlbRequest }
  | .requested r => { p with poll := if r ≠ p.tlbAck then .behind r else .idle }
  | .behind r => { p with poll := .invalidating r s.address }
  | .invalidating r va =>
    { p with cached := tlbInvalidate va p.cached, poll := .invalidated r va }
  | .invalidated r _ => { p with tlbAck := r, poll := .idle }

/-- The next step of `tlb_shootdown`; none while it waits for an acknowledgement. -/
def send (count : Nat) (s : TlbState) : Option TlbState :=
  match s.sender with
  | .idle => none
  | .counted c => some { s with address := c.va, sender := .scan c 0 }
  | .scan c i =>
    if i < count then
      if i = c.self ∨ !(s.cpus i).schedulerOnline then some { s with sender := .scan c (i + 1) }
      else some { s with sender := .post c i }
    else some { s with sender := .flush c }
  | .post c i =>
    let c' := { c with targets := c.targets ||| 1#32 <<< i }
    some { s.setCpu i { s.cpus i with tlbRequest := c.seq } with sender := .scan c' (i + 1) }
  | .flush c =>
    let p := s.cpus c.self
    some { s.setCpu c.self { p with cached := tlbInvalidate c.va p.cached } with
      sender := .wait c 0 }
  | .wait c i =>
    if i < count then
      if !c.isTarget i ∨ (s.cpus i).tlbAck = c.seq then some { s with sender := .wait c (i + 1) }
      else none
    else some { s with sender := .idle }

/-- One step; none if it is not enabled. -/
def step (count : Nat) (s : TlbState) : TlbAct → Option TlbState
  | .refill i page =>
    let p := s.cpus i
    some (s.setCpu i { p with cached := (page, s.table page) :: p.cached })
  | .evict i page =>
    let p := s.cpus i
    some (s.setCpu i { p with cached := p.cached.filter fun e => e.1 ≠ page })
  | .online i => some (s.setCpu i { s.cpus i with schedulerOnline := true })
  | .write page pte =>
    if s.sender = .idle then some { s with table := Function.update s.table page pte } else none
  | .poll i => some (s.setCpu i (s.pollCpu (s.cpus i)))
  | .call self va =>
    if s.sender = .idle then
      let seq := (s.sequence + 1) % 18446744073709551616
      some { s with sequence := seq, sender := .counted { self := self, va := va, seq := seq } }
    else none
  | .send => s.send count

end TlbState

/-! ## Histories -/

/-- The CPUs that were online at the last call, and what each CPU invalidated since. -/
structure TlbLog where
  online : Nat → Bool := fun _ => false
  done : List (Nat × Nat) := []

def TlbLog.record (g : TlbLog) (s : TlbState) : TlbAct → TlbLog
  | .call _ _ => { online := fun i => (s.cpus i).schedulerOnline, done := [] }
  | .poll i =>
    match (s.cpus i).poll with
    | .invalidating _ va => { g with done := (i, va) :: g.done }
    | _ => g
  | .send =>
    match s.sender with
    | .flush c => { g with done := (c.self, c.va) :: g.done }
    | _ => g
  | _ => g

/-- A step, with what was invalidated. -/
inductive TlbStep (count : Nat) : TlbState × TlbLog → TlbAct → TlbState × TlbLog → Prop
  | act {s t : TlbState} {g : TlbLog} {a : TlbAct} (h : s.step count a = some t) :
    TlbStep count (s, g) a (t, g.record s a)

end GenOS
