import Mathlib.Data.BitVec
import GenOS.Lib.Locking
import GenOS.Drivers.IoRequest

/-!
# The virtio transport

`drivers/virtio.c`, with what it calls of `io_request.c`, `virtio_irq.c`, `pci.c` and `pmm.c`. A
driver is a program over the state of both drivers (`Drv`): `withGuard` is `PREEMPT_GUARD`,
`withLock` is `DEVICE_LOCK_GUARD` and `withTryLock` is `DEVICE_TRY_GUARD`.

* The answers of a device while it is opened are a `Probe`. Every later answer of its ports, every
  time, every frame that the allocator finds and what other tasks are is an input.
* The rings of a queue are in DMA memory, where the device writes the used ring at any time. Other
  writes to DMA memory and writes to a port are left out, and what is read there is an input.
* The leaf locks of `irq_lock.h` (PCI, the IRQ registry, the PIC) touch neither count, and what
  they protect is an input too.
* `log` is not in the source: it records what was submitted, popped and stopped.
-/

namespace GenOS

open Locking

/-! ## State -/

/-- A device by its driver and index; each has one lock. -/
inductive Dev where
  | disk (index : Nat)
  | nic (index : Nat)
  deriving DecidableEq

/-- `struct pci_device`. -/
structure PciDevice where
  vendor : Nat := 0
  device : Nat := 0
  irq : Nat := 0
  header : Nat := 0
  bar0 : BitVec 32 := 0

/-- The answers of a PCI device while it is opened: whether it acknowledges a reset, its features,
and the size and address of its queues. -/
structure Probe where
  resetAck : Bool
  features : BitVec 32
  queueSize : Nat → BitVec 16
  queueAddress : Nat → BitVec 32

/-- Where a guard is taken, or a check stands that can trap. -/
inductive DriverSite where
  /-- `block_init`, with the PCI devices in order and what they answer. -/
  | blockInit (found : List (PciDevice × Probe))
  | netInit (found : List (PciDevice × Probe))
  | blockShutdown
  | netShutdown
  | ioCanBlock
  | taskIsDead
  | pmmAllocContiguousPages
  | pmmAllocPage
  | pmmFreePage
  /-- `if (!preempt_local_depth()) __builtin_trap();` -/
  | localDepth
  /-- The check of `virtio_irq_attach` and `virtio_irq_detach`. -/
  | pinned
  | abortError
  | virtioSubmit

/-- `struct virtio_queue`, with the rings that it points to. -/
structure VirtioQueue where
  physical : Nat := 0
  pages : Nat := 0
  size : Nat := 0
  available : Nat := 0
  consumed : Nat := 0
  outstanding : Nat := 0
  availRing : Nat → Nat := fun _ => 0
  availIdx : Nat := 0
  /-- The device writes this index and the `id` and `length` of the entries. -/
  usedIdx : Nat := 0
  usedRing : Nat → Nat × Nat := fun _ => (0, 0)

namespace VirtioQueue

/-- `virtio_submit`, after its check. -/
def submit (q : VirtioQueue) (descriptor : Nat) : VirtioQueue :=
  let available := (q.available + 1) % 65536
  { q with
    outstanding := (q.outstanding + 1) % 65536
    availRing := Function.update q.availRing (q.available % q.size) descriptor
    available := available
    availIdx := available }

/-- `available - q->consumed` in `virtio_pop`. -/
def count (q : VirtioQueue) : Nat := (q.usedIdx + 65536 - q.consumed) % 65536

/-- The entry that `virtio_pop` reads. -/
def entry (q : VirtioQueue) : Nat × Nat := q.usedRing (q.consumed % q.size)

/-- `virtio_pop`, after its checks. -/
def pop (q : VirtioQueue) : VirtioQueue :=
  { q with
    consumed := (q.consumed + 1) % 65536
    outstanding := (q.outstanding + 65535) % 65536 }

/-- The device writes an index and an entry. -/
def deviceWrite (q : VirtioQueue) (usedIdx cell id length : Nat) : VirtioQueue :=
  { q with
    usedIdx := usedIdx % 65536
    usedRing := Function.update q.usedRing cell (id % 4294967296, length % 4294967296) }

end VirtioQueue

/-- `struct virtio_device`. -/
structure VirtioDevice where
  pci : PciDevice := {}
  io : Nat := 0
  ready : Bool := false
  quarantined : Bool := false
  irqEnabled : Bool := false
  features : BitVec 32 := 0
  queue : Nat → VirtioQueue := fun _ => {}

/-- `struct block_info`. -/
structure BlockInfo where
  sectors : Nat := 0
  requests : Nat := 0
  errors : Nat := 0
  online : Bool := false
  readOnly : Bool := false
  canFlush : Bool := false

/-- `struct block_device`, without its transport. -/
structure BlockDevice where
  info : BlockInfo := {}
  physical : Nat := 0

/-- `struct net_info`. -/
structure NetInfo where
  transmitted : Nat := 0
  received : Nat := 0
  dropped : Nat := 0
  errors : Nat := 0
  mac : Nat := 0
  online : Bool := false
  linkUp : Bool := false

/-- `struct net_device`, without its transport. -/
structure NetDevice where
  info : NetInfo := {}
  rxPhysical : Nat := 0
  txPhysical : Nat := 0
  slots : Nat := 0

/-- `initialized` and the count of devices of a driver. -/
structure Lifecycle where
  initialized : Bool := false
  count : Nat := 0
  deriving DecidableEq

/-- What the driver of a device did; a token is the id of the request that held the device. -/
inductive DriverEvent where
  | submit (q descriptor token : Nat)
  | pop (q id length token : Nat)
  | stop

/-- The static variables of `block.c`, `net.c` and `io_request.c`. -/
structure Drivers where
  transport : Dev → VirtioDevice
  request : Dev → IoRequest
  disk : Nat → BlockDevice
  nic : Nat → NetDevice
  rxEpoch : Nat → Nat
  rxSeen : Nat → Nat
  disks : Lifecycle
  interfaces : Lifecycle
  nextId : Nat
  /-- What the drivers did, the last first. -/
  log : Dev → List DriverEvent

/-- After boot. -/
def Drivers.init : Drivers where
  transport _ := {}
  request _ := {}
  disk _ := {}
  nic _ := {}
  rxEpoch _ := 0
  rxSeen _ := 0
  disks := {}
  interfaces := {}
  nextId := 0
  log _ := []

/-! ## Programs -/

abbrev Drv : Type → Type := Prog Drivers Dev DriverSite

namespace Drv

def get : Drv Drivers := .access id .ret

def modify (f : Drivers → Drivers) : Drv Unit := .access f fun _ => .ret ()

/-- A value of `n` bits. -/
def input (n : Nat) : Drv Nat := Prog.input fun v => .ret (v % 2 ^ n)

/-- A truth value. -/
def inputFlag : Drv Bool := Prog.input fun v => .ret (v % 2 = 1)

def trap {α : Type} (site : DriverSite) : Drv α := Prog.trap site

/-- `if (!preempt_local_depth()) __builtin_trap();` -/
def checkLocal : Drv Unit := .depths fun _ l => if l = 0 then trap .localDepth else .ret ()

/-- `if (!preempt_depth() && !preempt_local_depth()) __builtin_trap();` -/
def checkPinned : Drv Unit :=
  .depths fun g l => if g = 0 ∧ l = 0 then trap .pinned else .ret ()

/-! ## State of one device -/

def setTransport (d : Dev) (f : VirtioDevice → VirtioDevice) : Drv Unit :=
  modify fun s => { s with transport := Function.update s.transport d (f (s.transport d)) }

def setQueue (d : Dev) (q : Nat) (f : VirtioQueue → VirtioQueue) : Drv Unit :=
  setTransport d fun t => { t with queue := Function.update t.queue q (f (t.queue q)) }

def setRequest (d : Dev) (f : IoRequest → IoRequest) : Drv Unit :=
  modify fun s => { s with request := Function.update s.request d (f (s.request d)) }

def setDisk (i : Nat) (f : BlockDevice → BlockDevice) : Drv Unit :=
  modify fun s => { s with disk := Function.update s.disk i (f (s.disk i)) }

def setNic (i : Nat) (f : NetDevice → NetDevice) : Drv Unit :=
  modify fun s => { s with nic := Function.update s.nic i (f (s.nic i)) }

def record (d : Dev) (e : Drivers → DriverEvent) : Drv Unit :=
  modify fun s => { s with log := Function.update s.log d (e s :: s.log d) }

/-! ## Requests -/

/-- `timer_get_ticks`. -/
def timerGetTicks : Drv Nat := input 64

/-- `virtio_irqs_enabled`. -/
def virtioIrqsEnabled : Drv Bool := inputFlag

/-- `io_service_ready`. -/
def ioServiceReady : Drv Bool := inputFlag

/-- `task_is_dead`. -/
def taskIsDead : Drv Bool := withGuard .taskIsDead inputFlag

/-- `io_can_block`. -/
def ioCanBlock : Drv Bool := do
  let enabled ← virtioIrqsEnabled
  .depths fun g l =>
    if enabled = false ∨ g ≠ 0 ∨ l ≠ 0 then pure false
    else withGuard .ioCanBlock inputFlag

/-- `io_request_cancel_waiter`. -/
def ioRequestCancelWaiter (d : Dev) (admission : Nat) : Drv Unit := do
  checkLocal
  setRequest d (·.cancelWaiter admission)

/-- `io_request_expire_waiters`. -/
def ioRequestExpireWaiters (d : Dev) : Drv Unit := do
  checkLocal
  let now ← timerGetTicks
  setRequest d (·.expireWaiters now)

/-- `io_request_cancel_waiters`. -/
def ioRequestCancelWaiters (d : Dev) : Drv Unit := do
  checkLocal
  setRequest d (·.cancelWaiters)

/-- `io_request_begin_owned`: the result, `*token` and `*admission`. -/
def ioRequestBeginOwned (d : Dev) (owner : Nat) (admission : Option Nat) (deadline : Nat) :
    Drv IoRequest.Begin := do
  checkLocal
  let now₁ ← timerGetTicks
  let now₂ ← timerGetTicks
  let now₃ ← timerGetTicks
  let run := fun s : Drivers =>
    (s.request d).beginOwned s.nextId owner admission deadline now₁ now₂ now₃
  .access
    (fun s => { s with
      request := Function.update s.request d (run s).request, nextId := (run s).nextId })
    fun s => .ret (run s)

/-- `io_request_complete`. -/
def ioRequestComplete (d : Dev) (result : Int) : Drv Unit := do
  checkLocal
  setRequest d (·.complete result)

/-- `io_request_abort`. -/
def ioRequestAbort (d : Dev) (error : Int) : Drv Unit := do
  checkLocal
  if 0 ≤ error then trap .abortError
  else setRequest d (·.abort error)

/-- `io_request_release`. -/
def ioRequestRelease (d : Dev) : Drv Unit := do
  checkLocal
  setRequest d (·.release)

/-- What a `submit_owned` leaves: its result, the id in `*token`, and `*admission`. -/
structure Submitted where
  result : Int
  token : Option Nat
  admission : Option Nat

/-! ## Frames -/

/-- `pmm_alloc_page`: a frame, or 0. -/
def pmmAllocPage : Drv Nat := withGuard .pmmAllocPage (input 64)

/-- `pmm_alloc_contiguous_pages`. -/
def pmmAllocContiguousPages (count : Nat) : Drv Nat :=
  withGuard .pmmAllocContiguousPages do
    let enough ← inputFlag
    if count = 0 ∨ enough = false then return 0
    if count = 1 then pmmAllocPage
    else input 64

/-- `pmm_free_page`. -/
def pmmFreePage : Drv Unit := withGuard .pmmFreePage (pure ())

/-- `virtio_dma_alloc`: `*physical`, 0 when it returns `NULL`. -/
def virtioDmaAlloc (pages : Nat) : Drv Nat := pmmAllocContiguousPages pages

/-- `virtio_dma_free`. -/
def virtioDmaFree (physical pages : Nat) : Drv Unit :=
  if physical = 0 then pure () else forLoop (fun _ => pmmFreePage) pages 0

/-! ## The transport -/

/-- `reset`, after the device has been opened. -/
def reset : Drv Bool := inputFlag

/-- What `virtio_open` wants of the PCI header. -/
def pciOk (pci : PciDevice) : Bool :=
  pci.vendor = 0x1af4 ∧ pci.bar0 &&& 1 ≠ 0 ∧ pci.bar0 &&& ~~~3 ≠ 0 ∧
    (pci.bar0 &&& ~~~3).toNat ≤ 0xffc0 ∧ pci.header = 0

/-- `virtio_open`. -/
def virtioOpen (d : Dev) (pci : PciDevice) (hw : Probe) (accepted : BitVec 32) : Drv Bool := do
  checkLocal
  setTransport d fun _ => {}
  if pciOk pci = false then return false
  setTransport d fun t => { t with pci := pci, io := (pci.bar0 &&& ~~~3).toNat }
  if hw.resetAck = false then
    setTransport d fun t => { t with quarantined := true }
    return false
  setTransport d fun t => { t with features := hw.features &&& accepted }
  return true

/-- What `virtio_queue_init` wants of a queue. -/
def queueOk (hw : Probe) (index : Nat) : Bool :=
  4 ≤ (hw.queueSize index).toNat ∧ (hw.queueSize index).toNat ≤ 1024 ∧
    hw.queueSize index &&& (hw.queueSize index - 1) = 0 ∧ hw.queueAddress index = 0

/-- `virtio_queue_init`. -/
def virtioQueueInit (d : Dev) (hw : Probe) (index : Nat) : Drv Bool := do
  let s ← get
  if 2 ≤ index ∨ ((s.transport d).queue index).physical ≠ 0 then return false
  if queueOk hw index = false then return false
  let size := (hw.queueSize index).toNat
  let usedOffset := (16 * size + 6 + 2 * size + 4095) / 4096 * 4096
  let pages := (usedOffset + 6 + 8 * size + 4095) / 4096
  setQueue d index fun q => { q with pages := pages }
  let physical ← virtioDmaAlloc pages
  setQueue d index fun q => { q with physical := physical }
  if physical = 0 then return false
  if 4294967295 < physical / 4096 then
    virtioDmaFree physical pages
    setQueue d index fun _ => {}
    return false
  setQueue d index fun q => { q with size := size }
  return true

/-- `virtio_irq_attach`. -/
def virtioIrqAttach : Drv Bool := do
  checkPinned
  inputFlag

/-- `virtio_irq_detach`. -/
def virtioIrqDetach : Drv Unit := checkPinned

/-- `virtio_ready`. -/
def virtioReady (d : Dev) : Drv Unit := do
  let irqEnabled ← virtioIrqAttach
  setTransport d fun t => { t with irqEnabled := irqEnabled, ready := true }

/-- One queue in the last loop of `virtio_stop`. -/
def virtioFreeQueue (d : Dev) (q : Nat) : Drv Unit := do
  let s ← get
  virtioDmaFree ((s.transport d).queue q).physical ((s.transport d).queue q).pages
  setQueue d q fun _ => {}

/-- `virtio_stop`. -/
def virtioStop (d : Dev) : Drv Bool := do
  record d fun _ => .stop
  setTransport d fun t => { t with ready := false }
  let s ← get
  if (s.transport d).io = 0 then return true
  virtioIrqDetach
  setTransport d fun t => { t with irqEnabled := false }
  let stopped ← reset
  if stopped = false then
    setTransport d fun t => { t with quarantined := true }
    return false
  virtioFreeQueue d 0
  virtioFreeQueue d 1
  return true

/-- `virtio_submit`. -/
def virtioSubmit (d : Dev) (q descriptor : Nat) : Drv Unit := do
  let s ← get
  let queue := (s.transport d).queue q
  if queue.size ≤ descriptor ∨ queue.size ≤ queue.outstanding then trap .virtioSubmit
  else
    setQueue d q (·.submit descriptor)
    record d fun s => .submit q descriptor (s.request d).id

/-- `virtio_pop`: the result, and the `id` and `length` in `*used`. -/
def virtioPop (d : Dev) (q : Nat) : Drv (Int × Nat × Nat) := do
  let s ← get
  let count := ((s.transport d).queue q).count
  if count = 0 then return (0, 0, 0)
  let s ← get
  let queue := (s.transport d).queue q
  if queue.outstanding < count then return (-1, 0, 0)
  let (id, length) := queue.entry
  if queue.size ≤ id then return (-1, id, length)
  setQueue d q (·.pop)
  record d fun s => .pop q id length (s.request d).id
  return (1, id, length)

/-- The device writes the used ring of a queue. -/
def virtioDevice (d : Dev) (q usedIdx cell id length : Nat) : Drv Unit :=
  setQueue d q (·.deviceWrite usedIdx cell id length)

/-- `virtio_read_config64`. -/
def virtioReadConfig64 : Drv Nat := input 64

/-- `virtio_config_changed`. -/
def virtioConfigChanged : Drv Bool := do
  checkLocal
  inputFlag

end Drv

end GenOS
