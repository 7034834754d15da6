import GenOS.Drivers.Virtio

/-!
# The network driver

`drivers/net.c`. A pointer argument is whether it is not `NULL`. The blocking calls run
`io_can_block` and the parts below, and wait between them with no lock: `net_send` runs
`submitOwned`, `cancelWaiter` and `netCollect`, `net_receive_wait` runs `rxEpoch` and `receiveTurn`.
-/

namespace GenOS.Net

open Locking Drv

abbrev netMac : BitVec 32 := 1 <<< 5
abbrev netStatus : BitVec 32 := 1 <<< 16
abbrev rxSlots : Nat := 32
abbrev rxBytes : Nat := 2048
abbrev rxPages : Nat := 16
abbrev headerBytes : Nat := 10
abbrev netFrameMax : Nat := 1514

/-- `stop`. -/
def stop (i : Nat) : Drv Bool := do
  ioRequestCancelWaiters (.nic i)
  ioRequestComplete (.nic i) driverCanceled
  modify fun s => { s with
    rxEpoch := Function.update s.rxEpoch i ((s.rxEpoch i + 1) % 2 ^ 64) }
  setNic i fun nic => { nic with info := { nic.info with online := false, linkUp := false } }
  let stopped ← virtioStop (.nic i)
  if stopped = false then return false
  let s ← get
  virtioDmaFree (s.nic i).rxPhysical rxPages
  virtioDmaFree (s.nic i).txPhysical 1
  setNic i fun nic => { nic with rxPhysical := 0, txPhysical := 0 }
  return true

/-- `link_status`. -/
def linkStatus (i : Nat) : Drv Unit := do
  let up ← inputFlag
  modify fun s =>
    let nic := s.nic i
    let linkUp := nic.info.online && ((s.transport (.nic i)).features &&& netStatus = 0 || up)
    { s with nic :=
      Function.update s.nic i { nic with info := { nic.info with linkUp := linkUp } } }

/-! ## Start -/

/-- A turn of the loop of `net_init` up to `goto failed`, where it returns `false`. -/
def setUp (i : Nat) (pci : PciDevice) (hw : Probe) : Drv Bool := do
  setNic i fun _ => {}
  setTransport (.nic i) fun _ => {}
  let opened ← virtioOpen (.nic i) pci hw (netMac ||| netStatus)
  if opened = false then return false
  let s ← get
  if (s.transport (.nic i)).features &&& netMac = 0 then return false
  let receives ← virtioQueueInit (.nic i) hw 0
  if receives = false then return false
  let sends ← virtioQueueInit (.nic i) hw 1
  if sends = false then return false
  let rx ← virtioDmaAlloc rxPages
  setNic i fun nic => { nic with rxPhysical := rx }
  let tx ← virtioDmaAlloc 1
  setNic i fun nic => { nic with txPhysical := tx }
  if rx = 0 ∨ tx = 0 then return false
  let mac ← input 48
  setNic i fun nic => { nic with info := { nic.info with mac := mac } }
  let s ← get
  let slots := min ((s.transport (.nic i)).queue 0).size rxSlots
  setNic i fun nic => { nic with slots := slots }
  forLoop (virtioSubmit (.nic i) 0) slots 0
  virtioReady (.nic i)
  setNic i fun nic => { nic with info := { nic.info with online := true } }
  modify fun s => { s with rxSeen := Function.update s.rxSeen i 0 }
  linkStatus i
  return true

/-- What `net_init` takes of the PCI devices. -/
def isNic (pci : PciDevice) : Bool := pci.vendor = 0x1af4 ∧ pci.device = 0x1000

/-- A turn of the loop of `net_init` that has found an interface. -/
def addNic (i : Nat) (pci : PciDevice) (hw : Probe) : Drv Unit :=
  withLock (.nic i) do
    let ok ← setUp i pci hw
    let _ ← (if ok then pure true else stop i)
    modify fun s => { s with interfaces := { s.interfaces with count := i + 1 } }

/-- The loop of `net_init`. -/
def initLoop : List (PciDevice × Probe) → Drv Unit
  | [] => pure ()
  | (pci, hw) :: found => do
    let s ← get
    if 2 ≤ s.interfaces.count then return ()
    (if isNic pci then addNic s.interfaces.count pci hw else pure ())
    initLoop found

/-- `net_init`. -/
def netInit (found : List (PciDevice × Probe)) : Drv Unit :=
  withGuard (.netInit found) do
    let s ← get
    if s.interfaces.initialized then return ()
    modify fun s => { s with interfaces := { s.interfaces with initialized := true } }
    initLoop found

/-! ## Requests -/

/-- `net_get_info`. -/
def netGetInfo (i : Nat) (out : Bool) : Drv (Int × Option NetInfo) := do
  if out = false ∨ 2 ≤ i then return (driverInvalid, none)
  withLock (.nic i) do
    let s ← get
    if s.interfaces.count ≤ i then return (driverInvalid, none)
    linkStatus i
    let s ← get
    return (driverOk, some (s.nic i).info)

/-- `submit_owned`, under the lock. -/
def submitLocked (i owner : Nat) (admission : Option Nat) (deadline : Nat) : Drv Submitted := do
  let s ← get
  if s.interfaces.count ≤ i then return ⟨driverInvalid, none, admission⟩
  linkStatus i
  let s ← get
  let info := (s.nic i).info
  let ready ← ioServiceReady
  if info.online = false ∨ info.linkUp = false ∨ ready = false then
    return ⟨driverOffline, none, admission⟩
  let b ← ioRequestBeginOwned (.nic i) owner admission deadline
  if b.result ≠ driverOk then return ⟨b.result, b.token, b.admission⟩
  virtioSubmit (.nic i) 1 0
  return ⟨driverOk, b.token, b.admission⟩

/-- `submit_owned`. -/
def submitOwned (i : Nat) (frame : Bool) (length : Nat) (token : Bool) (owner : Nat)
    (admission : Option Nat) (deadline : Nat) : Drv Submitted := do
  let enabled ← virtioIrqsEnabled
  if enabled = false ∨ frame = false ∨ length < 14 ∨ netFrameMax < length then
    return ⟨driverInvalid, none, admission⟩
  if 2 ≤ i ∨ token = false then return ⟨driverInvalid, none, admission⟩
  withLock (.nic i) (submitLocked i owner admission deadline)

/-- `net_submit`. -/
def netSubmit (i : Nat) (frame : Bool) (length : Nat) (token : Bool) : Drv Submitted :=
  submitOwned i frame length token 0 none 0

/-- The end of the first loop of `net_send`. -/
def cancelWaiter (i admission : Nat) : Drv Unit :=
  withLock (.nic i) (ioRequestCancelWaiter (.nic i) admission)

/-- An error of the interface is counted. -/
def countError (i : Nat) : Drv Unit :=
  setNic i fun nic => { nic with
    info := { nic.info with errors := (nic.info.errors + 1) % 2 ^ 64 } }

/-- `poll_request`. -/
def pollRequest (i : Nat) : Drv Unit := do
  let s ← get
  let r := s.request (.nic i)
  if r.pending = false then return ()
  let (result, id, _) ← virtioPop (.nic i) 1
  let now ← timerGetTicks
  if result = 0 ∧ (now + 2 ^ 64 - r.started) % 2 ^ 64 < 500 then return ()
  if result ≠ 1 ∨ id ≠ 0 then
    countError i
    ioRequestComplete (.nic i) (if result = 0 then driverTimeout else driverIo)
    let _ ← stop i
    return ()
  setNic i fun nic => { nic with
    info := { nic.info with transmitted := (nic.info.transmitted + 1) % 2 ^ 64 } }
  ioRequestComplete (.nic i) driverOk

/-- `if (r->pending) stop(nic);` -/
def stopPending (i : Nat) : Drv Unit := do
  let s ← get
  if (s.request (.nic i)).pending = false then return ()
  let _ ← stop i
  return ()

/-- `net_service` for a request whose owner is dead. -/
def releaseDead (i id owner : Nat) (dead : Bool) : Drv Unit := do
  let s ← get
  let r := s.request (.nic i)
  if dead = false ∨ r.id ≠ id ∨ r.ownerPid ≠ owner then return ()
  stopPending i
  ioRequestRelease (.nic i)

/-- The end of a turn of the loop of `net_service`: configuration and received frames. -/
def pollReceived (i : Nat) : Drv Unit := do
  let s ← get
  if (s.nic i).info.online = false then return ()
  let changed ← virtioConfigChanged
  (if changed then linkStatus i else pure ())
  let s ← get
  let used := ((s.transport (.nic i)).queue 0).usedIdx
  modify fun s => { s with rxSeen := Function.update s.rxSeen i used }

/-- A turn of the loop of `net_service` up to its first unlock: the id and the owner. -/
def serviceSnapshot (i : Nat) : Drv (Option (Nat × Nat)) :=
  withTryLock (.nic i) none do
    ioRequestExpireWaiters (.nic i)
    let s ← get
    let r := s.request (.nic i)
    return some (r.id, r.ownerPid)

/-- A turn of the loop of `net_service`. -/
def serviceTurn (i : Nat) : Drv Unit := do
  let snapshot ← serviceSnapshot i
  match snapshot with
  | none => return ()
  | some (id, owner) =>
    let dead ← (if owner = 0 then pure false else taskIsDead)
    withTryLock (.nic i) () do
      releaseDead i id owner dead
      pollRequest i
      pollReceived i

/-- `net_service`. -/
def netService : Drv Unit := do
  let s ← get
  forLoop serviceTurn s.interfaces.count 0

/-- `net_collect`, under the lock. -/
def collectLocked (i id : Nat) : Drv Int := do
  let s ← get
  if (s.request (.nic i)).isFor id = false then return driverCanceled
  pollRequest i
  let s ← get
  let r := s.request (.nic i)
  if r.isFor id = false then return driverCanceled
  if r.pending then return driverPending
  ioRequestRelease (.nic i)
  return r.result

/-- `net_collect`, for the token `⟨id, i⟩`. -/
def netCollect (i id : Nat) : Drv Int := do
  if 2 ≤ i ∨ id = 0 then return driverInvalid
  withLock (.nic i) (collectLocked i id)

/-- `net_cancel`. -/
def netCancel (i id : Nat) : Drv Int := do
  if 2 ≤ i ∨ id = 0 then return driverInvalid
  withLock (.nic i) do
    let s ← get
    if (s.request (.nic i)).isFor id = false then return driverCanceled
    stopPending i
    ioRequestRelease (.nic i)
    return driverOk

/-! ## Frames received -/

/-- What `receive_locked` returns, the places and lengths of the DMA memory that it reads, and the
count of bytes that it writes to the caller. -/
structure Received where
  result : Int
  reads : List (Nat × Nat) := []
  written : Nat := 0

/-- `receive_locked` for a frame of `length` bytes with its header, whose first two bytes are 0 if
`plain`. -/
def frameResult (length capacity : Nat) (plain : Bool) : Int :=
  if length < headerBytes + 14 ∨ headerBytes + netFrameMax < length ∨ plain = false then driverIo
  else if capacity < length - headerBytes then driverBufferSmall
  else length - headerBytes

/-- `length < HEADER_BYTES + 14 || length > HEADER_BYTES + NET_FRAME_MAX`, before the header is
read. -/
def badLength (length : Nat) : Bool := length < headerBytes + 14 ∨
    headerBytes + netFrameMax < length

/-- `receive_locked`. -/
def receiveLocked (i capacity : Nat) : Drv Received := do
  let s ← get
  if s.interfaces.count ≤ i then return ⟨driverInvalid, [], 0⟩
  let s ← get
  if (s.nic i).info.online = false then return ⟨driverOffline, [], 0⟩
  let (result, id, length) ← virtioPop (.nic i) 0
  if result = 0 then return ⟨0, [], 0⟩
  let s ← get
  if result < 0 ∨ (s.nic i).slots ≤ id then
    countError i
    let _ ← stop i
    return ⟨driverIo, [], 0⟩
  let data := (s.nic i).rxPhysical + id * rxBytes
  let plain ← inputFlag
  let result := frameResult length capacity plain
  setNic i fun nic => { nic with
    info := { nic.info with
      received := if result < 0 then nic.info.received else (nic.info.received + 1) % 2 ^ 64
      dropped := if result < 0 then (nic.info.dropped + 1) % 2 ^ 64 else nic.info.dropped } }
  virtioSubmit (.nic i) 0 id
  let header := if badLength length then [] else [(data, 2)]
  let copy := if result < 0 then [] else [(data + headerBytes, result.toNat)]
  return ⟨result, header ++ copy, result.toNat⟩

/-- `net_receive`. -/
def netReceive (i : Nat) (frame : Bool) (capacity : Nat) : Drv Received := do
  let enabled ← virtioIrqsEnabled
  if enabled = false ∨ frame = false ∨ capacity = 0 ∨ 2 ≤ i then return ⟨driverInvalid, [], 0⟩
  withLock (.nic i) (receiveLocked i capacity)

/-- The first locked part of `net_receive_wait`. -/
def rxEpoch (i : Nat) : Drv Nat :=
  withLock (.nic i) do
    let s ← get
    return s.rxEpoch i

/-- A turn of the loop of `net_receive_wait`: what it returns, or `none` when it waits. -/
def receiveTurn (i epoch capacity : Nat) : Drv (Option Int) :=
  withLock (.nic i) do
    let s ← get
    if epoch ≠ s.rxEpoch i then return some driverCanceled
    let received ← receiveLocked i capacity
    if received.result ≠ 0 then return some received.result
    linkStatus i
    let s ← get
    if (s.nic i).info.linkUp = false then return some driverOffline
    return none

/-! ## Shutdown -/

/-- The loop of `net_shutdown`: whether all interfaces have stopped. -/
def shutdownLoop : (n i : Nat) → Drv Bool
  | 0, _ => pure true
  | n + 1, i => do
    let stopped ← withLock (.nic i) do
      let stopped ← stop i
      ioRequestRelease (.nic i)
      return stopped
    let others ← shutdownLoop n (i + 1)
    return stopped && others

/-- `net_shutdown`. -/
def netShutdown : Drv Int :=
  withGuard .netShutdown do
    let s ← get
    let stopped ← shutdownLoop s.interfaces.count 0
    if stopped = false then return driverIo
    modify fun s => { s with interfaces := { initialized := false, count := 0 } }
    return driverOk

end GenOS.Net
