import GenOS.Drivers.Virtio

/-!
# The disk driver

`drivers/block.c`. A pointer argument is whether it is not `NULL`. The blocking calls (`request`)
run `io_can_block`, `submitOwned`, `cancelWaiter` and `blockCollect`, and wait between them with no
lock.
-/

namespace GenOS.Block

open Locking Drv

abbrev blkRo : BitVec 32 := 1 <<< 5
abbrev blkFlush : BitVec 32 := 1 <<< 9
abbrev blockSectorSize : Nat := 512
abbrev blockMaxSectors : Nat := 8

/-- `stop`. -/
def stop (i : Nat) : Drv Bool := do
  ioRequestCancelWaiters (.disk i)
  let s ← get
  (if (s.request (.disk i)).result = driverOk then ioRequestAbort (.disk i) driverCanceled
    else ioRequestComplete (.disk i) driverCanceled)
  setDisk i fun disk => { disk with info := { disk.info with online := false } }
  let stopped ← virtioStop (.disk i)
  if stopped = false then return false
  let s ← get
  virtioDmaFree (s.disk i).physical 2
  setDisk i fun disk => { disk with physical := 0 }
  return true

/-! ## Start -/

/-- A turn of the loop of `block_init` up to `goto failed`, where it returns `false`. -/
def setUp (i : Nat) (pci : PciDevice) (hw : Probe) : Drv Bool := do
  setDisk i fun _ => {}
  setTransport (.disk i) fun _ => {}
  let opened ← virtioOpen (.disk i) pci hw (blkRo ||| blkFlush)
  if opened = false then return false
  let queued ← virtioQueueInit (.disk i) hw 0
  if queued = false then return false
  let sectors ← virtioReadConfig64
  setDisk i fun disk => { disk with info := { disk.info with sectors := sectors } }
  if sectors = 0 then return false
  let physical ← virtioDmaAlloc 2
  setDisk i fun disk => { disk with physical := physical }
  if physical = 0 then return false
  let s ← get
  let features := (s.transport (.disk i)).features
  setDisk i fun disk => { disk with
    info := { disk.info with
      readOnly := features &&& blkRo ≠ 0, canFlush := features &&& blkFlush ≠ 0 } }
  virtioReady (.disk i)
  setDisk i fun disk => { disk with info := { disk.info with online := true } }
  return true

/-- What `block_init` takes of the PCI devices. -/
def isDisk (pci : PciDevice) : Bool := pci.vendor = 0x1af4 ∧ pci.device = 0x1001

/-- A turn of the loop of `block_init` that has found a disk. -/
def addDisk (i : Nat) (pci : PciDevice) (hw : Probe) : Drv Unit :=
  withLock (.disk i) do
    let ok ← setUp i pci hw
    let _ ← (if ok then pure true else stop i)
    modify fun s => { s with disks := { s.disks with count := i + 1 } }

/-- The loop of `block_init`. -/
def initLoop : List (PciDevice × Probe) → Drv Unit
  | [] => pure ()
  | (pci, hw) :: found => do
    let s ← get
    if 2 ≤ s.disks.count then return ()
    (if isDisk pci then addDisk s.disks.count pci hw else pure ())
    initLoop found

/-- `block_init`. -/
def blockInit (found : List (PciDevice × Probe)) : Drv Unit :=
  withGuard (.blockInit found) do
    let s ← get
    if s.disks.initialized then return ()
    modify fun s => { s with disks := { s.disks with initialized := true } }
    initLoop found

/-! ## Requests -/

/-- `block_get_info`. -/
def blockGetInfo (i : Nat) (out : Bool) : Drv (Int × Option BlockInfo) := do
  if 2 ≤ i ∨ out = false then return (driverInvalid, none)
  withLock (.disk i) do
    let s ← get
    if s.disks.count ≤ i then return (driverInvalid, none)
    return (driverOk, some (s.disk i).info)

/-- `check_configuration`. -/
def checkConfiguration (i : Nat) : Drv Unit := do
  let s ← get
  if (s.disk i).info.online = false then return ()
  let changed ← virtioConfigChanged
  if changed = false then return ()
  let sectors ← virtioReadConfig64
  let s ← get
  if sectors = (s.disk i).info.sectors then return ()
  ioRequestAbort (.disk i) driverIo
  let _ ← stop i
  return ()

/-- `submit_owned`, under the lock. -/
def submitLocked (i type sector count : Nat) (buffer : Bool) (owner : Nat)
    (admission : Option Nat) (deadline : Nat) : Drv Submitted := do
  let s ← get
  if s.disks.count ≤ i then return ⟨driverInvalid, none, admission⟩
  checkConfiguration i
  let s ← get
  let info := (s.disk i).info
  let ready ← ioServiceReady
  if info.online = false ∨ ready = false then return ⟨driverOffline, none, admission⟩
  if type ≠ 4 ∧ ((type = 1 ∧ buffer = false) ∨ count = 0 ∨ blockMaxSectors < count ∨
      info.sectors ≤ sector ∨ info.sectors - sector < count) then
    return ⟨driverInvalid, none, admission⟩
  if type = 4 ∧ (sector ≠ 0 ∨ count ≠ 0 ∨ buffer) then return ⟨driverInvalid, none, admission⟩
  if type = 1 ∧ info.readOnly then return ⟨driverReadOnly, none, admission⟩
  if type = 4 ∧ info.canFlush = false then return ⟨driverUnsupported, none, admission⟩
  let b ← ioRequestBeginOwned (.disk i) owner admission deadline
  if b.result ≠ driverOk then return ⟨b.result, b.token, b.admission⟩
  setRequest (.disk i) fun r => { r with operation := type, bytes := count * blockSectorSize }
  virtioSubmit (.disk i) 0 0
  setDisk i fun disk => { disk with
    info := { disk.info with requests := (disk.info.requests + 1) % 2 ^ 64 } }
  return ⟨driverOk, b.token, b.admission⟩

/-- `submit_owned`. -/
def submitOwned (i type sector count : Nat) (buffer token : Bool) (owner : Nat)
    (admission : Option Nat) (deadline : Nat) : Drv Submitted := do
  let enabled ← virtioIrqsEnabled
  if enabled = false then return ⟨driverInvalid, none, admission⟩
  if 2 ≤ i ∨ token = false ∨ (type ≠ 0 ∧ type ≠ 1 ∧ type ≠ 4) then
    return ⟨driverInvalid, none, admission⟩
  withLock (.disk i) (submitLocked i type sector count buffer owner admission deadline)

/-- `block_submit`. -/
def blockSubmit (i type sector count : Nat) (buffer token : Bool) : Drv Submitted :=
  submitOwned i type sector count buffer token 0 none 0

/-- The end of the first loop of `request`. -/
def cancelWaiter (i admission : Nat) : Drv Unit :=
  withLock (.disk i) (ioRequestCancelWaiter (.disk i) admission)

/-- An error of a request is counted. -/
def countError (i : Nat) : Drv Unit :=
  setDisk i fun disk => { disk with
    info := { disk.info with errors := (disk.info.errors + 1) % 2 ^ 64 } }

/-- `poll_request`. -/
def pollRequest (i : Nat) : Drv Unit := do
  let s ← get
  let r := s.request (.disk i)
  if r.pending = false then return ()
  let (result, id, _) ← virtioPop (.disk i) 0
  let now ← timerGetTicks
  if result = 0 ∧ (now + 2 ^ 64 - r.started) % 2 ^ 64 < 500 then return ()
  let status ← input 8
  if result ≠ 1 ∨ id ≠ 0 ∨ 2 < status then
    countError i
    ioRequestComplete (.disk i) (if result = 0 then driverTimeout else driverIo)
    let _ ← stop i
    return ()
  if status ≠ 0 then
    countError i
    ioRequestComplete (.disk i) (if status = 2 then driverUnsupported else driverIo)
    return ()
  ioRequestComplete (.disk i) driverOk

/-- `service_disk`. -/
def serviceDisk (i : Nat) : Drv Unit := do
  ioRequestExpireWaiters (.disk i)
  checkConfiguration i
  pollRequest i

/-- `if (r->pending) stop(disk);` -/
def stopPending (i : Nat) : Drv Unit := do
  let s ← get
  if (s.request (.disk i)).pending = false then return ()
  let _ ← stop i
  return ()

/-- `block_service` for a request whose owner is dead. -/
def releaseDead (i id owner : Nat) (dead : Bool) : Drv Unit := do
  let s ← get
  let r := s.request (.disk i)
  if dead = false ∨ r.id ≠ id ∨ r.ownerPid ≠ owner then return ()
  stopPending i
  ioRequestRelease (.disk i)

/-- A turn of the loop of `block_service` up to its first unlock: the id and the owner. -/
def serviceSnapshot (i : Nat) : Drv (Option (Nat × Nat)) :=
  withTryLock (.disk i) none do
    let s ← get
    let r := s.request (.disk i)
    if r.ownerPid ≠ 0 then return some (r.id, r.ownerPid)
    serviceDisk i
    return none

/-- A turn of the loop of `block_service`. -/
def serviceTurn (i : Nat) : Drv Unit := do
  let snapshot ← serviceSnapshot i
  match snapshot with
  | none => return ()
  | some (id, owner) =>
    let dead ← taskIsDead
    withTryLock (.disk i) () do
      releaseDead i id owner dead
      serviceDisk i

/-- `block_service`. -/
def blockService : Drv Unit := do
  let s ← get
  forLoop serviceTurn s.disks.count 0

/-- `block_collect`, under the lock: the result, and the place and length of the bytes that it
copies. -/
def collectLocked (i id : Nat) (buffer : Bool) (capacity : Nat) :
    Drv (Int × Option (Nat × Nat)) := do
  let s ← get
  if (s.request (.disk i)).isFor id = false then return (driverCanceled, none)
  serviceDisk i
  let s ← get
  let r := s.request (.disk i)
  if r.isFor id = false then return (driverCanceled, none)
  if r.pending then return (driverPending, none)
  let reads := r.result = driverOk ∧ r.operation = 0
  if reads ∧ (buffer = false ∨ capacity < r.bytes) then return (driverBufferSmall, none)
  ioRequestRelease (.disk i)
  return (r.result, if reads then some ((s.disk i).physical + 4096, r.bytes) else none)

/-- `block_collect`, for the token `⟨id, i⟩`. -/
def blockCollect (i id : Nat) (buffer : Bool) (capacity : Nat) :
    Drv (Int × Option (Nat × Nat)) := do
  if 2 ≤ i ∨ id = 0 then return (driverInvalid, none)
  withLock (.disk i) (collectLocked i id buffer capacity)

/-- `block_cancel`. -/
def blockCancel (i id : Nat) : Drv Int := do
  if 2 ≤ i ∨ id = 0 then return driverInvalid
  withLock (.disk i) do
    let s ← get
    if (s.request (.disk i)).isFor id = false then return driverCanceled
    stopPending i
    ioRequestRelease (.disk i)
    return driverOk

/-! ## Shutdown -/

/-- The loop of `block_shutdown`: whether all disks have stopped. -/
def shutdownLoop : (n i : Nat) → Drv Bool
  | 0, _ => pure true
  | n + 1, i => do
    let stopped ← withLock (.disk i) do
      let stopped ← stop i
      ioRequestRelease (.disk i)
      return stopped
    let others ← shutdownLoop n (i + 1)
    return stopped && others

/-- `block_shutdown`. -/
def blockShutdown : Drv Int :=
  withGuard .blockShutdown do
    let s ← get
    let stopped ← shutdownLoop s.disks.count 0
    if stopped = false then return driverIo
    modify fun s => { s with disks := { initialized := false, count := 0 } }
    return driverOk

end GenOS.Block
