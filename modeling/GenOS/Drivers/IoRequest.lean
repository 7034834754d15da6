import Mathlib.Init

/-!
# Requests of a device

`drivers/io_request.c`. Each function runs under the lock of its device; what it checks of that is
in `Drivers.Device`. The array `waiters` with `waiter_count` is a list, and `wait_queue_signal` only
wakes. `bytes` and `operation` are set by `block.c`.
-/

namespace GenOS

/-! ## Results of a driver -/

abbrev driverOk : Int := 0
abbrev driverInvalid : Int := -1
abbrev driverOffline : Int := -2
abbrev driverReadOnly : Int := -3
abbrev driverIo : Int := -4
abbrev driverTimeout : Int := -5
abbrev driverUnsupported : Int := -6
abbrev driverBufferSmall : Int := -7
abbrev driverBusy : Int := -8
abbrev driverCanceled : Int := -9
abbrev driverPending : Int := 1

/-- `IO_WAITERS_MAX`. -/
abbrev ioWaitersMax : Nat := 32

/-- `struct io_admission`. -/
structure IoAdmission where
  id : Nat
  deadline : Nat
  deriving DecidableEq

/-- `struct io_request`. -/
structure IoRequest where
  id : Nat := 0
  started : Nat := 0
  bytes : Nat := 0
  operation : Nat := 0
  ownerPid : Nat := 0
  pending : Bool := false
  result : Int := 0
  waiters : List IoAdmission := []

/-- `allocate_id`: the counter after it, and the id, 0 when there is none left. -/
def allocateId (nextId : Nat) : Nat × Nat :=
  if nextId = 18446744073709551615 then (nextId, 0) else (nextId + 1, nextId + 1)

namespace IoRequest

/-- `io_request_cancel_waiter`. -/
def cancelWaiter (r : IoRequest) (admission : Nat) : IoRequest :=
  { r with waiters := r.waiters.eraseP fun w => w.id = admission }

/-- The loop of `io_request_expire_waiters`: each turn drops a waiter or passes one. -/
def expireLoop (now : Nat) : (fuel i : Nat) → IoRequest → IoRequest
  | 0, _, r => r
  | fuel + 1, i, r =>
    match r.waiters[i]? with
    | none => r
    | some w =>
      if w.deadline ≤ now then expireLoop now fuel i (r.cancelWaiter w.id)
      else expireLoop now fuel (i + 1) r

/-- `io_request_expire_waiters`. -/
def expireWaiters (r : IoRequest) (now : Nat) : IoRequest := expireLoop now r.waiters.length 0 r

/-- `io_request_cancel_waiters`. -/
def cancelWaiters (r : IoRequest) : IoRequest := { r with waiters := [] }

/-- What `io_request_begin_owned` leaves: the request, the counter of ids, `*admission`, the id in
`*token`, and its result. -/
structure Begin where
  request : IoRequest
  nextId : Nat
  admission : Option Nat
  token : Option Nat
  result : Int

/-- `io_request_begin_owned`, with the times that it reads. -/
def beginOwned (r : IoRequest) (nextId owner : Nat) (admission : Option Nat)
    (deadline now₁ now₂ now₃ : Nat) : Begin :=
  if decide (owner ≠ 0) ≠ admission.isSome then ⟨r, nextId, admission, none, driverInvalid⟩
  else
    let r := r.expireWaiters now₁
    let reserved := admission.getD 0
    if admission.isSome ∧ deadline ≤ now₂ then
      ⟨r.cancelWaiter reserved, nextId, admission, none, driverTimeout⟩
    else if reserved ≠ 0 ∧ ∀ w ∈ r.waiters, w.id ≠ reserved then
      ⟨r, nextId, admission, none, driverCanceled⟩
    else if r.id ≠ 0 ∨ ∃ w ∈ r.waiters.head?, w.id ≠ reserved then
      if admission.isSome ∧ reserved = 0 ∧ r.waiters.length < ioWaitersMax then
        match allocateId nextId with
        | (nextId, 0) => ⟨r, nextId, admission, none, driverInvalid⟩
        | (nextId, id) =>
          ⟨{ r with waiters := r.waiters ++ [⟨id, deadline⟩] }, nextId, some id, none, driverBusy⟩
      else ⟨r, nextId, admission, none, driverBusy⟩
    else
      match if reserved ≠ 0 then (nextId, reserved) else allocateId nextId with
      | (nextId, 0) => ⟨r, nextId, admission, none, driverInvalid⟩
      | (nextId, id) =>
        let r := if reserved ≠ 0 then r.cancelWaiter reserved else r
        ⟨{ r with
            id := id, started := now₃, ownerPid := owner, pending := true,
            result := driverPending },
          nextId, if reserved ≠ 0 then some 0 else admission, some id, driverOk⟩

/-- `io_request_complete`. -/
def complete (r : IoRequest) (result : Int) : IoRequest :=
  if r.pending then { r with result := result, pending := false } else r

/-- `io_request_abort`. -/
def abort (r : IoRequest) (error : Int) : IoRequest :=
  if r.id = 0 then r else { r with result := error, pending := false }

/-- `io_request_release`. -/
def release (r : IoRequest) : IoRequest := { r with id := 0, pending := false, ownerPid := 0 }

/-- `io_request_matches`. -/
def isFor (r : IoRequest) (token : Nat) : Bool := token ≠ 0 ∧ r.id = token

end IoRequest

end GenOS
