import GenOS.Lib.Sequential
import GenOS.Drivers.Admission
import GenOS.Drivers.Virtqueue

/-!
# One device under its lock

A section of a driver is what it does under the lock of one device `d`. It runs alone on the state
of that device (`Drivers.view`), and what it leaves is `s.put d v`. The rules give for each function
that the two drivers share what it does to `v`. Frames are found or not, and released, with no other
effect; the mutation guard is not looked at.
-/

namespace GenOS

open Locking Prog Drv

/-! ## The state of a device -/

/-- The state that the lock of a device protects, and `next_id`. -/
structure DeviceState where
  transport : VirtioDevice
  request : IoRequest
  log : List DriverEvent
  nextId : Nat
  disk : BlockDevice := {}
  nic : NetDevice := {}
  rxEpoch : Nat := 0
  rxSeen : Nat := 0

namespace Drivers

def view (s : Drivers) (d : Dev) : DeviceState :=
  match d with
  | .disk i => ⟨s.transport d, s.request d, s.log d, s.nextId, s.disk i, {}, 0, 0⟩
  | .nic i => ⟨s.transport d, s.request d, s.log d, s.nextId, {}, s.nic i, s.rxEpoch i, s.rxSeen i⟩

def put (s : Drivers) (d : Dev) (v : DeviceState) : Drivers :=
  { s with
    transport := Function.update s.transport d v.transport
    request := Function.update s.request d v.request
    log := Function.update s.log d v.log
    nextId := v.nextId
    disk := match d with
      | .disk i => Function.update s.disk i v.disk
      | .nic _ => s.disk
    nic := match d with
      | .disk _ => s.nic
      | .nic i => Function.update s.nic i v.nic
    rxEpoch := match d with
      | .disk _ => s.rxEpoch
      | .nic i => Function.update s.rxEpoch i v.rxEpoch
    rxSeen := match d with
      | .disk _ => s.rxSeen
      | .nic i => Function.update s.rxSeen i v.rxSeen }

variable (s : Drivers) (d : Dev) (v : DeviceState) (i : Nat)

theorem put_view : s.put d (s.view d) = s := by
  cases d <;> simp [put, view]

@[simp] theorem put_transport : (s.put d v).transport d = v.transport := Function.update_self ..
@[simp] theorem put_request : (s.put d v).request d = v.request := Function.update_self ..
@[simp] theorem put_log : (s.put d v).log d = v.log := Function.update_self ..
@[simp] theorem put_nextId : (s.put d v).nextId = v.nextId := rfl
@[simp] theorem put_disk : (s.put (.disk i) v).disk i = v.disk := Function.update_self ..
@[simp] theorem put_nic : (s.put (.nic i) v).nic i = v.nic := Function.update_self ..
@[simp] theorem put_rxEpoch : (s.put (.nic i) v).rxEpoch i = v.rxEpoch := Function.update_self ..
@[simp] theorem put_rxSeen : (s.put (.nic i) v).rxSeen i = v.rxSeen := Function.update_self ..
@[simp] theorem put_disks : (s.put d v).disks = s.disks := rfl
@[simp] theorem put_interfaces : (s.put d v).interfaces = s.interfaces := rfl

/-- The other devices are as they were. -/
theorem view_put_ne {e : Dev} (h : e ≠ d) :
    (s.put d v).view e = { s.view e with nextId := v.nextId } := by
  cases d <;> cases e <;>
    simp_all [put, view, Function.update_of_ne]

end Drivers

/-! ## Rules -/

section Rules

variable {E : DriverSite → Prop} {g : Nat} {α : Type} {d : Dev} {s : Drivers} {v : DeviceState}
  {i : Nat} {Q : Unit → Drivers → Prop}

/-- Only what `I` says of the state is kept. -/
theorem after_forget {p : Drv α} {Q : α → Drivers → Prop} (I : DeviceState → Prop) (hI : I v)
    (h : ∀ w, I w → p.after E g 1 Q (s.put d w)) : p.after E g 1 Q (s.put d v) :=
  h v hI

theorem after_get {f : Drivers → Drv α} {Q : α → Drivers → Prop} :
    (Drv.get >>= f).after E g 1 Q s ↔ (f s).after E g 1 Q s := Iff.rfl

theorem after_input {n : Nat} {Q : Nat → Drivers → Prop} (h : ∀ m, Q m s) :
    (Drv.input n).after E g 1 Q s := fun _ => h _

theorem after_inputFlag {Q : Bool → Drivers → Prop} (h : ∀ b, Q b s) :
    inputFlag.after E g 1 Q s := fun _ => h _

theorem after_setTransport {f : VirtioDevice → VirtioDevice}
    (h : Q () (s.put d { v with transport := f v.transport })) :
    (setTransport d f).after E g 1 Q (s.put d v) := by
  have hput : s.put d { v with transport := f v.transport } =
      { s.put d v with
        transport := Function.update (s.put d v).transport d (f ((s.put d v).transport d)) } := by
    simp [Drivers.put]
  rw [hput] at h
  exact h

theorem after_setRequest {f : IoRequest → IoRequest}
    (h : Q () (s.put d { v with request := f v.request })) :
    (setRequest d f).after E g 1 Q (s.put d v) := by
  have hput : s.put d { v with request := f v.request } =
      { s.put d v with
        request := Function.update (s.put d v).request d (f ((s.put d v).request d)) } := by
    simp [Drivers.put]
  rw [hput] at h
  exact h

theorem after_setNic {f : NetDevice → NetDevice}
    (h : Q () (s.put (.nic i) { v with nic := f v.nic })) :
    (setNic i f).after E g 1 Q (s.put (.nic i) v) := by
  have hput : s.put (.nic i) { v with nic := f v.nic } =
      { s.put (.nic i) v with
        nic := Function.update (s.put (.nic i) v).nic i (f ((s.put (.nic i) v).nic i)) } := by
    simp [Drivers.put]
  rw [hput] at h
  exact h

theorem after_record {e : Drivers → DriverEvent}
    (h : Q () (s.put d { v with log := e (s.put d v) :: v.log })) :
    (record d e).after E g 1 Q (s.put d v) := by
  have hput : s.put d { v with log := e (s.put d v) :: v.log } =
      { s.put d v with
        log := Function.update (s.put d v).log d (e (s.put d v) :: (s.put d v).log d) } := by
    simp [Drivers.put]
  rw [hput] at h
  exact h

theorem after_setQueue {q : Nat} {f : VirtioQueue → VirtioQueue}
    (h : Q () (s.put d { v with transport := { v.transport with
      queue := Function.update v.transport.queue q (f (v.transport.queue q)) } })) :
    (setQueue d q f).after E g 1 Q (s.put d v) :=
  after_setTransport h

/-! ### Requests -/

/-- The lock of the device is held. -/
theorem after_local {f : Unit → Drv α} {Q : α → Drivers → Prop} :
    (checkLocal >>= f).after E g 1 Q s ↔ (f ()).after E g 1 Q s := Iff.rfl

theorem after_ioRequestCancelWaiter {admission : Nat}
    (h : Q () (s.put d { v with request := v.request.cancelWaiter admission })) :
    (ioRequestCancelWaiter d admission).after E g 1 Q (s.put d v) :=
  after_local.mpr (after_setRequest h)

theorem after_ioRequestExpireWaiters
    (h : ∀ now, Q () (s.put d { v with request := v.request.expireWaiters now })) :
    (ioRequestExpireWaiters d).after E g 1 Q (s.put d v) :=
  after_local.mpr fun n => after_setRequest (f := (·.expireWaiters (n % 2 ^ 64))) (h _)

theorem after_ioRequestCancelWaiters
    (h : Q () (s.put d { v with request := v.request.cancelWaiters })) :
    (ioRequestCancelWaiters d).after E g 1 Q (s.put d v) :=
  after_local.mpr (after_setRequest h)

theorem after_ioRequestComplete {result : Int}
    (h : Q () (s.put d { v with request := v.request.complete result })) :
    (ioRequestComplete d result).after E g 1 Q (s.put d v) :=
  after_local.mpr (after_setRequest h)

theorem after_ioRequestRelease (h : Q () (s.put d { v with request := v.request.release })) :
    (ioRequestRelease d).after E g 1 Q (s.put d v) :=
  after_local.mpr (after_setRequest h)

theorem after_ioRequestBeginOwned {owner deadline : Nat} {admission : Option Nat}
    {Q : IoRequest.Begin → Drivers → Prop}
    (h : ∀ n₁ n₂ n₃, let b := v.request.beginOwned v.nextId owner admission deadline n₁ n₂ n₃
      Q b (s.put d { v with request := b.request, nextId := b.nextId })) :
    (ioRequestBeginOwned d owner admission deadline).after E g 1 Q (s.put d v) := by
  intro n₁ n₂ n₃
  have hq := h (n₁ % 2 ^ 64) (n₂ % 2 ^ 64) (n₃ % 2 ^ 64)
  have hreq : (s.put d v).request d = v.request := s.put_request d v
  change Q (((s.put d v).request d).beginOwned v.nextId owner admission deadline _ _ _) _
  rw [hreq]
  have hput : ∀ (r : IoRequest) (n : Nat), s.put d { v with request := r, nextId := n } =
      { s.put d v with request := Function.update (s.put d v).request d r, nextId := n } := by
    intro r n
    simp [Drivers.put]
  dsimp only at hq
  rw [hput] at hq
  change Q (v.request.beginOwned v.nextId owner admission deadline _ _ _)
    { s.put d v with
      request := Function.update (s.put d v).request d (((s.put d v).request d).beginOwned
        v.nextId owner admission deadline _ _ _).request
      nextId := (((s.put d v).request d).beginOwned
        v.nextId owner admission deadline _ _ _).nextId }
  rw [hreq]
  exact hq

/-! ### Frames -/

theorem after_virtioDmaAlloc {pages : Nat} {Q : Nat → Drivers → Prop} (h : ∀ n, Q n s) :
    (virtioDmaAlloc pages).after E g 1 Q s := by
  refine after_withGuard (after_bind.mpr (after_inputFlag fun enough => ?_))
  split
  · exact h 0
  split
  · exact after_withGuard (after_input h)
  · exact after_input h

theorem after_virtioDmaFree {physical pages : Nat} (h : Q () s) :
    (virtioDmaFree physical pages).after E g 1 Q s := by
  unfold virtioDmaFree
  split
  · exact h
  · refine after_mono (after_forLoop (I := fun _ t => t = s) ?_ pages 0 (Nat.zero_add _) rfl) ?_
    · rintro _ _ - rfl
      exact rfl
    · rintro _ _ rfl
      exact h

/-! ### The transport -/

theorem after_pinned (h : Q () s) : checkPinned.after E g 1 Q s := by
  change (if g = 0 ∧ 1 = 0 then Drv.trap DriverSite.pinned else pure ()).after E g 1 Q s
  rw [if_neg fun h0 => Nat.one_ne_zero h0.2]
  exact h

theorem after_virtioFreeQueue {q : Nat}
    (h : Q () (s.put d { v with transport := { v.transport with
      queue := Function.update v.transport.queue q {} } })) :
    (virtioFreeQueue d q).after E g 1 Q (s.put d v) := by
  refine after_get.mpr (after_seq (R := fun _ t => t = s.put d v) (after_virtioDmaFree rfl) ?_)
  rintro _ _ rfl
  exact after_setQueue (f := fun _ => {}) h

/-- A stop is recorded; nothing is said of the transport after it. -/
theorem after_virtioStop {Q : Bool → Drivers → Prop}
    (h : ∀ b t, Q b (s.put d { v with transport := t, log := .stop :: v.log })) :
    (virtioStop d).after E g 1 Q (s.put d v) := by
  refine after_bind.mpr (after_record (after_bind.mpr (after_setTransport ?_)))
  refine after_get.mpr ?_
  split
  · exact h true _
  refine after_bind.mpr (after_pinned (after_bind.mpr (after_setTransport ?_)))
  refine after_bind.mpr (after_inputFlag fun stopped => ?_)
  split
  · exact after_bind.mpr (after_setTransport (h false _))
  · exact after_bind.mpr (after_virtioFreeQueue
      (after_bind.mpr (after_virtioFreeQueue (h true _))))

/-- The check of `virtio_submit` holds. -/
theorem after_virtioSubmit {q descriptor : Nat}
    (hd : descriptor < (v.transport.queue q).size)
    (ho : (v.transport.queue q).outstanding < (v.transport.queue q).size)
    (h : Q () (s.put d { v with
      transport := { v.transport with
        queue := Function.update v.transport.queue q ((v.transport.queue q).submit descriptor) }
      log := .submit q descriptor v.request.id :: v.log })) :
    (virtioSubmit d q descriptor).after E g 1 Q (s.put d v) := by
  refine after_get.mpr ?_
  dsimp only
  rw [Drivers.put_transport, if_neg (by omega)]
  refine after_bind.mpr (after_setQueue (after_record ?_))
  rw [Drivers.put_request]
  exact h

/-- `virtio_pop` does what `tryPop` does, and records a pop. -/
theorem after_virtioPop {q : Nat} {Q : Int × Nat × Nat → Drivers → Prop}
    (h0 : ∀ r used, r ≠ 1 → (v.transport.queue q).tryPop = (r, used, v.transport.queue q) →
      Q (r, used) (s.put d v))
    (h1 : ∀ used, (v.transport.queue q).tryPop = (1, used, (v.transport.queue q).pop) →
      Q (1, used) (s.put d { v with
        transport := { v.transport with
          queue := Function.update v.transport.queue q (v.transport.queue q).pop }
        log := .pop q used.1 used.2 v.request.id :: v.log })) :
    (virtioPop d q).after E g 1 Q (s.put d v) := by
  refine after_get.mpr ?_
  rw [Drivers.put_transport]
  unfold VirtioQueue.tryPop VirtioQueue.popCounted at h0 h1
  dsimp only
  split
  · next hc =>
    exact h0 0 (0, 0) (by decide) (if_pos hc)
  next hc =>
  refine after_get.mpr ?_
  rw [Drivers.put_transport]
  rw [if_neg hc] at h0 h1
  split
  · next hout =>
    exact h0 (-1) (0, 0) (by decide) (if_pos hout)
  next hout =>
  rw [if_neg hout] at h0 h1
  split
  · next hid =>
    exact h0 (-1) _ (by decide) (if_pos hid)
  next hid =>
  refine after_bind.mpr (after_setQueue (after_bind.mpr (after_record ?_)))
  rw [Drivers.put_request]
  exact h1 _ (if_neg hid)

theorem after_virtioConfigChanged {Q : Bool → Drivers → Prop} (h : ∀ b, Q b s) :
    virtioConfigChanged.after E g 1 Q s :=
  after_local.mpr (after_inputFlag h)

/-- A device that is opened has no queues. -/
theorem after_virtioOpen {pci : PciDevice} {hw : Probe} {accepted : BitVec 32}
    {Q : Bool → Drivers → Prop}
    (h : ∀ b t, (b = true → ∀ q, t.queue q = {}) → Q b (s.put d { v with transport := t })) :
    (virtioOpen d pci hw accepted).after E g 1 Q (s.put d v) := by
  refine after_local.mpr (after_bind.mpr (after_setTransport ?_))
  split
  · exact h false _ nofun
  refine after_bind.mpr (after_setTransport ?_)
  split
  · exact after_bind.mpr (after_setTransport (h false _ nofun))
  · exact after_bind.mpr (after_setTransport (h true _ fun _ _ => rfl))

/-- A queue size that `virtio_queue_init` takes is a power of two. -/
theorem dvd_of_queueOk {hw : Probe} {index : Nat} (h : queueOk hw index = true) :
    4 ≤ (hw.queueSize index).toNat ∧ (hw.queueSize index).toNat ∣ 65536 ∧
      (hw.queueSize index).toNat ≤ 1024 := by
  have hall : ∀ n < 1025, 4 ≤ n → n &&& (n - 1) = 0 → n ∣ 65536 := by decide +kernel
  obtain ⟨h4, hmax, hand, -⟩ := of_decide_eq_true h
  refine ⟨h4, hall _ (by omega) h4 ?_, hmax⟩
  have hn := congrArg BitVec.toNat hand
  rw [BitVec.toNat_and, BitVec.toNat_sub_of_le] at hn
  · exact hn
  · rw [BitVec.le_def]
    change 1 ≤ _
    omega

/-- What `virtio_queue_init` makes. -/
structure VirtioQueue.Made (q : VirtioQueue) : Prop where
  physical : q.physical ≠ 0
  four : 4 ≤ q.size
  dvd : q.size ∣ 65536
  max : q.size ≤ 1024
  fresh : q = { ({} : VirtioQueue) with physical := q.physical, pages := q.pages, size := q.size }

/-- A queue is made, or the device is as good as closed. -/
theorem after_virtioQueueInit {hw : Probe} {index : Nat} {Q : Bool → Drivers → Prop}
    (hq : v.transport.queue index = {})
    (h0 : ∀ t, Q false (s.put d { v with transport := t }))
    (h1 : ∀ q : VirtioQueue, q.Made → Q true (s.put d { v with
      transport := { v.transport with
        queue := Function.update v.transport.queue index q } })) :
    (virtioQueueInit d hw index).after E g 1 Q (s.put d v) := by
  refine after_get.mpr ?_
  split
  · exact h0 v.transport
  split
  · exact h0 v.transport
  next hok =>
  obtain ⟨h4, hdvd, hmax⟩ := dvd_of_queueOk (Bool.of_not_eq_false hok)
  refine after_bind.mpr (after_setQueue (after_bind.mpr (after_virtioDmaAlloc fun physical => ?_)))
  refine after_bind.mpr (after_setQueue ?_)
  split
  · exact h0 _
  next hphysical =>
  split
  · refine after_seq (R := fun _ t => t = _) (after_virtioDmaFree rfl) ?_
    rintro _ _ rfl
    exact after_bind.mpr (after_setQueue (h0 _))
  · refine after_bind.mpr (after_setQueue ?_)
    simp only [Function.update_self, Function.update_idem, hq]
    exact h1 _ ⟨hphysical, h4, hdvd, hmax, rfl⟩

theorem after_virtioReady (h : ∀ b, Q () (s.put d { v with
    transport := { v.transport with irqEnabled := b, ready := true } })) :
    (virtioReady d).after E g 1 Q (s.put d v) :=
  after_bind.mpr (after_bind.mpr (after_pinned (after_inputFlag fun b => after_setTransport (h b))))

end Rules

/-! ## Logs -/

/-- The descriptors submitted to a queue since the last stop. -/
def sentOf (q : Nat) : List DriverEvent → List Nat
  | [] | .stop :: _ => []
  | .submit p descriptor _ :: l => if p = q then sentOf q l ++ [descriptor] else sentOf q l
  | .pop .. :: l => sentOf q l

/-- The tokens for which that was. -/
def sentTokens (q : Nat) : List DriverEvent → List Nat
  | [] | .stop :: _ => []
  | .submit p _ token :: l => if p = q then sentTokens q l ++ [token] else sentTokens q l
  | .pop .. :: l => sentTokens q l

/-- The entries popped from a queue since the last stop. -/
def poppedOf (q : Nat) : List DriverEvent → List (Nat × Nat)
  | [] | .stop :: _ => []
  | .submit .. :: l => poppedOf q l
  | .pop p id length _ :: l => if p = q then poppedOf q l ++ [(id, length)] else poppedOf q l

/-- The tokens of all requests submitted to a queue, across stops. -/
def allTokens (q : Nat) : List DriverEvent → List Nat
  | [] => []
  | .submit p _ token :: l => if p = q then allTokens q l ++ [token] else allTokens q l
  | .pop .. :: l | .stop :: l => allTokens q l

/-- The descriptors submitted to a queue and not popped since the last stop. -/
def outstandingOf (q : Nat) : List DriverEvent → List Nat
  | [] | .stop :: _ => []
  | .submit p descriptor _ :: l =>
    if p = q then outstandingOf q l ++ [descriptor] else outstandingOf q l
  | .pop p id _ _ :: l => if p = q then (outstandingOf q l).erase id else outstandingOf q l

/-- The stops of a device. -/
def stopsOf : List DriverEvent → Nat
  | [] => 0
  | .stop :: l => stopsOf l + 1
  | .submit .. :: l | .pop .. :: l => stopsOf l

theorem length_sentTokens (q : Nat) (l : List DriverEvent) :
    (sentTokens q l).length = (sentOf q l).length := by
  induction l with
  | nil => rfl
  | cons e l ih =>
    cases e with
    | submit p descriptor token =>
      unfold sentTokens sentOf
      split
      · rw [List.length_append, List.length_append, ih]
        rfl
      · exact ih
    | pop => exact ih
    | stop => rfl

/-! ## Tokens -/

/-- The request object of a device that was given `tokens`. -/
def IoRequest.Admitted (r : IoRequest) (nextId : Nat) (tokens : List Nat) : Prop :=
  ∃ g, AdmissionInv g ⟨r, nextId⟩ ∧ g.tokens = tokens

namespace IoRequest.Admitted

variable {r r' : IoRequest} {n n' : Nat} {tokens : List Nat}

theorem init : Admitted {} 0 [] := ⟨{}, .init, rfl⟩

/-- A token is never given twice. -/
theorem nodup (h : r.Admitted n tokens) : tokens.Nodup := by
  obtain ⟨g, hg, rfl⟩ := h
  exact hg.tokensNodup

/-- Other devices are given ids. -/
theorem mono (h : r.Admitted n tokens) (hn : n ≤ n') (hmax : n' ≤ 18446744073709551615) :
    r.Admitted n' tokens := by
  obtain ⟨g, hg, ht⟩ := h
  exact ⟨g, { hg with
    counter := hmax
    bound := fun k hk => ⟨(hg.bound k hk).1, Nat.le_trans (hg.bound k hk).2 hn⟩ }, ht⟩

theorem counter (h : r.Admitted n tokens) : n ≤ 18446744073709551615 := by
  obtain ⟨g, hg, -⟩ := h
  exact hg.counter

/-- A call, with the token that it gives. -/
theorem step (h : r.Admitted n tokens) (a : AdmissionOp) :
    ((Admission.step ⟨r, n⟩ a).1.request).Admitted (Admission.step ⟨r, n⟩ a).1.nextId
      (tokens ++ (Admission.step ⟨r, n⟩ a).2.token.toList) := by
  obtain ⟨g, hg, rfl⟩ := h
  exact ⟨_, hg.step a, rfl⟩

/-- A call that gives nothing. -/
theorem keep (h : r.Admitted n tokens) {a : AdmissionOp}
    (ha : Admission.step ⟨r, n⟩ a = (⟨r', n⟩, {})) : r'.Admitted n tokens := by
  have hs := h.step a
  rwa [ha, Option.toList_none, List.append_nil] at hs

theorem cancelWaiter (h : r.Admitted n tokens) (admission : Nat) :
    (r.cancelWaiter admission).Admitted n tokens :=
  h.keep (a := (.cancelWaiter admission)) rfl

theorem expireWaiters (h : r.Admitted n tokens) (now : Nat) :
    (r.expireWaiters now).Admitted n tokens :=
  h.keep (a := (.expireWaiters now)) rfl

theorem cancelWaiters (h : r.Admitted n tokens) : r.cancelWaiters.Admitted n tokens :=
  h.keep (a := .cancelWaiters) rfl

theorem complete (h : r.Admitted n tokens) (result : Int) :
    (r.complete result).Admitted n tokens :=
  h.keep (a := (.complete result)) rfl

theorem release (h : r.Admitted n tokens) : r.release.Admitted n tokens :=
  h.keep (a := .release) rfl

theorem beginOwned (h : r.Admitted n tokens) (owner : Nat) (admission : Option Nat)
    (deadline n₁ n₂ n₃ : Nat) :
    let b := r.beginOwned n owner admission deadline n₁ n₂ n₃
    b.request.Admitted b.nextId (tokens ++ b.token.toList) :=
  h.step (.beginOwned owner admission deadline n₁ n₂ n₃)

end IoRequest.Admitted

/-! ## Who holds the device -/

namespace IoRequest

/-- Only the waiters differ. -/
def SameHolder (r r' : IoRequest) : Prop := ∃ ws, r' = { r with waiters := ws }

theorem SameHolder.refl (r : IoRequest) : r.SameHolder r := ⟨r.waiters, rfl⟩

theorem cancelWaiter_same (r : IoRequest) (admission : Nat) :
    r.SameHolder (r.cancelWaiter admission) := ⟨_, rfl⟩

theorem expireWaiters_same (r : IoRequest) (now : Nat) : r.SameHolder (r.expireWaiters now) := by
  have h : ∀ fuel i (r' : IoRequest), r.SameHolder r' →
      r.SameHolder (expireLoop now fuel i r') := by
    intro fuel
    induction fuel with
    | zero => exact fun i r' h => h
    | succ fuel ih =>
      intro i r' h
      unfold expireLoop
      split
      · exact h
      · split
        · obtain ⟨ws, rfl⟩ := h
          exact ih i _ ⟨_, rfl⟩
        · exact ih (i + 1) r' h
  exact h _ _ _ (.refl r)

/-- `io_request_begin_owned` gives the free device to a new request, or leaves who holds it. -/
theorem beginOwned_holder (r : IoRequest) (n owner : Nat) (admission : Option Nat)
    (deadline n₁ n₂ n₃ : Nat) :
    let b := r.beginOwned n owner admission deadline n₁ n₂ n₃
    (b.result ≠ driverOk ∧ b.token = none ∧ r.SameHolder b.request) ∨
      ∃ k ws, b.result = driverOk ∧ r.id = 0 ∧ k ≠ 0 ∧ b.token = some k ∧
        b.request = { r with
          id := k, started := n₃, ownerPid := owner, pending := true, result := driverPending
          waiters := ws } := by
  have hinvalid : driverInvalid ≠ driverOk := by decide
  have htimeout : driverTimeout ≠ driverOk := by decide
  have hcanceled : driverCanceled ≠ driverOk := by decide
  have hbusy : driverBusy ≠ driverOk := by decide
  have hsame := r.expireWaiters_same n₁
  dsimp only
  unfold beginOwned
  split
  · exact .inl ⟨hinvalid, rfl, .refl r⟩
  dsimp only
  generalize r.expireWaiters n₁ = r₁ at hsame
  obtain ⟨ws, rfl⟩ := hsame
  split
  · exact .inl ⟨htimeout, rfl, _, rfl⟩
  split
  · exact .inl ⟨hcanceled, rfl, _, rfl⟩
  split
  · split
    · split
      · exact .inl ⟨hinvalid, rfl, _, rfl⟩
      · exact .inl ⟨hbusy, rfl, _, rfl⟩
    · exact .inl ⟨hbusy, rfl, _, rfl⟩
  next hfree =>
  rw [not_or, not_not] at hfree
  split
  · exact .inl ⟨hinvalid, rfl, _, rfl⟩
  · next id hid _ =>
    obtain ⟨ws', hws⟩ : r.SameHolder (if admission.getD 0 ≠ 0 then
        ({ r with waiters := ws } : IoRequest).cancelWaiter (admission.getD 0)
        else { r with waiters := ws }) := by
      split
      · exact ⟨_, rfl⟩
      · exact ⟨_, rfl⟩
    refine .inr ⟨id, ws', rfl, hfree.1, hid, rfl, ?_⟩
    dsimp only
    rw [hws]

/-- The counter of ids only grows. -/
theorem beginOwned_nextId (r : IoRequest) (n owner : Nat) (admission : Option Nat)
    (deadline n₁ n₂ n₃ : Nat) :
    n ≤ (r.beginOwned n owner admission deadline n₁ n₂ n₃).nextId := by
  have halloc : n ≤ (allocateId n).1 := by
    unfold allocateId
    split
    · exact Nat.le_refl n
    · exact Nat.le_succ n
  have hmatch : ∀ reserved, n ≤ (if reserved ≠ 0 then (n, reserved) else allocateId n).1 := by
    intro reserved
    split
    · exact Nat.le_refl n
    · exact halloc
  unfold beginOwned
  split
  · exact Nat.le_refl n
  dsimp only
  split
  · exact Nat.le_refl n
  split
  · exact Nat.le_refl n
  split
  · split
    · split
      · next heq => exact Nat.le_trans halloc (Nat.le_of_eq (congrArg Prod.fst heq))
      · next heq => exact Nat.le_trans halloc (Nat.le_of_eq (congrArg Prod.fst heq))
    · exact Nat.le_refl n
  split
  · next heq => exact Nat.le_trans (hmatch _) (Nat.le_of_eq (congrArg Prod.fst heq))
  · next heq => exact Nat.le_trans (hmatch _) (Nat.le_of_eq (congrArg Prod.fst heq))

end IoRequest

end GenOS
