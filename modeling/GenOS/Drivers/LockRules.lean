import GenOS.Drivers.Block
import GenOS.Drivers.Net

/-!
# Rules of the driver locks

What each function that the two drivers share does to the locks (`rules`). With `P` no device holds
a frame and nothing traps; without it, frame allocation and release trap under a device lock.
-/

namespace GenOS

open Locking Prog Drv

/-! ## What is promised -/

/-- The traps of frame allocation and release under a device lock, and the check of
`virtio_submit`. -/
def FrameTrap (a : Trap DriverSite) : Prop :=
  a = .guard .pmmAllocContiguousPages ∨ a = .guard .pmmFreePage ∨ a = .check .virtioSubmit

/-- No frame is held and nothing is online. -/
def VirtioDevice.Down (t : VirtioDevice) : Prop := ∀ q, (t.queue q).physical = 0

def IoRequest.Down (r : IoRequest) : Prop := r.id = 0 ∧ r.pending = false

def BlockDevice.Down (x : BlockDevice) : Prop := x.physical = 0 ∧ x.info.online = false

def NetDevice.Down (x : NetDevice) : Prop :=
  x.rxPhysical = 0 ∧ x.txPhysical = 0 ∧ x.info.online = false

/-- No device is online or has a frame or a request. -/
structure Drivers.Down (s : Drivers) : Prop where
  transport : ∀ d, (s.transport d).Down
  request : ∀ d, (s.request d).Down
  disk : ∀ i, (s.disk i).Down
  nic : ∀ i, (s.nic i).Down
  disks : s.disks.initialized = false → s.disks.count = 0
  interfaces : s.interfaces.initialized = false → s.interfaces.count = 0

/-- The start of a disk fails before its first allocation. -/
def Block.FailsEarly (x : PciDevice × Probe) : Prop :=
  pciOk x.1 = true → x.2.resetAck = true → queueOk x.2 0 = false

/-- The start of an interface fails before its first allocation. -/
def Net.FailsEarly (x : PciDevice × Probe) : Prop :=
  pciOk x.1 = true → x.2.resetAck = true → x.2.features &&& netMac ≠ 0 → queueOk x.2 0 = false

/-- A start of a driver that has not been started takes no frame: each of the two devices that it
tries fails before its first allocation. -/
def NoFrames (site : DriverSite) (s : Drivers) : Prop :=
  match site with
  | .blockInit found => s.disks.initialized = false →
    ∀ x ∈ (found.filter fun x => Block.isDisk x.1).take 2, Block.FailsEarly x
  | .netInit found => s.interfaces.initialized = false →
    ∀ x ∈ (found.filter fun x => Net.isNic x.1).take 2, Net.FailsEarly x
  | _ => True

/-- What changes only under the mutation guard. -/
structure Guarded where
  disks : Lifecycle
  interfaces : Lifecycle
  features : Dev → BitVec 32

/-- With `P`, starts of drivers take no frame and nothing traps; without it, only `FrameTrap`. -/
def rules (P : Prop) : Rules Drivers Guarded DriverSite where
  excuse a := ¬P ∧ FrameTrap a
  inv s := P → s.Down
  prot s := ⟨s.disks, s.interfaces, fun d => (s.transport d).features⟩
  allow site s := P → NoFrames site s

/-! ## Accesses -/

variable {P : Prop} {α : Type} {g l : Nat} {d : Dev} {i : Nat}

theorem keeps_get {f : Drivers → Drv α} (h : ∀ s, (P → s.Down) → (f s).Keeps (rules P) g l) :
    (Drv.get >>= f).Keeps (rules P) g l :=
  Keeps.access fun s hs => ⟨rfl, hs, h s hs⟩

theorem wp_get {f : Drivers → Drv α} {v : Guarded} {Q : α → Guarded → Nat → Nat → Prop}
    (h : ∀ s, (P → s.Down) → (rules P).prot s = v → (f s).wp (rules P) v (g + 1) l Q) :
    (Drv.get >>= f).wp (rules P) v (g + 1) l Q := by
  intro s hs hv
  have hv' := hv (Nat.succ_ne_zero g)
  subst hv'
  exact ⟨fun _ => rfl, hs, h s hs rfl⟩

theorem keeps_modify {f : Drivers → Drivers} (hp : ∀ s, (rules P).prot (f s) = (rules P).prot s)
    (hd : ∀ s, s.Down → (f s).Down) : (Drv.modify f).Keeps (rules P) g l :=
  Keeps.access fun s hs => ⟨hp s, fun h => hd s (hs h), keeps_pure ()⟩

theorem keeps_input (n : Nat) : (Drv.input n).Keeps (rules P) g l :=
  Keeps.input fun _ => keeps_pure _

theorem keeps_inputFlag : inputFlag.Keeps (rules P) g l :=
  Keeps.input fun _ => keeps_pure _

theorem keeps_record {e : Drivers → DriverEvent} : (record d e).Keeps (rules P) g l :=
  keeps_modify (fun _ => rfl) fun _ hs => { hs with }

theorem Drivers.Down.setTransport {s : Drivers} (hs : s.Down) {f : VirtioDevice → VirtioDevice}
    (hf : ∀ t, t.Down → (f t).Down) :
    { s with transport := Function.update s.transport d (f (s.transport d)) }.Down :=
  { hs with
    transport := (Function.forall_update_iff s.transport fun _ t => t.Down).mpr
      ⟨hf _ (hs.transport d), fun e _ => hs.transport e⟩ }

theorem keeps_setTransport {f : VirtioDevice → VirtioDevice} (hf : ∀ t, t.Down → (f t).Down)
    (hfeat : ∀ t, (f t).features = t.features) : (setTransport d f).Keeps (rules P) g l := by
  apply keeps_modify _ fun s hs => hs.setTransport hf
  intro s
  apply congrArg (Guarded.mk s.disks s.interfaces)
  funext e
  show (Function.update s.transport d (f (s.transport d)) e).features = (s.transport e).features
  by_cases he : e = d
  · rw [he, Function.update_self, hfeat]
  · rw [Function.update_of_ne he]

theorem keeps_setQueue {q : Nat} {f : VirtioQueue → VirtioQueue}
    (hf : ∀ x, x.physical = 0 → (f x).physical = 0) : (setQueue d q f).Keeps (rules P) g l := by
  refine keeps_setTransport (fun t ht => ?_) fun _ => rfl
  exact (Function.forall_update_iff t.queue fun _ x => x.physical = 0).mpr
    ⟨hf _ (ht q), fun p _ => ht p⟩

theorem keeps_setRequest {f : IoRequest → IoRequest} (hf : ∀ r, r.Down → (f r).Down) :
    (setRequest d f).Keeps (rules P) g l :=
  keeps_modify (fun _ => rfl) fun s hs => { hs with
    request := (Function.forall_update_iff s.request fun _ r => r.Down).mpr
      ⟨hf _ (hs.request d), fun e _ => hs.request e⟩ }

theorem keeps_setDisk {f : BlockDevice → BlockDevice} (hf : ∀ x, x.Down → (f x).Down) :
    (setDisk i f).Keeps (rules P) g l :=
  keeps_modify (fun _ => rfl) fun s hs => { hs with
    disk := (Function.forall_update_iff s.disk fun _ x => x.Down).mpr
      ⟨hf _ (hs.disk i), fun j _ => hs.disk j⟩ }

theorem Drivers.Down.setNic {s : Drivers} (hs : s.Down) {x : NetDevice} (hx : x.Down) :
    { s with nic := Function.update s.nic i x }.Down :=
  { hs with
    nic := (Function.forall_update_iff s.nic fun _ x => x.Down).mpr
      ⟨hx, fun j _ => hs.nic j⟩ }

theorem keeps_setNic {f : NetDevice → NetDevice} (hf : ∀ x, x.Down → (f x).Down) :
    (setNic i f).Keeps (rules P) g l :=
  keeps_modify (fun _ => rfl) fun _ hs => hs.setNic (hf _ (hs.nic i))

/-! ## Requests -/

theorem keeps_checkLocal : checkLocal.Keeps (rules P) g 1 := by
  apply Keeps.depths
  rw [if_neg Nat.one_ne_zero]
  exact keeps_pure ()

theorem keeps_checkPinned : checkPinned.Keeps (rules P) g 1 := by
  apply Keeps.depths
  rw [if_neg fun h => Nat.one_ne_zero h.2]
  exact keeps_pure ()

theorem IoRequest.Down.cancelWaiter {r : IoRequest} (h : r.Down) (admission : Nat) :
    (r.cancelWaiter admission).Down :=
  h

theorem IoRequest.Down.expireLoop {now : Nat} (fuel : Nat) {j : Nat} {r : IoRequest}
    (h : r.Down) : (IoRequest.expireLoop now fuel j r).Down := by
  induction fuel generalizing j r with
  | zero => exact h
  | succ fuel ih =>
    unfold IoRequest.expireLoop
    split
    · exact h
    · split
      · exact ih (h.cancelWaiter _)
      · exact ih h

theorem IoRequest.Down.complete {r : IoRequest} (h : r.Down) (result : Int) :
    (r.complete result).Down := by
  unfold IoRequest.complete
  rw [h.2]
  exact h

theorem IoRequest.Down.abort {r : IoRequest} (h : r.Down) (error : Int) :
    (r.abort error).Down := by
  unfold IoRequest.abort
  rw [if_pos h.1]
  exact h

theorem keeps_ioRequestCancelWaiter (admission : Nat) :
    (ioRequestCancelWaiter d admission).Keeps (rules P) g 1 :=
  keeps_checkLocal.bind fun _ => keeps_setRequest fun _ h => h.cancelWaiter admission

theorem keeps_ioRequestExpireWaiters : (ioRequestExpireWaiters d).Keeps (rules P) g 1 :=
  keeps_checkLocal.bind fun _ => (keeps_input 64).bind fun _ =>
    keeps_setRequest fun _ h => h.expireLoop _

theorem keeps_ioRequestCancelWaiters : (ioRequestCancelWaiters d).Keeps (rules P) g 1 :=
  keeps_checkLocal.bind fun _ => keeps_setRequest fun _ h => h

theorem keeps_ioRequestComplete (result : Int) :
    (ioRequestComplete d result).Keeps (rules P) g 1 :=
  keeps_checkLocal.bind fun _ => keeps_setRequest fun _ h => h.complete result

theorem keeps_ioRequestAbort {error : Int} (he : error < 0) :
    (ioRequestAbort d error).Keeps (rules P) g 1 := by
  apply keeps_checkLocal.bind
  intro _
  rw [if_neg (Int.not_le.mpr he)]
  exact keeps_setRequest fun _ h => h.abort error

theorem keeps_ioRequestRelease : (ioRequestRelease d).Keeps (rules P) g 1 :=
  keeps_checkLocal.bind fun _ => keeps_setRequest fun _ _ => ⟨rfl, rfl⟩

/-- Without a promise about what is online. -/
theorem keeps_ioRequestBeginOwned (hP : ¬P) (owner : Nat) (admission : Option Nat)
    (deadline : Nat) : (ioRequestBeginOwned d owner admission deadline).Keeps (rules P) g 1 := by
  apply keeps_checkLocal.bind
  intro _
  apply (keeps_input 64).bind
  intro _
  apply (keeps_input 64).bind
  intro _
  apply (keeps_input 64).bind
  intro _
  exact Keeps.access fun s _ => ⟨rfl, fun h => absurd h hP, keeps_pure _⟩

/-! ## Frames -/

theorem keeps_pmmFreePage (hP : ¬P) : pmmFreePage.Keeps (rules P) g 1 :=
  Keeps.of_excuse ⟨hP, .inr (.inl rfl)⟩ Nat.one_ne_zero

theorem keeps_virtioDmaFree {physical : Nat} (h : P → physical = 0) (pages : Nat) :
    (virtioDmaFree physical pages).Keeps (rules P) g 1 := by
  unfold virtioDmaFree
  split
  · exact keeps_pure ()
  · rename_i h0
    exact keeps_forLoop (fun _ => keeps_pmmFreePage fun hP => h0 (h hP)) pages 0

/-- The program traps at once. -/
theorem wp_virtioDmaAlloc_bind (hP : ¬P) {pages : Nat} {f : Nat → Drv α} {v : Guarded}
    {Q : α → Guarded → Nat → Nat → Prop} : (virtioDmaAlloc pages >>= f).wp (rules P) v g 1 Q :=
  ⟨fun _ => ⟨hP, .inl rfl⟩, fun h => absurd h Nat.one_ne_zero⟩

/-! ## The transport -/

theorem keeps_virtioFreeQueue (q : Nat) : (virtioFreeQueue d q).Keeps (rules P) g 1 := by
  apply keeps_get
  intro s hs
  apply (keeps_virtioDmaFree (fun hP => (hs hP).transport d q) _).bind
  exact fun _ => keeps_setQueue fun _ _ => rfl

theorem keeps_virtioStop : (virtioStop d).Keeps (rules P) g 1 := by
  apply keeps_record.bind
  intro _
  apply Keeps.bind
  · exact keeps_setTransport (fun _ h => h) fun _ => rfl
  intro _
  apply keeps_get
  intro s _
  split
  · exact keeps_pure true
  · apply keeps_checkPinned.bind
    intro _
    apply Keeps.bind
    · exact keeps_setTransport (fun _ h => h) fun _ => rfl
    intro _
    apply keeps_inputFlag.bind
    intro stopped
    split
    · apply Keeps.bind
      · exact keeps_setTransport (fun _ h => h) fun _ => rfl
      · exact fun _ => keeps_pure false
    · exact (keeps_virtioFreeQueue 0).bind fun _ =>
        (keeps_virtioFreeQueue 1).bind fun _ => keeps_pure true

theorem keeps_virtioSubmit (hP : ¬P) (q descriptor : Nat) :
    (virtioSubmit d q descriptor).Keeps (rules P) g l := by
  apply keeps_get
  intro s _
  dsimp only
  split
  · exact fun _ => ⟨hP, .inr (.inr rfl)⟩
  · exact Keeps.bind (keeps_setQueue fun _ h => h) fun _ => keeps_record

theorem keeps_virtioPop (q : Nat) : (virtioPop d q).Keeps (rules P) g l := by
  apply keeps_get
  intro s _
  dsimp only
  split
  · exact keeps_pure _
  apply keeps_get
  intro s _
  split
  · exact keeps_pure _
  split
  · exact keeps_pure _
  · apply Keeps.bind
    · exact keeps_setQueue fun _ h => h
    · exact fun _ => keeps_record.bind fun _ => keeps_pure _

/-- What the device writes leaves the rest of the queue. -/
theorem keeps_virtioDevice (q usedIdx cell id length : Nat) :
    (virtioDevice d q usedIdx cell id length).Keeps (rules P) g l :=
  keeps_setQueue fun _ h => h

theorem keeps_virtioConfigChanged : virtioConfigChanged.Keeps (rules P) g 1 :=
  keeps_checkLocal.bind fun _ => keeps_inputFlag

/-- The lifecycle of the drivers is as it was. -/
def Guarded.Same (v v' : Guarded) : Prop := v'.disks = v.disks ∧ v'.interfaces = v.interfaces

/-- A transport gets the features `c`. -/
theorem wp_setTransport {f : VirtioDevice → VirtioDevice} (c : BitVec 32)
    (hf : ∀ t, t.Down → (f t).Down) (hc : ∀ t, (f t).features = c) {v : Guarded} :
    (setTransport d f).wp (rules P) v (g + 1) l fun _ v' g' l' =>
      v'.features d = c ∧ v.Same v' ∧ g' = g + 1 ∧ l' = l := by
  intro s hs hv
  have hv' := hv (Nat.succ_ne_zero g)
  subst hv'
  refine ⟨fun h => absurd h (Nat.succ_ne_zero g), fun hP => (hs hP).setTransport hf, ?_,
    ⟨rfl, rfl⟩, rfl, rfl⟩
  show (Function.update s.transport d (f (s.transport d)) d).features = c
  rw [Function.update_self, hc]

/-- What has been seen of a device that `virtio_open` accepts. -/
theorem wp_virtioOpen (pci : PciDevice) (hw : Probe) (accepted : BitVec 32) {v : Guarded} :
    (virtioOpen d pci hw accepted).wp (rules P) v (g + 1) 1 fun a v' g' l' =>
      (a = true → pciOk pci = true ∧ hw.resetAck = true ∧
        v'.features d = hw.features &&& accepted) ∧ v.Same v' ∧ g' = g + 1 ∧ l' = 1 := by
  have hg := Nat.succ_ne_zero g
  apply keeps_checkLocal.wp_bind_self hg
  intro _
  rw [wp_bind]
  apply wp_mono (wp_setTransport 0 (fun _ _ _ => rfl) fun _ => rfl)
  rintro _ v₁ g' l' ⟨-, hv₁, rfl, rfl⟩
  split
  · exact ⟨nofun, hv₁, rfl, rfl⟩
  refine Keeps.wp_bind_self (keeps_setTransport (fun _ h => h) fun _ => rfl) hg fun _ => ?_
  split
  · refine Keeps.wp_bind_self (keeps_setTransport (fun _ h => h) fun _ => rfl) hg fun _ => ?_
    exact ⟨nofun, hv₁, rfl, rfl⟩
  rename_i hpci _ hreset
  rw [wp_bind]
  apply wp_mono
  · apply wp_setTransport (hw.features &&& accepted)
    · exact fun _ h => h
    · exact fun _ => rfl
  rintro _ v₂ g' l' ⟨hfeat, hv₂, rfl, rfl⟩
  refine ⟨fun _ => ⟨?_, ?_, hfeat⟩, ⟨hv₂.1.trans hv₁.1, hv₂.2.trans hv₁.2⟩, rfl, rfl⟩
  · exact Bool.of_not_eq_false hpci
  · exact Bool.of_not_eq_false hreset

/-- Under the lock of the device, a queue is refused or the program traps. -/
theorem wp_virtioQueueInit {hw : Probe} {index : Nat} (h : P → queueOk hw index = false)
    {v : Guarded} : (virtioQueueInit d hw index).wp (rules P) v (g + 1) 1 fun a v' g' l' =>
      a = false ∧ v' = v ∧ g' = g + 1 ∧ l' = 1 := by
  apply wp_get
  intro s _ _
  split
  · exact ⟨rfl, rfl, rfl, rfl⟩
  split
  · exact ⟨rfl, rfl, rfl, rfl⟩
  rename_i hok
  have hP : ¬P := fun hP => hok (h hP)
  refine Keeps.wp_bind_self (keeps_setQueue fun _ hx => hx) (Nat.succ_ne_zero g) fun _ => ?_
  exact wp_virtioDmaAlloc_bind hP

end GenOS
