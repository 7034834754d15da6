import GenOS.Drivers.NetSections

/-!
# Runs of the network driver

Every task may call the functions of `net.c` at any time, with any arguments. A section under the
lock of an interface is one step, and so is a step of a device; `net_init` and `net_shutdown` hold
the mutation guard, so that one of them at most is under way (`NetPhase`). Nothing that a section
reads of the rings is read twice in it, so that a device that steps between the sections does all
that it can do in the middle of one.
-/

namespace GenOS

open Machine Locking Prog Drv Net

/-! ## The system -/

/-- Where the guard is held. -/
inductive NetPhase where
  | idle
  /-- `net_init`, with the PCI devices that are left. -/
  | starting (found : List (PciDevice × Probe))
  /-- `net_shutdown` before interface `i`, and whether all have stopped so far. -/
  | stopping (i : Nat) (stopped : Bool)

/-- A call of `net_receive_wait` after its first section; `began` counts the stops before it. -/
structure NetWait where
  index : Nat
  capacity : Nat
  epoch : Nat
  began : Nat

structure NetWorld (τ : Type) where
  drivers : Drivers
  /-- What the device of an interface knows of its queues. -/
  device : Nat → Nat → DeviceQueue := fun _ _ => {}
  phase : NetPhase := .idle
  waits : τ → Option NetWait := fun _ => none
  /-- The tokens of the frames that the device has sent. -/
  finished : Nat → List Nat := fun _ => []
  /-- For each frame that `net_receive_wait` returned, the stops when it began and when it ended. -/
  returned : List (Nat × Nat) := []

/-- The sections that a task may run at any time. -/
inductive NetOp where
  | getInfo (i : Nat) (out : Bool)
  | submit (i : Nat) (frame : Bool) (length : Nat) (token : Bool) (owner : Nat)
    (admission : Option Nat) (deadline : Nat)
  | cancelWaiter (i admission : Nat)
  | snapshot (i : Nat)
  /-- A turn of `net_service` after its first unlock, with what it read before. -/
  | service (i id owner : Nat) (dead : Bool)
  | collect (i id : Nat)
  | cancel (i id : Nat)
  | receive (i : Nat) (frame : Bool) (capacity : Nat)

def NetOp.index : NetOp → Nat
  | getInfo i _ | submit i _ _ _ _ _ _ | cancelWaiter i _ | snapshot i | service i _ _ _
  | collect i _ | cancel i _ | receive i _ _ => i

/-- A program without its result. -/
def Drv.forget {α : Type} (p : Drv α) : Drv Unit := p >>= fun _ => pure ()

def NetOp.prog : NetOp → Drv Unit
  | getInfo i out => forget (netGetInfo i out)
  | submit i frame length token owner admission deadline =>
    forget (submitOwned i frame length token owner admission deadline)
  | cancelWaiter i admission => Net.cancelWaiter i admission
  | snapshot i => forget (Net.serviceSnapshot i)
  | service i id owner dead =>
    withTryLock (.nic i) () do
      Net.releaseDead i id owner dead
      Net.pollRequest i
      pollReceived i
  | collect i id => forget (netCollect i id)
  | cancel i id => forget (netCancel i id)
  | receive i frame capacity => forget (netReceive i frame capacity)

/-- A turn of the loop of `net_shutdown`. -/
def Net.shutdownTurn (i : Nat) : Drv Bool :=
  withLock (.nic i) do
    let stopped ← Net.stop i
    ioRequestRelease (.nic i)
    return stopped

inductive NetAct (τ : Type) where
  | op (o : NetOp)
  | waitBegin (t : τ) (i capacity : Nat)
  | waitTurn (t : τ)
  | waitTimeout (t : τ)
  | init (found : List (PciDevice × Probe))
  | initTurn
  | shutdown
  | shutdownTurn
  | device (i q : Nat)
  | other

/-- A queue changes. -/
def DeviceState.setQueue (v : DeviceState) (q : Nat) (x : VirtioQueue) : DeviceState :=
  { v with transport := { v.transport with queue := Function.update v.transport.queue q x } }

/-- The tokens of the frames that the device has sent in a step of queue `q`. -/
def framesSent (log : List DriverEvent) (q : Nat) (d d' : DeviceQueue) : List Nat :=
  if q = 1 then
    (d'.used.drop d.used.length).filterMap fun u => (sentTokens 1 log)[u.place]?
  else []

section

variable {τ : Type}

/-- The state of queue `q` of interface `i`. -/
def NetWorld.virtqueue (w : NetWorld τ) (i q : Nat) : Virtqueue :=
  (w.drivers.view (.nic i)).virtqueue (w.device i) q

variable [DecidableEq τ]

/-- A step of a task, of the device of an interface, or of the other driver. -/
inductive NetStep (device : Virtqueue → Virtqueue → Prop) (w : NetWorld τ) :
    NetAct τ → NetWorld τ → Prop
  | op {o : NetOp} {s : Drivers} (h : o.prog.Ends 0 1 w.drivers (.ok ()) s) :
    NetStep device w (.op o) { w with drivers := s }
  | waitBegin {t : τ} {i capacity epoch : Nat} {s : Drivers} (ht : w.waits t = none)
    (h : (Net.rxEpoch i).Ends 0 1 w.drivers (.ok epoch) s) :
    NetStep device w (.waitBegin t i capacity)
      { w with
        drivers := s
        waits := Function.update w.waits t
          (some ⟨i, capacity, epoch, stopsOf (w.drivers.log (.nic i))⟩) }
  /-- A turn that returns no frame: an error, or nothing and the call waits. -/
  | waitTurn {t : τ} {c : NetWait} {r : Option Int} {s : Drivers} (ht : w.waits t = some c)
    (h : (receiveTurn c.index c.epoch c.capacity).Ends 0 1 w.drivers (.ok r) s)
    (hr : ∀ n, r = some n → n ≤ 0) :
    NetStep device w (.waitTurn t)
      { w with
        drivers := s
        waits := Function.update w.waits t (if r = none then some c else none) }
  | waitFrame {t : τ} {c : NetWait} {n : Int} {s : Drivers} (ht : w.waits t = some c)
    (h : (receiveTurn c.index c.epoch c.capacity).Ends 0 1 w.drivers (.ok (some n)) s)
    (hn : 0 < n) :
    NetStep device w (.waitTurn t)
      { w with
        drivers := s
        waits := Function.update w.waits t none
        returned := w.returned ++ [(c.began, stopsOf (s.log (.nic c.index)))] }
  | waitTimeout {t : τ} :
    NetStep device w (.waitTimeout t) { w with waits := Function.update w.waits t none }
  | init {found : List (PciDevice × Probe)} (hp : w.phase = .idle)
    (hi : w.drivers.interfaces.initialized = false) :
    NetStep device w (.init found)
      { w with
        drivers := { w.drivers with
          interfaces := { w.drivers.interfaces with initialized := true } }
        phase := .starting found }
  | initTurn {pci : PciDevice} {hw : Probe} {found : List (PciDevice × Probe)} {s : Drivers}
    (hp : w.phase = .starting ((pci, hw) :: found)) (hc : w.drivers.interfaces.count < 2)
    (hn : isNic pci = true)
    (h : (addNic w.drivers.interfaces.count pci hw).Ends 1 1 w.drivers (.ok ()) s) :
    NetStep device w .initTurn
      { w with
        drivers := s
        device := Function.update w.device w.drivers.interfaces.count fun _ => {}
        phase := .starting found }
  | initSkip {pci : PciDevice} {hw : Probe} {found : List (PciDevice × Probe)}
    (hp : w.phase = .starting ((pci, hw) :: found)) (hn : isNic pci = false) :
    NetStep device w .initTurn { w with phase := .starting found }
  | initEnd {found : List (PciDevice × Probe)} (hp : w.phase = .starting found)
    (hc : found = [] ∨ 2 ≤ w.drivers.interfaces.count) :
    NetStep device w .initTurn { w with phase := .idle }
  | shutdown (hp : w.phase = .idle) :
    NetStep device w .shutdown { w with phase := .stopping 0 true }
  | shutdownTurn {i : Nat} {all stopped : Bool} {s : Drivers} (hp : w.phase = .stopping i all)
    (hc : i < w.drivers.interfaces.count)
    (h : (Net.shutdownTurn i).Ends 1 1 w.drivers (.ok stopped) s) :
    NetStep device w .shutdownTurn
      { w with drivers := s, phase := .stopping (i + 1) (stopped && all) }
  | shutdownEnd {i : Nat} {all : Bool} (hp : w.phase = .stopping i all)
    (hc : w.drivers.interfaces.count ≤ i) :
    NetStep device w .shutdownTurn
      { w with
        drivers := { w.drivers with
          interfaces := if all then { initialized := false, count := 0 }
            else w.drivers.interfaces }
        phase := .idle }
  | device {i q : Nat} {v : Virtqueue} (h : device (w.virtqueue i q) v) :
    NetStep device w (.device i q)
      { w with
        drivers := w.drivers.put (.nic i) ((w.drivers.view (.nic i)).setQueue q v.queue)
        device := Function.update w.device i (Function.update (w.device i) q v.device)
        finished := Function.update w.finished i (w.finished i ++
          framesSent (w.drivers.log (.nic i)) q (w.device i q) v.device) }
  /-- The disk driver takes ids, and leaves the interfaces as they are. -/
  | other {s : Drivers}
    (hv : ∀ i, s.view (.nic i) = { w.drivers.view (.nic i) with nextId := s.nextId })
    (hi : s.interfaces = w.drivers.interfaces) (hn : w.drivers.nextId ≤ s.nextId)
    (hm : s.nextId ≤ 18446744073709551615) : NetStep device w .other { w with drivers := s }

end

/-! ## The invariant -/

/-- Nothing but the ids of other devices changes. -/
theorem NicGood.mono {P : Prop} {dev : Nat → DeviceQueue} {finished : List Nat}
    {v v' : DeviceState} (h : NicGood P dev finished v) {n : Nat} {disk : BlockDevice}
    (hv : v' = { v with nextId := n, disk := disk }) (hn : v.nextId ≤ n)
    (hm : n ≤ 18446744073709551615) : NicGood P dev finished v' := by
  subst hv
  exact h.congr rfl (.refl _) (h.1.admitted.mono hn hm) rfl rfl rfl rfl

theorem Drivers.view_put_nic (s : Drivers) (i : Nat) (v : DeviceState) :
    (s.put (.nic i) v).view (.nic i) = { v with disk := {} } := by
  simp [view, put]

/-- The epoch of a call is that of its beginning. -/
structure NetWait.Ok (c : NetWait) (s : Drivers) : Prop where
  epoch : c.epoch = c.began % 2 ^ 64
  began : c.began ≤ stopsOf (s.log (.nic c.index))

theorem NetWait.Ok.mono {c : NetWait} {s s' : Drivers} (h : c.Ok s)
    (hl : ∀ i, stopsOf (s.log (.nic i)) ≤ stopsOf (s'.log (.nic i))) : c.Ok s' :=
  ⟨h.epoch, Nat.le_trans h.began (hl _)⟩

theorem Drivers.stops_put (s : Drivers) {i : Nat} {v : DeviceState}
    (h : stopsOf (s.log (.nic i)) ≤ stopsOf v.log) (j : Nat) :
    stopsOf (s.log (.nic j)) ≤ stopsOf ((s.put (.nic i) v).log (.nic j)) := by
  by_cases hij : j = i
  · subst hij
    rw [put_log]
    exact h
  · change _ ≤ stopsOf (Function.update s.log (.nic i) v.log (.nic j))
    rw [Function.update_of_ne fun he => hij (Dev.nic.inj he)]

/-- What holds between the steps. -/
structure NetGood {τ : Type} (P : Prop) (w : NetWorld τ) : Prop where
  nic : ∀ i, NicGood P (w.device i) (w.finished i) (w.drivers.view (.nic i))
  count : ∀ i, w.drivers.interfaces.count ≤ i → (w.drivers.nic i).info.online = false
  stopping : ∀ i all, w.phase = .stopping i all → ∀ j < i, (w.drivers.nic j).info.online = false
  waits : ∀ t c, w.waits t = some c → c.Ok w.drivers

section

variable {τ : Type} {P : Prop} {w : NetWorld τ} {α : Type} {i g : Nat}

theorem NetGood.wait [DecidableEq τ] (h : NetGood P w) {t : τ} {x : Option NetWait}
    (hx : ∀ c, x = some c → c.Ok w.drivers) (u : τ) (c : NetWait)
    (hc : Function.update w.waits t x u = some c) : c.Ok w.drivers := by
  by_cases hu : u = t
  · subst hu
    rw [Function.update_self] at hc
    exact hx c hc
  · rw [Function.update_of_ne hu] at hc
    exact h.waits u c hc

/-- A section of interface `i` that ends. -/
theorem NetGood.ends (h : NetGood P w) {p : Drv α} {R : DeviceState → α → DeviceState → Prop}
    {r : Except DriverSite α} {s : Drivers}
    (hp : ∀ s v, NicGood P (w.device i) (w.finished i) v →
      p.after (fun _ => False) g 1 (NicPost P (w.device i) (w.finished i) s i v (R v))
        (s.put (.nic i) v)) (hr : p.Ends g 1 w.drivers r s) :
    ∃ a, r = .ok a ∧ NicPost P (w.device i) (w.finished i) w.drivers i
      (w.drivers.view (.nic i)) (R (w.drivers.view (.nic i))) a s := by
  have ha := hp w.drivers _ (h.nic i)
  rw [w.drivers.put_view] at ha
  obtain ⟨hok, herr⟩ := after_sound ha hr
  cases r with
  | ok a => exact ⟨a, rfl, hok a rfl⟩
  | error site => exact (herr site rfl).elim

/-- A section leaves interface `i` as good as it was. -/
theorem NetGood.put (h : NetGood P w) {v : DeviceState}
    (hg : NicGood P (w.device i) (w.finished i) v) (hs : NicStep (w.drivers.view (.nic i)) v) :
    NetGood P { w with drivers := w.drivers.put (.nic i) v } := by
  have hoff : ∀ j, (w.drivers.nic j).info.online = false →
      ((w.drivers.put (.nic i) v).nic j).info.online = false := by
    intro j hj
    by_cases hij : j = i
    · subst hij
      rw [Drivers.put_nic]
      exact hs.offline hj
    · change (Function.update w.drivers.nic i v.nic j).info.online = false
      rw [Function.update_of_ne hij]
      exact hj
  have hmax := hg.1.admitted.counter
  refine { nic := fun j => ?_, count := fun j hj => hoff j (h.count j hj),
           stopping := fun j all hp k hk => hoff k (h.stopping j all hp k hk),
           waits := fun t c hc => (h.waits t c hc).mono (w.drivers.stops_put hs.stops) }
  by_cases hij : j = i
  · subst hij
    exact hg.mono (Drivers.view_put_nic ..) (Nat.le_refl _) hmax
  · exact (h.nic j).mono (w.drivers.view_put_ne (.nic i) v fun he => hij (Dev.nic.inj he)) hs.nextId
      hmax

end

/-! ## Steps -/

section

variable {P : Prop} {dev : Nat → DeviceQueue} {finished : List Nat} {s : Drivers} {i g : Nat}
  {v : DeviceState} {E : DriverSite → Prop} {α : Type}

theorem after_forgetResult {p : Drv α} {R : α → DeviceState → Prop}
    (h : p.after E g 1 (NicPost P dev finished s i v R) (s.put (.nic i) v)) :
    p.forget.after E g 1 (NicPost P dev finished s i v fun _ _ => True) (s.put (.nic i) v) :=
  NicPost.seq h fun _ _ h' _ => .same h' trivial

theorem after_op (o : NetOp) (h : NicGood P dev finished v) :
    o.prog.after E g 1 (NicPost P dev finished s o.index v fun _ _ => True)
      (s.put (.nic o.index) v) := by
  cases o with
  | getInfo i out =>
    refine after_forgetResult (R := fun _ _ => True) ?_
    unfold netGetInfo
    split
    · exact .same h trivial
    refine after_withLock (after_get.mpr ?_)
    split
    · exact .same h trivial
    · exact NicPost.seq (after_linkStatus_post h) fun _ _ h' _ => after_get.mpr (.same h' trivial)
  | submit i frame length token owner admission deadline =>
    refine after_forgetResult (R := fun _ _ => True) (after_bind.mpr (after_inputFlag fun b => ?_))
    split
    · exact .same h trivial
    split
    · exact .same h trivial
    · exact after_withLock (after_submitLocked h)
  | cancelWaiter i admission => exact after_cancelWaiter h
  | snapshot i => exact after_forgetResult (after_serviceSnapshot h)
  | service i id owner dead =>
    refine after_withTryLock (NicPost.seq (after_releaseDead h) fun _ _ h₁ _ => ?_)
      (.same h trivial)
    exact NicPost.seq (after_pollRequest h₁) fun _ _ h₂ _ => after_pollReceived h₂
  | collect i id => exact after_forgetResult (after_netCollect h)
  | cancel i id => exact after_forgetResult (after_netCancel h)
  | receive i frame capacity => exact after_forgetResult (after_netReceive h)

end

/-! ### The device -/

/-- The device leaves the driver's side of a queue. -/
def Virtqueue.DeviceSide (s t : Virtqueue) : Prop :=
  t.sent = s.sent ∧ t.popped = s.popped ∧
    ∃ usedIdx usedRing, t.queue = { s.queue with usedIdx := usedIdx, usedRing := usedRing }

theorem Virtqueue.Protocol.side {s t : Virtqueue} (h : s.Protocol t) : s.DeviceSide t := by
  cases h with
  | take => exact ⟨rfl, rfl, s.queue.usedIdx, s.queue.usedRing, rfl⟩
  | publish => exact ⟨rfl, rfl, _, _, rfl⟩

theorem Virtqueue.Arbitrary.side {s t : Virtqueue} (h : s.Arbitrary t) : s.DeviceSide t := by
  cases h
  exact ⟨rfl, rfl, _, _, rfl⟩

/-- What a device that follows the protocol adds to what it has published. -/
theorem Virtqueue.Protocol.used {s t : Virtqueue} (h : s.Protocol t) :
    ∃ l, t.device.used = s.device.used ++ l := by
  cases h with
  | take => exact ⟨[], (List.append_nil _).symm⟩
  | publish => exact ⟨_, rfl⟩

section

variable {P : Prop} {dev : Nat → DeviceQueue} {finished : List Nat} {v : DeviceState}

@[simp] theorem DeviceState.setQueue_self {q : Nat} {x : VirtioQueue} :
    (v.setQueue q x).transport.queue q = x := Function.update_self ..

theorem DeviceState.setQueue_ne {p q : Nat} {x : VirtioQueue} (h : p ≠ q) :
    (v.setQueue q x).transport.queue p = v.transport.queue p := Function.update_of_ne h ..

theorem NicInv.device (h : NicInv v) {q : Nat} {usedIdx : Nat} {usedRing : Nat → Nat × Nat} :
    NicInv
      (v.setQueue q { v.transport.queue q with usedIdx := usedIdx, usedRing := usedRing }) := by
  have hsame : ∀ p, ∃ i r, (v.setQueue q
      { v.transport.queue q with usedIdx := usedIdx, usedRing := usedRing }).transport.queue p =
        { v.transport.queue p with usedIdx := i, usedRing := r } := by
    intro p
    by_cases hp : p = q
    · subst hp
      exact ⟨usedIdx, usedRing, DeviceState.setQueue_self⟩
    · exact ⟨_, _, DeviceState.setQueue_ne hp⟩
  have hqueue : ∀ p, v.Queue p → DeviceState.Queue (v.setQueue q
      { v.transport.queue q with usedIdx := usedIdx, usedRing := usedRing }) p := by
    intro p hp
    obtain ⟨i, r, he⟩ := hsame p
    constructor <;> rw [he]
    · exact hp.physical
    · exact hp.four
    · exact hp.dvd
    · exact hp.max
    · exact hp.count
  obtain ⟨i₀, r₀, he₀⟩ := hsame 0
  obtain ⟨i₁, r₁, he₁⟩ := hsame 1
  refine { admitted := h.admitted, epoch := h.epoch, up := fun hon => ?_, pending := h.pending,
           holder := h.holder, down := h.down }
  have hu := h.up hon
  refine { rx := hqueue 0 hu.rx, tx := hqueue 1 hu.tx, buffers := hu.buffers, slots := ?_,
           receives := ?_, sends := ?_ }
  · rw [he₀]
    exact hu.slots
  · rw [he₀]
    exact hu.receives
  · rw [he₁]
    exact hu.sends

/-- The queues after a step of the device. -/
theorem DeviceState.virtqueue_device {q : Nat} {t : Virtqueue}
    (h : (v.virtqueue dev q).DeviceSide t) (p : Nat) :
    (v.setQueue q t.queue).virtqueue (Function.update dev q t.device) p =
      if p = q then t else v.virtqueue dev p := by
  obtain ⟨hsent, hpopped, -⟩ := h
  unfold DeviceState.virtqueue
  split
  · next hpq =>
    subst hpq
    rw [setQueue_self, Function.update_self]
    exact congr (congrArg (Virtqueue.mk t.queue t.device) hsent.symm) hpopped.symm
  · next hpq => rw [setQueue_ne hpq, Function.update_of_ne hpq]; rfl

theorem NicProto.device {q : Nat} {t : Virtqueue} (hi : NicInv v) (h : NicProto v dev finished)
    (ht : (v.virtqueue dev q).Protocol t) :
    NicProto (v.setQueue q t.queue) (Function.update dev q t.device)
      (finished ++ framesSent v.log q (dev q) t.device) := by
  have hside := ht.side
  obtain ⟨l, hl⟩ := ht.used
  refine ⟨fun hon p hp => ?_, h.popped, h.slots, h.zeros, h.last, fun hon u hu k hk => ?_,
    fun h1 h2 h3 => List.mem_append_left _ (h.done h1 h2 h3)⟩
  · rw [DeviceState.virtqueue_device hside]
    by_cases hpq : p = q
    · subst hpq
      have hmax : (v.transport.queue p).size ≤ 1024 := by
        match p, hp with
        | 0, _ => exact (hi.up hon).rx.max
        | 1, _ => exact (hi.up hon).tx.max
      obtain ⟨-, -, usedIdx, usedRing, hqueue⟩ := hside
      rw [if_pos rfl, DeviceState.setQueue_self, hqueue]
      exact ((h.rings hon p hp).devices (by omega) (.single ht)).1
    · rw [if_neg hpq, DeviceState.setQueue_ne hpq]
      exact h.rings hon p hp
  · by_cases hq : q = 1
    · subst hq
      rw [Function.update_self, hl] at hu
      rcases List.mem_append.mp hu with hu | hu
      · exact List.mem_append_left _ (h.used hon u hu k hk)
      · refine List.mem_append_right _ ?_
        unfold framesSent
        rw [if_pos rfl, hl]
        change k ∈ ((((dev 1).used ++ l).drop (dev 1).used.length).filterMap _)
        rw [List.drop_left]
        exact List.mem_filterMap.mpr ⟨u, hu, hk⟩
    · rw [Function.update_of_ne (Ne.symm hq)] at hu
      exact List.mem_append_left _ (h.used hon u hu k hk)

/-- A step of the device. -/
theorem NicGood.device {q : Nat} {t : Virtqueue} (h : NicGood P dev finished v)
    (hs : (v.virtqueue dev q).DeviceSide t) (hP : P → (v.virtqueue dev q).Protocol t) :
    NicGood P (Function.update dev q t.device)
      (finished ++ framesSent v.log q (dev q) t.device) (v.setQueue q t.queue) := by
  refine ⟨?_, fun hp => (h.2 hp).device h.1 (hP hp)⟩
  obtain ⟨-, -, usedIdx, usedRing, hqueue⟩ := hs
  rw [hqueue]
  exact h.1.device

end

/-! ### Steps keep the invariant -/

section

variable {τ : Type} [DecidableEq τ] {P : Prop} {device : Virtqueue → Virtqueue → Prop}
  {w w' : NetWorld τ} {a : NetAct τ}

/-- What is asked of a device: it writes the used ring only, and if `P` follows the protocol. -/
structure IsDevice (P : Prop) (device : Virtqueue → Virtqueue → Prop) : Prop where
  side : ∀ s t, device s t → s.DeviceSide t
  protocol : P → ∀ s t, device s t → s.Protocol t

theorem IsDevice.of_protocol (P : Prop) : IsDevice P Virtqueue.Protocol :=
  ⟨fun _ _ h => h.side, fun _ _ _ h => h⟩

theorem IsDevice.of_arbitrary : IsDevice False Virtqueue.Arbitrary :=
  ⟨fun _ _ h => h.side, fun h => h.elim⟩

theorem after_rxEpoch {dev : Nat → DeviceQueue} {finished : List Nat} {s : Drivers} {i g : Nat}
    {v : DeviceState} {E : DriverSite → Prop} (h : NicGood P dev finished v) :
    (Net.rxEpoch i).after E g 1 (NicPost P dev finished s i v fun e _ => e = v.rxEpoch)
      (s.put (.nic i) v) :=
  after_withLock (after_get.mpr (.same h (Drivers.put_rxEpoch ..)))

omit [DecidableEq τ] in
/-- `net_init` has found an interface. -/
theorem NetGood.started (h : NetGood P w) {i : Nat} (hi : i = w.drivers.interfaces.count)
    {v : DeviceState} (hg : NicGood P (fun _ => {}) (w.finished i) v)
    (hn : v.nextId = w.drivers.nextId)
    (hl : stopsOf (w.drivers.log (.nic i)) ≤ stopsOf v.log) {phase : NetPhase}
    (hp : ∀ j all, phase ≠ .stopping j all) :
    NetGood P { w with
      drivers := { w.drivers.put (.nic i) v with
        interfaces := { w.drivers.interfaces with count := i + 1 } }
      device := Function.update w.device i fun _ => {}
      phase := phase } where
  nic j := by
    by_cases hij : j = i
    · subst hij
      change NicGood P (Function.update w.device j (fun _ => {}) j) (w.finished j)
        ((w.drivers.put (.nic j) v).view (.nic j))
      rw [Function.update_self]
      exact hg.mono (Drivers.view_put_nic ..) (Nat.le_refl _) hg.1.admitted.counter
    · change NicGood P (Function.update w.device i (fun _ => {}) j) (w.finished j)
        ((w.drivers.put (.nic i) v).view (.nic j))
      rw [Function.update_of_ne hij]
      exact (h.nic j).mono (w.drivers.view_put_ne (.nic i) v fun he => hij (Dev.nic.inj he))
        (Nat.le_of_eq hn.symm) hg.1.admitted.counter
  count j hj := by
    dsimp only at hj
    have hij : j ≠ i := by omega
    change (Function.update w.drivers.nic i v.nic j).info.online = false
    rw [Function.update_of_ne hij]
    exact h.count j (by omega)
  stopping j all hph := absurd hph (hp j all)
  waits t c hc := (h.waits t c hc).mono (w.drivers.stops_put hl)

omit [DecidableEq τ] in
/-- A device has stepped. -/
theorem NetGood.deviceStep (h : NetGood P w) {i q : Nat} {t : Virtqueue}
    (hs : (w.virtqueue i q).DeviceSide t) (hP : P → (w.virtqueue i q).Protocol t) :
    NetGood P { w with
      drivers := w.drivers.put (.nic i) ((w.drivers.view (.nic i)).setQueue q t.queue)
      device := Function.update w.device i (Function.update (w.device i) q t.device)
      finished := Function.update w.finished i (w.finished i ++
        framesSent (w.drivers.log (.nic i)) q (w.device i q) t.device) } := by
  have hnic : ∀ j, (w.drivers.put (.nic i)
      ((w.drivers.view (.nic i)).setQueue q t.queue)).nic j = w.drivers.nic j := by
    intro j
    change Function.update w.drivers.nic i (w.drivers.nic i) j = _
    rw [Function.update_eq_self]
  refine { nic := fun j => ?_, count := fun j hj => ?_, stopping := fun j all hp k hk => ?_,
           waits := fun t c hc => (h.waits t c hc).mono
             (w.drivers.stops_put (Nat.le_refl _)) }
  · have hmax := (h.nic j).1.admitted.counter
    by_cases hij : j = i
    · subst hij
      dsimp only
      rw [Function.update_self, Function.update_self]
      exact ((h.nic j).device hs hP).mono (Drivers.view_put_nic ..) (Nat.le_refl _) hmax
    · dsimp only
      rw [Function.update_of_ne hij, Function.update_of_ne hij]
      exact (h.nic j).mono (w.drivers.view_put_ne (.nic i) _ fun he => hij (Dev.nic.inj he))
        (Nat.le_refl _) hmax
  · dsimp only
    rw [hnic]
    exact h.count j hj
  · dsimp only
    rw [hnic]
    exact h.stopping j all hp k hk

theorem NetGood.step (h : NetGood P w) (hdev : IsDevice P device) (hs : NetStep device w a w') :
    NetGood P w' := by
  cases hs with
  | op hr =>
    obtain ⟨-, -, v, rfl, hg, hstep, -⟩ := h.ends (R := fun _ _ _ => True)
      (fun s v hv => after_op _ hv) hr
    exact h.put hg hstep
  | waitBegin ht hr =>
    obtain ⟨e, he, v, rfl, hg, hstep, hepoch⟩ := h.ends (R := fun v e _ => e = v.rxEpoch)
      (fun s v hv => after_rxEpoch hv) hr
    obtain rfl := Except.ok.inj he
    have h' := h.put hg hstep
    refine { h' with waits := h'.wait fun c hc => ?_ }
    obtain rfl := Option.some.inj hc
    exact ⟨hepoch.trans (h.nic _).1.epoch, w.drivers.stops_put hstep.stops _⟩
  | waitTurn ht hr hn =>
    obtain ⟨e, he, v, rfl, hg, hstep, -⟩ := h.ends (fun s v hv => after_receiveTurn hv) hr
    have h' := h.put hg hstep
    refine { h' with waits := h'.wait fun c hc => ?_ }
    split at hc
    · exact h'.waits _ c (ht.trans hc)
    · cases hc
  | waitFrame ht hr hn =>
    obtain ⟨e, he, v, rfl, hg, hstep, -⟩ := h.ends (fun s v hv => after_receiveTurn hv) hr
    have h' := h.put hg hstep
    exact { h' with waits := h'.wait fun c hc => (by cases hc) }
  | waitTimeout => exact { h with waits := h.wait fun c hc => (by cases hc) }
  | init hp hi =>
    exact { h with
      stopping := fun j all hph => (by cases hph)
      waits := fun t c hc => (h.waits t c hc).mono fun _ => Nat.le_refl _ }
  | @initTurn pci hw found s hp hc hn hr =>
    have ha := after_addNic (E := fun _ => False) (g := 1) (s := w.drivers)
      (i := w.drivers.interfaces.count) pci hw
      (h.nic w.drivers.interfaces.count) (h.count _ (Nat.le_refl _))
    rw [w.drivers.put_view] at ha
    obtain ⟨v, rfl, hg, hid, hstops⟩ := (after_sound ha hr).1 _ rfl
    exact h.started rfl hg hid hstops nofun
  | initSkip hp hn => exact { h with stopping := fun j all hph => (by cases hph) }
  | initEnd hp hc => exact { h with stopping := fun j all hph => (by cases hph) }
  | shutdown hp =>
    refine { h with stopping := fun j all hph k hk => ?_ }
    cases hph
    exact absurd hk (Nat.not_lt_zero k)
  | shutdownTurn hp hc hr =>
    obtain ⟨e, he, v, rfl, hg, hstep, hoff⟩ := h.ends
      (R := fun _ _ v' => v'.nic.info.online = false) (fun s v hv => after_shutdownTurn hv) hr
    have h' := h.put hg hstep
    refine { h' with stopping := fun j all hph k hk => ?_ }
    cases hph
    rcases Nat.lt_succ_iff_lt_or_eq.mp hk with hk | rfl
    · exact h'.stopping _ _ hp k hk
    · dsimp only
      rw [Drivers.put_nic]
      exact hoff
  | shutdownEnd hp hc =>
    refine { h with
      count := fun j hj => ?_
      stopping := fun j all hph => (by cases hph)
      waits := fun t c hc => (h.waits t c hc).mono fun _ => Nat.le_refl _ }
    by_cases hj' : w.drivers.interfaces.count ≤ j
    · exact h.count j hj'
    · exact h.stopping _ _ hp j (by omega)
  | device hd => exact h.deviceStep (hdev.side _ _ hd) fun hP => hdev.protocol hP _ _ hd
  | @other s hv hi hn hm =>
    have hoff : ∀ j, (w.drivers.nic j).info.online = false → (s.nic j).info.online = false := by
      intro j hj
      have hnic : s.nic j = w.drivers.nic j := congrArg DeviceState.nic (hv j)
      rwa [hnic]
    have hlog : ∀ j, s.log (.nic j) = w.drivers.log (.nic j) := fun j =>
      congrArg DeviceState.log (hv j)
    exact { nic := fun j => (h.nic j).mono (hv j) hn hm
            count := fun j hj => hoff j (h.count j (hi ▸ hj))
            stopping := fun j all hp k hk => hoff k (h.stopping j all hp k hk)
            waits := fun t c hc => (h.waits t c hc).mono fun j => by rw [hlog] }

/-- After boot. -/
def NetWorld.init (τ : Type) : NetWorld τ := { drivers := Drivers.init }

omit [DecidableEq τ] in
theorem NetGood.init : NetGood P (NetWorld.init τ) where
  nic i := by
    refine ⟨{ admitted := .init, epoch := rfl, up := nofun, pending := nofun, holder := nofun,
              down := fun _ _ => ⟨rfl, rfl⟩ }, fun _ => ?_⟩
    exact ⟨nofun, nofun, nofun, nofun, nofun, nofun, fun h => absurd rfl h⟩
  count _ _ := rfl
  stopping _ _ h := by cases h
  waits _ _ h := by cases h

theorem NetGood.of_run (hdev : IsDevice P device) {l : List (NetAct τ)}
    (h : Run (NetStep device) (.init τ) l w) : NetGood P w :=
  h.invariant .init fun _ _ _ hg hs => hg.step hdev hs

end

end GenOS
