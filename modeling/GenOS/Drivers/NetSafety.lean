import GenOS.Drivers.NetRun

/-!
# Network and virtqueues: what holds in every run

`virtqueue_ring_safe` is about one queue with either kind of device, and about the receive path with
a device that writes what it likes. `net_lifetime` is about the whole driver with a device that
follows the protocol; the one thing that can go wrong is that an epoch comes round.
-/

namespace GenOS

open Machine Locking Prog Drv Net

/-! ## Virtqueues -/

/-- A queue of `n` entries with a device that follows the protocol. -/
structure VirtqueueSafe (n : Nat) (s : Virtqueue) : Prop where
  outstanding : s.queue.outstanding + s.popped.length = s.sent.length
  /-- What the device has not taken stands in the available ring. -/
  kept : ∀ i d, s.device.taken ≤ i → s.sent[i]? = some d → s.queue.availRing (i % n) = d
  taken : ∀ e ∈ s.device.inFlight, s.sent[e.place]? = some e.id
  /-- A completion is of one submission, and of none other. -/
  completed : ∀ u ∈ s.device.used, s.sent[u.place]? = some u.id
  once : (s.device.used.map (·.place)).Nodup
  /-- What was popped are the first completions, in order. -/
  popped : s.popped = (s.device.used.map VirtioUsed.entry).take s.popped.length
  /-- The next completion is the next to be popped. -/
  next : ∀ u, s.device.used[s.popped.length]? = some u →
    s.queue.tryPop = (1, u.entry, s.queue.pop)

theorem VirtqueueInv.safe {n : Nat} {s : Virtqueue} (h : VirtqueueInv n s) (hn : n ∣ 65536)
    (hlt : n < 65536) : VirtqueueSafe n s where
  outstanding := h.outstanding
  kept := h.avail.cell
  taken := h.inFlight
  completed := h.usedIds
  once := by
    have hplaces := h.places.nodup_iff.mpr List.nodup_range
    exact (List.nodup_append.mp hplaces).2.1
  popped := h.popped
  next u hu := by
    have hcount := h.count hlt
    have hlen := (List.getElem?_eq_some_iff.mp hu).1
    obtain ⟨u', hu', hpop⟩ := h.popCounted hn hlt (Nat.le_refl _) (by omega)
    rw [hu] at hu'
    obtain rfl := Option.some.inj hu'
    exact hpop

/-- A queue of `n` entries with a device that writes what it likes. -/
structure VirtqueueBounded (n : Nat) (s : Virtqueue) : Prop where
  outstanding : s.queue.outstanding + s.popped.length = s.sent.length
  room : s.queue.outstanding ≤ n
  /-- A pop accepts an id of the queue, and has something to take off. -/
  pop : ∀ t, VirtqueueStep Virtqueue.Arbitrary s .pop t → t.popped = s.popped ∨
    ∃ used, t.popped = s.popped ++ [used] ∧ used.1 < n ∧
      t.queue.outstanding + 1 = s.queue.outstanding

theorem Virtqueue.Arbitrary.same {s m : Virtqueue}
    (h : Relation.ReflTransGen Virtqueue.Arbitrary s m) :
    m.popped = s.popped ∧ m.queue.size = s.queue.size ∧
      m.queue.outstanding = s.queue.outstanding := by
  induction h with
  | refl => exact ⟨rfl, rfl, rfl⟩
  | tail _ hd ih =>
    cases hd
    exact ih

theorem VirtqueueAny.bounded {n : Nat} {s : Virtqueue} (h : VirtqueueAny n s) (hlt : n < 65536) :
    VirtqueueBounded n s where
  outstanding := h.outstanding
  room := h.room
  pop t ht := by
    have hroom := h.room
    cases ht with
    | pop hm hp =>
      obtain ⟨hsame, hsize, hout⟩ := Virtqueue.Arbitrary.same hm
      obtain ⟨hpos, hid, rfl⟩ := VirtioQueue.popCounted_one hp
      rw [hsize, h.size] at hid
      refine .inr ⟨_, by rw [hsame], hid, ?_⟩
      rw [hout] at hpos
      change (_ + 65535) % 65536 + 1 = _
      rw [hout]
      omega
    | popFail hm hp hr => exact .inl (Virtqueue.Arbitrary.same hm).1

/-- Rings of a power of two, through any number of wraps: (a) with a device that follows the
protocol, (b) with any device, and (c) the receive path with any device, which traps nowhere. -/
theorem virtqueue_ring_safe {τ : Type} [DecidableEq τ] {k : Nat} (hk : k < 16) :
    (∀ l s, Run (VirtqueueStep Virtqueue.Protocol) (.init (2 ^ k)) l s → VirtqueueSafe (2 ^ k) s) ∧
    (∀ l s, Run (VirtqueueStep Virtqueue.Arbitrary) (.init (2 ^ k)) l s →
      VirtqueueBounded (2 ^ k) s) ∧
    ∀ (l : List (NetAct τ)) (w : NetWorld τ), Run (NetStep Virtqueue.Arbitrary) (.init τ) l w →
      ∀ i capacity r s, (receiveLocked i capacity).Ends 0 1 w.drivers r s → ∃ a, r = .ok a ∧
        ReceivedOk (w.drivers.view (.nic i)) capacity a (s.view (.nic i)) := by
  have hlt : 2 ^ k < 65536 := Nat.pow_lt_pow_right (by decide) hk
  have hdvd : 2 ^ k ∣ 65536 := Nat.pow_dvd_pow 2 (Nat.le_of_lt hk)
  refine ⟨fun l s h => (VirtqueueInv.of_run hdvd hlt h).safe hdvd hlt,
    fun l s h => (VirtqueueAny.of_run hlt h).bounded hlt, fun l w h i capacity r s hr => ?_⟩
  have hg := NetGood.of_run .of_arbitrary h
  obtain ⟨a, rfl, v, rfl, -, -, hok⟩ := hg.ends (fun s v hv => after_receiveLocked hv) hr
  rw [Drivers.view_put_nic]
  exact ⟨a, rfl, { hok with }⟩

/-- Descriptor 3 is submitted, and the device takes it and puts it into the used ring. -/
def usedQueue : Virtqueue :=
  let s : Virtqueue := { queue := { size := 4 : VirtioQueue }.submit 3, sent := [3] }
  let s := { s with device := s.device.take s.queue }
  { s with
    queue := s.queue.publish s.device ⟨0, 3⟩ 60, device := s.device.publish ⟨0, 3⟩ 60 }

theorem usedQueue_run : Run (VirtqueueStep Virtqueue.Protocol) (.init 4)
    [.submit 3, .device, .device] usedQueue :=
  .snoc (.snoc (.single (.submit (s := .init 4) (by decide))) (.device (.take (by decide))))
    (.device (.publish (by decide) 60))

/-- The driver pops it. -/
theorem virtqueue_ring_safe_four :
    usedQueue.queue.tryPop = (1, (3, 60), usedQueue.queue.pop) ∧
    VirtqueueSafe 4 { usedQueue with queue := usedQueue.queue.pop, popped := [(3, 60)] } := by
  have hsafe := (@virtqueue_ring_safe Unit _ 2 (by decide)).1
  have hpop := (hsafe _ _ usedQueue_run).next ⟨⟨0, 3⟩, 60⟩ rfl
  exact ⟨hpop, hsafe _ _ (usedQueue_run.snoc (.pop .refl hpop))⟩

/-! ## Requests and frames received -/

/-- What a frame that is pending needs. -/
structure NicPresent (s : Drivers) (i : Nat) : Prop where
  online : (s.nic i).info.online = true
  queues : ∀ q < 2, ((s.transport (.nic i)).queue q).physical ≠ 0
  buffers : (s.nic i).rxPhysical ≠ 0 ∧ (s.nic i).txPhysical ≠ 0

structure NetSafe {τ : Type} (w : NetWorld τ) : Prop where
  pending : ∀ i, (w.drivers.request (.nic i)).pending = true → NicPresent w.drivers i
  /-- `net_collect` reports success for a frame that the device has sent. -/
  collect : ∀ i id s, (netCollect i id).Ends 0 1 w.drivers (.ok driverOk) s → id ∈ w.finished i
  tokens : ∀ i, (allTokens 1 (w.drivers.log (.nic i))).Nodup
  /-- Each slot is submitted and not popped, once. -/
  slots : ∀ i, (w.drivers.nic i).info.online = true →
    (outstandingOf 0 (w.drivers.log (.nic i))).Perm (List.range (w.drivers.nic i).slots)
  /-- No stop lies between the start of a `net_receive_wait` and the frame that it returned. -/
  returned : ∀ p ∈ w.returned, p.1 = p.2

/-- The epoch that a turn of `net_receive_wait` finds has not come round. -/
def NetEpochFresh {τ : Type} (w : NetWorld τ) (a : NetAct τ) : Prop :=
  ∀ t c, a = .waitTurn t → w.waits t = some c → ∀ k, 0 < k →
    stopsOf (w.drivers.log (.nic c.index)) ≠ c.began + k * 2 ^ 64

section

variable {τ : Type} [DecidableEq τ] {w w' : NetWorld τ} {a : NetAct τ} {l : List (NetAct τ)}

omit [DecidableEq τ] in
theorem NetGood.present (h : NetGood True w) {i : Nat}
    (hp : (w.drivers.request (.nic i)).pending = true) : NicPresent w.drivers i := by
  have hon := (h.nic i).1.pending hp
  have hu := (h.nic i).1.up hon
  refine ⟨hon, fun q hq => ?_, hu.buffers⟩
  match q, hq with
  | 0, _ => exact hu.rx.physical
  | 1, _ => exact hu.tx.physical

/-- A frame that is returned is of the device that ran when the call began. -/
theorem NetGood.returned (h : NetGood True w) (hok : NetEpochFresh w a)
    (hs : NetStep Virtqueue.Protocol w a w') (hr : ∀ p ∈ w.returned, p.1 = p.2) :
    ∀ p ∈ w'.returned, p.1 = p.2 := by
  cases hs with
  | @waitFrame t c n s ht hrun hn =>
    obtain ⟨e, he, v, rfl, -, -, hframe⟩ := h.ends (fun s v hv => after_receiveTurn hv) hrun
    obtain rfl := Except.ok.inj he
    obtain ⟨hepoch, hstops⟩ := hframe n rfl hn
    intro p hp
    rcases List.mem_append.mp hp with hp | hp
    · exact hr p hp
    obtain rfl := List.mem_singleton.mp hp
    have hwait := h.waits t c ht
    have hbegan := hwait.epoch.symm.trans (hepoch.trans (h.nic c.index).1.epoch)
    rw [Drivers.put_log]
    refine Eq.trans ?_ hstops.symm
    by_contra hne
    -- the stops since the call began are a multiple of 2 ^ 64
    have hle := hwait.began
    have hmod := Nat.sub_mod_eq_zero_of_mod_eq hbegan.symm
    refine hok t c rfl ht ((stopsOf (w.drivers.log (.nic c.index)) - c.began) / 2 ^ 64) ?_ ?_
    · change c.began ≠ stopsOf (w.drivers.log (.nic c.index)) at hne
      change (stopsOf (w.drivers.log (.nic c.index)) - c.began) % 2 ^ 64 = 0 at hmod
      omega
    · change (stopsOf (w.drivers.log (.nic c.index)) - c.began) % 2 ^ 64 = 0 at hmod
      omega
  | _ => exact hr

/-- In every run where no epoch comes round. -/
theorem net_lifetime
    (h : Run (Restrict (NetStep Virtqueue.Protocol) NetEpochFresh) (.init τ) l w) : NetSafe w := by
  have hdev := IsDevice.of_protocol True
  have hinv : NetGood True w ∧ ∀ p ∈ w.returned, p.1 = p.2 :=
    h.invariant (I := fun w : NetWorld τ => NetGood True w ∧ ∀ p ∈ w.returned, p.1 = p.2)
      ⟨.init, fun p hp => by cases hp⟩
      fun _ _ _ hi hs => ⟨hi.1.step hdev hs.1, hi.1.returned hs.2 hs.1 hi.2⟩
  obtain ⟨hg, hr⟩ := hinv
  refine { pending := fun i hp => hg.present hp, collect := fun i id s hc => ?_,
           tokens := fun i => (hg.nic i).1.admitted.nodup,
           slots := fun i hon => ((hg.nic i).2 trivial).slots hon, returned := hr }
  obtain ⟨e, he, v, rfl, -, -, hfin⟩ := hg.ends
    (R := fun _ result _ => True → result = driverOk → id ∈ w.finished i)
    (fun s v hv => after_netCollect hv) hc
  exact hfin trivial (Except.ok.inj he).symm

end

/-! ## An epoch that comes round -/

section

variable {s : Drivers} {v : DeviceState} {i g : Nat}

/-- What a stop leaves that the device does not acknowledge. -/
def DeviceState.quarantined (v : DeviceState) : DeviceState :=
  { v with
    request := (v.request.cancelWaiters.complete driverCanceled).release
    rxEpoch := (v.rxEpoch + 1) % 2 ^ 64
    nic := { v.nic with info := { v.nic.info with online := false, linkUp := false } }
    transport := { v.transport with ready := false, irqEnabled := false, quarantined := true }
    log := .stop :: v.log }

/-- The device does not acknowledge the reset. -/
theorem may_virtioStop {d : Dev} (hio : v.transport.io ≠ 0) :
    (virtioStop d).may g 1 (fun b t => b = false ∧ t = s.put d { v with
      transport := { v.transport with ready := false, irqEnabled := false, quarantined := true }
      log := .stop :: v.log }) (s.put d v) := by
  refine may_seq (after_record (may_seq (after_setTransport ?_)))
  change (if ((s.put d _).transport d).io = 0 then _ else _ : Drv Bool).may g 1 _ _
  rw [Drivers.put_transport, if_neg hio]
  refine may_seq (after_pinned (may_seq (after_setTransport ?_)))
  refine may_bind ⟨false, _, ⟨0, rfl, rfl⟩, ?_⟩
  exact may_seq (after_setTransport ⟨false, _, ⟨rfl, rfl⟩, rfl, rfl⟩)

theorem may_shutdownTurn (hio : v.transport.io ≠ 0) :
    (Net.shutdownTurn i).may g 1 (fun b t => b = false ∧ t = s.put (.nic i) v.quarantined)
      (s.put (.nic i) v) := by
  have hstop : (Net.stop i).may g 1 (fun b t => b = false ∧ t = s.put (.nic i)
      { v.quarantined with request := v.request.cancelWaiters.complete driverCanceled })
      (s.put (.nic i) v) := by
    refine may_seq (after_ioRequestCancelWaiters (may_seq (after_ioRequestComplete ?_)))
    refine may_seq (after_setEpoch (f := fun e => (e + 1) % 2 ^ 64) (may_seq (after_setNic ?_)))
    obtain ⟨_, t, ht, rfl, rfl⟩ := may_virtioStop (s := s) (g := g) (d := .nic i) (v := { v with
      request := v.request.cancelWaiters.complete driverCanceled
      rxEpoch := (v.rxEpoch + 1) % 2 ^ 64
      nic := { v.nic with info := { v.nic.info with online := false, linkUp := false } } }) hio
    exact may_bind ⟨false, _, ht, false, _, ⟨rfl, rfl⟩, rfl, rfl⟩
  obtain ⟨_, t, ht, rfl, rfl⟩ := hstop
  refine may_withLock (may_bind ⟨false, _, ht, ?_⟩)
  exact may_seq (after_ioRequestRelease ⟨false, _, ⟨rfl, rfl⟩, rfl, rfl⟩)

end

/-- After `j` stops that were not acknowledged. -/
def DeviceState.stuck (v : DeviceState) (j : Nat) : DeviceState :=
  { v.quarantined with rxEpoch := j % 2 ^ 64, log := List.replicate j .stop ++ v.log }

theorem DeviceState.stuck_next (v : DeviceState) (j : Nat) :
    (v.stuck j).quarantined = v.stuck (j + 1) := by
  have hepoch : (j % 2 ^ 64 + 1) % 2 ^ 64 = (j + 1) % 2 ^ 64 := Nat.mod_add_mod _ _ _
  have hw : (v.request.cancelWaiters.complete driverCanceled).waiters = [] := by
    unfold IoRequest.complete
    split <;> rfl
  unfold stuck quarantined
  dsimp only
  rw [hepoch, List.replicate_succ, List.cons_append]
  generalize v.request.cancelWaiters.complete driverCanceled = r at hw ⊢
  have hr : (r.release.cancelWaiters.complete driverCanceled).release = r.release := by
    cases r
    subst hw
    rfl
  rw [hr]

theorem DeviceState.stuck_one {v : DeviceState} (h : v.rxEpoch = 0) :
    v.quarantined = v.stuck 1 := by
  unfold stuck quarantined
  rw [h]
  rfl

section

variable {w : NetWorld Unit} {s : Drivers} {v : DeviceState}

/-- A shutdown of the one interface that its device does not acknowledge. -/
theorem NetStep.run_shutdown (hw : w.drivers = s.put (.nic 0) v) (hp : w.phase = .idle)
    (hc : s.interfaces.count = 1) (hio : v.transport.io ≠ 0) :
    Run (NetStep Virtqueue.Protocol) w [.shutdown, .shutdownTurn, .shutdownTurn]
      { w with drivers := s.put (.nic 0) v.quarantined, phase := .idle } := by
  have hcount : w.drivers.interfaces.count = 1 := by
    rw [hw]
    exact hc
  obtain ⟨_, t, ht, rfl, rfl⟩ := may_shutdownTurn (s := s) (v := v) (i := 0) (g := 1) hio
  rw [← hw] at ht
  refine .snoc (.snoc (.single (.shutdown hp)) (.shutdownTurn rfl ?_ ht)) ?_
  · exact NetStep.shutdownEnd (w := { w with
      drivers := s.put (.nic 0) v.quarantined, phase := .stopping 1 false }) rfl (Nat.le_of_eq hc)
  · change 0 < w.drivers.interfaces.count
    omega

/-- Any number of them. -/
theorem NetStep.run_stuck (hp : w.phase = .idle) (hw : w.drivers = s.put (.nic 0) v)
    (hc : s.interfaces.count = 1) (hio : v.transport.io ≠ 0) (he : v.rxEpoch = 0) (j : Nat) :
    ∃ l, Run (NetStep Virtqueue.Protocol) w l
      { w with drivers := s.put (.nic 0) (v.stuck (j + 1)), phase := .idle } := by
  induction j with
  | zero =>
    have hs := run_shutdown hw hp hc hio
    rw [DeviceState.stuck_one he] at hs
    exact ⟨_, hs⟩
  | succ j ih =>
    obtain ⟨l, hl⟩ := ih
    have hs := run_shutdown (w := { w with
      drivers := s.put (.nic 0) (v.stuck (j + 1)), phase := .idle }) rfl rfl hc hio
    rw [DeviceState.stuck_next] at hs
    exact ⟨_, hl.append hs⟩

end

/-- An interface. -/
def somePci : PciDevice := { vendor := 0x1af4, device := 0x1000, bar0 := 0xc001 }
def someProbe : Probe := ⟨true, netMac, fun _ => 4, fun _ => 0⟩

/-- It is found, and so are its frames. -/
def Drivers.found (s : Drivers) : Drivers :=
  (((addNic 0 somePci someProbe).run 1 1 [1, 4096, 1, 4096, 1, 4096, 1, 4096]
    { s with interfaces := ⟨true, 0⟩ }).getD ((), s)).2

def onlineDrivers : Drivers := Drivers.init.found

/-- The device acknowledges the last stop. -/
def stoppedDrivers : Drivers :=
  (((Net.shutdownTurn 0).run 1 1 [1] (onlineDrivers.put (.nic 0)
    ((onlineDrivers.view (.nic 0)).stuck 18446744073709551615))).getD (true, Drivers.init)).2

/-- The interface is found again. -/
def againDrivers : Drivers := stoppedDrivers.found

/-- A call of `net_receive_wait` is under way, since before any stop. -/
def waitingWorld (s : Drivers) : NetWorld Unit where
  drivers := s
  device := Function.update (fun _ _ => {}) 0 fun _ => {}
  waits := Function.update (fun _ => none) () (some ⟨0, 64, 0, 0⟩)

/-- The interface is online, and no call is under way. -/
def startedWorld : NetWorld Unit :=
  { drivers := onlineDrivers, device := Function.update (fun _ _ => {}) 0 fun _ => {} }

theorem run_started : Run (NetStep Virtqueue.Protocol) (.init Unit)
    [.init [(somePci, someProbe)], .initTurn, .initTurn] startedWorld := by
  have h : (addNic 0 somePci someProbe).run 1 1 [1, 4096, 1, 4096, 1, 4096, 1, 4096]
      { Drivers.init with interfaces := ⟨true, 0⟩ } = some ((), onlineDrivers) := rfl
  exact .snoc (.snoc (.single (.init rfl rfl)) (.initTurn rfl (by decide) rfl (run_ends h)))
    (.initEnd rfl (.inl rfl))

theorem run_online : Run (NetStep Virtqueue.Protocol) (.init Unit)
    [.init [(somePci, someProbe)], .initTurn, .initTurn, .waitBegin () 0 64]
    (waitingWorld onlineDrivers) :=
  run_started.snoc (.waitBegin rfl ⟨rfl, rfl⟩)

/-- A program that has been run. -/
theorem run_done {α σ : Type} {o : Option (α × σ)} {a : α} (d : α × σ)
    (h : o.map Prod.fst = some a) : o = some (a, (o.getD d).2) := by
  cases o with
  | none => cases h
  | some x => exact congrArg (fun b => some (b, x.2)) (Option.some.inj h)

theorem stopped_eq : (Net.shutdownTurn 0).run 1 1 [1] (onlineDrivers.put (.nic 0)
    ((onlineDrivers.view (.nic 0)).stuck 18446744073709551615)) = some (true, stoppedDrivers) :=
  run_done _ rfl

theorem again_eq : (addNic 0 somePci someProbe).run 1 1 [1, 4096, 1, 4096, 1, 4096, 1, 4096]
    { stoppedDrivers with interfaces := ⟨true, 0⟩ } = some ((), againDrivers) :=
  run_done _ rfl

def DriverEvent.isStop : DriverEvent → Bool
  | stop => true
  | _ => false

theorem stopsOf_pos {l : List DriverEvent} (h : l.any DriverEvent.isStop = true) :
    0 < stopsOf l := by
  induction l with
  | nil => cases h
  | cons e l ih =>
    cases e with
    | stop => exact Nat.succ_pos _
    | submit => exact ih h
    | pop => exact ih h

/-- The call returns a frame after a stop, and began before any. -/
theorem NetStep.run_frame {w : NetWorld Unit} (hc : w.waits () = some ⟨0, 64, 0, 0⟩)
    (h : ((receiveTurn 0 0 64).run 0 1 [1] w.drivers).map
      (fun x => (x.1, (x.2.log (.nic 0)).any DriverEvent.isStop)) = some (some 64, true)) :
    ∃ l w', Run (NetStep Virtqueue.Protocol) w l w' ∧ ¬ NetSafe w' := by
  obtain ⟨⟨r, s⟩, hr, hx⟩ := Option.map_eq_some_iff.mp h
  obtain ⟨rfl, hstop⟩ := Prod.mk.inj hx
  refine ⟨_, _, .single (.waitFrame hc (run_ends hr) (by decide)), fun hsafe => ?_⟩
  have hp := hsafe.returned _ (List.mem_append_right _ (List.mem_singleton.mpr rfl))
  have hpos := stopsOf_pos hstop
  exact Nat.ne_of_gt hpos hp.symm

theorem net_lifetime_wraps :
    ∃ l w, Run (NetStep Virtqueue.Protocol) (.init Unit) l w ∧ ¬ NetSafe w := by
  have hio : (onlineDrivers.view (.nic 0)).transport.io ≠ 0 := by decide
  have hc : onlineDrivers.interfaces.count = 1 := rfl
  have he : (onlineDrivers.view (.nic 0)).rxEpoch = 0 := rfl
  obtain ⟨l, hl⟩ := NetStep.run_stuck (w := waitingWorld onlineDrivers) rfl
    (onlineDrivers.put_view _).symm hc hio he 18446744073709551614
  suffices h : ∃ l' w, Run (NetStep Virtqueue.Protocol) { waitingWorld onlineDrivers with
      drivers := onlineDrivers.put (.nic 0)
        ((onlineDrivers.view (.nic 0)).stuck 18446744073709551615)
      phase := .idle } l' w ∧ ¬ NetSafe w by
    obtain ⟨l', w, hl', hw⟩ := h
    exact ⟨_, w, (run_online.append hl).append hl', hw⟩
  refine Run.exists_cons (.shutdown rfl) ?_
  refine Run.exists_cons (.shutdownTurn rfl (by decide) (run_ends stopped_eq)) ?_
  refine Run.exists_cons (.shutdownEnd rfl (by rfl)) ?_
  refine Run.exists_cons (@NetStep.init _ _ _ _ [(somePci, someProbe)] rfl (by rfl)) ?_
  refine Run.exists_cons (.initTurn rfl (by decide) rfl (run_ends again_eq)) ?_
  refine Run.exists_cons (.initEnd rfl (.inl rfl)) ?_
  refine Run.exists_cons (.device (i := 0) (q := 0) (.take (by decide))) ?_
  refine Run.exists_cons (.device (i := 0) (q := 0) (.publish (e := ⟨0, 0⟩) (by decide) 74)) ?_
  exact NetStep.run_frame rfl rfl

/-! ## A frame is sent -/

section

variable {w w' : NetWorld Unit} {s t : Drivers} {l : List (NetAct Unit)}

def NetAct.isWaitTurn : NetAct Unit → Bool
  | waitTurn _ => true
  | _ => false

/-- A run without a turn of `net_receive_wait`. -/
theorem run_fresh (h : Run (NetStep Virtqueue.Protocol) w l w')
    (hl : ∀ a ∈ l, a.isWaitTurn = false) :
    Run (Restrict (NetStep Virtqueue.Protocol) NetEpochFresh) w l w' := by
  induction h with
  | nil => exact .nil
  | @snoc l u v a _ ha ih =>
    exact (ih fun b hb => hl b (List.mem_append_left _ hb)).snoc
      ⟨ha, fun t _ he => by
        have hq := hl a (List.mem_append_right _ List.mem_cons_self)
        rw [he] at hq
        cases hq⟩

/-- A result is collected, and the one interface is stopped. -/
theorem NetStep.run_halt {o : NetOp} (ho : o.prog.Ends 0 1 w.drivers (.ok ()) s)
    (hs : (Net.shutdownTurn 0).Ends 1 1 s (.ok true) t) (hp : w.phase = .idle)
    (hc : s.interfaces.count = 1) (hc' : t.interfaces.count = 1) :
    Run (NetStep Virtqueue.Protocol) w [.op o, .shutdown, .shutdownTurn, .shutdownTurn]
      { w with drivers := { t with interfaces := ⟨false, 0⟩ }, phase := .idle } := by
  refine .snoc (.snoc (.snoc (.single (.op ho)) (.shutdown hp)) (.shutdownTurn rfl ?_ hs)) ?_
  · exact NetStep.shutdownEnd (w := { w with drivers := t, phase := .stopping 1 true }) rfl
      (Nat.le_of_eq hc')
  · rw [hc]
    exact Nat.one_pos

/-- Queue 1 of interface 0 after a step of its device. -/
def NetWorld.served (w : NetWorld Unit) (v : Virtqueue) : NetWorld Unit :=
  { w with
    drivers := w.drivers.put (.nic 0) ((w.drivers.view (.nic 0)).setQueue 1 v.queue)
    device := Function.update w.device 0 (Function.update (w.device 0) 1 v.device)
    finished := Function.update w.finished 0 (w.finished 0 ++
      framesSent (w.drivers.log (.nic 0)) 1 (w.device 0 1) v.device) }

end

/-- A frame of 64 bytes. -/
def sendOp : NetOp := .submit 0 true 64 true 0 none 0

def sentDrivers : Drivers :=
  ((sendOp.prog.run 0 1 [1, 1, 1, 1] onlineDrivers).getD ((), Drivers.init)).2

/-- The frame is submitted while a call of `net_receive_wait` is under way. -/
def sentWorld : NetWorld Unit := { waitingWorld onlineDrivers with drivers := sentDrivers }

/-- The device takes the frame, and sends it. -/
def sendingWorld : NetWorld Unit :=
  let v := sentWorld.virtqueue 0 1
  sentWorld.served { v with device := v.device.take v.queue }

def doneWorld : NetWorld Unit :=
  let v := sendingWorld.virtqueue 0 1
  sendingWorld.served { v with
    queue := v.queue.publish v.device ⟨0, 0⟩ 74, device := v.device.publish ⟨0, 0⟩ 74 }

/-- The result is collected, and the interface stops. -/
def collectedDrivers : Drivers :=
  (((NetOp.collect 0 1).prog.run 0 1 [1, 1, 1, 1] doneWorld.drivers).getD ((), Drivers.init)).2

def haltedDrivers : Drivers :=
  (((Net.shutdownTurn 0).run 1 1 [1] collectedDrivers).getD (true, Drivers.init)).2

def haltedWorld : NetWorld Unit :=
  { doneWorld with drivers := { haltedDrivers with interfaces := ⟨false, 0⟩ }, phase := .idle }

theorem run_sent : Run (NetStep Virtqueue.Protocol) (.init Unit)
    [.init [(somePci, someProbe)], .initTurn, .initTurn, .waitBegin () 0 64, .op sendOp]
    sentWorld := by
  have h : sendOp.prog.run 0 1 [1, 1, 1, 1] onlineDrivers = some ((), sentDrivers) :=
    run_done _ rfl
  exact run_online.snoc (.op (run_ends h))

theorem run_served : Run (NetStep Virtqueue.Protocol) sentWorld [.device 0 1, .device 0 1]
    doneWorld :=
  .snoc (.single (.device (i := 0) (q := 1) (.take (by decide))))
    (.device (i := 0) (q := 1) (.publish (by decide) 74))

theorem run_halted : Run (NetStep Virtqueue.Protocol) doneWorld
    [.op (.collect 0 1), .shutdown, .shutdownTurn, .shutdownTurn] haltedWorld := by
  have h₁ : (NetOp.collect 0 1).prog.run 0 1 [1, 1, 1, 1] doneWorld.drivers =
      some ((), collectedDrivers) := run_done _ rfl
  have h₂ : (Net.shutdownTurn 0).run 1 1 [1] collectedDrivers = some (true, haltedDrivers) :=
    run_done _ rfl
  exact NetStep.run_halt (run_ends h₁) (run_ends h₂) rfl rfl rfl

/-- A frame is sent and collected, and the call that waits for one is refused after the stop. -/
theorem net_lifetime_sent :
    ((sentWorld.drivers.request (.nic 0)).pending = true ∧ NicPresent sentWorld.drivers 0) ∧
    (∃ s, (netCollect 0 1).Ends 0 1 doneWorld.drivers (.ok driverOk) s ∧ 1 ∈ doneWorld.finished 0) ∧
    (allTokens 1 (haltedWorld.drivers.log (.nic 0)) = [1] ∧
      stopsOf (haltedWorld.drivers.log (.nic 0)) = 1) ∧
    ∃ l w, Run (Restrict (NetStep Virtqueue.Protocol) NetEpochFresh) (.init Unit) l w ∧
      NetSafe w ∧ w.waits () = none ∧ w.returned = [] := by
  have h₁ := run_sent
  have h₂ := h₁.append run_served
  have h₃ := run_fresh (h₂.append run_halted) (by decide)
  have hcollect : (netCollect 0 1).run 0 1 [1, 1, 1, 1] doneWorld.drivers =
      some (driverOk, _) := run_done (0, Drivers.init) rfl
  have hwait : (receiveTurn 0 0 64).run 0 1 [] haltedWorld.drivers =
      some (some driverCanceled, _) := run_done (none, Drivers.init) rfl
  have hpending : (sentWorld.drivers.request (.nic 0)).pending = true := rfl
  have hw : haltedWorld.waits () = some ⟨0, 64, 0, 0⟩ := rfl
  have hstops : stopsOf (haltedWorld.drivers.log (.nic 0)) = 1 := rfl
  have h₄ := h₃.snoc ⟨.waitTurn hw (run_ends hwait) fun n hn => by cases hn; decide,
    fun t c ht hc k hk he => by
      cases ht
      rw [hw] at hc
      cases hc
      rw [hstops] at he
      omega⟩
  exact ⟨⟨hpending, (net_lifetime (run_fresh h₁ (by decide))).pending 0 hpending⟩,
    ⟨_, run_ends hcollect,
      (net_lifetime (run_fresh h₂ (by decide))).collect 0 1 _ (run_ends hcollect)⟩,
    ⟨rfl, hstops⟩, _, _, h₄, net_lifetime h₄, rfl, rfl⟩

end GenOS
