import GenOS.Drivers.NetInv

/-!
# The sections of the network driver

Each part of `net.c` under the lock of an interface keeps `NicGood`, and traps nowhere: one lemma
for each function, from the inside out. `NicPost` is what they leave.
-/

namespace GenOS

open Locking Prog Drv Net

/-! ## What a section leaves -/

/-- Between two states of an interface that no `net_init` lies between. -/
structure NicStep (v v' : DeviceState) : Prop where
  nextId : v.nextId ≤ v'.nextId
  offline : v.nic.info.online = false → v'.nic.info.online = false
  stops : stopsOf v.log ≤ stopsOf v'.log

theorem NicStep.refl (v : DeviceState) : NicStep v v := ⟨Nat.le_refl _, id, Nat.le_refl _⟩

theorem NicStep.trans {v v' v'' : DeviceState} (h : NicStep v v') (h' : NicStep v' v'') :
    NicStep v v'' :=
  ⟨Nat.le_trans h.nextId h'.nextId, fun ho => h'.offline (h.offline ho),
    Nat.le_trans h.stops h'.stops⟩

/-- After a section of interface `i` that returns `a`, with `R`. -/
def NicPost {α : Type} (P : Prop) (dev : Nat → DeviceQueue) (finished : List Nat) (s : Drivers)
    (i : Nat) (v : DeviceState) (R : α → DeviceState → Prop) (a : α) (t : Drivers) : Prop :=
  ∃ v', t = s.put (.nic i) v' ∧ NicGood P dev finished v' ∧ NicStep v v' ∧ R a v'

section

variable {α β : Type} {P : Prop} {dev : Nat → DeviceQueue} {finished : List Nat} {s : Drivers}
  {i g : Nat} {v v' : DeviceState} {E : DriverSite → Prop}

/-- The rest of a section. -/
theorem NicPost.rest {p : Drv α} {R : α → DeviceState → Prop} (hs : NicStep v v')
    (h : p.after E g 1 (NicPost P dev finished s i v' R) (s.put (.nic i) v')) :
    p.after E g 1 (NicPost P dev finished s i v R) (s.put (.nic i) v') := by
  refine after_mono h ?_
  rintro a t ⟨w, rfl, hg, hs', hr⟩
  exact ⟨w, rfl, hg, hs.trans hs', hr⟩

/-- One part of a section after another. -/
theorem NicPost.seq {p : Drv α} {f : α → Drv β} {R : α → DeviceState → Prop}
    {R' : β → DeviceState → Prop}
    (h : p.after E g 1 (NicPost P dev finished s i v R) (s.put (.nic i) v))
    (hf : ∀ a v', NicGood P dev finished v' → R a v' →
      (f a).after E g 1 (NicPost P dev finished s i v' R') (s.put (.nic i) v')) :
    (p >>= f).after E g 1 (NicPost P dev finished s i v R') (s.put (.nic i) v) := by
  refine after_seq h ?_
  rintro a t ⟨v', rfl, hg, hs, hr⟩
  exact NicPost.rest hs (hf a v' hg hr)

theorem NicPost.same {R : α → DeviceState → Prop} {a : α} (h : NicGood P dev finished v)
    (hr : R a v) : NicPost P dev finished s i v R a (s.put (.nic i) v) :=
  ⟨v, rfl, h, .refl v, hr⟩

/-! ## Stop -/

theorem after_setEpoch {f : Nat → Nat} {Q : Unit → Drivers → Prop}
    (h : Q () (s.put (.nic i) { v with rxEpoch := f v.rxEpoch })) :
    (Drv.modify fun s => { s with
      rxEpoch := Function.update s.rxEpoch i (f (s.rxEpoch i)) }).after E g 1 Q
        (s.put (.nic i) v) := by
  have hput : s.put (.nic i) { v with rxEpoch := f v.rxEpoch } =
      { s.put (.nic i) v with
        rxEpoch := Function.update (s.put (.nic i) v).rxEpoch i
          (f ((s.put (.nic i) v).rxEpoch i)) } := by
    simp [Drivers.put]
  rw [hput] at h
  exact h

theorem after_setSeen {n : Drivers → Nat} {Q : Unit → Drivers → Prop}
    (h : ∀ n, Q () (s.put (.nic i) { v with rxSeen := n })) :
    (Drv.modify fun s => { s with rxSeen := Function.update s.rxSeen i (n s) }).after E g 1 Q
      (s.put (.nic i) v) := by
  have hput : s.put (.nic i) { v with rxSeen := n (s.put (.nic i) v) } =
      { s.put (.nic i) v with
        rxSeen := Function.update (s.put (.nic i) v).rxSeen i (n (s.put (.nic i) v)) } := by
    simp [Drivers.put]
  have hq := h (n (s.put (.nic i) v))
  rw [hput] at hq
  exact hq

theorem after_stop {Q : Bool → Drivers → Prop}
    (h : ∀ b v', NicStopped v v' → Q b (s.put (.nic i) v')) :
    (Net.stop i).after E g 1 Q (s.put (.nic i) v) := by
  refine after_bind.mpr (after_ioRequestCancelWaiters (after_bind.mpr (after_ioRequestComplete ?_)))
  refine after_bind.mpr (after_setEpoch (f := fun e => (e + 1) % 2 ^ 64)
    (after_bind.mpr (after_setNic ?_)))
  refine after_bind.mpr (after_virtioStop fun stopped t => ?_)
  split
  · exact h false _ ⟨rfl, rfl, rfl, rfl, rfl⟩
  · refine after_get.mpr (after_bind.mpr (after_virtioDmaFree (after_bind.mpr
      (after_virtioDmaFree (after_bind.mpr (after_setNic ?_))))))
    exact h true _ ⟨rfl, rfl, rfl, rfl, rfl⟩

/-- An interface that `stop` leaves. -/
theorem NicStopped.step (h : NicStopped v v') : NicStep v v' where
  nextId := Nat.le_of_eq h.nextId.symm
  offline _ := h.online
  stops := by
    rw [h.log]
    exact Nat.le_succ _

theorem after_stop_post (h : NicGood P dev finished v) :
    (Net.stop i).after E g 1 (NicPost P dev finished s i v fun _ v' => NicStopped v v')
      (s.put (.nic i) v) :=
  after_stop fun _ v' hs => ⟨v', rfl, h.stopped hs, hs.step, hs⟩

/-! ## Parts that keep what was submitted -/

/-- The parts that change counters and waiters. -/
theorem NicGood.post {R : α → DeviceState → Prop} {a : α} (h : NicGood P dev finished v)
    (ht : v'.transport = v.transport) (hr : v.request.SameHolder v'.request)
    (ha : v'.request.Admitted v'.nextId (allTokens 1 v.log)) (hl : v'.log = v.log)
    (hn : v'.nextId = v.nextId) (hnic : v'.nic = { v.nic with info := v'.nic.info })
    (ho : v'.nic.info.online = v.nic.info.online) (he : v'.rxEpoch = v.rxEpoch) (hR : R a v') :
    NicPost P dev finished s i v R a (s.put (.nic i) v') :=
  ⟨v', rfl, h.congr (congrArg _ ht) hr ha hl hnic ho he,
    ⟨Nat.le_of_eq hn.symm, fun hoff => ho.trans hoff, Nat.le_of_eq (congrArg _ hl.symm)⟩, hR⟩

/-- The link is up or not. -/
theorem after_linkStatus {Q : Unit → Drivers → Prop}
    (h : ∀ up, Q () (s.put (.nic i) { v with
      nic := { v.nic with info := { v.nic.info with linkUp := up } } })) :
    (linkStatus i).after E g 1 Q (s.put (.nic i) v) := by
  refine after_bind.mpr (after_inputFlag fun up => ?_)
  have hq := h (v.nic.info.online && ((v.transport.features &&& netStatus = 0) || up))
  have hput : ∀ f : NetDevice → NetDevice, s.put (.nic i) { v with nic := f v.nic } =
      { s.put (.nic i) v with
        nic := Function.update (s.put (.nic i) v).nic i (f ((s.put (.nic i) v).nic i)) } := by
    intro f
    simp [Drivers.put]
  rw [hput fun nic => { nic with info := { nic.info with linkUp := _ } }] at hq
  unfold Drv.modify
  change Q () _
  dsimp only
  rw [Drivers.put_transport, Drivers.put_nic]
  rw [Drivers.put_nic] at hq
  exact hq

theorem after_linkStatus_post (h : NicGood P dev finished v) :
    (linkStatus i).after E g 1
      (NicPost P dev finished s i v fun _ v' => ∃ up, v' = { v with
        nic := { v.nic with info := { v.nic.info with linkUp := up } } })
      (s.put (.nic i) v) :=
  after_linkStatus fun up =>
    h.post rfl (.refl _) h.1.admitted rfl rfl rfl rfl rfl ⟨up, rfl⟩

theorem after_countError {Q : Unit → Drivers → Prop}
    (h : ∀ n, Q () (s.put (.nic i) { v with
      nic := { v.nic with info := { v.nic.info with errors := n } } })) :
    (countError i).after E g 1 Q (s.put (.nic i) v) :=
  after_setNic (h _)

/-! ## Requests -/

/-- What `submit_owned` does under the lock: a token is given for a frame that is submitted. -/
theorem after_submitLocked {owner deadline : Nat} {admission : Option Nat}
    (h : NicGood P dev finished v) :
    (submitLocked i owner admission deadline).after E g 1
      (NicPost P dev finished s i v fun _ _ => True) (s.put (.nic i) v) := by
  refine after_get.mpr ?_
  split
  · exact .same h trivial
  refine NicPost.seq (after_linkStatus_post h) fun _ v₁ h₁ _ => ?_
  refine after_get.mpr (after_bind.mpr (after_inputFlag fun ready => ?_))
  rw [Drivers.put_nic]
  split
  · exact .same h₁ trivial
  next hready =>
  rw [not_or] at hready
  have hon : v₁.nic.info.online = true := Bool.of_not_eq_false hready.1
  refine after_bind.mpr (after_ioRequestBeginOwned fun n₁ n₂ n₃ => ?_)
  dsimp only
  have hadm := h₁.1.admitted.beginOwned owner admission deadline n₁ n₂ n₃
  have hcase := v₁.request.beginOwned_holder v₁.nextId owner admission deadline n₁ n₂ n₃
  have hid := v₁.request.beginOwned_nextId v₁.nextId owner admission deadline n₁ n₂ n₃
  dsimp only at hadm hcase hid
  generalize v₁.request.beginOwned v₁.nextId owner admission deadline n₁ n₂ n₃ = b
    at hadm hcase hid ⊢
  rcases hcase with ⟨hres, htok, hsame⟩ | ⟨k, ws, hres, hfree, hk, htok, hreq⟩
  · rw [if_pos hres]
    rw [htok, Option.toList_none, List.append_nil] at hadm
    refine ⟨_, rfl, h₁.congr rfl hsame hadm rfl rfl rfl rfl, ⟨hid, id, Nat.le_refl _⟩, trivial⟩
  · rw [if_neg (not_not_intro hres)]
    have hu := h₁.1.up hon
    have hout : (v₁.transport.queue 1).outstanding = 0 := by
      rw [hu.sends]
      refine if_neg fun hp => ?_
      exact h₁.1.holder hp hfree
    have hbid : b.request.id = k := by rw [hreq]
    rw [htok, ← hbid] at hadm
    have hfour := hu.tx.four
    refine after_bind.mpr (after_virtioSubmit ?_ ?_ ?_)
    · change 0 < (v₁.transport.queue 1).size
      omega
    · change (v₁.transport.queue 1).outstanding < (v₁.transport.queue 1).size
      omega
    · refine ⟨_, rfl, h₁.send hon hfree ?_ ?_ hadm, ⟨hid, id, Nat.le_refl _⟩, trivial⟩
      · rw [hbid]
        exact hk
      · rw [hreq]

/-- An error of a queue completes the request, and the interface is stopped. -/
theorem after_failed (h : NicGood P dev finished v) (hp : v.request.pending = true)
    {w : DeviceState} {result : Int} (hne : result ≠ driverOk) (hr : w.request = v.request)
    (hn : w.nextId = v.nextId) (he : w.rxEpoch = v.rxEpoch)
    (hl : w.log = v.log ∨ ∃ used : Nat × Nat, w.log = .pop 1 used.1 used.2 v.request.id :: v.log) :
    (countError i >>= fun _ => ioRequestComplete (.nic i) result >>= fun _ =>
      Net.stop i >>= fun _ => pure ()).after E g 1
        (NicPost P dev finished s i v fun _ _ => True) (s.put (.nic i) w) := by
  refine after_bind.mpr (after_countError fun n => ?_)
  refine after_bind.mpr (after_ioRequestComplete (after_bind.mpr (after_stop fun _ v' hs => ?_)))
  have hadm := h.1.admitted.complete result
  have hdone : P → (v.request.complete result).id ≠ 0 →
      (v.request.complete result).pending = false →
      (v.request.complete result).result = driverOk →
      (v.request.complete result).id ∈ finished := by
    unfold IoRequest.complete
    rw [if_pos hp]
    exact fun _ _ _ hr => absurd hr hne
  have hstops : stopsOf w.log = stopsOf v.log := by
    rcases hl with hl | ⟨used, hl⟩
    · rw [hl]
    · rw [hl]
      rfl
  refine ⟨v', rfl, ?_, ⟨Nat.le_of_eq (hs.nextId.trans hn).symm, fun _ => hs.online, ?_⟩, trivial⟩
  swap
  · rw [← hstops]
    exact hs.step.stops
  have hreq : w.request.complete result = v.request.complete result := by rw [hr]
  rcases hl with hl | ⟨used, hl⟩
  · exact h.abandoned hs (q := 0) (u := (0, 0)) hreq hn (.inl hl) he hadm hdone
  · exact h.abandoned hs hreq hn (.inr hl) he hadm hdone

/-- What `poll_request` does: a request that it ends with success has been sent. -/
theorem after_pollRequest (h : NicGood P dev finished v) :
    (pollRequest i).after E g 1 (NicPost P dev finished s i v fun _ _ => True)
      (s.put (.nic i) v) := by
  refine after_get.mpr ?_
  rw [Drivers.put_request]
  dsimp only
  split
  · exact .same h trivial
  next hpending =>
  have hp : v.request.pending = true := Bool.of_not_eq_false hpending
  have hon := h.1.pending hp
  have hresult : ∀ r : Int, (if r = 0 then driverTimeout else driverIo) ≠ driverOk := by
    intro r
    split <;> decide
  refine after_bind.mpr (after_virtioPop (fun r used hr hpop => ?_) fun used hpop => ?_)
  · refine after_bind.mpr (after_input fun now => ?_)
    split
    · exact .same h trivial
    rw [if_pos (.inl hr)]
    exact after_failed h hp (hresult r) rfl rfl rfl (.inl rfl)
  · refine after_bind.mpr (after_input fun now => ?_)
    rw [if_neg fun h0 => Int.one_ne_zero h0.1]
    split
    · exact after_failed h hp (hresult 1) rfl rfl rfl (.inr ⟨used, rfl⟩)
    · refine after_bind.mpr (after_setNic (after_ioRequestComplete ?_))
      exact ⟨_, rfl, h.sent hp rfl hpop, ⟨Nat.le_refl _, id, Nat.le_refl _⟩, trivial⟩

theorem after_stopPending (h : NicGood P dev finished v) :
    (Net.stopPending i).after E g 1
      (NicPost P dev finished s i v fun _ v' => v'.request.pending = false) (s.put (.nic i) v) := by
  refine after_get.mpr ?_
  rw [Drivers.put_request]
  split
  · next hp => exact .same h hp
  · refine NicPost.seq (after_stop_post h) fun _ v' h' hs => .same h' ?_
    rw [hs.request]
    exact IoRequest.complete_pending _ _

theorem after_release (h : NicGood P dev finished v) (hp : v.request.pending = false) :
    (ioRequestRelease (.nic i)).after E g 1
      (NicPost P dev finished s i v fun _ _ => True) (s.put (.nic i) v) :=
  after_ioRequestRelease ⟨_, rfl, h.release hp, ⟨Nat.le_refl _, id, Nat.le_refl _⟩, trivial⟩

theorem after_releaseDead {id owner : Nat} {dead : Bool} (h : NicGood P dev finished v) :
    (Net.releaseDead i id owner dead).after E g 1
      (NicPost P dev finished s i v fun _ _ => True) (s.put (.nic i) v) := by
  refine after_get.mpr ?_
  dsimp only
  split
  · exact .same h trivial
  · exact NicPost.seq (after_stopPending h) fun _ _ h' hp => after_release h' hp

theorem after_pollReceived (h : NicGood P dev finished v) :
    (pollReceived i).after E g 1 (NicPost P dev finished s i v fun _ _ => True)
      (s.put (.nic i) v) := by
  refine after_get.mpr ?_
  split
  · exact .same h trivial
  refine after_bind.mpr (after_virtioConfigChanged fun changed => ?_)
  have hlink : (if changed then linkStatus i else pure ()).after E g 1
      (NicPost P dev finished s i v fun _ _ => True) (s.put (.nic i) v) := by
    split
    · refine after_mono (after_linkStatus_post h) ?_
      rintro _ _ ⟨v', rfl, h', hs, -⟩
      exact ⟨v', rfl, h', hs, trivial⟩
    · exact .same h trivial
  refine NicPost.seq hlink fun _ v' h' _ => after_get.mpr (after_setSeen fun n => ?_)
  exact h'.post rfl (.refl _) h'.1.admitted rfl rfl rfl rfl rfl trivial

/-- A turn of `net_service` up to its first unlock. -/
theorem after_serviceSnapshot (h : NicGood P dev finished v) :
    (Net.serviceSnapshot i).after E g 1 (NicPost P dev finished s i v fun _ _ => True)
      (s.put (.nic i) v) := by
  refine after_withTryLock (after_bind.mpr (after_ioRequestExpireWaiters fun now => ?_))
    (.same h trivial)
  refine after_get.mpr (h.post rfl ?_ ?_ rfl rfl rfl rfl rfl trivial)
  · exact v.request.expireWaiters_same now
  · exact h.1.admitted.expireWaiters now

/-- `net_collect`: success is that of the token's own frame. -/
theorem after_netCollect {id : Nat} (h : NicGood P dev finished v) :
    (netCollect i id).after E g 1
      (NicPost P dev finished s i v fun result _ => P → result = driverOk → id ∈ finished)
      (s.put (.nic i) v) := by
  have hinvalid : driverInvalid ≠ driverOk := by decide
  have hcanceled : driverCanceled ≠ driverOk := by decide
  have hpending : driverPending ≠ driverOk := by decide
  unfold netCollect
  split
  · exact .same h fun _ hr => absurd hr hinvalid
  refine after_withLock (after_get.mpr ?_)
  rw [Drivers.put_request]
  split
  · exact .same h fun _ hr => absurd hr hcanceled
  refine NicPost.seq (after_pollRequest h) fun _ v₁ h₁ _ => after_get.mpr ?_
  rw [Drivers.put_request]
  dsimp only
  split
  · exact .same h₁ fun _ hr => absurd hr hcanceled
  next hfor =>
  split
  · exact .same h₁ fun _ hr => absurd hr hpending
  next hp =>
  have hmatch := of_decide_eq_true (Bool.of_not_eq_false hfor)
  have hp' : v₁.request.pending = false := Bool.of_not_eq_true hp
  refine NicPost.seq (after_release h₁ hp') fun _ v₂ h₂ _ => .same h₂ fun hP hr => ?_
  have hdone := (h₁.2 hP).done
  rw [hmatch.2] at hdone
  exact hdone hmatch.1 hp' hr

theorem after_netCancel {id : Nat} (h : NicGood P dev finished v) :
    (netCancel i id).after E g 1 (NicPost P dev finished s i v fun _ _ => True)
      (s.put (.nic i) v) := by
  unfold netCancel
  split
  · exact .same h trivial
  refine after_withLock (after_get.mpr ?_)
  split
  · exact .same h trivial
  refine NicPost.seq (after_stopPending h) fun _ v₁ h₁ hp => ?_
  exact NicPost.seq (after_release h₁ hp) fun _ v₂ h₂ _ => .same h₂ trivial

/-- The end of the first loop of `net_send`. -/
theorem after_cancelWaiter {admission : Nat} (h : NicGood P dev finished v) :
    (Net.cancelWaiter i admission).after E g 1 (NicPost P dev finished s i v fun _ _ => True)
      (s.put (.nic i) v) := by
  refine after_withLock (after_ioRequestCancelWaiter
    (h.post rfl ?_ ?_ rfl rfl rfl rfl rfl trivial))
  · exact v.request.cancelWaiter_same admission
  · exact h.1.admitted.cancelWaiter admission

/-! ## Frames received -/

/-- What `receive_locked` may do with a frame: it reads the slot that was popped, and what it
returns is of the device that runs. -/
structure ReceivedOk (v : DeviceState) (capacity : Nat) (a : Received)
    (v' : DeviceState) : Prop where
  written : a.written ≤ capacity
  reads : ∀ r ∈ a.reads, ∃ id length token,
    v'.log = .submit 0 id token :: .pop 0 id length token :: v.log ∧ id < v'.nic.slots ∧
      v'.nic.rxPhysical + id * rxBytes ≤ r.1 ∧
        r.1 + r.2 ≤ v'.nic.rxPhysical + id * rxBytes + rxBytes
  stops : 0 < a.result → stopsOf v'.log = stopsOf v.log

theorem ReceivedOk.nothing {capacity : Nat} {result : Int} (h : result ≤ 0) :
    ReceivedOk v capacity ⟨result, [], 0⟩ v' where
  written := Nat.zero_le _
  reads := fun r hr => by cases hr
  stops := fun hpos => absurd hpos (Int.not_lt.mpr h)

/-- A frame is no longer than the caller's buffer, and with its header it fits a slot. -/
theorem frameResult_le (length capacity : Nat) (plain : Bool) :
    (frameResult length capacity plain).toNat ≤ capacity ∧
      (0 ≤ frameResult length capacity plain →
        headerBytes + (frameResult length capacity plain).toNat ≤ rxBytes) := by
  have h1 : headerBytes = 10 := rfl
  have h2 : netFrameMax = 1514 := rfl
  have h3 : rxBytes = 2048 := rfl
  have h4 : driverIo = -4 := rfl
  have h5 : driverBufferSmall = -7 := rfl
  unfold frameResult
  split
  · exact ⟨by omega, fun h => by omega⟩
  next hlen =>
  rw [not_or, not_or] at hlen
  split
  · exact ⟨by omega, fun h => by omega⟩
  · exact ⟨by omega, fun h => by omega⟩

theorem after_receiveLocked {capacity : Nat} (h : NicGood P dev finished v) :
    (receiveLocked i capacity).after E g 1
      (NicPost P dev finished s i v fun a v' => ReceivedOk v capacity a v') (s.put (.nic i) v) := by
  refine after_get.mpr ?_
  split
  · exact .same h (.nothing (by decide))
  refine after_get.mpr ?_
  rw [Drivers.put_nic]
  split
  · exact .same h (.nothing (by decide))
  next honline =>
  have hon : v.nic.info.online = true := Bool.of_not_eq_false honline
  have hu := h.1.up hon
  have hadm := h.1.admitted
  have hdone := fun hP => (h.2 hP).done
  refine after_bind.mpr (after_virtioPop (fun r used hr hpop => ?_) fun used hpop => ?_)
  · dsimp only
    split
    · exact .same h (.nothing (Int.le_refl 0))
    next hr0 =>
    have hle := (VirtioQueue.popCounted_ne_one hpop hr).2
    have hneg : r < 0 := by omega
    refine after_get.mpr ?_
    rw [if_pos (.inl hneg)]
    refine after_bind.mpr (after_countError fun n => after_bind.mpr (after_stop fun _ v' hs => ?_))
    refine ⟨v', rfl, ?_, { hs.step with }, .nothing (by decide)⟩
    exact h.abandoned hs (q := 0) (u := used) rfl rfl (.inl rfl) rfl hadm hdone
  · obtain ⟨hpos, hsize, -⟩ := VirtioQueue.popCounted_one hpop
    dsimp only
    rw [if_neg Int.one_ne_zero]
    refine after_get.mpr ?_
    rw [Drivers.put_nic]
    split
    · refine after_bind.mpr (after_countError fun n =>
        after_bind.mpr (after_stop fun _ v' hs => ?_))
      refine ⟨v', rfl, ?_, { hs.step with }, .nothing (by decide)⟩
      exact h.abandoned hs rfl rfl (.inr rfl) rfl hadm hdone
    next hid =>
    rw [not_or, Nat.not_le] at hid
    refine after_bind.mpr (after_inputFlag fun plain => after_bind.mpr (after_setNic ?_))
    obtain ⟨hcap, hslot⟩ := frameResult_le used.2 capacity plain
    have hslots := hu.slots
    have hfour := hu.rx.four
    have hmax := hu.rx.max
    have hreceives := hu.receives
    have hq : Function.update v.transport.queue 0 (v.transport.queue 0).pop 0 =
        (v.transport.queue 0).pop := Function.update_self ..
    refine after_bind.mpr (after_virtioSubmit ?_ ?_ ?_)
    · dsimp only
      rw [hq]
      exact hsize
    · dsimp only
      rw [hq]
      change ((v.transport.queue 0).outstanding + 65535) % 65536 < (v.transport.queue 0).size
      omega
    · refine ⟨_, rfl, ?_, ⟨Nat.le_refl _, id, Nat.le_refl _⟩, ?_⟩
      · dsimp only
        rw [hq, Function.update_idem]
        exact h.receive hon rfl hpop hid.2
      · refine { written := hcap, reads := fun r hr => ?_, stops := fun _ => rfl }
        refine ⟨used.1, used.2, v.request.id, rfl, hid.2, ?_⟩
        have htwo : 2 ≤ rxBytes := by decide
        change v.nic.rxPhysical + used.1 * rxBytes ≤ r.1 ∧
          r.1 + r.2 ≤ v.nic.rxPhysical + used.1 * rxBytes + rxBytes
        rcases List.mem_append.mp hr with hr | hr
        · split at hr
          · cases hr
          · obtain rfl := List.mem_singleton.mp hr
            exact ⟨Nat.le_refl _, Nat.add_le_add_left htwo _⟩
        · split at hr
          · cases hr
          next hneg =>
          obtain rfl := List.mem_singleton.mp hr
          refine ⟨Nat.le_add_right _ _, ?_⟩
          dsimp only
          rw [Nat.add_assoc]
          exact Nat.add_le_add_left (hslot (Int.not_lt.mp hneg)) _

/-- `net_receive`. -/
theorem after_netReceive {frame : Bool} {capacity : Nat} (h : NicGood P dev finished v) :
    (netReceive i frame capacity).after E g 1
      (NicPost P dev finished s i v fun a v' => ReceivedOk v capacity a v') (s.put (.nic i) v) := by
  refine after_bind.mpr (after_inputFlag fun enabled => ?_)
  split
  · exact .same h (.nothing (by decide))
  · exact after_withLock (after_receiveLocked h)

/-- A turn of `net_receive_wait`: a frame is of the epoch that the call began with. -/
theorem after_receiveTurn {epoch capacity : Nat} (h : NicGood P dev finished v) :
    (receiveTurn i epoch capacity).after E g 1
      (NicPost P dev finished s i v fun r v' => ∀ n, r = some n → 0 < n →
        epoch = v.rxEpoch ∧ stopsOf v'.log = stopsOf v.log) (s.put (.nic i) v) := by
  refine after_withLock (after_get.mpr ?_)
  rw [Drivers.put_rxEpoch]
  split
  · refine .same h fun n hn hpos => ?_
    injection hn with hn
    subst hn
    exact absurd hpos (by decide)
  next hepoch =>
  refine NicPost.seq (after_receiveLocked h) fun a v₁ h₁ hr => ?_
  split
  · refine .same h₁ fun n hn hpos => ⟨Decidable.not_not.mp hepoch, ?_⟩
    injection hn with hn
    subst hn
    exact hr.stops hpos
  refine NicPost.seq (after_linkStatus_post h₁) fun _ v₂ h₂ _ => after_get.mpr ?_
  split
  · refine .same h₂ fun n hn hpos => ?_
    injection hn with hn
    subst hn
    exact absurd hpos (by decide)
  · exact .same h₂ fun n hn => by cases hn

/-! ## Start and shutdown -/

/-- What `setUp` keeps until it submits. -/
structure NicKept (v w : DeviceState) : Prop where
  request : w.request = v.request
  nextId : w.nextId = v.nextId
  log : w.log = v.log
  epoch : w.rxEpoch = v.rxEpoch

/-- What `setUp` leaves when it fails, and when it returns true. -/
def NicSetUp (s : Drivers) (i : Nat) (v : DeviceState) (b : Bool) (t : Drivers) : Prop :=
  ∃ v', t = s.put (.nic i) v' ∧
    (b = false ∧ NicKept v v' ∨ b = true ∧ ∃ w, NicKept v w ∧ NicStarted w v')

/-- The slots are given to the device. -/
theorem after_fill {Q : Unit → Drivers → Prop} {j : Nat} (hq : (v.transport.queue 0).Made)
    (hs : ∀ q, sentOf q v.log = [] ∧ poppedOf q v.log = [])
    (hj : j ≤ (v.transport.queue 0).size) (h : Q () (s.put (.nic i) (v.filled j))) :
    (forLoop (virtioSubmit (.nic i) 0) j 0).after E g 1 Q (s.put (.nic i) v) := by
  refine after_mono (after_forLoop (I := fun n t => t = s.put (.nic i) (v.filled n)) ?_ j 0
    (Nat.zero_add j) rfl) ?_
  · rintro n _ hn rfl
    have hf := NicFilled.filled hq hs n (by omega)
    have hsize := hf.ring.size
    have hout := hf.ring.outstanding
    rw [List.length_nil, List.length_range] at hout
    dsimp only at hsize hout
    refine after_virtioSubmit ?_ ?_ rfl
    · omega
    · omega
  · rintro _ _ rfl
    exact h

theorem after_setUp {pci : PciDevice} {hw : Probe}
    (hs : ∀ q, sentOf q v.log = [] ∧ poppedOf q v.log = []) :
    (Net.setUp i pci hw).after E g 1 (NicSetUp s i v) (s.put (.nic i) v) := by
  have hfail : ∀ w, NicKept v w → NicSetUp s i v false (s.put (.nic i) w) := fun w hw =>
    ⟨w, rfl, .inl ⟨rfl, hw⟩⟩
  refine after_bind.mpr (after_setNic (after_bind.mpr (after_setTransport ?_)))
  refine after_bind.mpr (after_virtioOpen fun opened t hopen => ?_)
  split
  · exact hfail _ ⟨rfl, rfl, rfl, rfl⟩
  next hopened =>
  have hnew := hopen (Bool.of_not_eq_false hopened)
  refine after_get.mpr ?_
  split
  · exact hfail _ ⟨rfl, rfl, rfl, rfl⟩
  refine after_forget (fun w => NicKept v w ∧ ∀ q, w.transport.queue q = {})
    ⟨⟨rfl, rfl, rfl, rfl⟩, hnew⟩ fun w ⟨hk, hnew⟩ => ?_
  refine after_bind.mpr (after_virtioQueueInit (hnew 0) (fun t => ?_) fun q₀ hq₀ => ?_)
  · exact hfail _ { hk with }
  refine after_forget (fun w => NicKept v w ∧ (w.transport.queue 0).Made ∧
    w.transport.queue 1 = {}) ⟨{ hk with }, hq₀, hnew 1⟩ fun w ⟨hk, hq₀, hnew⟩ => ?_
  rw [if_neg Bool.true_eq_false.mp]
  refine after_bind.mpr (after_virtioQueueInit hnew (fun t => ?_) fun q₁ hq₁ => ?_)
  · exact hfail _ { hk with }
  refine after_forget (fun w => NicKept v w ∧ (w.transport.queue 0).Made ∧
    (w.transport.queue 1).Made) ⟨{ hk with }, hq₀, hq₁⟩ fun w ⟨hk, hq₀, hq₁⟩ => ?_
  rw [if_neg Bool.true_eq_false.mp]
  refine after_bind.mpr (after_virtioDmaAlloc fun rx => after_bind.mpr (after_setNic ?_))
  refine after_forget (fun w => NicKept v w ∧ (w.transport.queue 0).Made ∧
    (w.transport.queue 1).Made ∧ w.nic.rxPhysical = rx) ⟨{ hk with }, hq₀, hq₁, rfl⟩
    fun w ⟨hk, hq₀, hq₁, hrx⟩ => ?_
  refine after_bind.mpr (after_virtioDmaAlloc fun tx => after_bind.mpr (after_setNic ?_))
  refine after_forget (fun w => NicKept v w ∧ (w.transport.queue 0).Made ∧
    (w.transport.queue 1).Made ∧ w.nic.rxPhysical = rx ∧ w.nic.txPhysical = tx)
    ⟨{ hk with }, hq₀, hq₁, hrx, rfl⟩ fun w ⟨hk, hq₀, hq₁, hrx, htx⟩ => ?_
  split
  · exact hfail _ hk
  next hbuffers =>
  rw [not_or] at hbuffers
  refine after_bind.mpr (after_input fun mac => after_bind.mpr (after_setNic (after_get.mpr ?_)))
  rw [Drivers.put_transport]
  refine after_bind.mpr (after_setNic ?_)
  generalize hn : min (w.transport.queue 0).size rxSlots = n
  refine after_forget (fun w => NicKept v w ∧ (w.transport.queue 0).Made ∧
    (w.transport.queue 1).Made ∧ (w.nic.rxPhysical ≠ 0 ∧ w.nic.txPhysical ≠ 0) ∧
    w.nic.slots = n ∧ min (w.transport.queue 0).size rxSlots = n)
    ⟨{ hk with }, hq₀, hq₁, ⟨hrx ▸ hbuffers.1, htx ▸ hbuffers.2⟩, rfl, hn⟩
    fun w ⟨hk, hq₀, hq₁, hbuf, hslots, hn⟩ => ?_
  rw [← hk.log] at hs
  have hle : n ≤ (w.transport.queue 0).size := hn ▸ Nat.min_le_left _ _
  refine after_bind.mpr (after_fill hq₀ hs hle ?_)
  have hf := NicFilled.filled hq₀ hs n hle
  obtain ⟨q, l, hrest⟩ := hf.rest
  refine after_forget (fun w' => w'.request = w.request ∧ w'.nextId = w.nextId ∧
    w'.rxEpoch = w.rxEpoch ∧ w'.nic = w.nic ∧
    w'.transport.queue = (w.filled n).transport.queue ∧ w'.log = (w.filled n).log)
    (by rw [hrest]; exact ⟨rfl, rfl, rfl, rfl, rfl, rfl⟩) fun w' ⟨hr, hid, he, hnic, hq, hl⟩ => ?_
  refine after_bind.mpr (after_virtioReady fun irq => after_bind.mpr (after_setNic ?_))
  refine after_bind.mpr (after_setSeen fun seen => after_bind.mpr (after_linkStatus fun up => ?_))
  refine ⟨_, rfl, .inr ⟨rfl, w, hk, ?_⟩⟩
  refine { rx := hq₀, tx := hq₁, buffers := hbuf, slots := hslots.trans hn.symm, request := hr,
           nextId := hid, epoch := he, nic := ?_, online := rfl, queue := ?_, log := ?_ }
  · rw [← hnic]
  · rw [hslots]
    exact hq
  · rw [hslots]
    exact hl

/-- A turn of the loop of `net_init` that has found an interface. -/
theorem after_addNic (pci : PciDevice) (hw : Probe) (h : NicGood P dev finished v)
    (hoff : v.nic.info.online = false) :
    (Net.addNic i pci hw).after E g 1 (fun _ t => ∃ v',
      t = { s.put (.nic i) v' with
        interfaces := { s.interfaces with count := i + 1 } } ∧
      NicGood P (fun _ => {}) finished v' ∧ v'.nextId = v.nextId ∧
        stopsOf v.log ≤ stopsOf v'.log) (s.put (.nic i) v) := by
  refine after_withLock (after_seq (after_setUp (h.1.down hoff)) ?_)
  rintro b t ⟨w, rfl, ⟨rfl, hk⟩ | ⟨rfl, w₀, hk, hstart⟩⟩
  · refine after_bind.mpr (after_bind.mpr (after_stop fun _ v' hs => ?_))
    refine ⟨v', rfl, ?_, hs.nextId.trans hk.nextId, hk.log ▸ hs.step.stops⟩
    exact h.abandoned hs (q := 0) (u := (0, 0)) hk.request hk.nextId (.inl hk.log) hk.epoch
      h.1.admitted fun hP => (h.2 hP).done
  · refine ⟨w, rfl, ?_, hstart.nextId.trans hk.nextId, ?_⟩
    · exact h.started hoff hk.request hk.nextId hk.log hk.epoch hstart
    · rw [← hk.log]
      exact hstart.stops (hk.log ▸ h.1.down hoff)

/-- A turn of the loop of `net_shutdown`. -/
theorem after_shutdownTurn (h : NicGood P dev finished v) :
    (withLock (.nic i) (do
      let stopped ← Net.stop i
      ioRequestRelease (.nic i)
      return stopped) : Drv Bool).after E g 1
        (NicPost P dev finished s i v fun _ v' => v'.nic.info.online = false)
        (s.put (.nic i) v) := by
  refine after_withLock (after_bind.mpr (after_stop fun _ v' hs => ?_))
  have hp : v'.request.pending = false := by
    rw [hs.request]
    exact IoRequest.complete_pending _ _
  refine after_bind.mpr (after_ioRequestRelease ?_)
  exact ⟨_, rfl, (h.stopped hs).release hp, { hs.step with }, hs.online⟩

end

end GenOS
