import GenOS.Drivers.Net
import GenOS.Drivers.Device

/-!
# The state of a network interface

`NicInv` holds of an interface between the sections of `net.c`, with any device: what an interface
that is online has, and what its counters mean. `NicProto` adds what a device that follows the
protocol has, by the tokens of the frames that it has sent.
-/

namespace GenOS

open Locking Prog Drv Net

/-! ## The invariant -/

/-- A queue of an interface that is online. -/
structure DeviceState.Queue (v : DeviceState) (q : Nat) : Prop where
  physical : (v.transport.queue q).physical ≠ 0
  four : 4 ≤ (v.transport.queue q).size
  dvd : (v.transport.queue q).size ∣ 65536
  max : (v.transport.queue q).size ≤ 1024
  count : (v.transport.queue q).outstanding + (poppedOf q v.log).length = (sentOf q v.log).length

/-- An interface that is online. -/
structure NicUp (v : DeviceState) : Prop where
  rx : v.Queue 0
  tx : v.Queue 1
  buffers : v.nic.rxPhysical ≠ 0 ∧ v.nic.txPhysical ≠ 0
  slots : v.nic.slots = min (v.transport.queue 0).size rxSlots
  receives : (v.transport.queue 0).outstanding = v.nic.slots
  sends : (v.transport.queue 1).outstanding = if v.request.pending then 1 else 0

/-- What holds in the middle of a section too. -/
structure NicCore (v : DeviceState) : Prop where
  admitted : v.request.Admitted v.nextId (allTokens 1 v.log)
  epoch : v.rxEpoch = stopsOf v.log % 2 ^ 64

structure NicInv (v : DeviceState) : Prop extends NicCore v where
  up : v.nic.info.online = true → NicUp v
  pending : v.request.pending = true → v.nic.info.online = true
  holder : v.request.pending = true → v.request.id ≠ 0
  down : v.nic.info.online = false → ∀ q, sentOf q v.log = [] ∧ poppedOf q v.log = []

/-- A queue as both sides see it. -/
def DeviceState.virtqueue (v : DeviceState) (dev : Nat → DeviceQueue) (q : Nat) : Virtqueue :=
  ⟨v.transport.queue q, dev q, sentOf q v.log, poppedOf q v.log⟩

/-- With a device that follows the protocol; `finished` are the tokens of the frames that it has
sent. -/
structure NicProto (v : DeviceState) (dev : Nat → DeviceQueue) (finished : List Nat) : Prop where
  rings : v.nic.info.online = true → ∀ q < 2,
    VirtqueueInv (v.transport.queue q).size (v.virtqueue dev q)
  popped : v.nic.info.online = true →
    ((poppedOf 0 v.log).map Prod.fst ++ outstandingOf 0 v.log).Perm (sentOf 0 v.log)
  slots : v.nic.info.online = true → (outstandingOf 0 v.log).Perm (List.range v.nic.slots)
  zeros : v.nic.info.online = true → ∀ d ∈ sentOf 1 v.log, d = 0
  last : v.request.pending = true → (sentTokens 1 v.log).getLast? = some v.request.id
  used : v.nic.info.online = true → ∀ u ∈ (dev 1).used, ∀ t,
    (sentTokens 1 v.log)[u.place]? = some t → t ∈ finished
  done : v.request.id ≠ 0 → v.request.pending = false → v.request.result = driverOk →
    v.request.id ∈ finished

/-- Both, the second if `P`. -/
def NicGood (P : Prop) (dev : Nat → DeviceQueue) (finished : List Nat) (v : DeviceState) : Prop :=
  NicInv v ∧ (P → NicProto v dev finished)

section

variable {P : Prop} {dev : Nat → DeviceQueue} {finished : List Nat} {v v' : DeviceState}

/-! ## What stops an interface -/

/-- What `stop` leaves. -/
structure NicStopped (v v' : DeviceState) : Prop where
  request : v'.request = v.request.cancelWaiters.complete driverCanceled
  log : v'.log = .stop :: v.log
  nextId : v'.nextId = v.nextId
  online : v'.nic.info.online = false
  epoch : v'.rxEpoch = (v.rxEpoch + 1) % 2 ^ 64

theorem IoRequest.complete_pending (r : IoRequest) (result : Int) :
    (r.complete result).pending = false := by
  unfold IoRequest.complete
  split
  · rfl
  · next h => exact Bool.of_not_eq_true h

theorem IoRequest.complete_id (r : IoRequest) (result : Int) : (r.complete result).id = r.id := by
  unfold IoRequest.complete
  split <;> rfl

theorem NicCore.stopped (h : NicCore v) (hs : NicStopped v v') : NicInv v' where
  admitted := by
    rw [hs.request, hs.nextId, hs.log]
    exact (h.admitted.cancelWaiters).complete _
  epoch := by
    rw [hs.epoch, hs.log, h.epoch]
    exact Nat.mod_add_mod _ _ _
  up := fun ho => by
    rw [hs.online] at ho
    cases ho
  pending := fun hp => by
    rw [hs.request, IoRequest.complete_pending] at hp
    cases hp
  holder := fun hp => by
    rw [hs.request, IoRequest.complete_pending] at hp
    cases hp
  down := fun _ q => by
    rw [hs.log]
    exact ⟨rfl, rfl⟩

/-- A request that had completed stays so. -/
theorem NicProto.of_stopped (hs : NicStopped v v')
    (hd : v.request.id ≠ 0 → v.request.pending = false → v.request.result = driverOk →
      v.request.id ∈ finished) : NicProto v' dev finished where
  rings := fun ho => by
    rw [hs.online] at ho
    cases ho
  popped := fun ho => by
    rw [hs.online] at ho
    cases ho
  slots := fun ho => by
    rw [hs.online] at ho
    cases ho
  zeros := fun ho => by
    rw [hs.online] at ho
    cases ho
  last := fun hp => by
    rw [hs.request, IoRequest.complete_pending] at hp
    cases hp
  used := fun ho => by
    rw [hs.online] at ho
    cases ho
  done := by
    have hne : driverCanceled ≠ driverOk := by decide
    rw [hs.request, IoRequest.complete_id]
    unfold IoRequest.complete
    split
    · exact fun _ _ hr => absurd hr hne
    · exact hd

theorem NicGood.stopped (h : NicGood P dev finished v) (hs : NicStopped v v') :
    NicGood P dev finished v' :=
  ⟨h.1.toNicCore.stopped hs, fun hP => .of_stopped hs (h.2 hP).done⟩

/-! ## What leaves an interface as it is -/

theorem DeviceState.Queue.congr {q : Nat} (h : v.Queue q)
    (ht : v'.transport.queue q = v.transport.queue q)
    (hl : sentOf q v'.log = sentOf q v.log ∧ poppedOf q v'.log = poppedOf q v.log) :
    v'.Queue q where
  physical := ht ▸ h.physical
  four := ht ▸ h.four
  dvd := ht ▸ h.dvd
  max := ht ▸ h.max
  count := by
    rw [ht, hl.1, hl.2]
    exact h.count

/-- Waiters and counters change. -/
theorem NicGood.congr (h : NicGood P dev finished v) (ht : v'.transport.queue = v.transport.queue)
    (hr : v.request.SameHolder v'.request)
    (ha : v'.request.Admitted v'.nextId (allTokens 1 v.log)) (hl : v'.log = v.log)
    (hn : v'.nic = { v.nic with info := v'.nic.info })
    (ho : v'.nic.info.online = v.nic.info.online) (he : v'.rxEpoch = v.rxEpoch) :
    NicGood P dev finished v' := by
  obtain ⟨hi, hp⟩ := h
  obtain ⟨ws, hr⟩ := hr
  have hid : v'.request.id = v.request.id := by rw [hr]
  have hpend : v'.request.pending = v.request.pending := by rw [hr]
  have hres : v'.request.result = v.request.result := by rw [hr]
  have hslots : v'.nic.slots = v.nic.slots := by rw [hn]
  have hrx : v'.nic.rxPhysical = v.nic.rxPhysical := by rw [hn]
  have htx : v'.nic.txPhysical = v.nic.txPhysical := by rw [hn]
  refine ⟨{ admitted := ?_, epoch := ?_, up := ?_, pending := ?_, holder := ?_, down := ?_ },
    fun hP => ?_⟩
  · rw [hl]
    exact ha
  · rw [he, hl]
    exact hi.epoch
  · intro hon
    have hu := hi.up (ho ▸ hon)
    exact {
      rx := hu.rx.congr (congrFun ht 0) (by rw [hl]; exact ⟨rfl, rfl⟩)
      tx := hu.tx.congr (congrFun ht 1) (by rw [hl]; exact ⟨rfl, rfl⟩)
      buffers := by
        rw [hrx, htx]
        exact hu.buffers
      slots := by
        rw [hslots, ht]
        exact hu.slots
      receives := by
        rw [hslots, ht]
        exact hu.receives
      sends := by
        rw [hpend, ht]
        exact hu.sends }
  · rw [hpend, ho]
    exact hi.pending
  · rw [hpend, hid]
    exact hi.holder
  · rw [hl, ho]
    exact hi.down
  · have hv : ∀ q, v'.virtqueue dev q = v.virtqueue dev q := by
      intro q
      unfold DeviceState.virtqueue
      rw [ht, hl]
    obtain ⟨h1, h2, h3, h4, h5, h6, h7⟩ := hp hP
    refine ⟨fun hon q hq => ?_, ?_, ?_, ?_, ?_, ?_, ?_⟩
    · rw [hv, ht]
      exact h1 (ho ▸ hon) q hq
    · rw [hl, ho]
      exact h2
    · rw [hl, ho, hslots]
      exact h3
    · rw [hl, ho]
      exact h4
    · rw [hl, hpend, hid]
      exact h5
    · rw [hl, ho]
      exact h6
    · rw [hid, hpend, hres]
      exact h7

/-- The request that held the device is released. -/
theorem NicGood.release (h : NicGood P dev finished v) (hp : v.request.pending = false) :
    NicGood P dev finished { v with request := v.request.release } := by
  obtain ⟨hi, hq⟩ := h
  refine ⟨{ admitted := hi.admitted.release, epoch := hi.epoch, up := fun hon => ?_,
            pending := fun h => (by cases h), holder := fun h => (by cases h), down := hi.down },
    fun hP => ?_⟩
  · have hu := hi.up hon
    have hs := hu.sends
    rw [hp] at hs
    exact { rx := hu.rx.congr rfl ⟨rfl, rfl⟩, tx := hu.tx.congr rfl ⟨rfl, rfl⟩,
            buffers := hu.buffers, slots := hu.slots, receives := hu.receives, sends := hs }
  · obtain ⟨h1, h2, h3, h4, -, h6, -⟩ := hq hP
    exact ⟨h1, h2, h3, h4, fun h => (by cases h), h6, fun h => absurd rfl h⟩

/-! ## Frames sent -/

/-- A frame is submitted for the token `k`. -/
theorem NicGood.send (h : NicGood P dev finished v) (hon : v.nic.info.online = true)
    (hid : v.request.id = 0) {r : IoRequest} {n : Nat} (hk : r.id ≠ 0) (hp : r.pending = true)
    (ha : r.Admitted n (allTokens 1 v.log ++ [r.id])) :
    NicGood P dev finished { v with
      request := r, nextId := n
      transport := { v.transport with
        queue := Function.update v.transport.queue 1 ((v.transport.queue 1).submit 0) }
      log := .submit 1 0 r.id :: v.log } := by
  obtain ⟨hi, hq⟩ := h
  have hu := hi.up hon
  have hpending : v.request.pending = false := by
    by_contra hne
    exact hi.holder (Bool.of_not_eq_false hne) hid
  have hout : (v.transport.queue 1).outstanding = 0 := by
    rw [hu.sends, hpending]
    rfl
  have hcount := hu.tx.count
  refine ⟨{ admitted := ha, epoch := hi.epoch, up := fun _ => ?_, pending := fun _ => hon,
            holder := fun _ => hk, down := fun hoff => ?_ }, fun hP => ?_⟩
  · refine { rx := hu.rx.congr rfl ⟨rfl, rfl⟩, tx := ?_, buffers := hu.buffers,
             slots := hu.slots, receives := hu.receives, sends := ?_ }
    · refine { physical := hu.tx.physical, four := hu.tx.four, dvd := hu.tx.dvd,
               max := hu.tx.max, count := ?_ }
      change ((v.transport.queue 1).outstanding + 1) % 65536 + (poppedOf 1 v.log).length =
        (sentOf 1 v.log ++ [0]).length
      rw [List.length_append, List.length_singleton]
      omega
    · change ((v.transport.queue 1).outstanding + 1) % 65536 = if r.pending then 1 else 0
      rw [hout, hp]
      rfl
  · rw [hon] at hoff
    cases hoff
  · obtain ⟨h1, h2, h3, h4, -, h6, -⟩ := hq hP
    have hring := h1 hon 1 (by decide)
    have hfour := hu.tx.four
    have hmax := hu.tx.max
    have hd : ¬((v.transport.queue 1).size ≤ 0 ∨
        (v.transport.queue 1).size ≤ (v.transport.queue 1).outstanding) := by omega
    refine ⟨fun _ q hq => ?_, h2, h3, fun _ d hd => ?_, fun _ => ?_, fun _ u hused t ht => ?_,
      fun _ hp' => ?_⟩
    · match q, hq with
      | 0, _ => exact h1 hon 0 (by decide)
      | 1, _ => exact hring.submit hu.tx.dvd (by omega) hd
    · rcases List.mem_append.mp hd with hd | hd
      · exact h4 hon d hd
      · exact List.mem_singleton.mp hd
    · exact List.getLast?_concat
    · have hlt : u.place < (sentOf 1 v.log).length :=
        (List.getElem?_eq_some_iff.mp (hring.usedIds u hused)).1
      rw [← length_sentTokens] at hlt
      exact h6 hon u hused t ((List.getElem?_append_left hlt).symm.trans ht)
    · rw [hp] at hp'
      cases hp'

/-- The frame that is pending has been sent. -/
theorem NicProto.sent (hi : NicInv v) (h : NicProto v dev finished)
    (hp : v.request.pending = true) {used : Nat × Nat}
    (hpop : (v.transport.queue 1).tryPop = (1, used, (v.transport.queue 1).pop)) :
    v.request.id ∈ finished := by
  have hon := hi.pending hp
  have hu := hi.up hon
  have hring := h.rings hon 1 (by decide)
  have hout : (v.transport.queue 1).outstanding = 1 := by
    rw [hu.sends, hp]
    rfl
  have hsent : (v.transport.queue 1).outstanding + (poppedOf 1 v.log).length =
      (sentOf 1 v.log).length := hu.tx.count
  have hfour := hu.tx.four
  have hmax := hu.tx.max
  rcases hring.tryPop hu.tx.dvd (by omega) with h0 | ⟨u, hused, -⟩
  · have hne := hpop.symm.trans h0
    cases hne
  have hlt : (poppedOf 1 v.log).length < (dev 1).used.length :=
    (List.getElem?_eq_some_iff.mp hused).1
  have hall : (sentOf 1 v.log).length ≤ (dev 1).used.length := by omega
  obtain ⟨u', hmem, hplace⟩ := hring.place_used hall (p := (sentOf 1 v.log).length - 1)
    (Nat.sub_lt (by omega) Nat.one_pos)
  refine h.used hon u' hmem _ ?_
  rw [hplace, ← length_sentTokens, ← List.getLast?_eq_getElem?]
  exact h.last hp

/-- The frame that is pending completes. -/
theorem NicGood.sent (h : NicGood P dev finished v) (hp : v.request.pending = true)
    {used : Nat × Nat} {info : NetInfo} (ho : info.online = v.nic.info.online)
    (hpop : (v.transport.queue 1).tryPop = (1, used, (v.transport.queue 1).pop)) :
    NicGood P dev finished { v with
      request := v.request.complete driverOk
      nic := { v.nic with info := info }
      transport := { v.transport with
        queue := Function.update v.transport.queue 1 (v.transport.queue 1).pop }
      log := .pop 1 used.1 used.2 v.request.id :: v.log } := by
  obtain ⟨hi, hq⟩ := h
  have hon := hi.pending hp
  have hu := hi.up hon
  have hcount := hu.tx.count
  have hout : (v.transport.queue 1).outstanding = 1 := by
    rw [hu.sends, hp]
    rfl
  have hdone : (v.request.complete driverOk).pending = false := IoRequest.complete_pending _ _
  refine ⟨{ admitted := hi.admitted.complete _, epoch := hi.epoch, up := fun _ => ?_,
            pending := fun hp' => ?_, holder := fun hp' => ?_, down := fun hoff => ?_ },
    fun hP => ?_⟩
  · refine { rx := hu.rx.congr rfl ⟨rfl, rfl⟩, tx := ?_, buffers := hu.buffers,
             slots := hu.slots, receives := hu.receives, sends := ?_ }
    · refine { physical := hu.tx.physical, four := hu.tx.four, dvd := hu.tx.dvd,
               max := hu.tx.max, count := ?_ }
      change ((v.transport.queue 1).outstanding + 65535) % 65536 +
        (poppedOf 1 v.log ++ [used]).length = (sentOf 1 v.log).length
      rw [List.length_append, List.length_singleton]
      omega
    · change ((v.transport.queue 1).outstanding + 65535) % 65536 =
        if (v.request.complete driverOk).pending then 1 else 0
      rw [hout, hdone]
      rfl
  · rw [hdone] at hp'
    cases hp'
  · rw [hdone] at hp'
    cases hp'
  · rw [ho, hon] at hoff
    cases hoff
  · have hfin := (hq hP).sent hi hp hpop
    obtain ⟨h1, h2, h3, h4, -, h6, -⟩ := hq hP
    have hring := h1 hon 1 (by decide)
    have hfour := hu.tx.four
    have hmax := hu.tx.max
    refine ⟨fun _ q hq => ?_, fun _ => h2 hon, fun _ => h3 hon, fun _ => h4 hon, fun hp' => ?_,
      fun _ => h6 hon, fun _ _ _ => ?_⟩
    · match q, hq with
      | 0, _ => exact h1 hon 0 (by decide)
      | 1, _ =>
        rcases hring.tryPop hu.tx.dvd (by omega) with h0 | ⟨u, hused, hentry⟩
        · have hne := hpop.symm.trans h0
          cases hne
        · have he := hpop.symm.trans hentry
          injection he with _ he
          injection he with he _
          rw [he]
          exact hring.pop (by omega) hused
    · rw [hdone] at hp'
      cases hp'
    · rw [IoRequest.complete_id]
      exact hfin

/-! ## Frames received -/

/-- The descriptor of a frame that is popped was outstanding. -/
theorem NicProto.mem_outstanding (hi : NicInv v) (h : NicProto v dev finished)
    (hon : v.nic.info.online = true) {used : Nat × Nat}
    (hpop : (v.transport.queue 0).tryPop = (1, used, (v.transport.queue 0).pop)) :
    (∃ u : VirtioUsed, (dev 0).used[(poppedOf 0 v.log).length]? = some u ∧ u.entry = used) ∧
      used.1 ∈ outstandingOf 0 v.log := by
  have hu := hi.up hon
  have hring := h.rings hon 0 (by decide)
  have hmax := hu.rx.max
  rcases hring.tryPop hu.rx.dvd (by omega) with h0 | ⟨u, hused, hentry⟩
  · have hne := hpop.symm.trans h0
    cases hne
  have he := hpop.symm.trans hentry
  injection he with _ he
  injection he with he _
  subst he
  refine ⟨⟨u, hused, rfl⟩, ?_⟩
  have hnext := (hring.pop (by omega) hused).popped
  have hsub : List.Subperm ((poppedOf 0 v.log).map Prod.fst ++ [u.id]) (sentOf 0 v.log) := by
    refine List.Subperm.trans ?_ hring.used_subperm
    have hmap : (poppedOf 0 v.log).map Prod.fst ++ [u.id] =
        (poppedOf 0 v.log ++ [u.entry]).map Prod.fst := by
      rw [List.map_append, List.map_singleton]
      rfl
    rw [hmap, show poppedOf 0 v.log ++ [u.entry] = _ from hnext]
    exact ((List.take_sublist _ _).map _).subperm
  have hrest := hsub.trans (h.popped hon).symm.subperm
  exact (List.subperm_append_left _).mp hrest |>.subset (List.mem_singleton.mpr rfl)

/-- A frame is popped, and its slot is given to the device again. -/
theorem NicGood.receive (h : NicGood P dev finished v) (hon : v.nic.info.online = true)
    {used : Nat × Nat} {info : NetInfo} (ho : info.online = v.nic.info.online)
    (hpop : (v.transport.queue 0).tryPop = (1, used, (v.transport.queue 0).pop))
    (hid : used.1 < v.nic.slots) :
    NicGood P dev finished { v with
      nic := { v.nic with info := info }
      transport := { v.transport with
        queue := Function.update v.transport.queue 0 ((v.transport.queue 0).pop.submit used.1) }
      log := .submit 0 used.1 v.request.id :: .pop 0 used.1 used.2 v.request.id :: v.log } := by
  obtain ⟨hi, hq⟩ := h
  have hu := hi.up hon
  have hcount := hu.rx.count
  have hfour := hu.rx.four
  have hmax := hu.rx.max
  have hslots := hu.slots
  have hout := hu.receives
  refine ⟨{ admitted := hi.admitted, epoch := hi.epoch, up := fun _ => ?_,
            pending := fun _ => ho.trans hon, holder := hi.holder, down := fun hoff => ?_ },
    fun hP => ?_⟩
  · refine { rx := ?_, tx := hu.tx.congr rfl ⟨rfl, rfl⟩, buffers := hu.buffers,
             slots := hslots, receives := ?_, sends := hu.sends }
    · refine { physical := hu.rx.physical, four := hfour, dvd := hu.rx.dvd, max := hmax,
               count := ?_ }
      change (((v.transport.queue 0).outstanding + 65535) % 65536 + 1) % 65536 +
        (poppedOf 0 v.log ++ [used]).length = (sentOf 0 v.log ++ [used.1]).length
      rw [List.length_append, List.length_append, List.length_singleton, List.length_singleton]
      omega
    · change (((v.transport.queue 0).outstanding + 65535) % 65536 + 1) % 65536 = v.nic.slots
      omega
  · rw [ho, hon] at hoff
    cases hoff
  · have hp := hq hP
    obtain ⟨⟨u, hused, rfl⟩, hmem⟩ := hp.mem_outstanding hi hon hpop
    obtain ⟨h1, h2, h3, h4, h5, h6, h7⟩ := hp
    have hring := h1 hon 0 (by decide)
    have hd : ¬((v.transport.queue 0).pop.size ≤ u.entry.1 ∨
        (v.transport.queue 0).pop.size ≤ (v.transport.queue 0).pop.outstanding) := by
      change ¬((v.transport.queue 0).size ≤ u.entry.1 ∨
        (v.transport.queue 0).size ≤ ((v.transport.queue 0).outstanding + 65535) % 65536)
      omega
    refine ⟨fun _ q hq => ?_, fun _ => ?_, fun _ => ?_, fun _ => h4 hon, h5, fun _ => h6 hon, h7⟩
    · match q, hq with
      | 0, _ => exact (hring.pop (by omega) hused).submit hu.rx.dvd (by omega) hd
      | 1, _ => exact h1 hon 1 (by decide)
    · change ((poppedOf 0 v.log ++ [u.entry]).map Prod.fst ++
        ((outstandingOf 0 v.log).erase u.id ++ [u.id])).Perm (sentOf 0 v.log ++ [u.id])
      rw [List.map_append, List.map_singleton, ← List.append_assoc]
      refine List.Perm.append_right _ (List.Perm.trans ?_ (h2 hon))
      rw [List.append_assoc]
      exact List.Perm.append_left _ (List.perm_cons_erase hmem).symm
    · change ((outstandingOf 0 v.log).erase u.id ++ [u.id]).Perm (List.range v.nic.slots)
      refine List.Perm.trans ?_ (h3 hon)
      exact List.perm_append_comm.trans (List.perm_cons_erase hmem).symm

/-- A queue that gives nonsense stops the interface. -/
theorem NicGood.abandoned (h : NicGood P dev finished v) {w : DeviceState}
    (hs : NicStopped w v') {q : Nat} {u : Nat × Nat} {r : IoRequest} (hr : w.request = r)
    (hn : w.nextId = v.nextId)
    (hl : w.log = v.log ∨ w.log = .pop q u.1 u.2 v.request.id :: v.log)
    (he : w.rxEpoch = v.rxEpoch) (ha : r.Admitted v.nextId (allTokens 1 v.log))
    (hd : P → r.id ≠ 0 → r.pending = false → r.result = driverOk → r.id ∈ finished)
    {dev' : Nat → DeviceQueue} : NicGood P dev' finished v' := by
  have hcore : NicCore w := by
    rcases hl with hl | hl
    · exact ⟨by rw [hr, hn, hl]; exact ha, by rw [he, hl]; exact h.1.epoch⟩
    · exact ⟨by rw [hr, hn, hl]; exact ha, by rw [he, hl]; exact h.1.epoch⟩
  exact ⟨hcore.stopped hs, fun hP => .of_stopped hs (by rw [hr]; exact hd hP)⟩

/-! ## Start -/

/-- The first `j` slots are given to the device. -/
def DeviceState.filled (v : DeviceState) : Nat → DeviceState
  | 0 => v
  | j + 1 =>
    let w := v.filled j
    { w with
      transport := { w.transport with
        queue := Function.update w.transport.queue 0 ((w.transport.queue 0).submit j) }
      log := .submit 0 j w.request.id :: w.log }

/-- What changes with the slots. -/
structure NicFilled (v w : DeviceState) (j : Nat) : Prop where
  rest : ∃ q l, w = { v with
    transport := { v.transport with queue := Function.update v.transport.queue 0 q }, log := l }
  physical : (w.transport.queue 0).physical = (v.transport.queue 0).physical
  ring : VirtqueueInv (v.transport.queue 0).size ⟨w.transport.queue 0, {}, List.range j, []⟩
  sent : sentOf 0 w.log = List.range j ∧ sentOf 1 w.log = []
  popped : ∀ q, poppedOf q w.log = []
  outstanding : outstandingOf 0 w.log = List.range j
  tokens : allTokens 1 w.log = allTokens 1 v.log
  stops : stopsOf w.log = stopsOf v.log

theorem outstandingOf_nil {q : Nat} {l : List DriverEvent} (hs : sentOf q l = [])
    (hp : poppedOf q l = []) : outstandingOf q l = [] := by
  induction l with
  | nil => rfl
  | cons e l ih =>
    cases e with
    | submit p descriptor token =>
      unfold sentOf at hs
      unfold outstandingOf
      split at hs
      · cases List.append_ne_nil_of_right_ne_nil _ (List.cons_ne_nil _ _) hs
      · next hne =>
        rw [if_neg hne]
        exact ih hs hp
    | pop p id length token =>
      unfold poppedOf at hp
      unfold outstandingOf
      split at hp
      · cases List.append_ne_nil_of_right_ne_nil _ (List.cons_ne_nil _ _) hp
      · next hne =>
        rw [if_neg hne]
        exact ih hs hp
    | stop => rfl

theorem VirtqueueInv.of_made {q : VirtioQueue} (h : q.Made) :
    VirtqueueInv q.size ⟨q, {}, [], []⟩ := by
  have hi := VirtqueueInv.init q.size
  obtain ⟨physical, pages, size, available, consumed, outstanding, availRing, availIdx, usedIdx,
    usedRing⟩ := q
  have hf := h.fresh
  injection hf with _ _ _ h1 h2 h3 h4 h5 h6 h7
  subst h1 h2 h3 h4 h5 h6 h7
  exact { hi with }

theorem NicFilled.filled (hq : (v.transport.queue 0).Made)
    (hs : ∀ q, sentOf q v.log = [] ∧ poppedOf q v.log = []) (j : Nat)
    (hj : j ≤ (v.transport.queue 0).size) : NicFilled v (v.filled j) j := by
  induction j with
  | zero =>
    refine { rest := ⟨v.transport.queue 0, v.log, ?_⟩, physical := rfl, ring := .of_made hq,
             sent := ⟨(hs 0).1, (hs 1).1⟩, popped := fun q => (hs q).2,
             outstanding := outstandingOf_nil (hs 0).1 (hs 0).2, tokens := rfl, stops := rfl }
    rw [Function.update_eq_self]
    rfl
  | succ j ih =>
    have h := ih (by omega)
    have hout := h.ring.outstanding
    have hsize := h.ring.size
    rw [List.length_nil, List.length_range] at hout
    have hd : ¬(((v.filled j).transport.queue 0).size ≤ j ∨
        ((v.filled j).transport.queue 0).size ≤ ((v.filled j).transport.queue 0).outstanding) := by
      dsimp only at hout hsize
      omega
    have hmax := hq.max
    refine { rest := ?_, physical := h.physical, ring := ?_, sent := ⟨?_, h.sent.2⟩,
             popped := h.popped, outstanding := ?_, tokens := h.tokens, stops := h.stops }
    · obtain ⟨q, l, hrest⟩ := h.rest
      refine ⟨q.submit j, .submit 0 j v.request.id :: l, ?_⟩
      unfold DeviceState.filled
      rw [hrest]
      simp only [Function.update_idem, Function.update_self]
    · rw [List.range_succ]
      exact h.ring.submit hq.dvd (by omega) hd
    · change sentOf 0 (v.filled j).log ++ [j] = _
      rw [h.sent.1, List.range_succ]
    · change outstandingOf 0 (v.filled j).log ++ [j] = _
      rw [h.outstanding, List.range_succ]

/-- An interface that is set up from `w`: its slots are given to the device. -/
structure NicStarted (w v' : DeviceState) : Prop where
  rx : (w.transport.queue 0).Made
  tx : (w.transport.queue 1).Made
  buffers : w.nic.rxPhysical ≠ 0 ∧ w.nic.txPhysical ≠ 0
  slots : w.nic.slots = min (w.transport.queue 0).size rxSlots
  request : v'.request = w.request
  nextId : v'.nextId = w.nextId
  epoch : v'.rxEpoch = w.rxEpoch
  nic : v'.nic = { w.nic with info := v'.nic.info }
  online : v'.nic.info.online = true
  queue : v'.transport.queue = (w.filled w.nic.slots).transport.queue
  log : v'.log = (w.filled w.nic.slots).log

theorem NicStarted.filled {w : DeviceState} (hs : NicStarted w v')
    (hdown : ∀ q, sentOf q w.log = [] ∧ poppedOf q w.log = []) :
    NicFilled w (w.filled w.nic.slots) w.nic.slots := by
  refine .filled hs.rx hdown w.nic.slots ?_
  rw [hs.slots]
  exact Nat.min_le_left _ _

theorem NicStarted.stops {w : DeviceState} (hs : NicStarted w v')
    (hdown : ∀ q, sentOf q w.log = [] ∧ poppedOf q w.log = []) :
    stopsOf w.log ≤ stopsOf v'.log := by
  rw [hs.log, (hs.filled hdown).stops]

theorem NicGood.started {w : DeviceState} (h : NicGood P dev finished v)
    (hoff : v.nic.info.online = false) (hr : w.request = v.request) (hn : w.nextId = v.nextId)
    (hl : w.log = v.log) (he : w.rxEpoch = v.rxEpoch) (hs : NicStarted w v') :
    NicGood P (fun _ => {}) finished v' := by
  obtain ⟨hi, hq⟩ := h
  have hdown := hi.down hoff
  rw [← hl] at hdown
  have hf := hs.filled hdown
  have hslots : v'.nic.slots = w.nic.slots := by rw [hs.nic]
  have hsize := hf.ring.size
  have hout := hf.ring.outstanding
  rw [List.length_nil, List.length_range] at hout
  have hq1 : v'.transport.queue 1 = w.transport.queue 1 := by
    obtain ⟨q, l, hrest⟩ := hf.rest
    rw [hs.queue, hrest]
    rfl
  have hq1new := hs.tx.fresh
  have hpending : v.request.pending = false := by
    by_contra hne
    rw [hi.pending (Bool.of_not_eq_false hne)] at hoff
    cases hoff
  have hpend : v'.request.pending = false := by rw [hs.request, hr, hpending]
  have hq0 : (v'.transport.queue 0).size = (w.transport.queue 0).size := by
    rw [hs.queue]
    exact hsize
  refine ⟨{ admitted := ?_, epoch := ?_, up := fun _ => ?_, pending := fun _ => hs.online,
            holder := fun hp => ?_, down := fun hoff' => ?_ }, fun hP => ?_⟩
  · rw [hs.request, hr, hs.nextId, hn, hs.log, hf.tokens, hl]
    exact hi.admitted
  · rw [hs.epoch, he, hs.log, hf.stops, hl]
    exact hi.epoch
  · refine { rx := ?_, tx := ?_, buffers := ?_, slots := ?_, receives := ?_, sends := ?_ }
    · refine { physical := ?_, four := hq0 ▸ hs.rx.four, dvd := hq0 ▸ hs.rx.dvd,
               max := hq0 ▸ hs.rx.max, count := ?_ }
      · rw [hs.queue, hf.physical]
        exact hs.rx.physical
      · rw [hs.queue, hs.log, hf.popped, hf.sent.1, List.length_nil, List.length_range]
        exact hout
    · refine { physical := hq1 ▸ hs.tx.physical, four := hq1 ▸ hs.tx.four, dvd := hq1 ▸ hs.tx.dvd,
               max := hq1 ▸ hs.tx.max, count := ?_ }
      rw [hq1, hq1new, hs.log, hf.popped, hf.sent.2]
      rfl
    · rw [hs.nic]
      exact hs.buffers
    · rw [hslots, hq0]
      exact hs.slots
    · rw [hslots, hs.queue]
      exact hout
    · rw [hpend, hq1, hq1new]
      rfl
  · rw [hpend] at hp
    cases hp
  · rw [hs.online] at hoff'
    cases hoff'
  · refine ⟨fun _ q hq => ?_, fun _ => ?_, fun _ => ?_, fun _ d hd => ?_, fun hp => ?_,
      fun _ u hused => (by cases hused), ?_⟩
    · match q, hq with
      | 0, _ =>
        have hv : v'.virtqueue (fun _ => {}) 0 = ⟨(w.filled w.nic.slots).transport.queue 0, {},
            List.range w.nic.slots, []⟩ := by
          unfold DeviceState.virtqueue
          rw [hs.queue, hs.log, hf.popped, hf.sent.1]
        rw [hv, hq0]
        exact hf.ring
      | 1, _ =>
        have hv : v'.virtqueue (fun _ => {}) 1 = ⟨w.transport.queue 1, {}, [], []⟩ := by
          unfold DeviceState.virtqueue
          rw [hq1, hs.log, hf.popped, hf.sent.2]
        rw [hv, hq1]
        exact .of_made hs.tx
    · rw [hs.log, hf.popped, hf.outstanding, hf.sent.1]
      exact List.Perm.refl _
    · rw [hs.log, hf.outstanding, hslots]
    · rw [hs.log, hf.sent.2] at hd
      cases hd
    · rw [hpend] at hp
      cases hp
    · rw [hs.request, hr]
      exact (hq hP).done

end

end GenOS
