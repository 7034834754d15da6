import Mathlib.Data.List.Perm.Basic
import Mathlib.Logic.Relation
import GenOS.Lib.Machine
import GenOS.Lib.Ring
import GenOS.Drivers.Virtio

/-!
# Virtqueues

The two sides of one queue: `virtio_submit` and `virtio_pop` of the driver, and a device that
follows the protocol. The device counts the entries of the available ring that it has taken, and
publishes each of them once in the used ring, in any order. `VirtqueueInv` ties the 16-bit indices
of both sides to what was submitted, published and popped.
-/

namespace GenOS

open Machine RingBuffer

/-- `virtio_pop` once it has counted: its result, `*used`, and the queue after it. -/
def VirtioQueue.popCounted (q : VirtioQueue) (count : Nat) : Int × (Nat × Nat) × VirtioQueue :=
  if count = 0 then (0, (0, 0), q)
  else if q.outstanding < count then (-1, (0, 0), q)
  else if q.size ≤ q.entry.1 then (-1, q.entry, q)
  else (1, q.entry, q.pop)

/-- `virtio_pop`, when the device does nothing meanwhile. -/
def VirtioQueue.tryPop (q : VirtioQueue) : Int × (Nat × Nat) × VirtioQueue := q.popCounted q.count

/-! ## A device that follows the protocol -/

/-- An entry that the device has taken: its place among the submissions, and its descriptor. -/
structure VirtioTaken where
  place : Nat
  id : Nat
  deriving DecidableEq

/-- An entry that the device has published. -/
structure VirtioUsed extends VirtioTaken where
  length : Nat

/-- What the device knows of a queue. -/
structure DeviceQueue where
  taken : Nat := 0
  inFlight : List VirtioTaken := []
  used : List VirtioUsed := []

/-- The `id` and `length` in the used ring. -/
def VirtioUsed.entry (u : VirtioUsed) : Nat × Nat := (u.id, u.length)

/-- The device takes the next entry of the available ring. -/
def DeviceQueue.take (d : DeviceQueue) (q : VirtioQueue) : DeviceQueue :=
  { d with
    taken := d.taken + 1
    inFlight := d.inFlight ++ [⟨d.taken, q.availRing (d.taken % q.size)⟩] }

/-- The device is done with an entry. -/
def DeviceQueue.publish (d : DeviceQueue) (e : VirtioTaken) (length : Nat) : DeviceQueue :=
  { d with
    inFlight := d.inFlight.erase e
    used := d.used ++ [{ e with length := length % 4294967296 }] }

/-- The used ring after that. -/
def VirtioQueue.publish (q : VirtioQueue) (d : DeviceQueue) (e : VirtioTaken) (length : Nat) :
    VirtioQueue :=
  q.deviceWrite (d.used.length + 1) (d.used.length % q.size) e.id length

/-! ## The system -/

/-- A queue, its device, and what was submitted and popped. -/
structure Virtqueue where
  queue : VirtioQueue
  device : DeviceQueue := {}
  sent : List Nat := []
  popped : List (Nat × Nat) := []

/-- A step of a device that follows the protocol. -/
inductive Virtqueue.Protocol (s : Virtqueue) : Virtqueue → Prop
  | take (h : s.device.taken % 65536 ≠ s.queue.availIdx) :
    Protocol s { s with device := s.device.take s.queue }
  | publish {e : VirtioTaken} (h : e ∈ s.device.inFlight) (length : Nat) :
    Protocol s
      { s with
        queue := s.queue.publish s.device e length
        device := s.device.publish e length }

/-- A device that writes what it likes. -/
inductive Virtqueue.Arbitrary (s : Virtqueue) : Virtqueue → Prop
  | write (usedIdx cell id length : Nat) :
    Arbitrary s { s with queue := s.queue.deviceWrite usedIdx cell id length }

inductive VirtqueueAct where
  | submit (descriptor : Nat)
  | pop
  | device

/-- A step of the driver or of the device. `virtio_submit` traps where its check fails, and the
device may step between the two reads of `virtio_pop`. -/
inductive VirtqueueStep (device : Virtqueue → Virtqueue → Prop) :
    Virtqueue → VirtqueueAct → Virtqueue → Prop
  | submit {s : Virtqueue} {descriptor : Nat}
    (h : ¬(s.queue.size ≤ descriptor ∨ s.queue.size ≤ s.queue.outstanding)) :
    VirtqueueStep device s (.submit descriptor)
      { s with queue := s.queue.submit descriptor, sent := s.sent ++ [descriptor] }
  | pop {s m : Virtqueue} {used : Nat × Nat} {q : VirtioQueue}
    (hm : Relation.ReflTransGen device s m)
    (h : m.queue.popCounted s.queue.count = (1, used, q)) :
    VirtqueueStep device s .pop { m with queue := q, popped := m.popped ++ [used] }
  | popFail {s m : Virtqueue} {used : Nat × Nat} {q : VirtioQueue} {result : Int}
    (hm : Relation.ReflTransGen device s m)
    (h : m.queue.popCounted s.queue.count = (result, used, q)) (hr : result ≠ 1) :
    VirtqueueStep device s .pop { m with queue := q }
  | device {s t : Virtqueue} (h : device s t) : VirtqueueStep device s .device t

/-! ## The invariant -/

/-- What the indices of both sides mean, for a queue of `n` entries. -/
structure VirtqueueInv (n : Nat) (s : Virtqueue) : Prop where
  size : s.queue.size = n
  outstanding : s.queue.outstanding + s.popped.length = s.sent.length
  room : s.queue.outstanding ≤ n
  available : s.queue.available = s.sent.length % 65536
  availIdx : s.queue.availIdx = s.sent.length % 65536
  consumed : s.queue.consumed = s.popped.length % 65536
  usedIdx : s.queue.usedIdx = s.device.used.length % 65536
  descriptors : ∀ d ∈ s.sent, d < n
  /-- What the device has not taken stands in the available ring. -/
  avail : Holds s.queue.availRing n s.sent s.device.taken
  /-- What is not popped stands in the used ring. -/
  used : Holds s.queue.usedRing n (s.device.used.map VirtioUsed.entry) s.popped.length
  popped : s.popped = (s.device.used.map VirtioUsed.entry).take s.popped.length
  /-- Every entry taken is in flight or used, once. -/
  places : (s.device.inFlight.map VirtioTaken.place ++ s.device.used.map (·.place)).Perm
    (List.range s.device.taken)
  inFlight : ∀ e ∈ s.device.inFlight, s.sent[e.place]? = some e.id
  usedIds : ∀ u ∈ s.device.used, s.sent[u.place]? = some u.id

section Inv

variable {n : Nat} {s : Virtqueue}

/-- What is published and in flight was taken. -/
theorem VirtqueueInv.lengths (h : VirtqueueInv n s) :
    s.device.inFlight.length + s.device.used.length = s.device.taken := by
  have hl := h.places.length_eq
  rwa [List.length_append, List.length_map, List.length_map, List.length_range] at hl

theorem VirtqueueInv.popped_le (h : VirtqueueInv n s) : s.popped.length ≤ s.device.used.length := by
  have hle := h.used.le
  rwa [List.length_map] at hle

/-- `virtio_pop` counts what is published and not popped. -/
theorem VirtqueueInv.count (h : VirtqueueInv n s) (hn : n < 65536) :
    s.queue.count = s.device.used.length - s.popped.length := by
  have h1 := h.lengths
  have h2 := h.popped_le
  have h3 := h.avail.le
  have h4 := h.outstanding
  have h5 := h.room
  unfold VirtioQueue.count
  rw [h.usedIdx, h.consumed]
  omega

/-- A descriptor is submitted. -/
theorem VirtqueueInv.submit (h : VirtqueueInv n s) (hn : n ∣ 65536) (hlt : n < 65536)
    {descriptor : Nat} (hd : ¬(s.queue.size ≤ descriptor ∨ s.queue.size ≤ s.queue.outstanding)) :
    VirtqueueInv n
      { s with queue := s.queue.submit descriptor, sent := s.sent ++ [descriptor] } := by
  have hsize := h.size
  have hout := h.outstanding
  have hpop := h.popped_le
  have hlen := h.lengths
  have hroom : s.sent.length < s.device.taken + n := by omega
  have hcell : s.queue.available % s.queue.size = s.sent.length % n := by
    rw [h.available, hsize, Nat.mod_mod_of_dvd _ hn]
  have hnext : (s.queue.available + 1) % 65536 = (s.sent.length + 1) % 65536 := by
    rw [h.available, Nat.mod_add_mod]
  have hmem (p i : Nat) (hp : s.sent[p]? = some i) : (s.sent ++ [descriptor])[p]? = some i := by
    rw [List.getElem?_append_left (List.getElem?_eq_some_iff.mp hp).1, hp]
  refine { size := hsize, outstanding := ?_, room := ?_, available := ?_, availIdx := ?_,
           consumed := h.consumed, usedIdx := h.usedIdx, descriptors := ?_, avail := ?_,
           used := h.used, popped := h.popped, places := h.places,
           inFlight := fun e he => hmem _ _ (h.inFlight e he),
           usedIds := fun u hu => hmem _ _ (h.usedIds u hu) }
  · change (s.queue.outstanding + 1) % 65536 + s.popped.length = (s.sent ++ [descriptor]).length
    rw [List.length_append, List.length_singleton]
    omega
  · change (s.queue.outstanding + 1) % 65536 ≤ n
    omega
  · rw [List.length_append, List.length_singleton]
    exact hnext
  · rw [List.length_append, List.length_singleton]
    exact hnext
  · intro d hm
    rcases List.mem_append.mp hm with hm | hm
    · exact h.descriptors d hm
    · obtain rfl := List.mem_singleton.mp hm
      omega
  · have hframe : Holds (s.queue.submit descriptor).availRing n s.sent s.device.taken := by
      refine h.avail.frame hroom fun x hx => ?_
      exact Function.update_of_ne (by rw [hcell]; exact hx) _ _
    refine hframe.push hroom ?_
    change Function.update s.queue.availRing (s.queue.available % s.queue.size) descriptor _ = _
    rw [hcell, Function.update_self]

/-- An entry that is counted is popped, and it is the next one. -/
theorem VirtqueueInv.popCounted (h : VirtqueueInv n s) (hn : n ∣ 65536) (hlt : n < 65536)
    {count : Nat} (hc : count ≤ s.queue.count) (h0 : count ≠ 0) :
    ∃ u, s.device.used[s.popped.length]? = some u ∧
      s.queue.popCounted count = (1, u.entry, s.queue.pop) := by
  have hcount := h.count hlt
  have hlen : s.popped.length < s.device.used.length := by omega
  have hcell : s.queue.consumed % s.queue.size = s.popped.length % n := by
    rw [h.consumed, h.size, Nat.mod_mod_of_dvd _ hn]
  have hu := List.getElem?_eq_getElem hlen
  have hentry : s.queue.entry = (s.device.used[s.popped.length]).entry := by
    unfold VirtioQueue.entry
    rw [hcell]
    refine h.used.cell _ _ (Nat.le_refl _) ?_
    rw [List.getElem?_map, hu]
    rfl
  have hid : s.queue.entry.1 < n := by
    rw [hentry]
    have hm := h.usedIds _ (List.getElem_mem hlen)
    exact h.descriptors _ (List.mem_of_getElem? hm)
  have hout := h.outstanding
  have hlens := h.lengths
  have havail := h.avail.le
  refine ⟨_, hu, ?_⟩
  unfold VirtioQueue.popCounted
  rw [if_neg h0, if_neg (by omega), if_neg (by rw [h.size]; omega), hentry]

theorem VirtqueueInv.tryPop (h : VirtqueueInv n s) (hn : n ∣ 65536) (hlt : n < 65536) :
    s.queue.tryPop = (0, (0, 0), s.queue) ∨
      ∃ u, s.device.used[s.popped.length]? = some u ∧
        s.queue.tryPop = (1, u.entry, s.queue.pop) := by
  by_cases h0 : s.queue.count = 0
  · exact .inl (if_pos h0)
  · exact .inr (h.popCounted hn hlt (Nat.le_refl _) h0)

theorem VirtqueueInv.pop (h : VirtqueueInv n s) (hlt : n < 65536) {u : VirtioUsed}
    (hu : s.device.used[s.popped.length]? = some u) :
    VirtqueueInv n { s with queue := s.queue.pop, popped := s.popped ++ [u.entry] } := by
  have hlen : s.popped.length < s.device.used.length := (List.getElem?_eq_some_iff.mp hu).1
  have hout := h.outstanding
  have hlens := h.lengths
  have havail := h.avail.le
  have hroom := h.room
  refine { size := h.size, outstanding := ?_, room := ?_, available := h.available,
           availIdx := h.availIdx, consumed := ?_, usedIdx := h.usedIdx,
           descriptors := h.descriptors, avail := h.avail, used := ?_, popped := ?_,
           places := h.places, inFlight := h.inFlight, usedIds := h.usedIds }
  · change (s.queue.outstanding + 65535) % 65536 + (s.popped ++ [u.entry]).length = s.sent.length
    rw [List.length_append, List.length_singleton]
    omega
  · change (s.queue.outstanding + 65535) % 65536 ≤ n
    omega
  · change (s.queue.consumed + 1) % 65536 = (s.popped ++ [u.entry]).length % 65536
    rw [List.length_append, List.length_singleton, h.consumed, Nat.mod_add_mod]
  · rw [List.length_append, List.length_singleton]
    exact h.used.pop (by rw [List.length_map]; exact hlen)
  · rw [List.length_append, List.length_singleton, List.take_add_one, ← h.popped,
      List.getElem?_map, hu]
    rfl

/-- The device reads what was submitted. -/
theorem VirtqueueInv.take (h : VirtqueueInv n s)
    (ht : s.device.taken % 65536 ≠ s.queue.availIdx) :
    VirtqueueInv n { s with device := s.device.take s.queue } ∧
      s.sent[s.device.taken]? = some (s.queue.availRing (s.device.taken % s.queue.size)) := by
  have hlen : s.device.taken < s.sent.length := by
    have hle := h.avail.le
    rcases Nat.lt_or_eq_of_le hle with hl | he
    · exact hl
    · rw [h.availIdx, he] at ht
      exact absurd rfl ht
  have hhead : s.sent[s.device.taken]? =
      some (s.queue.availRing (s.device.taken % s.queue.size)) := by
    rw [h.size]
    exact h.avail.head hlen
  refine ⟨{ h with avail := h.avail.pop hlen, places := ?_, inFlight := ?_ }, hhead⟩
  · change ((s.device.inFlight ++ [_]).map VirtioTaken.place ++ _).Perm
      (List.range (s.device.taken + 1))
    rw [List.map_append, List.map_singleton, List.range_succ, List.append_assoc]
    refine List.Perm.trans ?_ (h.places.append_right [s.device.taken])
    rw [List.append_assoc]
    exact List.Perm.append_left _ List.perm_append_comm
  · intro e he
    rcases List.mem_append.mp he with he | he
    · exact h.inFlight e he
    · obtain rfl := List.mem_singleton.mp he
      exact hhead

/-- An entry in flight is published. -/
theorem VirtqueueInv.publish (h : VirtqueueInv n s) (hlt : n < 65536)
    {e : VirtioTaken} (he : e ∈ s.device.inFlight) (length : Nat) :
    VirtqueueInv n
      { s with
        queue := s.queue.publish s.device e length
        device := s.device.publish e length } := by
  have hlens := h.lengths
  have hpos : 0 < s.device.inFlight.length := List.length_pos_of_mem he
  have havail := h.avail.le
  have hout := h.outstanding
  have hroom := h.room
  have hid : s.sent[e.place]? = some e.id := h.inFlight e he
  have hidlt : e.id < n := h.descriptors _ (List.mem_of_getElem? hid)
  have hlen : (s.device.used.map VirtioUsed.entry).length < s.popped.length + n := by
    rw [List.length_map]
    omega
  refine { size := h.size, outstanding := hout, room := hroom, available := h.available,
           availIdx := h.availIdx, consumed := h.consumed, usedIdx := ?_,
           descriptors := h.descriptors, avail := h.avail, used := ?_, popped := ?_,
           places := ?_, inFlight := ?_, usedIds := ?_ }
  · change (s.device.used.length + 1) % 65536 = (s.device.used ++ [_]).length % 65536
    rw [List.length_append, List.length_singleton]
  · change Holds (s.queue.publish s.device e length).usedRing n
      ((s.device.used ++ [_]).map VirtioUsed.entry) s.popped.length
    rw [List.map_append, List.map_singleton]
    have hcell : s.device.used.length % s.queue.size =
        (s.device.used.map VirtioUsed.entry).length % n := by
      rw [List.length_map, h.size]
    have hframe : Holds (s.queue.publish s.device e length).usedRing n
        (s.device.used.map VirtioUsed.entry) s.popped.length := by
      refine h.used.frame hlen fun x hx => ?_
      exact Function.update_of_ne (by rw [hcell]; exact hx) _ _
    refine hframe.push hlen ?_
    change Function.update s.queue.usedRing (s.device.used.length % s.queue.size) _ _ = _
    rw [hcell, Function.update_self, Nat.mod_eq_of_lt (by omega)]
    rfl
  · change s.popped = ((s.device.used ++ [_]).map VirtioUsed.entry).take s.popped.length
    rw [List.map_append, List.take_append_of_le_length h.used.le]
    exact h.popped
  · refine List.Perm.trans ?_ h.places
    change ((s.device.inFlight.erase e).map VirtioTaken.place ++
      (s.device.used ++ [_]).map fun u : VirtioUsed => u.place).Perm _
    rw [List.map_append, List.map_singleton, ← List.append_assoc]
    refine List.perm_append_comm.trans ?_
    rw [List.singleton_append]
    exact ((List.perm_cons_erase he).map VirtioTaken.place).symm.append_right _
  · exact fun e' he' => h.inFlight e' (List.mem_of_mem_erase he')
  · intro u hu
    rcases List.mem_append.mp hu with hu | hu
    · exact h.usedIds u hu
    · obtain rfl := List.mem_singleton.mp hu
      exact hid

/-- Every entry used is one that was submitted, and each only once. -/
theorem VirtqueueInv.used_subperm (h : VirtqueueInv n s) :
    List.Subperm ((s.device.used.map VirtioUsed.entry).map Prod.fst) s.sent := by
  have hids : (s.device.used.map VirtioUsed.entry).map Prod.fst =
      (s.device.used.map (·.place)).map fun p => s.sent.getD p 0 := by
    rw [List.map_map, List.map_map]
    refine List.map_congr_left fun u hu => ?_
    have hid := h.usedIds u hu
    change u.id = s.sent.getD u.place 0
    rw [List.getD_eq_getElem?_getD, hid]
    rfl
  have hrange : s.sent = (List.range s.sent.length).map fun p => s.sent.getD p 0 := by
    refine List.ext_getElem? fun p => ?_
    rw [List.getElem?_map]
    by_cases hp : p < s.sent.length
    · rw [List.getElem?_range hp, Option.map_some, List.getD_eq_getElem?_getD,
        List.getElem?_eq_getElem hp]
      rfl
    · rw [List.getElem?_eq_none (by omega),
        List.getElem?_eq_none (by rw [List.length_range]; omega)]
      rfl
  have hplaces : List.Subperm (s.device.used.map (·.place)) (List.range s.sent.length) := by
    have h1 : List.Subperm (s.device.used.map (·.place)) (List.range s.device.taken) :=
      (List.sublist_append_right _ _).subperm.trans h.places.subperm
    exact h1.trans (List.range_sublist.mpr h.avail.le).subperm
  rw [hids]
  conv_rhs => rw [hrange]
  obtain ⟨l, hperm, hsub⟩ := hplaces
  exact ⟨l.map _, hperm.map _, hsub.map _⟩

/-- When all that was submitted is published, the entry of each submission is. -/
theorem VirtqueueInv.place_used (h : VirtqueueInv n s)
    (hall : s.sent.length ≤ s.device.used.length) {p : Nat} (hp : p < s.sent.length) :
    ∃ u ∈ s.device.used, u.place = p := by
  have hlens := h.lengths
  have hle := h.avail.le
  have hnil : s.device.inFlight = [] := List.eq_nil_of_length_eq_zero (by omega)
  have hmem : p ∈ List.range s.device.taken := List.mem_range.mpr (by omega)
  have hplace := h.places.mem_iff.mpr hmem
  rw [hnil, List.map_nil, List.nil_append] at hplace
  exact List.mem_map.mp hplace

end Inv

/-! ## Runs -/

/-- A new queue. -/
def Virtqueue.init (n : Nat) : Virtqueue := { queue := { size := n } }

theorem VirtqueueInv.init (n : Nat) : VirtqueueInv n (.init n) where
  size := rfl
  outstanding := rfl
  room := Nat.zero_le n
  available := rfl
  availIdx := rfl
  consumed := rfl
  usedIdx := rfl
  descriptors := fun d hd => by cases hd
  avail := .nil
  used := .nil
  popped := rfl
  places := List.Perm.refl _
  inFlight := fun e he => by cases he
  usedIds := fun u hu => by cases hu

section Run

variable {n : Nat} {s t : Virtqueue} {l : List VirtqueueAct} {a : VirtqueueAct}

/-- The device steps while the driver pops. -/
theorem VirtqueueInv.devices {m : Virtqueue} (h : VirtqueueInv n s) (hlt : n < 65536)
    (hm : Relation.ReflTransGen Virtqueue.Protocol s m) :
    VirtqueueInv n m ∧ m.popped = s.popped ∧ s.device.used.length ≤ m.device.used.length := by
  induction hm with
  | refl => exact ⟨h, rfl, Nat.le_refl _⟩
  | tail _ hd ih =>
    obtain ⟨hi, hp, hu⟩ := ih
    cases hd with
    | take ht => exact ⟨(hi.take ht).1, hp, hu⟩
    | publish he length =>
      refine ⟨hi.publish hlt he length, hp, Nat.le_trans hu ?_⟩
      unfold DeviceQueue.publish
      rw [List.length_append]
      exact Nat.le_add_right _ _

theorem VirtqueueInv.step (h : VirtqueueInv n s) (hn : n ∣ 65536) (hlt : n < 65536)
    (hs : VirtqueueStep Virtqueue.Protocol s a t) : VirtqueueInv n t := by
  have hcount {m : Virtqueue} (hm : Relation.ReflTransGen Virtqueue.Protocol s m) :
      VirtqueueInv n m ∧ s.queue.count ≤ m.queue.count := by
    obtain ⟨hi, hp, hu⟩ := h.devices hlt hm
    refine ⟨hi, ?_⟩
    rw [h.count hlt, hi.count hlt, hp]
    omega
  cases hs with
  | submit hd => exact h.submit hn hlt hd
  | pop hm hp =>
    obtain ⟨hi, hc⟩ := hcount hm
    by_cases h0 : s.queue.count = 0
    · unfold VirtioQueue.popCounted at hp
      rw [if_pos h0] at hp
      cases hp
    · obtain ⟨u, hu, h1⟩ := hi.popCounted hn hlt hc h0
      rw [h1] at hp
      cases hp
      exact hi.pop hlt hu
  | popFail hm hp hr =>
    obtain ⟨hi, hc⟩ := hcount hm
    by_cases h0 : s.queue.count = 0
    · unfold VirtioQueue.popCounted at hp
      rw [if_pos h0] at hp
      cases hp
      exact hi
    · obtain ⟨u, hu, h1⟩ := hi.popCounted hn hlt hc h0
      rw [h1] at hp
      cases hp
      exact absurd rfl hr
  | device hd => exact (h.devices hlt (.single hd)).1

theorem VirtqueueInv.of_run (hn : n ∣ 65536) (hlt : n < 65536)
    (h : Run (VirtqueueStep Virtqueue.Protocol) (.init n) l s) : VirtqueueInv n s :=
  h.invariant (.init n) fun _ _ _ hi hs => hi.step hn hlt hs

/-! ## Any device -/

/-- What a pop that succeeds has checked. -/
theorem VirtioQueue.popCounted_one {q q' : VirtioQueue} {used : Nat × Nat} {count : Nat}
    (h : q.popCounted count = (1, used, q')) :
    0 < q.outstanding ∧ used.1 < q.size ∧ q' = q.pop := by
  unfold popCounted at h
  split at h
  · cases h
  split at h
  · cases h
  split at h
  · cases h
  · next h0 h1 h2 =>
    cases h
    exact ⟨by omega, Nat.lt_of_not_le h2, rfl⟩

theorem VirtioQueue.popCounted_ne_one {q q' : VirtioQueue} {used : Nat × Nat} {count : Nat}
    {result : Int} (h : q.popCounted count = (result, used, q')) (hr : result ≠ 1) :
    q' = q ∧ result ≤ 0 := by
  unfold popCounted at h
  split at h
  · cases h
    exact ⟨rfl, Int.le_refl 0⟩
  split at h
  · cases h
    exact ⟨rfl, by decide⟩
  split at h
  · cases h
    exact ⟨rfl, by decide⟩
  · cases h
    exact absurd rfl hr

/-- What holds of a queue of `n` entries with any device. -/
structure VirtqueueAny (n : Nat) (s : Virtqueue) : Prop where
  size : s.queue.size = n
  outstanding : s.queue.outstanding + s.popped.length = s.sent.length
  room : s.queue.outstanding ≤ n

theorem VirtqueueAny.devices {m : Virtqueue} (h : VirtqueueAny n s)
    (hm : Relation.ReflTransGen Virtqueue.Arbitrary s m) : VirtqueueAny n m := by
  induction hm with
  | refl => exact h
  | tail _ hd ih =>
    cases hd
    exact ⟨ih.size, ih.outstanding, ih.room⟩

theorem VirtqueueAny.step (h : VirtqueueAny n s) (hlt : n < 65536)
    (hs : VirtqueueStep Virtqueue.Arbitrary s a t) : VirtqueueAny n t := by
  cases hs with
  | @submit descriptor hd =>
    obtain ⟨hsize, hout, hroom⟩ := h
    refine ⟨hsize, ?_, ?_⟩
    · change (s.queue.outstanding + 1) % 65536 + s.popped.length = (s.sent ++ [descriptor]).length
      rw [List.length_append, List.length_singleton]
      omega
    · change (s.queue.outstanding + 1) % 65536 ≤ n
      omega
  | @pop m used q hm hp =>
    obtain ⟨hsize, hout, hroom⟩ := h.devices hm
    obtain ⟨hpos, -, rfl⟩ := VirtioQueue.popCounted_one hp
    refine ⟨hsize, ?_, ?_⟩
    · change (m.queue.outstanding + 65535) % 65536 + (m.popped ++ [used]).length = m.sent.length
      rw [List.length_append, List.length_singleton]
      omega
    · change (m.queue.outstanding + 65535) % 65536 ≤ n
      omega
  | popFail hm hp hr =>
    rw [(VirtioQueue.popCounted_ne_one hp hr).1]
    exact h.devices hm
  | device hd => exact h.devices (.single hd)

theorem VirtqueueAny.of_run (hlt : n < 65536)
    (h : Run (VirtqueueStep Virtqueue.Arbitrary) (.init n) l s) : VirtqueueAny n s :=
  h.invariant ⟨rfl, rfl, Nat.zero_le n⟩ fun _ _ _ hi hs => hi.step hlt hs

end Run

end GenOS
