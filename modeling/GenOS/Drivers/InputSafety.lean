import GenOS.Lib.Machine
import GenOS.Lib.Ring
import GenOS.Drivers.Input

/-!
# Runs of the input event ring

`InputHistory` is what a run did: its labels, recorded one after the other. `InputInv` ties the
history to the ring and to the points where the producer and the consumer stand; each step of either
keeps it.
-/

namespace GenOS

open RingBuffer Machine

/-! ## Histories -/

/-- What a run did. -/
structure InputHistory where
  /-- The events `input_push` was called with. -/
  pushed : List InputEvent := []
  /-- The events that were accepted or dropped. -/
  decided : List InputEvent := []
  accepted : List InputEvent := []
  dropped : Nat := 0
  counted : Nat := 0
  delivered : List InputEvent := []
  taken : Nat := 0

def InputHistory.record (g : InputHistory) : InputAct → InputHistory
  | .internal => g
  | .call e => { g with pushed := g.pushed ++ [e] }
  | .full e => { g with decided := g.decided ++ [e], dropped := g.dropped + 1 }
  | .count => { g with counted := g.counted + 1 }
  | .accept e => { g with decided := g.decided ++ [e], accepted := g.accepted ++ [e] }
  | .deliver e => { g with delivered := g.delivered ++ [e] }
  | .fail _ => g
  | .take => { g with taken := g.taken + 1 }

def inputHistory (l : List InputAct) : InputHistory := l.foldl InputHistory.record {}

theorem inputHistory_concat (l : List InputAct) (a : InputAct) :
    inputHistory (l ++ [a]) = (inputHistory l).record a := by
  unfold inputHistory
  rw [List.foldl_append, List.foldl_cons, List.foldl_nil]

/-! ## The ring as it stands -/

/-- The number of events in the ring. -/
def InputRing.queued (r : InputRing) : Nat := (r.head + inputCapacity - r.tail) % inputCapacity

/-- The events in the ring, oldest first. -/
def InputRing.contents (r : InputRing) : List InputEvent :=
  (List.range r.queued).map fun i => r.events ((r.tail + i) % inputCapacity)

/-- The event whose push is under way. -/
def Push.current : Push → List InputEvent
  | .idle | .full => []
  | .start e | .headLoaded e _ | .writing e _ _ _ => [e]

/-- The drops that are not counted yet. -/
def Push.uncounted : Push → Nat
  | .full => 1
  | _ => 0

/-- The events that are delivered and still in the ring. -/
def ReadEvent.owed : ReadEvent → Nat
  | .consume | .consumeTail _ | .advance _ => 1
  | _ => 0

/-- The events left to deliver. -/
def InputState.toDeliver (s : InputState) : List InputEvent :=
  s.ring.contents.drop s.consumer.owed

/-! ## The invariant -/

/-- What the producer knows, with the events accepted and the number taken. -/
def Push.Inv (acc : List InputEvent) (taken : Nat) (r : InputRing) : Push → Prop
  | .idle | .start _ | .full => True
  | .headLoaded _ h => h = r.head
  | .writing e h next copied =>
    h = r.head ∧ next = inputNext h ∧ acc.length + 1 < taken + inputCapacity ∧
      ∀ i ∈ copied, (r.events h).word i = e.word i

/-- What the consumer knows. -/
def ReadEvent.Inv (acc : List InputEvent) (taken : Nat) (r : InputRing) : ReadEvent → Prop
  | .idle | .peek => True
  | .peekTail t => t = r.tail
  | .reading t e copied =>
    t = r.tail ∧ taken < acc.length ∧ ∀ i ∈ copied, e.word i = (r.events t).word i
  | .copyOut e => acc[taken]? = some e
  | .consume => taken < acc.length
  | .consumeTail t | .advance t => t = r.tail ∧ taken < acc.length

structure InputInv (g : InputHistory) (s : InputState) : Prop where
  holds : Holds s.ring.events inputCapacity g.accepted g.taken
  room : g.accepted.length < g.taken + inputCapacity
  head : s.ring.head = g.accepted.length % inputCapacity
  tail : s.ring.tail = g.taken % inputCapacity
  producer : s.producer.Inv g.accepted g.taken s.ring
  consumer : s.consumer.Inv g.accepted g.taken s.ring
  delivered : g.delivered = g.accepted.take (g.taken + s.consumer.owed)
  sub : g.accepted.Sublist g.decided
  length : g.decided.length = g.accepted.length + g.dropped
  pushed : g.pushed = g.decided ++ s.producer.current
  dropped : g.dropped = g.counted + s.producer.uncounted
  counter : s.ring.dropped = BitVec.ofNat 64 g.counted

theorem inputNext_mod (i : Nat) : inputNext (i % inputCapacity) = (i + 1) % inputCapacity := by
  unfold inputNext inputCapacity
  omega

theorem InputInv.init : InputInv {} InputState.init where
  holds := .nil
  room := by decide
  head := rfl
  tail := rfl
  producer := trivial
  consumer := trivial
  delivered := rfl
  sub := List.Sublist.refl _
  length := rfl
  pushed := rfl
  dropped := rfl
  counter := rfl

/-! ## The two ends of the ring -/

section Ends

variable {g : InputHistory} {s : InputState}

/-- The ring is full when 255 events are in it. -/
theorem InputInv.full_iff (h : InputInv g s) :
    inputNext s.ring.head = s.ring.tail ↔ g.accepted.length = g.taken + 255 := by
  rw [h.head, h.tail, inputNext_mod, next_eq_iff h.holds.le h.room]
  unfold inputCapacity
  omega

theorem InputInv.empty_iff (h : InputInv g s) :
    s.ring.tail = s.ring.head ↔ g.taken = g.accepted.length := by
  rw [h.head, h.tail]
  exact cell_eq_iff h.holds.le h.room

theorem InputInv.queued_eq (h : InputInv g s) : s.ring.queued = g.accepted.length - g.taken := by
  have h1 := h.holds.le
  have h2 := h.room
  unfold InputRing.queued
  rw [h.head, h.tail]
  unfold inputCapacity at h2 ⊢
  omega

/-- The ring holds the accepted events that are not taken. -/
theorem InputInv.contents_eq (h : InputInv g s) :
    s.ring.contents = g.accepted.drop g.taken := by
  apply List.ext_getElem?
  intro i
  unfold InputRing.contents
  rw [List.getElem?_map, List.getElem?_drop, h.queued_eq, h.tail]
  rcases Nat.lt_or_ge i (g.accepted.length - g.taken) with hlt | hge
  · have he := List.getElem?_eq_getElem (l := g.accepted) (i := g.taken + i) (by omega)
    rw [List.getElem?_range hlt, Option.map_some, Nat.mod_add_mod, he,
      h.holds.cell _ _ (Nat.le_add_right _ _) he]
  · rw [List.getElem?_eq_none (by rw [List.length_range]; exact hge),
      List.getElem?_eq_none (by omega), Option.map_none]

/-- Every accepted event is delivered or still to deliver, in order. -/
theorem InputInv.accepted_eq (h : InputInv g s) : g.accepted = g.delivered ++ s.toDeliver := by
  unfold InputState.toDeliver
  rw [h.contents_eq, List.drop_drop, h.delivered, List.take_append_drop]

/-- The next event to deliver is the first one in the ring. -/
theorem InputInv.copyOut_eq (h : InputInv g s) {e : InputEvent} (hc : s.consumer = .copyOut e) :
    g.accepted[g.delivered.length]? = some e := by
  have h1 := h.consumer
  have h2 := h.delivered
  rw [hc] at h1 h2
  have h3 : g.taken < g.accepted.length := (List.getElem?_eq_some_iff.mp h1).1
  have h4 : g.delivered.length = g.taken := by
    rw [h2, List.length_take]
    exact Nat.min_eq_left (Nat.le_of_lt h3)
  rw [h4]
  exact h1

end Ends

/-! ## The steps of the producer -/

section Steps

variable {g : InputHistory} {s : InputState} {a : InputAct} {r : InputRing}

/-- What the consumer knows does not depend on the free cells, nor on the head. -/
theorem ReadEvent.Inv.frame {acc : List InputEvent} {taken : Nat} {r r' : InputRing}
    {c : ReadEvent} (h : c.Inv acc taken r) (ht : r'.tail = r.tail)
    (he : taken < acc.length → r'.events r.tail = r.events r.tail) : c.Inv acc taken r' := by
  cases c with
  | idle | peek => trivial
  | peekTail t => exact Eq.trans h ht.symm
  | reading t e copied =>
    obtain ⟨rfl, h2, h3⟩ := h
    exact ⟨ht.symm, h2, fun i hi => (h3 i hi).trans (by rw [he h2])⟩
  | copyOut e => exact h
  | consume => exact h
  | consumeTail t => exact ⟨h.1.trans ht.symm, h.2⟩
  | advance t => exact ⟨h.1.trans ht.symm, h.2⟩

/-- Nor on the events accepted later. -/
theorem ReadEvent.Inv.accept {acc : List InputEvent} {taken : Nat} {r : InputRing}
    {c : ReadEvent} (e : InputEvent) (h : c.Inv acc taken r) : c.Inv (acc ++ [e]) taken r := by
  have hlt : taken < acc.length → taken < (acc ++ [e]).length := by
    intro h
    rw [List.length_append]
    exact Nat.lt_add_right _ h
  cases c with
  | idle | peek => trivial
  | peekTail t => exact h
  | reading t e' copied => exact ⟨h.1, hlt h.2.1, h.2.2⟩
  | copyOut e' =>
    have h' : acc[taken]? = some e' := h
    exact (List.getElem?_append_left (List.getElem?_eq_some_iff.mp h').1).trans h'
  | consume => exact hlt h
  | consumeTail t | advance t => exact ⟨h.1, hlt h.2⟩

theorem ReadEvent.owed_le {acc : List InputEvent} {taken : Nat} {r : InputRing}
    {c : ReadEvent} (h : c.Inv acc taken r) (ht : taken ≤ acc.length) :
    taken + c.owed ≤ acc.length := by
  cases c with
  | idle | peek | peekTail | reading | copyOut => exact ht
  | consume => exact h
  | consumeTail t | advance t => exact h.2

theorem InputInv.push_step {p : Push} (h : InputInv g s) (hs : PushStep s.ring s.producer a r p) :
    InputInv (g.record a) { s with ring := r, producer := p } := by
  obtain ⟨ring, producer, consumer⟩ := s
  have hp := h.producer
  have hpushed := h.pushed
  have hdropped := h.dropped
  cases hs with
  | call event =>
    refine { h with producer := trivial, pushed := ?_ }
    change g.pushed ++ [event] = g.decided ++ [event]
    rw [hpushed]
    exact congrArg (· ++ [event]) (List.append_nil _)
  | loadHead event => exact { h with producer := rfl, pushed := hpushed, dropped := hdropped }
  | loadTailFull event k hf =>
    refine { h with producer := trivial, sub := ?_, length := ?_, pushed := ?_, dropped := ?_ }
    · exact h.sub.trans (List.sublist_append_left _ _)
    · change (g.decided ++ [event]).length = g.accepted.length + (g.dropped + 1)
      rw [List.length_append, h.length, List.length_singleton]
      omega
    · exact hpushed.trans (List.append_nil _).symm
    · exact congrArg (· + 1) hdropped
  | loadTail event k hf =>
    refine { h with producer := ⟨hp, rfl, ?_, fun i hi => ?_⟩, pushed := hpushed,
                    dropped := hdropped }
    · have hroom := h.room
      have hfull := h.full_iff
      obtain rfl : k = ring.head := hp
      have hne : g.accepted.length ≠ g.taken + 255 := fun he => hf (hfull.mpr he)
      change g.accepted.length + 1 < g.taken + 256
      change g.accepted.length < g.taken + 256 at hroom
      omega
    · cases hi
  | addDropped =>
    refine { h with producer := trivial, pushed := hpushed, dropped := hdropped, counter := ?_ }
    change ring.dropped + 1 = BitVec.ofNat 64 (g.counted + 1)
    rw [BitVec.ofNat_add]
    exact congrArg (· + 1) h.counter
  | writeWord event k next copied i =>
    obtain ⟨hk, hn, hr, hc⟩ := hp
    obtain rfl : k = ring.head := hk
    have hcell : ∀ x, x ≠ g.accepted.length % inputCapacity → Function.update ring.events ring.head
        ((ring.events ring.head).setWord (event.word i) i) x = ring.events x := by
      intro x hx
      rw [← h.head] at hx
      exact Function.update_of_ne hx _ _
    refine { h with holds := h.holds.frame h.room hcell, producer := ⟨rfl, hn, hr, ?_⟩,
                    consumer := ?_, pushed := hpushed, dropped := hdropped }
    · intro j hj
      change (Function.update ring.events ring.head _ ring.head).word j = event.word j
      rw [Function.update_self, InputEvent.word_setWord]
      split
      · next hji => rw [hji]
      · next hji => exact hc j ((List.mem_cons.mp hj).resolve_left hji)
    · refine h.consumer.frame rfl fun ht => hcell _ ?_
      -- the consumer's cell holds an event, so it is not the free one
      have htail := h.tail
      change ring.tail = _ at htail
      rw [htail]
      exact cell_ne ht h.room
  | storeHead event k next copied hc =>
    obtain ⟨hk, rfl, hr, hw⟩ := hp
    obtain rfl : k = ring.head := hk
    have heq : ring.events ring.head = event := InputEvent.ext_word fun i => hw i (hc i)
    have hhead : ring.head = g.accepted.length % inputCapacity := h.head
    have hlen : (g.accepted ++ [event]).length = g.accepted.length + 1 := by
      rw [List.length_append, List.length_singleton]
    refine { h with holds := h.holds.push h.room ?_, room := ?_, head := ?_, producer := trivial,
                    consumer := ?_, delivered := ?_, sub := ?_, length := ?_, pushed := ?_,
                    dropped := hdropped }
    · rw [← hhead]
      exact heq
    · change (g.accepted ++ [event]).length < _
      rw [hlen]
      exact hr
    · change inputNext ring.head = (g.accepted ++ [event]).length % _
      rw [hlen, hhead, inputNext_mod]
    · exact (h.consumer.frame rfl fun _ => rfl).accept event
    · change g.delivered = (g.accepted ++ [event]).take (g.taken + consumer.owed)
      rw [List.take_append_of_le_length (ReadEvent.owed_le h.consumer h.holds.le)]
      exact h.delivered
    · exact h.sub.append (List.Sublist.refl _)
    · change (g.decided ++ [event]).length = (g.accepted ++ [event]).length + g.dropped
      rw [hlen, List.length_append, h.length, List.length_singleton]
      omega
    · exact hpushed.trans (List.append_nil _).symm

/-! ## The steps of the consumer -/

theorem InputInv.read_step {c : ReadEvent} (h : InputInv g s)
    (hs : ReadStep s.ring s.consumer a r c) :
    InputInv (g.record a) { s with ring := r, consumer := c } := by
  obtain ⟨ring, producer, consumer⟩ := s
  have hc := h.consumer
  have hd := h.delivered
  cases hs with
  | refuse => exact { h with }
  | prepare => exact { h with consumer := trivial, delivered := hd }
  | peekLoadTail => exact { h with consumer := rfl, delivered := hd }
  | peekEmpty t he => exact { h with consumer := trivial, delivered := hd }
  | peekLoadHead t event he =>
    obtain rfl : t = ring.tail := hc
    refine { h with consumer := ⟨rfl, ?_, fun i hi => ?_⟩, delivered := hd }
    · have hne : g.taken ≠ g.accepted.length := fun hte => he (h.empty_iff.mpr hte)
      exact Nat.lt_of_le_of_ne h.holds.le hne
    · cases hi
  | readWord t event copied i =>
    obtain ⟨htl, ht, hw⟩ := hc
    obtain rfl : t = ring.tail := htl
    refine { h with consumer := ⟨rfl, ht, ?_⟩, delivered := hd }
    intro j hj
    rw [InputEvent.word_setWord]
    split
    · next hji => rw [hji]
    · next hji => exact hw j ((List.mem_cons.mp hj).resolve_left hji)
  | peekDone t event copied hall =>
    obtain ⟨htl, ht, hw⟩ := hc
    obtain rfl : t = ring.tail := htl
    have heq : event = ring.events ring.tail := InputEvent.ext_word fun i => hw i (hall i)
    have htail : ring.tail = g.taken % inputCapacity := h.tail
    refine { h with consumer := ?_, delivered := hd }
    change g.accepted[g.taken]? = some event
    rw [heq, htail]
    exact h.holds.head ht
  | copyFails event => exact { h with consumer := trivial, delivered := hd }
  | copied event =>
    have he : g.accepted[g.taken]? = some event := hc
    refine { h with consumer := (List.getElem?_eq_some_iff.mp he).1, delivered := ?_ }
    change g.delivered ++ [event] = g.accepted.take (g.taken + 1)
    rw [List.take_add_one, he]
    exact congrArg (· ++ [event]) hd
  | consumeLoadTail => exact { h with consumer := ⟨rfl, hc⟩, delivered := hd }
  | consumeEmpty t he =>
    -- the event just delivered is still in the ring
    obtain ⟨htl, ht⟩ := hc
    obtain rfl : t = ring.tail := htl
    exact absurd (h.empty_iff.mp he) (Nat.ne_of_lt ht)
  | consumeLoadHead t he => exact { h with consumer := hc, delivered := hd }
  | storeTail t =>
    obtain ⟨htl, ht⟩ := hc
    obtain rfl : t = ring.tail := htl
    have htail : ring.tail = g.taken % inputCapacity := h.tail
    have hroom : g.accepted.length < g.taken + inputCapacity := h.room
    refine { h with holds := h.holds.pop ht, room := ?_, tail := ?_, producer := ?_,
                    consumer := trivial, delivered := hd }
    · change g.accepted.length < g.taken + 1 + inputCapacity
      omega
    · change inputNext ring.tail = (g.taken + 1) % inputCapacity
      rw [htail, inputNext_mod]
    · have hp := h.producer
      cases producer with
      | idle | start | full => trivial
      | headLoaded event k => exact hp
      | writing event k next copied =>
        obtain ⟨hk, hn, hr, hw⟩ := hp
        refine ⟨hk, hn, ?_, hw⟩
        change g.accepted.length + 1 < g.taken + 1 + inputCapacity
        omega

theorem InputInv.step {t : InputState} (h : InputInv g s) (hs : InputStep s a t) :
    InputInv (g.record a) t := by
  cases hs with
  | push hp => exact h.push_step hp
  | read hr => exact h.read_step hr

theorem InputInv.of_run {l : List InputAct} {s : InputState}
    (h : Run InputStep InputState.init l s) : InputInv (inputHistory l) s := by
  induction h with
  | nil => exact InputInv.init
  | snoc _ ha ih =>
    rw [inputHistory_concat]
    exact ih.step ha

end Steps

/-! ## Runs -/

/-- A history only grows. -/
theorem InputHistory.foldl_record (g : InputHistory) (l : List InputAct) :
    (l.foldl record g).delivered = g.delivered ++ (inputHistory l).delivered ∧
      g.accepted <+: (l.foldl record g).accepted := by
  induction l using List.reverseRecOn with
  | nil => exact ⟨(List.append_nil _).symm, List.prefix_refl _⟩
  | append_singleton l a ih =>
    obtain ⟨h1, h2⟩ := ih
    rw [inputHistory_concat, List.foldl_append, List.foldl_cons, List.foldl_nil]
    cases a with
    | deliver e =>
      refine ⟨?_, h2⟩
      change (l.foldl record g).delivered ++ [e] = _ ++ ((inputHistory l).delivered ++ [e])
      rw [h1, List.append_assoc]
    | accept e => exact ⟨h1, h2.trans (List.prefix_append _ _)⟩
    | internal | call | full | count | fail | take => exact ⟨h1, h2⟩

theorem InputStep.fail_copyOut {s t : InputState} {e : InputEvent}
    (h : InputStep s (.fail e) t) : s.consumer = .copyOut e := by
  obtain ⟨ring, producer, consumer⟩ := s
  cases h with
  | push hp => cases hp
  | read hr =>
    cases hr
    rfl

theorem InputStep.deliver_copyOut {s t : InputState} {e : InputEvent}
    (h : InputStep s (.deliver e) t) : s.consumer = .copyOut e := by
  obtain ⟨ring, producer, consumer⟩ := s
  cases h with
  | push hp => cases hp
  | read hr =>
    cases hr
    rfl

/-- An event whose copy failed is the next one delivered. -/
theorem InputStep.fail_deliver {l l' : List InputAct} {s t u v : InputState} {e e' : InputEvent}
    (h : Run InputStep InputState.init l s) (hf : InputStep s (.fail e) t)
    (h' : Run InputStep t l' u) (hn : (inputHistory l').delivered = [])
    (hd : InputStep u (.deliver e') v) : e' = e := by
  have h1 := (InputInv.of_run h).copyOut_eq hf.fail_copyOut
  have hrun := (h.snoc hf).append h'
  have h2 := (InputInv.of_run hrun).copyOut_eq hd.deliver_copyOut
  have hg : inputHistory (l ++ [.fail e] ++ l') = l'.foldl InputHistory.record
      (inputHistory l) := by
    unfold inputHistory
    rw [List.foldl_append, List.foldl_append, List.foldl_cons, List.foldl_nil]
    rfl
  obtain ⟨h3, h4⟩ := (inputHistory l).foldl_record l'
  rw [hg, h3, hn, List.append_nil] at h2
  obtain ⟨later, h4⟩ := h4
  rw [← h4, List.getElem?_append_left (List.getElem?_eq_some_iff.mp h1).1, h1] at h2
  exact (Option.some.inj h2).symm

theorem InputInv.full {g : InputHistory} {s t : InputState} {e : InputEvent}
    (h : InputInv g s) (hf : InputStep s (.full e) t) : s.ring.queued = 255 := by
  obtain ⟨ring, producer, consumer⟩ := s
  have hacc : g.accepted.length = g.taken + 255 := by
    cases hf with
    | push hp =>
      have hi := h.producer
      cases hp with
      | loadTailFull e k hf =>
        obtain rfl : k = ring.head := hi
        exact h.full_iff.mp hf
    | read hr => cases hr
  rw [h.queued_eq, hacc, Nat.add_sub_cancel_left]

/-- What is delivered and what is left to deliver are the accepted events in push order; each push
is accepted or dropped, the latter only when 255 events are queued, and a drop is counted once; an
event whose copy fails is the next one delivered. -/
theorem input_ring {l : List InputAct} {s : InputState} (h : Run InputStep InputState.init l s) :
    (inputHistory l).accepted = (inputHistory l).delivered ++ s.toDeliver ∧
    (inputHistory l).accepted.Sublist (inputHistory l).decided ∧
    (inputHistory l).pushed = (inputHistory l).decided ++ s.producer.current ∧
    (inputHistory l).decided.length =
      (inputHistory l).accepted.length + (inputHistory l).dropped ∧
    (∀ e t, InputStep s (.full e) t → s.ring.queued = 255) ∧
    (inputHistory l).dropped = (inputHistory l).counted + s.producer.uncounted ∧
    s.ring.dropped = BitVec.ofNat 64 (inputHistory l).counted ∧
    ∀ e t l' u e' v, InputStep s (.fail e) t → Run InputStep t l' u →
      (inputHistory l').delivered = [] → InputStep u (.deliver e') v → e' = e := by
  have hi := InputInv.of_run h
  refine ⟨hi.accepted_eq, hi.sub, hi.pushed, hi.length, ?_, hi.dropped, hi.counter, ?_⟩
  · intro e t hf
    exact hi.full hf
  · intro e t l' u e' v hf h' hn hd
    exact InputStep.fail_deliver h hf h' hn hd

/-! ## A full ring -/

section Full

variable {s : InputState} {e : InputEvent}

/-- The labels of a push that finds room. -/
def pushActs (e : InputEvent) : List InputAct :=
  [.call e, .internal, .internal, .internal, .internal, .internal, .internal, .internal, .internal,
    .accept e]

theorem push_run (hp : s.producer = .idle) (hf : inputNext s.ring.head ≠ s.ring.tail) :
    ∃ t, Run InputStep s (pushActs e) t ∧ t.producer = .idle ∧ t.consumer = s.consumer ∧
      t.ring.head = inputNext s.ring.head ∧ t.ring.tail = s.ring.tail := by
  obtain ⟨r, p, c⟩ := s
  dsimp only at hp hf
  subst hp
  have h₁ : Run InputStep ⟨r, .idle, c⟩ [.call e] ⟨r, .start e, c⟩ :=
    .single (.push (.call r e))
  have h₂ := h₁.snoc (.push (.loadHead r e))
  have h₃ := h₂.snoc (.push (.loadTail r e r.head hf))
  have h₄ := h₃.snoc (.push (.writeWord _ e _ _ _ 0))
  have h₅ := h₄.snoc (.push (.writeWord _ e _ _ _ 1))
  have h₆ := h₅.snoc (.push (.writeWord _ e _ _ _ 2))
  have h₇ := h₆.snoc (.push (.writeWord _ e _ _ _ 3))
  have h₈ := h₇.snoc (.push (.writeWord _ e _ _ _ 4))
  have h₉ := h₈.snoc (.push (.writeWord _ e _ _ _ 5))
  exact ⟨_, h₉.snoc (.push (.storeHead _ e _ _ _ (by decide))), rfl, rfl, rfl, rfl⟩

/-- A push that finds the ring full. -/
theorem drop_run (hp : s.producer = .idle) (hf : inputNext s.ring.head = s.ring.tail) :
    Run InputStep s [.call e, .internal, .full e, .count]
      { s with ring := { s.ring with dropped := s.ring.dropped + 1 } } := by
  obtain ⟨r, p, c⟩ := s
  dsimp only at hp hf
  subst hp
  have h₁ : Run InputStep ⟨r, .idle, c⟩ [.call e] ⟨r, .start e, c⟩ :=
    .single (.push (.call r e))
  have h₂ := h₁.snoc (.push (.loadHead r e))
  have h₃ := h₂.snoc (.push (.loadTailFull r e r.head hf))
  exact h₃.snoc (.push (.addDropped r))

/-- The labels of a system call that delivers an event. -/
def readActs (e : InputEvent) : List InputAct :=
  [.internal, .internal, .internal, .internal, .internal, .internal, .internal, .internal,
    .internal, .internal, .deliver e, .internal, .internal, .take]

theorem read_run (hc : s.consumer = .idle) (ht : s.ring.tail ≠ s.ring.head) :
    ∃ e, Run InputStep s (readActs e)
      { s with ring := { s.ring with tail := inputNext s.ring.tail } } := by
  obtain ⟨r, p, c⟩ := s
  dsimp only at hc ht
  subst hc
  have h₁ : Run InputStep ⟨r, p, .idle⟩ [.internal] ⟨r, p, .peek⟩ := .single (.read (.prepare r))
  have h₂ := h₁.snoc (.read (.peekLoadTail r))
  have h₃ := h₂.snoc (.read (.peekLoadHead r _ ⟨0, 0, 0, 0, 0, 0⟩ ht))
  have h₄ := h₃.snoc (.read (.readWord r _ _ _ 0))
  have h₅ := h₄.snoc (.read (.readWord r _ _ _ 1))
  have h₆ := h₅.snoc (.read (.readWord r _ _ _ 2))
  have h₇ := h₆.snoc (.read (.readWord r _ _ _ 3))
  have h₈ := h₇.snoc (.read (.readWord r _ _ _ 4))
  have h₉ := h₈.snoc (.read (.readWord r _ _ _ 5))
  have h₁₀ := h₉.snoc (.read (.peekDone r _ _ _ (by decide)))
  have h₁₁ := h₁₀.snoc (.read (.copied r _))
  have h₁₂ := h₁₁.snoc (.read (.consumeLoadTail r))
  have h₁₃ := h₁₂.snoc (.read (.consumeLoadHead r _ ht))
  exact ⟨_, h₁₃.snoc (.read (.storeTail r _))⟩

/-- Pushes while there is room. -/
theorem pushes_run {es : List InputEvent} (hp : s.producer = .idle) (ht : s.ring.tail = 0)
    (hr : s.ring.head + es.length < inputCapacity) :
    ∃ t, Run InputStep s (es.flatMap pushActs) t ∧ t.producer = .idle ∧
      t.consumer = s.consumer ∧ t.ring.head = s.ring.head + es.length ∧ t.ring.tail = 0 := by
  induction es generalizing s with
  | nil => exact ⟨s, .nil, hp, rfl, rfl, ht⟩
  | cons e es ih =>
    rw [List.length_cons] at hr
    have hn : inputNext s.ring.head = s.ring.head + 1 := by
      unfold inputNext inputCapacity at *
      omega
    obtain ⟨t, h₁, hp₁, hc₁, hh₁, ht₁⟩ := push_run (e := e) hp (by rw [hn, ht]; omega)
    obtain ⟨u, h₂, hp₂, hc₂, hh₂, ht₂⟩ := ih hp₁ (ht₁.trans ht) (by rw [hh₁, hn]; omega)
    refine ⟨u, h₁.append h₂, hp₂, hc₂.trans hc₁, ?_, ht₂⟩
    rw [hh₂, hh₁, hn, List.length_cons]
    omega

theorem InputHistory.record_pushes (g : InputHistory) (es : List InputEvent) :
    ((es.flatMap pushActs).foldl record g).accepted = g.accepted ++ es ∧
    ((es.flatMap pushActs).foldl record g).delivered = g.delivered ∧
    ((es.flatMap pushActs).foldl record g).dropped = g.dropped ∧
    ((es.flatMap pushActs).foldl record g).counted = g.counted := by
  induction es generalizing g with
  | nil => exact ⟨(List.append_nil _).symm, rfl, rfl, rfl⟩
  | cons e es ih =>
    rw [List.flatMap_cons, List.foldl_append]
    obtain ⟨h1, h2, h3, h4⟩ := ih ((pushActs e).foldl record g)
    exact ⟨h1.trans (List.append_assoc _ [e] es), h2, h3, h4⟩

/-- The ring is filled with `es`, a push of `e₁` is dropped, `e` is read, and `e₂` is pushed. -/
def overflowActs (es : List InputEvent) (e₁ e e₂ : InputEvent) : List InputAct :=
  es.flatMap pushActs ++ [.call e₁, .internal, .full e₁, .count] ++ readActs e ++ pushActs e₂

theorem overflow_run {es : List InputEvent} (hl : es.length = 255) (e₁ e₂ : InputEvent) :
    ∃ e s, Run InputStep .init (overflowActs es e₁ e e₂) s ∧ s.ring.head = 0 := by
  obtain ⟨s₁, h₁, hp₁, hc₁, hh₁, ht₁⟩ :=
    @pushes_run .init es rfl rfl (by rw [hl]; decide)
  have hfull : s₁.ring.head = 255 := hh₁.trans (by rw [hl]; rfl)
  have h₂ := h₁.append (drop_run (e := e₁) hp₁ (by rw [hfull, ht₁]; rfl))
  generalize hs₂ : ({ s₁ with ring := { s₁.ring with dropped := s₁.ring.dropped + 1 } } :
    InputState) = s₂ at h₂
  obtain ⟨hp₂, hc₂, hh₂, ht₂⟩ : s₂.producer = .idle ∧ s₂.consumer = .idle ∧
      s₂.ring.head = 255 ∧ s₂.ring.tail = 0 := by
    subst hs₂
    exact ⟨hp₁, hc₁, hfull, ht₁⟩
  obtain ⟨e, hread⟩ := read_run hc₂ (by rw [hh₂, ht₂]; decide)
  have h₃ := h₂.append hread
  obtain ⟨s₄, hpush, -, -, hh₄, -⟩ := push_run (e := e₂)
    (s := { s₂ with ring := { s₂.ring with tail := inputNext s₂.ring.tail } }) hp₂
    (by dsimp only; rw [hh₂, ht₂]; decide)
  exact ⟨e, s₄, h₃.append hpush, by rw [hh₄]; dsimp only; rw [hh₂]; rfl⟩

theorem overflow_history (es : List InputEvent) (e₁ e e₂ : InputEvent) :
    (inputHistory (overflowActs es e₁ e e₂)).accepted = es ++ [e₂] ∧
    (inputHistory (overflowActs es e₁ e e₂)).delivered = [e] ∧
    (inputHistory (overflowActs es e₁ e e₂)).dropped = 1 ∧
    (inputHistory (overflowActs es e₁ e e₂)).counted = 1 := by
  unfold inputHistory overflowActs
  rw [List.foldl_append, List.foldl_append, List.foldl_append]
  obtain ⟨h1, h2, h3, h4⟩ := InputHistory.record_pushes {} es
  generalize (es.flatMap pushActs).foldl InputHistory.record {} = g at h1 h2 h3 h4
  simp [pushActs, readActs, InputHistory.record, h1, h2, h3, h4]

end Full

/-- The press of a key. -/
def keyEvent (code : Nat) : InputEvent := ⟨1, code, 1, 0, 0, 0⟩

/-- Presses of 255 keys, which fill the ring. -/
def presses : List InputEvent := (List.range 255).map keyEvent

/-- They fill the ring and the next press is dropped; one is delivered, and the head wraps. -/
theorem input_ring_full : ∃ l s, Run InputStep InputState.init l s ∧
    (inputHistory l).accepted = presses ++ [keyEvent 256] ∧ (inputHistory l).dropped = 1 ∧
    s.ring.dropped = 1 ∧ s.ring.head = 0 ∧ (inputHistory l).delivered = [keyEvent 0] := by
  obtain ⟨e, s, h, hhead⟩ := @overflow_run presses (by simp [presses]) (keyEvent 255)
    (keyEvent 256)
  obtain ⟨hacc, hdel, hdrop, hcount⟩ := overflow_history presses (keyEvent 255) e (keyEvent 256)
  obtain ⟨hring, -, -, -, -, -, hcounter, -⟩ := input_ring h
  have hfirst : presses = keyEvent 0 :: presses.tail := rfl
  rw [hacc, hdel, hfirst] at hring
  refine ⟨_, s, h, hacc, hdrop, by rw [hcounter, hcount]; rfl, hhead, ?_⟩
  rw [hdel]
  exact congrArg (fun e => [e]) (List.cons.inj hring).1.symm

end GenOS
