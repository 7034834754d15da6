import Mathlib.Data.BitVec
import Mathlib.Tactic.FinCases

/-!
# The input event ring

`drivers/input.c`, and the read-event case of `syscall_handler` in `cpu/syscall.c`. One producer
runs `input_push` and one consumer the system call; a step of either is one atomic load or store,
or one word of a struct copy. The words of a copy go in any order.

* `Push` and `ReadEvent` are the points where the two stand, with their local variables.
* `PushStep` and `ReadStep` are their steps. Whether the address of the caller is writable and
  whether `copy_to_user` fails is open at each step.
* The labels (`InputAct`) say what became of an event.
-/

namespace GenOS

/-- `INPUT_CAPACITY`. -/
abbrev inputCapacity : Nat := 256

/-- `struct genos_input_event`. -/
structure InputEvent where
  type : BitVec 32
  code : BitVec 32
  value : BitVec 32
  dx : BitVec 32
  dy : BitVec 32
  reserved : BitVec 32
  deriving DecidableEq

namespace InputEvent

/-- The words of an event. -/
def word (e : InputEvent) : Fin 6 → BitVec 32
  | 0 => e.type
  | 1 => e.code
  | 2 => e.value
  | 3 => e.dx
  | 4 => e.dy
  | 5 => e.reserved

def setWord (e : InputEvent) (v : BitVec 32) : Fin 6 → InputEvent
  | 0 => { e with type := v }
  | 1 => { e with code := v }
  | 2 => { e with value := v }
  | 3 => { e with dx := v }
  | 4 => { e with dy := v }
  | 5 => { e with reserved := v }

theorem word_setWord (e : InputEvent) (v : BitVec 32) (i j : Fin 6) :
    (e.setWord v i).word j = if j = i then v else e.word j := by
  fin_cases i <;> fin_cases j <;> rfl

theorem ext_word {e e' : InputEvent} (h : ∀ i, e.word i = e'.word i) : e = e' := by
  cases e
  cases e'
  have h0 := h 0
  have h1 := h 1
  have h2 := h 2
  have h3 := h 3
  have h4 := h 4
  have h5 := h 5
  simp only [word] at h0 h1 h2 h3 h4 h5
  rw [h0, h1, h2, h3, h4, h5]

end InputEvent

/-- The static variables of `input.c`. -/
structure InputRing where
  events : Nat → InputEvent
  head : Nat
  tail : Nat
  dropped : BitVec 64

/-- `(i + 1) % INPUT_CAPACITY`, on a `uint32_t`. -/
def inputNext (i : Nat) : Nat := (i + 1) % 4294967296 % inputCapacity

/-- What becomes of an event. -/
inductive InputAct where
  | internal
  /-- `input_push` is called. -/
  | call (event : InputEvent)
  /-- The ring is found full. -/
  | full (event : InputEvent)
  /-- The drop is counted. -/
  | count
  /-- The new head is stored. -/
  | accept (event : InputEvent)
  /-- `copy_to_user` succeeds. -/
  | deliver (event : InputEvent)
  | fail (event : InputEvent)
  /-- The new tail is stored. -/
  | take

/-! ## The producer -/

/-- Where `input_push` stands. -/
inductive Push where
  | idle
  | start (event : InputEvent)
  | headLoaded (event : InputEvent) (h : Nat)
  | full
  /-- The words in `copied` of `events[h]` are written. -/
  | writing (event : InputEvent) (h next : Nat) (copied : List (Fin 6))

/-- The steps of `input_push`. -/
inductive PushStep : InputRing → Push → InputAct → InputRing → Push → Prop
  | call (r : InputRing) (event : InputEvent) : PushStep r .idle (.call event) r (.start event)
  | loadHead (r : InputRing) (event : InputEvent) :
    PushStep r (.start event) .internal r (.headLoaded event r.head)
  | loadTailFull (r : InputRing) (event : InputEvent) (h : Nat) (hf : inputNext h = r.tail) :
    PushStep r (.headLoaded event h) (.full event) r .full
  | loadTail (r : InputRing) (event : InputEvent) (h : Nat) (hf : inputNext h ≠ r.tail) :
    PushStep r (.headLoaded event h) .internal r (.writing event h (inputNext h) [])
  | addDropped (r : InputRing) :
    PushStep r .full .count { r with dropped := r.dropped + 1 } .idle
  | writeWord (r : InputRing) (event : InputEvent) (h next : Nat) (copied : List (Fin 6))
    (i : Fin 6) :
    PushStep r (.writing event h next copied) .internal
      { r with events := Function.update r.events h ((r.events h).setWord (event.word i) i) }
      (.writing event h next (i :: copied))
  | storeHead (r : InputRing) (event : InputEvent) (h next : Nat) (copied : List (Fin 6))
    (hc : ∀ i, i ∈ copied) :
    PushStep r (.writing event h next copied) (.accept event) { r with head := next } .idle

/-! ## The consumer -/

/-- Where the read-event system call stands. -/
inductive ReadEvent where
  | idle
  | peek
  | peekTail (t : Nat)
  /-- The words in `copied` of `events[t]` are read. -/
  | reading (t : Nat) (event : InputEvent) (copied : List (Fin 6))
  | copyOut (event : InputEvent)
  | consume
  | consumeTail (t : Nat)
  | advance (t : Nat)

/-- The steps of the system call: `input_peek`, `copy_to_user` and `input_consume`. -/
inductive ReadStep : InputRing → ReadEvent → InputAct → InputRing → ReadEvent → Prop
  /-- `user_write_prepare` fails, and the call returns -1. -/
  | refuse (r : InputRing) : ReadStep r .idle .internal r .idle
  | prepare (r : InputRing) : ReadStep r .idle .internal r .peek
  | peekLoadTail (r : InputRing) : ReadStep r .peek .internal r (.peekTail r.tail)
  /-- `input_peek` returns 0. -/
  | peekEmpty (r : InputRing) (t : Nat) (he : t = r.head) :
    ReadStep r (.peekTail t) .internal r .idle
  /-- The local `event` starts with any contents. -/
  | peekLoadHead (r : InputRing) (t : Nat) (event : InputEvent) (he : t ≠ r.head) :
    ReadStep r (.peekTail t) .internal r (.reading t event [])
  | readWord (r : InputRing) (t : Nat) (event : InputEvent) (copied : List (Fin 6)) (i : Fin 6) :
    ReadStep r (.reading t event copied) .internal r
      (.reading t (event.setWord ((r.events t).word i) i) (i :: copied))
  | peekDone (r : InputRing) (t : Nat) (event : InputEvent) (copied : List (Fin 6))
    (hc : ∀ i, i ∈ copied) :
    ReadStep r (.reading t event copied) .internal r (.copyOut event)
  /-- The call returns -1. -/
  | copyFails (r : InputRing) (event : InputEvent) :
    ReadStep r (.copyOut event) (.fail event) r .idle
  | copied (r : InputRing) (event : InputEvent) :
    ReadStep r (.copyOut event) (.deliver event) r .consume
  | consumeLoadTail (r : InputRing) : ReadStep r .consume .internal r (.consumeTail r.tail)
  | consumeEmpty (r : InputRing) (t : Nat) (he : t = r.head) :
    ReadStep r (.consumeTail t) .internal r .idle
  | consumeLoadHead (r : InputRing) (t : Nat) (he : t ≠ r.head) :
    ReadStep r (.consumeTail t) .internal r (.advance t)
  | storeTail (r : InputRing) (t : Nat) :
    ReadStep r (.advance t) .take { r with tail := inputNext t } .idle

/-! ## Both -/

structure InputState where
  ring : InputRing
  producer : Push
  consumer : ReadEvent

/-- The static variables are zero, and nobody runs. -/
def InputState.init : InputState where
  ring := { events := fun _ => ⟨0, 0, 0, 0, 0, 0⟩, head := 0, tail := 0, dropped := 0 }
  producer := .idle
  consumer := .idle

/-- A step of the producer or of the consumer. -/
inductive InputStep : InputState → InputAct → InputState → Prop
  | push {s : InputState} {a : InputAct} {r : InputRing} {p : Push}
    (h : PushStep s.ring s.producer a r p) : InputStep s a { s with ring := r, producer := p }
  | read {s : InputState} {a : InputAct} {r : InputRing} {c : ReadEvent}
    (h : ReadStep s.ring s.consumer a r c) : InputStep s a { s with ring := r, consumer := c }

end GenOS
