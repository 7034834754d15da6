import GenOS.Lib.Locking

/-!
# Programs run alone

What a program does when no other thread runs beside it, as under a lock that protects all that it
uses. The locks are not looked at; `g` and `l` are what it finds where it asks for them. `Ends` is a
run, `after` is the weakest precondition for all runs, whose traps are those of `E`, and `may` is
that for some run.
-/

namespace GenOS.Locking

namespace Prog

variable {σ δ κ α β : Type} {E : κ → Prop} {g l : Nat} {Q Q' : α → σ → Prop} {s t : σ}

/-- A run from `s` ends in `t`, with a value or at a trap. -/
def Ends (g l : Nat) : Prog σ δ κ α → σ → Except κ α → σ → Prop
  | ret a, s, r, t => r = .ok a ∧ t = s
  | access f k, s, r, t => (k s).Ends g l (f s) r t
  | input k, s, r, t => ∃ n, (k n).Ends g l s r t
  | guard _ k, s, r, t | unguard k, s, r, t | lock _ k, s, r, t | unlock _ k, s, r, t =>
    k.Ends g l s r t
  | tryLock _ k, s, r, t => ∃ b, (k b).Ends g l s r t
  | depths k, s, r, t => (k g l).Ends g l s r t
  | trap site, s, r, t => r = .error site ∧ t = s

/-- Every run from `s` ends with `Q`, or at a trap of `E`. -/
def after (E : κ → Prop) (g l : Nat) : Prog σ δ κ α → (α → σ → Prop) → σ → Prop
  | ret a, Q, s => Q a s
  | access f k, Q, s => (k s).after E g l Q (f s)
  | input k, Q, s => ∀ n, (k n).after E g l Q s
  | guard _ k, Q, s | unguard k, Q, s | lock _ k, Q, s | unlock _ k, Q, s => k.after E g l Q s
  | tryLock _ k, Q, s => ∀ b, (k b).after E g l Q s
  | depths k, Q, s => (k g l).after E g l Q s
  | trap site, _, _ => E site

/-- The weakest precondition is sound. -/
theorem after_sound {p : Prog σ δ κ α} {r : Except κ α} (h : p.after E g l Q s)
    (hr : p.Ends g l s r t) : (∀ a, r = .ok a → Q a t) ∧ ∀ site, r = .error site → E site := by
  induction p generalizing s with
  | ret a =>
    obtain ⟨rfl, rfl⟩ := hr
    exact ⟨fun _ ha => Except.ok.inj ha ▸ h, nofun⟩
  | access f k ih => exact ih _ h hr
  | input k ih =>
    obtain ⟨n, hr⟩ := hr
    exact ih n (h n) hr
  | guard site k ih => exact ih h hr
  | unguard k ih => exact ih h hr
  | lock d k ih => exact ih h hr
  | tryLock d k ih =>
    obtain ⟨b, hr⟩ := hr
    exact ih b (h b) hr
  | unlock d k ih => exact ih h hr
  | depths k ih => exact ih g l h hr
  | trap site =>
    obtain ⟨rfl, rfl⟩ := hr
    exact ⟨nofun, fun _ hs => Except.error.inj hs ▸ h⟩

theorem after_mono {p : Prog σ δ κ α} (h : p.after E g l Q s) (hQ : ∀ a t, Q a t → Q' a t) :
    p.after E g l Q' s := by
  induction p generalizing s with
  | ret a => exact hQ a s h
  | access f k ih => exact ih _ h
  | input k ih => exact fun n => ih n (h n)
  | guard site k ih => exact ih h
  | unguard k ih => exact ih h
  | lock d k ih => exact ih h
  | tryLock d k ih => exact fun b => ih b (h b)
  | unlock d k ih => exact ih h
  | depths k ih => exact ih g l h
  | trap site => exact h

theorem after_bind {p : Prog σ δ κ α} {f : α → Prog σ δ κ β} {Q : β → σ → Prop} :
    (p >>= f).after E g l Q s ↔ p.after E g l (fun a t => (f a).after E g l Q t) s := by
  show (p.bind f).after E g l Q s ↔ _
  induction p generalizing s with
  | ret a => exact Iff.rfl
  | access h k ih => exact ih _
  | input k ih => exact forall_congr' fun n => ih n
  | guard site k ih => exact ih
  | unguard k ih => exact ih
  | lock d k ih => exact ih
  | tryLock d k ih => exact forall_congr' fun b => ih b
  | unlock d k ih => exact ih
  | depths k ih => exact ih g l
  | trap site => exact Iff.rfl

/-- One program after another. -/
theorem after_seq {p : Prog σ δ κ α} {f : α → Prog σ δ κ β} {Q : β → σ → Prop}
    {R : α → σ → Prop}
    (h : p.after E g l R s) (hf : ∀ a t, R a t → (f a).after E g l Q t) :
    (p >>= f).after E g l Q s :=
  after_bind.mpr (after_mono h hf)

theorem after_withGuard {site : κ} {p : Prog σ δ κ α} (h : p.after E g l Q s) :
    (withGuard site p).after E g l Q s :=
  after_seq h fun _ _ hq => hq

theorem after_withLock {d : δ} {p : Prog σ δ κ α} (h : p.after E g l Q s) :
    (withLock d p).after E g l Q s :=
  after_seq h fun _ _ hq => hq

theorem after_withTryLock {d : δ} {a : α} {p : Prog σ δ κ α} (h : p.after E g l Q s)
    (ha : Q a s) : (withTryLock d a p).after E g l Q s := by
  intro b
  cases b with
  | true => exact after_seq h fun _ _ hq => hq
  | false => exact ha

/-- The turns of a loop, by an invariant that holds before turn `i`. -/
theorem after_forLoop {f : Nat → Prog σ δ κ Unit} {I : Nat → σ → Prop} {m : Nat}
    (h : ∀ i s, i < m → I i s → (f i).after E g l (fun _ t => I (i + 1) t) s) (n i : Nat)
    (hm : i + n = m) (hs : I i s) : (forLoop f n i).after E g l (fun _ t => I m t) s := by
  induction n generalizing i s with
  | zero =>
    subst hm
    exact hs
  | succ n ih => exact after_seq (h i s (by omega) hs) fun _ t ht => ih (i + 1) (by omega) ht

/-! ## One run -/

/-- The run with the inputs given, and 0 after them, when the locks are free. -/
def run (g l : Nat) : Prog σ δ κ α → List Nat → σ → Option (α × σ)
  | ret a, _, s => some (a, s)
  | access f k, inputs, s => (k s).run g l inputs (f s)
  | input k, inputs, s => (k (inputs.headD 0)).run g l inputs.tail s
  | guard _ k, inputs, s | unguard k, inputs, s | lock _ k, inputs, s | unlock _ k, inputs, s =>
    k.run g l inputs s
  | tryLock _ k, inputs, s => (k true).run g l inputs s
  | depths k, inputs, s => (k g l).run g l inputs s
  | trap _, _, _ => none

theorem run_ends {p : Prog σ δ κ α} {inputs : List Nat} {x : α × σ}
    (h : p.run g l inputs s = some x) : p.Ends g l s (.ok x.1) x.2 := by
  induction p generalizing inputs s with
  | ret a =>
    cases h
    exact ⟨rfl, rfl⟩
  | access f k ih => exact ih _ h
  | input k ih => exact ⟨_, ih _ h⟩
  | guard site k ih => exact ih h
  | unguard k ih => exact ih h
  | lock d k ih => exact ih h
  | tryLock d k ih => exact ⟨true, ih true h⟩
  | unlock d k ih => exact ih h
  | depths k ih => exact ih g l h
  | trap site => cases h

/-- Some run from `s` ends with `Q`. -/
def may (g l : Nat) (p : Prog σ δ κ α) (Q : α → σ → Prop) (s : σ) : Prop :=
  ∃ a t, p.Ends g l s (.ok a) t ∧ Q a t

/-- Every program ends. -/
theorem exists_ends (p : Prog σ δ κ α) (g l : Nat) (s : σ) : ∃ r t, p.Ends g l s r t := by
  induction p generalizing s with
  | ret a => exact ⟨_, _, rfl, rfl⟩
  | access f k ih => exact ih _ _
  | input k ih => exact (ih 0 s).imp fun _ => Exists.imp fun _ h => ⟨0, h⟩
  | guard site k ih => exact ih s
  | unguard k ih => exact ih s
  | lock d k ih => exact ih s
  | tryLock d k ih => exact (ih true s).imp fun _ => Exists.imp fun _ h => ⟨true, h⟩
  | unlock d k ih => exact ih s
  | depths k ih => exact ih g l s
  | trap site => exact ⟨_, _, rfl, rfl⟩

theorem may_of_after {p : Prog σ δ κ α} (h : p.after (fun _ => False) g l Q s) :
    p.may g l Q s := by
  obtain ⟨r, t, hr⟩ := p.exists_ends g l s
  obtain ⟨hok, herr⟩ := after_sound h hr
  cases r with
  | ok a => exact ⟨a, t, hr, hok a rfl⟩
  | error site => exact (herr site rfl).elim

theorem may_bind {p : Prog σ δ κ α} {f : α → Prog σ δ κ β} {Q : β → σ → Prop}
    (h : p.may g l (fun a t => (f a).may g l Q t) s) : (p >>= f).may g l Q s := by
  obtain ⟨a, u, hr, b, t, hf, hq⟩ := h
  refine ⟨b, t, ?_, hq⟩
  change (p.bind f).Ends g l s (.ok b) t
  induction p generalizing s with
  | ret a' =>
    obtain ⟨ha, rfl⟩ := hr
    obtain rfl := Except.ok.inj ha
    exact hf
  | access f k ih => exact ih _ hr
  | input k ih => exact hr.imp fun n h => ih n h
  | guard site k ih => exact ih hr
  | unguard k ih => exact ih hr
  | lock d k ih => exact ih hr
  | tryLock d k ih => exact hr.imp fun b h => ih b h
  | unlock d k ih => exact ih hr
  | depths k ih => exact ih g l hr
  | trap site => cases hr.1

/-- A part of which all is known, then the rest. -/
theorem may_seq {p : Prog σ δ κ α} {f : α → Prog σ δ κ β} {Q : β → σ → Prop}
    (h : p.after (fun _ => False) g l (fun a t => (f a).may g l Q t) s) : (p >>= f).may g l Q s :=
  may_bind (may_of_after h)

theorem may_withLock {d : δ} {p : Prog σ δ κ α} (h : p.may g l Q s) :
    (withLock d p).may g l Q s := by
  obtain ⟨a, t, hr, hq⟩ := h
  have hb : (p >>= fun a => Prog.unlock d (.ret a)).may g l Q s :=
    may_bind ⟨a, t, hr, a, t, ⟨rfl, rfl⟩, hq⟩
  exact hb

end Prog

end GenOS.Locking
