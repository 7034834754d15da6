import Mathlib.Logic.Function.Basic
import GenOS.Lib.Machine

/-!
# Programs that take locks

A `Prog` reads and writes a shared state and takes two kinds of locks: one guard, which nests, and
leaf locks, one at a time, under which the guard must not be taken. A thread that breaks this order
traps. Any number of threads run programs in any order of their steps.

`Prog.wp` is the weakest precondition under interference: what the other threads do between two
steps is any change that keeps the invariant of the shared state, and, for a thread that has the
guard, the part of the state that only a thread with the guard changes. `no_trap` is its soundness.
-/

namespace GenOS.Locking

open Machine

/-- What a trap is about; a guard and a check have the place that they stand at. -/
inductive Trap (κ : Type) where
  | guard (site : κ)
  | lock
  | unguard
  | unlock
  | check (site : κ)
  deriving DecidableEq

/-- A program over the shared state `σ`, with the leaf locks `δ`. -/
inductive Prog (σ δ κ α : Type) where
  | ret (a : α)
  /-- A read of the state, and a write to it. -/
  | access (f : σ → σ) (k : σ → Prog σ δ κ α)
  /-- A value from outside. -/
  | input (k : Nat → Prog σ δ κ α)
  | guard (site : κ) (k : Prog σ δ κ α)
  | unguard (k : Prog σ δ κ α)
  | lock (d : δ) (k : Prog σ δ κ α)
  | tryLock (d : δ) (k : Bool → Prog σ δ κ α)
  | unlock (d : δ) (k : Prog σ δ κ α)
  /-- The guards and the leaf locks that the thread holds. -/
  | depths (k : Nat → Nat → Prog σ δ κ α)
  | trap (site : κ)

namespace Prog

variable {σ δ κ α β : Type}

/-- One program, and then what it returns is passed on. -/
def bind : Prog σ δ κ α → (α → Prog σ δ κ β) → Prog σ δ κ β
  | ret a, f => f a
  | access g k, f => access g fun s => (k s).bind f
  | input k, f => input fun v => (k v).bind f
  | guard site k, f => guard site (k.bind f)
  | unguard k, f => unguard (k.bind f)
  | lock d k, f => lock d (k.bind f)
  | tryLock d k, f => tryLock d fun b => (k b).bind f
  | unlock d k, f => unlock d (k.bind f)
  | depths k, f => depths fun g l => (k g l).bind f
  | trap site, _ => trap site

instance : Monad (Prog σ δ κ) where
  pure := ret
  bind := bind

end Prog

section

variable {σ δ κ α : Type}

/-- The guard around `p`. -/
def withGuard (site : κ) (p : Prog σ δ κ α) : Prog σ δ κ α :=
  .guard site do
    let a ← p
    .unguard (.ret a)

/-- A leaf lock around `p`. -/
def withLock (d : δ) (p : Prog σ δ κ α) : Prog σ δ κ α :=
  .lock d do
    let a ← p
    .unlock d (.ret a)

/-- A leaf lock around `p`, and `a` when the lock is taken. -/
def withTryLock (d : δ) (a : α) (p : Prog σ δ κ α) : Prog σ δ κ α :=
  .tryLock d fun
    | true => do
      let a ← p
      .unlock d (.ret a)
    | false => .ret a

/-- `n` turns of a loop over `i`. -/
def forLoop (f : Nat → Prog σ δ κ Unit) : (n i : Nat) → Prog σ δ κ Unit
  | 0, _ => pure ()
  | n + 1, i => do
    f i
    forLoop f n (i + 1)

end

namespace Prog

variable {σ δ κ α β : Type}

/-! ## The weakest precondition -/

/-- What is promised of a program: how it may trap, the invariant of the state, and the part of the
state that the guard protects. The states in which the guard is taken at a place are assumed. -/
structure Rules (σ π κ : Type) where
  excuse : Trap κ → Prop
  inv : σ → Prop
  prot : σ → π
  allow : κ → σ → Prop

/-- From `g` guards and `l` leaf locks, with `v` the protected part if `g` is not 0, the program
traps only as the rules allow, keeps the invariant and what it must not change, and returns with
`Q`. -/
def wp {π : Type} (R : Rules σ π κ) :
    Prog σ δ κ α → (v : π) → (g l : Nat) → (α → π → Nat → Nat → Prop) → Prop
  | ret a, v, g, l, Q => Q a v g l
  | access f k, v, g, l, Q => ∀ s, R.inv s → (g ≠ 0 → R.prot s = v) →
    (g = 0 → R.prot (f s) = R.prot s) ∧ R.inv (f s) ∧ wp R (k s) (R.prot (f s)) g l Q
  | input k, v, g, l, Q => ∀ n, wp R (k n) v g l Q
  | guard site k, v, g, l, Q => (l ≠ 0 → R.excuse (.guard site)) ∧
    (l = 0 → ∀ s, R.inv s → (g ≠ 0 → R.prot s = v) → R.allow site s →
      wp R k (R.prot s) (g + 1) l Q)
  | unguard k, v, g, l, Q => g ≠ 0 ∧ wp R k v (g - 1) l Q
  | lock _ k, v, g, l, Q => l = 0 ∧ wp R k v g 1 Q
  | tryLock _ k, v, g, l, Q => l = 0 ∧ wp R (k true) v g 1 Q ∧ wp R (k false) v g 0 Q
  | unlock _ k, v, g, l, Q => l ≠ 0 ∧ wp R k v g (l - 1) Q
  | depths k, v, g, l, Q => wp R (k g l) v g l Q
  | trap site, _, _, _, _ => R.excuse (.check site)

variable {π : Type} {R : Rules σ π κ} {v : π} {g l : Nat}

theorem wp_bind {p : Prog σ δ κ α} {f : α → Prog σ δ κ β} {Q : β → π → Nat → Nat → Prop} :
    (p >>= f).wp R v g l Q ↔ p.wp R v g l fun a v g l => (f a).wp R v g l Q := by
  show (p.bind f).wp R v g l Q ↔ _
  induction p generalizing v g l with
  | ret a => exact Iff.rfl
  | access h k ih => simp only [bind, wp, ih]
  | input k ih => simp only [bind, wp, ih]
  | guard site k ih => simp only [bind, wp, ih]
  | unguard k ih => simp only [bind, wp, ih]
  | lock d k ih => simp only [bind, wp, ih]
  | tryLock d k ih => simp only [bind, wp, ih]
  | unlock d k ih => simp only [bind, wp, ih]
  | depths k ih => simp only [bind, wp, ih]
  | trap site => exact Iff.rfl

theorem wp_mono {p : Prog σ δ κ α} {Q Q' : α → π → Nat → Nat → Prop} (h : p.wp R v g l Q)
    (hQ : ∀ a v g l, Q a v g l → Q' a v g l) : p.wp R v g l Q' := by
  induction p generalizing v g l with
  | ret a => exact hQ a v g l h
  | access f k ih => exact fun s hs hv => ⟨(h s hs hv).1, (h s hs hv).2.1, ih s (h s hs hv).2.2⟩
  | input k ih => exact fun n => ih n (h n)
  | guard site k ih => exact ⟨h.1, fun hl s hs hv ha => ih (h.2 hl s hs hv ha)⟩
  | unguard k ih => exact ⟨h.1, ih h.2⟩
  | lock d k ih => exact ⟨h.1, ih h.2⟩
  | tryLock d k ih => exact ⟨h.1, ih true h.2.1, ih false h.2.2⟩
  | unlock d k ih => exact ⟨h.1, ih h.2⟩
  | depths k ih => exact ih g l h
  | trap site => exact h

/-! ### Programs that leave the locks as they are -/

/-- The program ends with the locks that it begins with, and leaves what the guard protects. -/
def Keeps {π : Type} (R : Rules σ π κ) (g l : Nat) (p : Prog σ δ κ α) : Prop :=
  ∀ v, p.wp R v g l fun _ v' g' l' => (g ≠ 0 → v' = v) ∧ g' = g ∧ l' = l

theorem keeps_pure (a : α) : (pure a : Prog σ δ κ α).Keeps R g l :=
  fun _ => ⟨fun _ => rfl, rfl, rfl⟩

theorem Keeps.bind {p : Prog σ δ κ α} {f : α → Prog σ δ κ β} (h : p.Keeps R g l)
    (hf : ∀ a, (f a).Keeps R g l) : (p >>= f).Keeps R g l := by
  intro v
  rw [wp_bind]
  apply wp_mono (h v)
  rintro a v' g' l' ⟨hv, rfl, rfl⟩
  apply wp_mono (hf a v')
  rintro b v'' g'' l'' ⟨hv', rfl, rfl⟩
  exact ⟨fun hg => (hv' hg).trans (hv hg), rfl, rfl⟩

/-- With the guard, what it protects is as before. -/
theorem Keeps.wp_bind_self {p : Prog σ δ κ α} {f : α → Prog σ δ κ β}
    {Q : β → π → Nat → Nat → Prop} (h : p.Keeps R g l) (hg : g ≠ 0)
    (hf : ∀ a, (f a).wp R v g l Q) : (p >>= f).wp R v g l Q := by
  rw [Prog.wp_bind]
  apply wp_mono (h v)
  rintro a v' g' l' ⟨hv, rfl, rfl⟩
  rw [hv hg]
  exact hf a

theorem Keeps.access {f : σ → σ} {k : σ → Prog σ δ κ α}
    (h : ∀ s, R.inv s → R.prot (f s) = R.prot s ∧ R.inv (f s) ∧ (k s).Keeps R g l) :
    (Prog.access f k).Keeps R g l := by
  intro v s hs hv
  obtain ⟨hp, hi, hk⟩ := h s hs
  refine ⟨fun _ => hp, hi, wp_mono (hk _) ?_⟩
  rintro a v' g' l' ⟨hv', rfl, rfl⟩
  exact ⟨fun hg => (hv' hg).trans (hp.trans (hv hg)), rfl, rfl⟩

theorem Keeps.input {k : Nat → Prog σ δ κ α} (h : ∀ n, (k n).Keeps R g l) :
    (Prog.input k).Keeps R g l :=
  fun v n => h n v

theorem Keeps.depths {k : Nat → Nat → Prog σ δ κ α} (h : (k g l).Keeps R g l) :
    (Prog.depths k).Keeps R g l :=
  h

theorem keeps_withGuard {site : κ} {p : Prog σ δ κ α} (h : p.Keeps R (g + 1) 0) :
    (withGuard site p).Keeps R g 0 := by
  refine fun v => ⟨fun hl => absurd rfl hl, fun _ s _ hv _ => wp_bind.mpr (wp_mono (h _) ?_)⟩
  rintro a v' g' l' ⟨hv', rfl, rfl⟩
  exact ⟨Nat.succ_ne_zero g, fun hg => (hv' (Nat.succ_ne_zero g)).trans (hv hg), rfl, rfl⟩

/-- Under a leaf lock, the guard traps. -/
theorem Keeps.of_excuse {site : κ} {p : Prog σ δ κ α} (h : R.excuse (.guard site)) (hl : l ≠ 0) :
    (withGuard site p).Keeps R g l :=
  fun _ => ⟨fun _ => h, fun h0 => absurd h0 hl⟩

theorem Keeps.unlock {d : δ} {p : Prog σ δ κ α} (h : p.Keeps R g 1) (v : π) :
    (p >>= fun a => Prog.unlock d (.ret a)).wp R v g 1
      fun _ v' g' l' => (g ≠ 0 → v' = v) ∧ g' = g ∧ l' = 0 := by
  rw [wp_bind]
  apply wp_mono (h v)
  rintro a v' g' l' ⟨hv, rfl, rfl⟩
  exact ⟨Nat.one_ne_zero, hv, rfl, rfl⟩

theorem keeps_withLock {d : δ} {p : Prog σ δ κ α} (h : p.Keeps R g 1) :
    (withLock d p).Keeps R g 0 :=
  fun v => ⟨rfl, h.unlock v⟩

theorem keeps_withTryLock {d : δ} {a : α} {p : Prog σ δ κ α} (h : p.Keeps R g 1) :
    (withTryLock d a p).Keeps R g 0 :=
  fun v => ⟨rfl, h.unlock v, fun _ => rfl, rfl, rfl⟩

theorem keeps_forLoop {f : Nat → Prog σ δ κ Unit} (h : ∀ i, (f i).Keeps R g l) (n i : Nat) :
    (forLoop f n i).Keeps R g l := by
  induction n generalizing i with
  | zero => exact keeps_pure ()
  | succ n ih => exact (h i).bind fun _ => ih (i + 1)

end Prog

/-! ## Threads -/

/-- A thread: the guards and the leaf locks that it holds, and what is left of its program. -/
structure Thread (σ δ κ : Type) where
  guards : Nat
  locks : Nat
  prog : Prog σ δ κ Unit

/-- All threads, the state that they share, and who holds the locks. -/
structure World (τ σ δ κ : Type) where
  shared : σ
  guardOwner : Option τ
  lockOwner : δ → Option τ
  threads : τ → Thread σ δ κ

/-- What a thread does next: its next step, or the start of a program when it has none. -/
inductive Event (ω : Type) where
  | step
  | start (op : ω)

variable {τ σ δ κ ω : Type} [DecidableEq τ] [DecidableEq δ]

/-- The thread `t` changed. -/
def World.set (w : World τ σ δ κ) (t : τ) (x : Thread σ δ κ) : World τ σ δ κ :=
  { w with threads := Function.update w.threads t x }

/-- A step of a thread; `body` gives the program of an operation. -/
inductive Step (body : ω → Prog σ δ κ Unit) (w : World τ σ δ κ) :
    τ × Event ω → World τ σ δ κ → Prop
  | start {t : τ} {op : ω} {g l : Nat} (h : w.threads t = ⟨g, l, .ret ()⟩) :
    Step body w (t, .start op) (w.set t ⟨g, l, body op⟩)
  | access {t : τ} {g l : Nat} {f : σ → σ} {k : σ → Prog σ δ κ Unit}
    (h : w.threads t = ⟨g, l, .access f k⟩) :
    Step body w (t, .step) ({ w with shared := f w.shared }.set t ⟨g, l, k w.shared⟩)
  | input {t : τ} {g l : Nat} {k : Nat → Prog σ δ κ Unit} (v : Nat)
    (h : w.threads t = ⟨g, l, .input k⟩) : Step body w (t, .step) (w.set t ⟨g, l, k v⟩)
  | guard {t : τ} {g : Nat} {site : κ} {k : Prog σ δ κ Unit}
    (h : w.threads t = ⟨g, 0, .guard site k⟩)
    (ho : w.guardOwner = none ∨ w.guardOwner = some t) :
    Step body w (t, .step) ({ w with guardOwner := some t }.set t ⟨g + 1, 0, k⟩)
  | unguard {t : τ} {g l : Nat} {k : Prog σ δ κ Unit} (h : w.threads t = ⟨g, l, .unguard k⟩)
    (hg : g ≠ 0) :
    Step body w (t, .step)
      ({ w with guardOwner := if g = 1 then none else w.guardOwner }.set t ⟨g - 1, l, k⟩)
  | lock {t : τ} {g : Nat} {d : δ} {k : Prog σ δ κ Unit} (h : w.threads t = ⟨g, 0, .lock d k⟩)
    (ho : w.lockOwner d = none) :
    Step body w (t, .step)
      ({ w with lockOwner := Function.update w.lockOwner d (some t) }.set t ⟨g, 1, k⟩)
  | tryLock {t : τ} {g : Nat} {d : δ} {k : Bool → Prog σ δ κ Unit}
    (h : w.threads t = ⟨g, 0, .tryLock d k⟩) (ho : w.lockOwner d = none) :
    Step body w (t, .step)
      ({ w with lockOwner := Function.update w.lockOwner d (some t) }.set t ⟨g, 1, k true⟩)
  | tryFail {t : τ} {g : Nat} {d : δ} {k : Bool → Prog σ δ κ Unit}
    (h : w.threads t = ⟨g, 0, .tryLock d k⟩) (ho : w.lockOwner d ≠ none) :
    Step body w (t, .step) (w.set t ⟨g, 0, k false⟩)
  | unlock {t : τ} {g l : Nat} {d : δ} {k : Prog σ δ κ Unit}
    (h : w.threads t = ⟨g, l, .unlock d k⟩) (hl : l ≠ 0) :
    Step body w (t, .step)
      ({ w with lockOwner := Function.update w.lockOwner d none }.set t ⟨g, l - 1, k⟩)
  | depths {t : τ} {g l : Nat} {k : Nat → Nat → Prog σ δ κ Unit}
    (h : w.threads t = ⟨g, l, .depths k⟩) : Step body w (t, .step) (w.set t ⟨g, l, k g l⟩)

/-- The next step of a thread takes the guard, if it does, in a state that `allow` allows there. -/
def World.Meets (allow : κ → σ → Prop) (w : World τ σ δ κ) (e : τ × Event ω) : Prop :=
  ∀ site k, (w.threads e.1).prog = .guard site k → allow site w.shared

/-- The thread traps in its next step. -/
def Thread.Traps (x : Thread σ δ κ) (a : Trap κ) : Prop :=
  match x.prog with
  | .guard site _ => x.locks ≠ 0 ∧ a = .guard site
  | .lock _ _ | .tryLock _ _ => x.locks ≠ 0 ∧ a = .lock
  | .unguard _ => x.guards = 0 ∧ a = .unguard
  | .unlock _ _ => x.locks = 0 ∧ a = .unlock
  | .trap site => a = .check site
  | _ => False

/-- Every thread is between programs and holds nothing. -/
def World.Idle (w : World τ σ δ κ) : Prop := ∀ t, w.threads t = ⟨0, 0, .ret ()⟩

/-! ## Soundness -/

variable {π : Type} {R : Prog.Rules σ π κ} {body : ω → Prog σ δ κ Unit} {w w' : World τ σ δ κ}

/-- A program that begins and ends with no locks. -/
def Balanced (R : Prog.Rules σ π κ) (p : Prog σ δ κ Unit) : Prop :=
  ∀ v, p.wp R v 0 0 fun _ _ g l => g = 0 ∧ l = 0

omit [DecidableEq τ] [DecidableEq δ] in
theorem Prog.Keeps.balanced {p : Prog σ δ κ Unit} (h : p.Keeps R 0 0) : Balanced R p :=
  fun v => Prog.wp_mono (h v) fun _ _ _ _ hk => hk.2

/-- A thread with the protected part of the state. -/
def Thread.Safe (R : Prog.Rules σ π κ) (x : Thread σ δ κ) (v : π) : Prop :=
  x.prog.wp R v x.guards x.locks fun _ _ g l => g = 0 ∧ l = 0

/-- The invariant of the runs: the rest of each program has its weakest precondition, and a thread
with the guard owns it. -/
structure Safe (R : Prog.Rules σ π κ) (w : World τ σ δ κ) : Prop where
  shared : R.inv w.shared
  owner : ∀ t, (w.threads t).guards ≠ 0 → w.guardOwner = some t
  rest : ∀ t, ∃ v, ((w.threads t).guards ≠ 0 → R.prot w.shared = v) ∧ (w.threads t).Safe R v

omit [DecidableEq δ] in
/-- The thread `t` has changed itself, the guard's owner and the state. -/
theorem Safe.set (h : Safe R w) {t : τ} {x : Thread σ δ κ} (hs : R.inv w'.shared)
    (ht : w'.threads = w.threads) (ho : x.guards ≠ 0 → w'.guardOwner = some t)
    (hothers : ∀ u, u ≠ t → (w.threads u).guards ≠ 0 →
      w'.guardOwner = w.guardOwner ∧ R.prot w'.shared = R.prot w.shared)
    (hx : ∃ v, (x.guards ≠ 0 → R.prot w'.shared = v) ∧ x.Safe R v) : Safe R (w'.set t x) := by
  have hself : (w'.set t x).threads t = x := Function.update_self ..
  have hne : ∀ u, u ≠ t → (w'.set t x).threads u = w.threads u := by
    intro u hu
    show Function.update w'.threads t x u = w.threads u
    rw [Function.update_of_ne hu, ht]
  refine ⟨hs, fun u hg => ?_, fun u => ?_⟩
  · by_cases hu : u = t
    · subst hu
      rw [hself] at hg
      exact ho hg
    · rw [hne u hu] at hg
      exact (hothers u hu hg).1.trans (h.owner u hg)
  · by_cases hu : u = t
    · subst hu
      rw [hself]
      exact hx
    · rw [hne u hu]
      obtain ⟨v, hv, hr⟩ := h.rest u
      exact ⟨v, fun hg => (hothers u hu hg).2.trans (hv hg), hr⟩

/-- One step. -/
theorem Safe.step {e : Event ω} {t : τ} (h : Safe R w)
    (hop : ∀ op, Balanced R (body op))
    (hs : Restrict (Step body) (World.Meets R.allow) w (t, e) w') :
    Safe R w' := by
  obtain ⟨hs, hmeets⟩ := hs
  obtain ⟨v, hv, hr⟩ := h.rest t
  have ho := h.owner t
  have hsame : ∀ u, u ≠ t → (w.threads u).guards ≠ 0 →
      w.guardOwner = w.guardOwner ∧ R.prot w.shared = R.prot w.shared := fun _ _ _ => ⟨rfl, rfl⟩
  -- with the guard, no other thread has it
  have halone : w.guardOwner = some t → ∀ u, u ≠ t → (w.threads u).guards = 0 := fun hown u hu =>
    Decidable.by_contra fun hg => hu (Option.some.inj ((h.owner u hg).symm.trans hown))
  unfold Thread.Safe at hr
  cases hs with
  | start hp =>
    rw [hp] at hr ho
    obtain ⟨rfl, rfl⟩ := hr
    exact h.set h.shared rfl ho hsame ⟨v, fun hg => absurd rfl hg, hop _ v⟩
  | access hp =>
    rw [hp] at hr hv ho
    obtain ⟨h1, h2, h3⟩ := hr _ h.shared hv
    refine h.set h2 rfl ho (fun u hu hg => ⟨rfl, h1 (Decidable.by_contra fun hn => ?_)⟩)
      ⟨_, fun _ => rfl, h3⟩
    exact hg (halone (ho hn) u hu)
  | input n hp =>
    rw [hp] at hr hv ho
    exact h.set h.shared rfl ho hsame ⟨v, hv, hr n⟩
  | guard hp hown =>
    rw [hp] at hr hv
    refine h.set h.shared rfl (fun _ => rfl) (fun u hu hg => ?_)
      ⟨R.prot w.shared, fun _ => rfl, hr.2 rfl _ h.shared hv (hmeets _ _ (by rw [hp]))⟩
    rcases hown with hown | hown
    · exact absurd (hown.symm.trans (h.owner u hg)) nofun
    · exact absurd (halone hown u hu) hg
  | unguard hp hg =>
    rw [hp] at hr hv ho
    refine h.set h.shared rfl (fun hn => ?_) (fun u hu hgu => ?_) ⟨v, fun _ => hv hg, hr.2⟩
    · show (if _ = 1 then none else w.guardOwner) = _
      rw [if_neg fun h1 => hn (by simp [h1])]
      exact ho hg
    · exact absurd (halone (ho hg) u hu) hgu
  | lock hp _ =>
    rw [hp] at hr hv ho
    exact h.set h.shared rfl ho hsame ⟨v, hv, hr.2⟩
  | tryLock hp _ =>
    rw [hp] at hr hv ho
    exact h.set h.shared rfl ho hsame ⟨v, hv, hr.2.1⟩
  | tryFail hp _ =>
    rw [hp] at hr hv ho
    exact h.set h.shared rfl ho hsame ⟨v, hv, hr.2.2⟩
  | unlock hp _ =>
    rw [hp] at hr hv ho
    exact h.set h.shared rfl ho hsame ⟨v, hv, hr.2⟩
  | depths hp =>
    rw [hp] at hr hv ho
    exact h.set h.shared rfl ho hsame ⟨v, hv, hr⟩

omit [DecidableEq τ] [DecidableEq δ] in
theorem Thread.Safe.traps {x : Thread σ δ κ} {v : π} (hr : x.Safe R v) {a : Trap κ}
    (ha : x.Traps a) : R.excuse a := by
  unfold Thread.Safe at hr
  unfold Thread.Traps at ha
  cases hp : x.prog with
  | guard site k =>
    rw [hp] at ha hr
    exact ha.2 ▸ hr.1 ha.1
  | lock d k =>
    rw [hp] at ha hr
    exact absurd hr.1 ha.1
  | tryLock d k =>
    rw [hp] at ha hr
    exact absurd hr.1 ha.1
  | unguard k =>
    rw [hp] at ha hr
    exact absurd ha.1 hr.1
  | unlock d k =>
    rw [hp] at ha hr
    exact absurd ha.1 hr.1
  | trap site =>
    rw [hp] at ha hr
    dsimp only at ha
    subst ha
    exact hr
  | _ =>
    rw [hp] at ha
    exact ha.elim

/-- In every run from idle threads, of programs that have their weakest precondition, with steps as
the rules allow, a thread traps only as they excuse. -/
theorem no_trap {r : List (τ × Event ω)} (h₀ : w.Idle) (hI : R.inv w.shared)
    (hr : Run (Restrict (Step body) (World.Meets R.allow)) w r w')
    (hop : ∀ op, Balanced R (body op)) :
    R.inv w'.shared ∧ ∀ t a, (w'.threads t).Traps a → R.excuse a := by
  have hsafe : Safe R w' := by
    induction hr with
    | nil =>
      refine ⟨hI, fun t hg => ?_, fun t => ⟨R.prot w.shared, fun _ => rfl, ?_⟩⟩
      · rw [h₀ t] at hg
        exact absurd rfl hg
      · rw [h₀ t]
        exact ⟨rfl, rfl⟩
    | snoc _ hs ih => exact ih.step hop hs
  refine ⟨hsafe.shared, fun t a ha => ?_⟩
  obtain ⟨v, _, hr⟩ := hsafe.rest t
  exact hr.traps ha

end GenOS.Locking
