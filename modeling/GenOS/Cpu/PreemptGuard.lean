import GenOS.Cpu.Preempt

/-!
# The mutation guard excludes

The invariant says, for each CPU, what its count and the lock word are by where its task and its
handler stand. A handler that has the guard has suspended a task that is out of the guard functions
and holds nothing, and a task that runs nowhere is one of those. So each step of a CPU keeps its own
part, and the part of another CPU reads only whether that one owns the lock.
-/

namespace GenOS.Preempt

open Machine

variable {ι τ : Type*} {c c' : Cpu τ} {x x' : Context} {mine : Prop} {lock lock' : Bool}

/-- Out of the guard functions, with no guard. -/
def Context.Quiet (x : Context) : Prop := x.pc = .out ∧ x.held = 0

/-- From the return of the outermost `preempt_disable` to the store that releases the lock. -/
def Context.Holding (x : Context) : Prop := 0 < x.held ∨ ∃ flags, x.pc = .enable flags .unlock

/-- The same for `preempt_try_disable` in a handler. -/
def Handler.Holding : Handler → Prop
  | .trySet | .body | .enable .check | .enable .read | .enable (.write _) | .enable .unlock => True
  | _ => False

/-- The increments of `preempt_count` that the task has made and not taken back. -/
def Context.raised (x : Context) : Nat :=
  match x.pc with
  | .disableRestore _ _ | .trylock | .poll | .polling _ => x.held + 1
  | _ => x.held

/-! ## The invariant of a CPU -/

/-- What the registers of a guard function have. -/
def Pc.Agrees (count held : Nat) : Pc → Prop
  | .disableWrite _ previous => previous = count
  | .disableRestore _ previous => previous = held % 4294967296
  | .trylock | .poll | .polling _ => held % 4294967296 = 0
  | .enable _ .check => 0 < held
  | .enable _ .read => 0 < held ∧ count ≠ 0
  | .enable _ (.write v) => 0 < held ∧ count ≠ 0 ∧ v = count - 1
  | .enable _ .unlock => held = 0
  | _ => True

/-- A task on a CPU that owns the lock or not. A count that has wrapped leaves the task in
`preempt_disable` for ever, so `held` stays below the next turn. -/
structure TaskInv (mine : Prop) (count : Nat) (x : Context) : Prop where
  bound : x.held ≤ 4294967296
  counted : count = x.raised % 4294967296
  holds : mine ↔ x.Holding
  agrees : x.pc.Agrees count x.held
  masked : x.interrupts = true → x.pc = .out ∨ x.pc = .trylock ∨ x.pc = .poll

/-- A CPU in a handler, with the task that it has suspended. -/
def HandlerInv (mine : Prop) (count : Nat) (x : Context) : Handler → Prop
  | .tryCount => TaskInv mine count x ∧ x.interrupts = true
  | .tryLocal | .trylock => TaskInv mine count x ∧ x.interrupts = true ∧ count = 0
  | .trySet => x.Quiet ∧ mine ∧ count = 0
  | .body | .enable .check | .enable .read => x.Quiet ∧ mine ∧ count = 1
  | .enable (.write v) => x.Quiet ∧ mine ∧ v = 0
  | .enable .unlock => x.Quiet ∧ mine ∧ count = 0
  | .enable .restore => x.Quiet ∧ ¬ mine ∧ count = 0
  | .iret => TaskInv mine count x
  | .trap => False

/-- A CPU. -/
def CpuInv (mine : Prop) (c : Cpu τ) (x : Context) : Prop :=
  match c.handler with
  | none => TaskInv mine c.preemptCount x
  | some p => HandlerInv mine c.preemptCount x p

/-- The CPU that owns the lock after a step of it that changes the word. -/
def Owns (mine : Prop) (lock lock' : Bool) : Prop := if lock' = lock then mine else lock' = true

@[simp] theorem owns_self : Owns mine lock lock = mine := if_pos rfl

/-- A task that waits for the guard has no increment but its own. -/
theorem TaskInv.quiet {count : Nat} (h : TaskInv mine count x) (hi : x.interrupts = true)
    (h0 : count = 0) (hm : ¬ mine) : x.Quiet := by
  have hheld : x.held = 0 := Nat.eq_zero_of_not_pos fun hp => hm (h.holds.mpr (.inl hp))
  rcases h.masked hi with hpc | hpc | hpc
  · exact ⟨hpc, hheld⟩
  all_goals
    have hc := h.counted
    rw [h0, Context.raised, hpc, hheld] at hc
    exact absurd hc (by decide)

theorem Context.Quiet.taskInv (h : x.Quiet) (hm : ¬ mine) : TaskInv mine 0 x := by
  obtain ⟨hpc, hheld⟩ := h
  refine ⟨?_, ?_, ?_, ?_, fun _ => .inl hpc⟩
  · rw [hheld]
    exact Nat.zero_le _
  · simp [Context.raised, hpc, hheld]
  · simp [Context.Holding, hpc, hheld, hm]
  · rw [hpc]
    trivial

/-! ## Steps of one CPU -/

/-- A call. -/
theorem TaskInv.call {k : Call} (h : TaskInv mine c.preemptCount x) (ho : x.pc = .out)
    (hs : callStep c x k = some (c', x')) : c'.current = c.current ∧ c'.handler = c.handler ∧
      TaskInv mine c'.preemptCount x' := by
  obtain ⟨pc, interrupts, held⟩ := x
  obtain rfl : pc = .out := ho
  obtain ⟨hb, hc, hm, _, _⟩ := h
  have hsame : ∀ pc' i', Context.raised ⟨pc', i', held⟩ = held →
      (∀ flags, pc' ≠ .enable flags .unlock) → pc'.Agrees c.preemptCount held →
      (i' = true → pc' = .out) → TaskInv mine c.preemptCount ⟨pc', i', held⟩ := by
    intro pc' i' hr hu ha hi
    refine ⟨hb, hc.trans (by rw [hr]; rfl), hm.trans ?_, ha, fun h => .inl (hi h)⟩
    simp [Context.Holding, hu]
  unfold callStep at hs
  cases k with
  | disable =>
    obtain ⟨rfl, rfl⟩ := Prod.mk.inj (Option.some.inj hs)
    exact ⟨rfl, rfl, hsame _ _ rfl nofun trivial nofun⟩
  | enable =>
    dsimp only at hs
    split at hs
    · exact absurd hs nofun
    · next h0 =>
      obtain ⟨rfl, rfl⟩ := Prod.mk.inj (Option.some.inj hs)
      exact ⟨rfl, rfl, hsame _ _ rfl nofun (Nat.pos_of_ne_zero h0) nofun⟩
  | localDisable =>
    dsimp only at hs
    split at hs
    · obtain ⟨rfl, rfl⟩ := Prod.mk.inj (Option.some.inj hs)
      exact ⟨rfl, rfl, hsame _ _ rfl nofun trivial nofun⟩
    · obtain ⟨rfl, rfl⟩ := Prod.mk.inj (Option.some.inj hs)
      exact ⟨rfl, rfl, hsame _ _ rfl nofun trivial fun _ => rfl⟩
  | localEnable =>
    dsimp only at hs
    split at hs
    · obtain ⟨rfl, rfl⟩ := Prod.mk.inj (Option.some.inj hs)
      exact ⟨rfl, rfl, hsame _ _ rfl nofun trivial nofun⟩
    · obtain ⟨rfl, rfl⟩ := Prod.mk.inj (Option.some.inj hs)
      exact ⟨rfl, rfl, hsame _ _ rfl nofun trivial fun _ => rfl⟩
  | sti =>
    obtain ⟨rfl, rfl⟩ := Prod.mk.inj (Option.some.inj hs)
    exact ⟨rfl, rfl, hsame _ _ rfl nofun trivial fun _ => rfl⟩
  | cli =>
    obtain ⟨rfl, rfl⟩ := Prod.mk.inj (Option.some.inj hs)
    exact ⟨rfl, rfl, hsame _ _ rfl nofun trivial nofun⟩

/-- What a step of a task in a guard function keeps. -/
structure Stepped (mine : Prop) (lock lock' : Bool) (c c' : Cpu τ) (x : Context) : Prop where
  current : c'.current = c.current
  handler : c'.handler = c.handler
  lost : lock = true → lock' = false → mine
  inv : TaskInv (Owns mine lock lock') c'.preemptCount x

/-- A step that leaves the lock word alone. -/
theorem Stepped.of_lock (hc : c'.current = c.current) (hh : c'.handler = c.handler)
    (h : TaskInv mine c'.preemptCount x) : Stepped mine lock lock c c' x :=
  ⟨hc, hh, fun h1 h2 => absurd (h1.symm.trans h2) nofun, by rwa [owns_self]⟩

section Task

variable {flags interrupts : Bool} {held : Nat}

theorem TaskInv.disableLocal
    (h : TaskInv mine c.preemptCount ⟨.disableLocal flags, interrupts, held⟩)
    (hs : taskStep lock c ⟨.disableLocal flags, interrupts, held⟩ = some (lock', c', x')) :
    Stepped mine lock lock' c c' x' := by
  obtain ⟨hb, hc, hm, -, hi⟩ := h
  obtain ⟨rfl, rfl, rfl⟩ : lock = lock' ∧ c = c' ∧ _ = x' := by simpa [taskStep] using hs
  refine .of_lock rfl rfl ?_
  split
  · exact ⟨hb, hc, by simpa [Context.Holding] using hm, trivial, fun h => absurd (hi h) nofun⟩
  · exact ⟨hb, hc, by simpa [Context.Holding] using hm, trivial, fun h => absurd (hi h) nofun⟩

theorem TaskInv.disableRead (h : TaskInv mine c.preemptCount ⟨.disableRead flags, interrupts, held⟩)
    (hs : taskStep lock c ⟨.disableRead flags, interrupts, held⟩ = some (lock', c', x')) :
    Stepped mine lock lock' c c' x' := by
  obtain ⟨hb, hc, hm, -, hi⟩ := h
  obtain ⟨rfl, rfl, rfl⟩ : lock = lock' ∧ c = c' ∧ _ = x' := by simpa [taskStep] using hs
  exact .of_lock rfl rfl
    ⟨hb, hc, by simpa [Context.Holding] using hm, rfl, fun h => absurd (hi h) nofun⟩

/-- The count that was read is still the task's. -/
theorem TaskInv.disableWrite {previous : Nat}
    (h : TaskInv mine c.preemptCount ⟨.disableWrite flags previous, interrupts, held⟩)
    (hs : taskStep lock c ⟨.disableWrite flags previous, interrupts, held⟩ = some (lock', c', x')) :
    Stepped mine lock lock' c c' x' := by
  obtain ⟨hb, hc, hm, ha, hi⟩ := h
  obtain ⟨rfl, rfl, rfl⟩ : lock = lock' ∧ _ = c' ∧ _ = x' := by simpa [taskStep] using hs
  have hp : previous = held % 4294967296 := ha.trans hc
  refine .of_lock rfl rfl
    ⟨hb, ?_, by simpa [Context.Holding] using hm, hp, fun h => absurd (hi h) nofun⟩
  show (previous + 1) % 4294967296 = (held + 1) % 4294967296
  omega

/-- A task that has the guard is done; another goes for the lock. -/
theorem TaskInv.disableRestore {previous : Nat}
    (h : TaskInv mine c.preemptCount ⟨.disableRestore flags previous, interrupts, held⟩)
    (hs : taskStep lock c ⟨.disableRestore flags previous, interrupts, held⟩ =
      some (lock', c', x')) : Stepped mine lock lock' c c' x' := by
  obtain ⟨hb, hc, hm, ha, -⟩ := h
  have hp : previous = held % 4294967296 := ha
  have hb : held ≤ 4294967296 := hb
  rw [taskStep] at hs
  dsimp only at hs
  split at hs
  · next h0 =>
    obtain ⟨rfl, rfl, rfl⟩ : lock = lock' ∧ c = c' ∧ _ = x' := by simpa using hs
    exact .of_lock rfl rfl ⟨hb, hc, by simpa [Context.Holding] using hm, hp.symm.trans h0,
      fun _ => .inr (.inl rfl)⟩
  · next h0 =>
    -- the CPU has the lock already
    obtain ⟨rfl, rfl, rfl⟩ : lock = lock' ∧ c = c' ∧ _ = x' := by simpa using hs
    have hpos : 0 < held := by omega
    refine .of_lock rfl rfl ⟨?_, hc, ?_, trivial, fun _ => .inl rfl⟩
    · show held + 1 ≤ 4294967296
      omega
    · exact ⟨fun _ => .inl (Nat.succ_pos held), fun _ => hm.mpr (.inl hpos)⟩

/-- The exchange: the task takes the lock that no CPU has, or goes on waiting. -/
theorem TaskInv.trylock (h : TaskInv mine c.preemptCount ⟨.trylock, interrupts, held⟩)
    (hl : mine → lock = true)
    (hs : taskStep lock c ⟨.trylock, interrupts, held⟩ = some (lock', c', x')) :
    Stepped mine lock lock' c c' x' := by
  obtain ⟨hb, hc, hm, h0, -⟩ := h
  rw [taskStep] at hs
  cases lock with
  | true =>
    obtain ⟨rfl, rfl, rfl⟩ : true = lock' ∧ c = c' ∧ _ = x' := by simpa using hs
    exact .of_lock rfl rfl
      ⟨hb, hc, by simpa [Context.Holding] using hm, h0, fun _ => .inr (.inr rfl)⟩
  | false =>
    obtain ⟨rfl, rfl, rfl⟩ : true = lock' ∧ c = c' ∧ _ = x' := by simpa using hs
    have hn : ¬ mine := fun h => absurd (hl h) nofun
    obtain rfl : held = 0 := Nat.eq_zero_of_not_pos fun hp => hn (hm.mpr (.inl hp))
    exact ⟨rfl, rfl, nofun, Nat.one_le_of_lt (by decide : 0 < 4294967296), hc,
      by simp [Owns, Context.Holding], trivial, fun _ => .inl rfl⟩

theorem TaskInv.poll (h : TaskInv mine c.preemptCount ⟨.poll, interrupts, held⟩)
    (hs : taskStep lock c ⟨.poll, interrupts, held⟩ = some (lock', c', x')) :
    Stepped mine lock lock' c c' x' := by
  obtain ⟨hb, hc, hm, ha, -⟩ := h
  obtain ⟨rfl, rfl, rfl⟩ : lock = lock' ∧ c = c' ∧ _ = x' := by simpa [taskStep] using hs
  exact .of_lock rfl rfl ⟨hb, hc, by simpa [Context.Holding] using hm, ha, nofun⟩

theorem TaskInv.polling (h : TaskInv mine c.preemptCount ⟨.polling flags, interrupts, held⟩)
    (hs : taskStep lock c ⟨.polling flags, interrupts, held⟩ = some (lock', c', x')) :
    Stepped mine lock lock' c c' x' := by
  obtain ⟨hb, hc, hm, ha, -⟩ := h
  obtain ⟨rfl, rfl, rfl⟩ : lock = lock' ∧ c = c' ∧ _ = x' := by simpa [taskStep] using hs
  exact .of_lock rfl rfl
    ⟨hb, hc, by simpa [Context.Holding] using hm, ha, fun _ => .inr (.inl rfl)⟩

theorem TaskInv.enableCheck
    (h : TaskInv mine c.preemptCount ⟨.enable flags .check, interrupts, held⟩)
    (hs : taskStep lock c ⟨.enable flags .check, interrupts, held⟩ = some (lock', c', x')) :
    Stepped mine lock lock' c c' x' := by
  obtain ⟨hb, hc, hm, ha, hi⟩ := h
  simp only [Context.Holding] at hm
  obtain ⟨rfl, rfl, rfl⟩ : lock = lock' ∧ c = c' ∧ _ = x' := by
    simpa [taskStep, Enable.next] using hs
  refine .of_lock rfl rfl ?_
  by_cases h0 : c.preemptCount = 0
  · simp only [h0, if_pos]
    exact ⟨hb, h0 ▸ hc, by simpa [Context.Holding] using hm, trivial, fun h => absurd (hi h) nofun⟩
  · simp only [h0, if_neg, not_false_eq_true]
    exact ⟨hb, hc, by simpa [Context.Holding] using hm, ⟨ha, h0⟩, fun h => absurd (hi h) nofun⟩

theorem TaskInv.enableRead
    (h : TaskInv mine c.preemptCount ⟨.enable flags .read, interrupts, held⟩)
    (hs : taskStep lock c ⟨.enable flags .read, interrupts, held⟩ = some (lock', c', x')) :
    Stepped mine lock lock' c c' x' := by
  obtain ⟨hb, hc, hm, ⟨hpos, h0⟩, hi⟩ := h
  simp only [Context.Holding] at hm
  obtain ⟨rfl, rfl, rfl⟩ : lock = lock' ∧ c = c' ∧ _ = x' := by
    simpa [taskStep, Enable.next] using hs
  have hlt : c.preemptCount < 4294967296 := hc ▸ Nat.mod_lt _ (by decide)
  refine .of_lock rfl rfl ⟨hb, hc, by simpa [Context.Holding] using hm, ⟨hpos, h0, ?_⟩,
    fun h => absurd (hi h) nofun⟩
  omega

/-- The count goes down: the task lets the lock go with its last guard. -/
theorem TaskInv.enableWrite {v : Nat}
    (h : TaskInv mine c.preemptCount ⟨.enable flags (.write v), interrupts, held⟩)
    (hs : taskStep lock c ⟨.enable flags (.write v), interrupts, held⟩ = some (lock', c', x')) :
    Stepped mine lock lock' c c' x' := by
  obtain ⟨hb, hc, hm, ⟨hpos, h0, hv⟩, hi⟩ := h
  obtain ⟨rfl, rfl, rfl⟩ : lock = lock' ∧ _ = c' ∧ _ = x' := by
    simpa [taskStep, Enable.next] using hs
  have hb : held ≤ 4294967296 := hb
  have hpos : 0 < held := hpos
  have hown : mine := hm.mpr (.inl hpos)
  have hcount : c.preemptCount = held % 4294967296 := hc
  have hheld : v = held - 1 := by omega
  refine .of_lock rfl rfl ?_
  by_cases hz : v = 0
  · simp only [hz, if_pos]
    refine ⟨by dsimp only; omega, ?_, ⟨fun _ => .inr ⟨flags, rfl⟩, fun _ => hown⟩, ?_,
      fun h => absurd (hi h) nofun⟩
    · show 0 = (held - 1) % 4294967296
      omega
    · show held - 1 = 0
      omega
  · simp only [hz, if_neg, not_false_eq_true]
    refine ⟨by dsimp only; omega, ?_, ⟨fun _ => .inl ?_, fun _ => hown⟩, trivial,
      fun h => absurd (hi h) nofun⟩
    · show v = (held - 1) % 4294967296
      omega
    · show 0 < held - 1
      omega

theorem TaskInv.enableUnlock
    (h : TaskInv mine c.preemptCount ⟨.enable flags .unlock, interrupts, held⟩)
    (hl : mine → lock = true)
    (hs : taskStep lock c ⟨.enable flags .unlock, interrupts, held⟩ = some (lock', c', x')) :
    Stepped mine lock lock' c c' x' := by
  obtain ⟨hb, hc, hm, ha, hi⟩ := h
  obtain ⟨rfl, rfl, rfl⟩ : false = lock' ∧ c = c' ∧ _ = x' := by
    simpa [taskStep, Enable.next] using hs
  have hown : mine := hm.mpr (.inr ⟨flags, rfl⟩)
  obtain rfl : held = 0 := ha
  refine ⟨rfl, rfl, fun _ _ => hown, ?_⟩
  rw [hl hown]
  exact ⟨hb, hc, by simp [Owns, Context.Holding], trivial, fun h => absurd (hi h) nofun⟩

theorem TaskInv.enableRestore
    (h : TaskInv mine c.preemptCount ⟨.enable flags .restore, interrupts, held⟩)
    (hs : taskStep lock c ⟨.enable flags .restore, interrupts, held⟩ = some (lock', c', x')) :
    Stepped mine lock lock' c c' x' := by
  obtain ⟨hb, hc, hm, -, -⟩ := h
  obtain ⟨rfl, rfl, rfl⟩ : lock = lock' ∧ c = c' ∧ _ = x' := by simpa [taskStep] using hs
  exact .of_lock rfl rfl ⟨hb, hc, by simpa [Context.Holding] using hm, trivial, fun _ => .inl rfl⟩

end Task

/-- A step of a guard function. -/
theorem TaskInv.step (h : TaskInv mine c.preemptCount x) (hl : mine → lock = true)
    (hs : taskStep lock c x = some (lock', c', x')) : Stepped mine lock lock' c c' x' := by
  obtain ⟨pc, interrupts, held⟩ := x
  cases pc with
  | out => exact absurd hs nofun
  | trap => exact absurd hs nofun
  | disableLocal flags => exact h.disableLocal hs
  | disableRead flags => exact h.disableRead hs
  | disableWrite flags previous => exact h.disableWrite hs
  | disableRestore flags previous => exact h.disableRestore hs
  | trylock => exact h.trylock hl hs
  | poll => exact h.poll hs
  | polling flags => exact h.polling hs
  | enable flags e =>
    cases e with
    | check => exact h.enableCheck hs
    | read => exact h.enableRead hs
    | write v => exact h.enableWrite hs
    | unlock => exact h.enableUnlock hl hs
    | restore => exact h.enableRestore hs

/-- A step of a handler. -/
theorem HandlerInv.step {p : Handler} (h : HandlerInv mine c.preemptCount x p)
    (hl : mine → lock = true) (hs : handlerStep lock c p = some (lock', c')) :
    c'.current = c.current ∧ (lock = true → lock' = false → mine) ∧
      CpuInv (Owns mine lock lock') c' x := by
  cases p with
  | body => exact absurd hs nofun
  | trap => exact absurd hs nofun
  | tryCount =>
    obtain ⟨rfl, rfl⟩ := Prod.mk.inj (Option.some.inj hs)
    refine ⟨rfl, fun h1 h2 => absurd (h1.symm.trans h2) nofun, ?_⟩
    rw [owns_self]
    by_cases h0 : c.preemptCount = 0
    · simp only [CpuInv, h0, ne_eq, not_true_eq_false, if_false]
      exact ⟨h0 ▸ h.1, h.2, rfl⟩
    · simp only [CpuInv, h0, ne_eq, not_false_eq_true, if_true]
      exact h.1
  | tryLocal =>
    obtain ⟨rfl, rfl⟩ := Prod.mk.inj (Option.some.inj hs)
    refine ⟨rfl, fun h1 h2 => absurd (h1.symm.trans h2) nofun, ?_⟩
    rw [owns_self]
    by_cases h0 : c.localPreemptCount = 0
    · simp only [CpuInv, h0, ne_eq, not_true_eq_false, if_false]
      exact h
    · simp only [CpuInv, h0, ne_eq, not_false_eq_true, if_true]
      exact h.1
  | trylock =>
    obtain ⟨rfl, rfl⟩ := Prod.mk.inj (Option.some.inj hs)
    refine ⟨rfl, fun _ h2 => absurd h2 nofun, ?_⟩
    obtain ⟨ht, hi, h0⟩ := h
    cases lock with
    | true =>
      rw [owns_self]
      exact ht
    | false =>
      -- nobody has the lock, so the suspended task does not hold or want it
      have hn : ¬ mine := fun h => absurd (hl h) nofun
      exact ⟨ht.quiet hi h0 hn, by simp [Owns], h0⟩
  | trySet =>
    obtain ⟨rfl, rfl⟩ := Prod.mk.inj (Option.some.inj hs)
    refine ⟨rfl, fun h1 h2 => absurd (h1.symm.trans h2) nofun, ?_⟩
    rw [owns_self]
    exact ⟨h.1, h.2.1, rfl⟩
  | enable e =>
    cases e with
    | check =>
      obtain ⟨rfl, rfl⟩ := Prod.mk.inj (Option.some.inj hs)
      refine ⟨rfl, fun h1 h2 => absurd (h1.symm.trans h2) nofun, ?_⟩
      obtain ⟨_, _, h1⟩ := id h
      simp only [owns_self, CpuInv, h1, Nat.one_ne_zero, if_false]
      exact ⟨h.1, h.2.1, rfl⟩
    | read =>
      obtain ⟨rfl, rfl⟩ := Prod.mk.inj (Option.some.inj hs)
      refine ⟨rfl, fun h1 h2 => absurd (h1.symm.trans h2) nofun, ?_⟩
      obtain ⟨_, _, h1⟩ := id h
      rw [owns_self]
      exact ⟨h.1, h.2.1, by rw [h1]⟩
    | write v =>
      obtain ⟨rfl, rfl⟩ := Prod.mk.inj (Option.some.inj hs)
      refine ⟨rfl, fun h1 h2 => absurd (h1.symm.trans h2) nofun, ?_⟩
      obtain ⟨_, _, rfl⟩ := id h
      rw [owns_self]
      exact ⟨h.1, h.2.1, rfl⟩
    | unlock =>
      obtain ⟨rfl, rfl⟩ := Prod.mk.inj (Option.some.inj hs)
      obtain ⟨hq, hm, h0⟩ := h
      refine ⟨rfl, fun _ _ => hm, ?_⟩
      rw [hl hm]
      exact ⟨hq, by simp [Owns], h0⟩
    | restore =>
      obtain ⟨rfl, rfl⟩ := Prod.mk.inj (Option.some.inj hs)
      refine ⟨rfl, fun h1 h2 => absurd (h1.symm.trans h2) nofun, ?_⟩
      obtain ⟨hq, hm, h0⟩ := h
      rw [owns_self]
      show TaskInv mine c.preemptCount x
      rw [h0]
      exact hq.taskInv hm
  | iret =>
    obtain ⟨rfl, rfl⟩ := Prod.mk.inj (Option.some.inj hs)
    refine ⟨rfl, fun h1 h2 => absurd (h1.symm.trans h2) nofun, ?_⟩
    rw [owns_self]
    exact h

/-! ## All CPUs -/

variable {s s' : Guard ι τ} {i : ι} [DecidableEq ι] [DecidableEq τ]

/-- The invariant. -/
structure Inv (s : Guard ι τ) : Prop where
  word : s.mutationLock = s.owner.isSome
  apart : ∀ i j, (s.cpu i).current = (s.cpu j).current → i = j
  parked : ∀ t, (∀ i, (s.cpu i).current ≠ t) → (s.ctx t).Quiet
  cpus : ∀ i, CpuInv (s.owner = some i) (s.cpu i) (s.running i)

omit [DecidableEq ι] [DecidableEq τ] in
theorem Inv.locked (h : Inv s) (ho : s.owner = some i) : s.mutationLock = true := by
  rw [h.word, ho]
  rfl

/-- A step of CPU `i` on itself, its task and the lock word. -/
theorem Inv.put (h : Inv s) (hc : c.current = (s.cpu i).current)
    (hrel : s.mutationLock = true → lock = false → s.owner = some i)
    (hi : CpuInv (Owns (s.owner = some i) s.mutationLock lock) c x) : Inv (s.put i lock c x) := by
  have hcur : ∀ j, (Function.update s.cpu i c j).current = (s.cpu j).current := by
    intro j
    by_cases hj : j = i
    · rw [hj, Function.update_self, hc]
    · rw [Function.update_of_ne hj]
  have hword := h.word
  constructor
  · show lock = (if lock = s.mutationLock then s.owner else if lock then some i else none).isSome
    split
    · next he => rw [he, hword]
    · cases lock <;> rfl
  · intro j k hjk
    exact h.apart j k ((hcur j).symm.trans (hjk.trans (hcur k)))
  · intro t ht
    have ht := fun j => fun he => ht j ((hcur j).trans he)
    show (Function.update s.ctx _ x t).Quiet
    rw [Function.update_of_ne fun he => ht i he.symm]
    exact h.parked t ht
  · intro j
    show CpuInv
      ((if lock = s.mutationLock then s.owner else if lock then some i else none) = some j)
      (Function.update s.cpu i c j) (Function.update s.ctx (s.cpu i).current x
        (Function.update s.cpu i c j).current)
    rw [hcur j]
    by_cases hj : j = i
    · rw [hj, Function.update_self, Function.update_self]
      refine Eq.mp (congrArg (CpuInv · c x) (propext ?_)) hi
      unfold Owns
      split
      · exact Iff.rfl
      · cases lock <;> simp
    · rw [Function.update_of_ne hj, Function.update_of_ne fun he => hj (h.apart j i he)]
      refine Eq.mp (congrArg (CpuInv · _ _) (propext ?_)) (h.cpus j)
      split
      · exact Iff.rfl
      · next hne =>
        cases lock with
        | true =>
          -- the word was 0, so nobody owned the lock
          have hnone : s.owner = none := by
            cases ho : s.owner with
            | none => rfl
            | some k => exact absurd (h.locked ho).symm hne
          simp [hnone, Ne.symm hj]
        | false =>
          have hown := hrel (by simpa using Ne.symm hne) rfl
          simp [hown, Ne.symm hj]

/-- One step. -/
theorem Inv.step {l : ι × Act τ} (h : Inv s) (hs : Step s l s') : Inv s' := by
  cases hs with
  | call hh ho hs =>
    rename_i i k c x
    have hi := h.cpus i
    rw [CpuInv, hh] at hi
    obtain ⟨hc, hh', ht⟩ := hi.call ho hs
    refine h.put hc (fun h1 h2 => absurd (h1.symm.trans h2) nofun) ?_
    rw [owns_self, CpuInv, hh', hh]
    exact ht
  | task hh hs =>
    rename_i i lock c x
    have hi := h.cpus i
    rw [CpuInv, hh] at hi
    obtain ⟨hc, hh', hrel, ht⟩ := hi.step h.locked hs
    refine h.put hc hrel ?_
    rw [CpuInv, hh', hh]
    exact ht
  | timer hh hint =>
    rename_i i
    have hi := h.cpus i
    rw [CpuInv, hh] at hi
    refine h.put rfl (fun h1 h2 => absurd (h1.symm.trans h2) nofun) ?_
    rw [owns_self]
    exact ⟨hi, hint⟩
  | irq hh hint =>
    rename_i i
    have hi := h.cpus i
    rw [CpuInv, hh] at hi
    refine h.put rfl (fun h1 h2 => absurd (h1.symm.trans h2) nofun) ?_
    rw [owns_self]
    exact hi
  | handler hh hs =>
    rename_i i p lock c
    have hi := h.cpus i
    rw [CpuInv, hh] at hi
    obtain ⟨hc, hrel, hcpu⟩ := hi.step h.locked hs
    exact h.put hc hrel hcpu
  | stay hh =>
    rename_i i
    have hi := h.cpus i
    rw [CpuInv, hh] at hi
    refine h.put rfl (fun h1 h2 => absurd (h1.symm.trans h2) nofun) ?_
    rw [owns_self]
    exact hi
  | switch hh ht =>
    rename_i i t
    have hi := h.cpus i
    rw [CpuInv, hh] at hi
    obtain ⟨hq, hm, h1⟩ := hi
    -- the task that is picked holds nothing: it is the suspended one, or runs nowhere
    have hpick : (s.ctx t).Quiet := by
      by_cases hcur : (s.cpu i).current = t
      · exact hcur ▸ hq
      · refine h.parked t fun j he => ?_
        by_cases hj : j = i
        · exact hcur (hj ▸ he)
        · exact ht j hj he
    refine ⟨h.word, fun j k hjk => ?_, fun u hu => ?_, fun j => ?_⟩
    · by_cases hj : j = i <;> by_cases hk : k = i
      · rw [hj, hk]
      · simp only [hj, Function.update_self, Function.update_of_ne hk] at hjk
        exact absurd hjk.symm (ht k hk)
      · simp only [hk, Function.update_self, Function.update_of_ne hj] at hjk
        exact absurd hjk (ht j hj)
      · simp only [Function.update_of_ne hj, Function.update_of_ne hk] at hjk
        exact h.apart j k hjk
    · by_cases hcur : (s.cpu i).current = u
      · exact hcur ▸ hq
      · refine h.parked u fun j he => ?_
        by_cases hj : j = i
        · exact hcur (hj ▸ he)
        · refine hu j ?_
          show (Function.update s.cpu i _ j).current = u
          rw [Function.update_of_ne hj]
          exact he
    · by_cases hj : j = i
      · simp only [Guard.running, hj, Function.update_self]
        exact ⟨hpick, hm, h1⟩
      · simp only [Guard.running, Function.update_of_ne hj]
        exact h.cpus j
  | create interrupts ht =>
    rename_i i t
    refine ⟨h.word, h.apart, fun u hu => ?_, fun j => ?_⟩
    · show (Function.update s.ctx t _ u).Quiet
      by_cases hut : u = t
      · rw [hut, Function.update_self]
        exact ⟨rfl, rfl⟩
      · rw [Function.update_of_ne hut]
        exact h.parked u hu
    · show CpuInv _ _ (Function.update s.ctx t _ (s.cpu j).current)
      rw [Function.update_of_ne (ht j)]
      exact h.cpus j

omit [DecidableEq ι] [DecidableEq τ] in
theorem Boot.inv (h : Boot s) : Inv s := by
  have hq : ∀ t, (s.ctx t).Quiet := h.ctx
  refine ⟨?_, h.apart, fun t _ => hq t, fun i => ?_⟩
  · rw [h.lock, h.owner]
    rfl
  · rw [CpuInv, h.handler i, h.count i]
    exact (hq _).taskInv (by simp [h.owner])

/-! ## Exclusion -/

/-- The CPU is between the return of an outermost `preempt_disable`, or a successful
`preempt_try_disable`, and the store of the matching `preempt_enable`. -/
def Guard.Inside (s : Guard ι τ) (i : ι) : Prop :=
  (s.running i).Holding ∨ ∃ p, (s.cpu i).handler = some p ∧ p.Holding

theorem HandlerInv.owned {p : Handler} {count : Nat} (h : HandlerInv mine count x p) :
    (x.Holding → mine) ∧ (p.Holding → mine) := by
  have hquiet : x.Quiet → ¬ x.Holding := fun hq hx => hx.elim
    (fun h => Nat.ne_of_gt h hq.2) fun ⟨_, h⟩ => absurd (hq.1.symm.trans h) nofun
  cases p with
  | tryCount => exact ⟨h.1.holds.mpr, nofun⟩
  | tryLocal => exact ⟨h.1.holds.mpr, nofun⟩
  | trylock => exact ⟨h.1.holds.mpr, nofun⟩
  | trySet => exact ⟨fun _ => h.2.1, fun _ => h.2.1⟩
  | body => exact ⟨fun _ => h.2.1, fun _ => h.2.1⟩
  | enable e =>
    cases e with
    | restore => exact ⟨fun hx => absurd hx (hquiet h.1), nofun⟩
    | _ => exact ⟨fun _ => h.2.1, fun _ => h.2.1⟩
  | iret => exact ⟨TaskInv.holds h |>.mpr, nofun⟩
  | trap => exact h.elim

omit [DecidableEq ι] [DecidableEq τ] in
theorem Inv.inside (h : Inv s) (hi : s.Inside i) : s.owner = some i := by
  have hc := h.cpus i
  rw [CpuInv] at hc
  split at hc
  · next hh =>
    rcases hi with hx | ⟨p, hp, _⟩
    · exact hc.holds.mpr hx
    · exact absurd (hh.symm.trans hp) nofun
  · next p hh =>
    rcases hi with hx | ⟨q, hq, hhold⟩
    · exact hc.owned.1 hx
    · obtain rfl := Option.some.inj (hh.symm.trans hq)
      exact hc.owned.2 hhold

/-- A step that stores 0 in the lock word is one of the owner. -/
theorem Inv.unlock {a : Act τ} (h : Inv s) (hs : Step s (i, a) s')
    (h1 : s.mutationLock = true) (h2 : s'.mutationLock = false) : s.owner = some i := by
  have hi := h.cpus i
  cases hs with
  | task hh hs =>
    rw [CpuInv, hh] at hi
    exact (hi.step h.locked hs).lost h1 h2
  | handler hh hs =>
    rw [CpuInv, hh] at hi
    exact (hi.step h.locked hs).2.1 h1 h2
  | _ => exact absurd (h1.symm.trans h2) nofun

/-- On any number of CPUs, in every order of their accesses: a CPU inside the guard owns the lock
and is alone there; only the owner unlocks; a task that is switched out is in no guard function and
holds nothing, so that the count of a CPU out of handlers is that of its task alone, and a task
that runs nowhere has no part in any count. -/
theorem mutation_guard_excludes {s₀ : Guard ι τ} {l : List (ι × Act τ)} (h₀ : Boot s₀)
    (h : Run Step s₀ l s) :
    (∀ i, s.Inside i → s.mutationLock = true ∧ s.owner = some i) ∧
    (∀ i j, s.Inside i → s.Inside j → i = j) ∧
    (∀ i a s', Step s (i, a) s' → s.mutationLock = true → s'.mutationLock = false →
      s.owner = some i) ∧
    (∀ i t s', Step s (i, .switch t) s' → (s.running i).pc = .out ∧ (s.running i).held = 0) ∧
    (∀ i, (s.cpu i).handler = none →
      (s.cpu i).preemptCount = (s.running i).raised % 4294967296) ∧
    ∀ t, (∀ i, (s.cpu i).current ≠ t) → (s.ctx t).pc = .out ∧ (s.ctx t).held = 0 := by
  have hinv : Inv s := h.invariant (I := Inv) h₀.inv fun _ _ _ hi hs => hi.step hs
  refine ⟨fun i hi => ⟨hinv.locked (hinv.inside hi), hinv.inside hi⟩, fun i j hi hj => ?_,
    fun i a s' hs h1 h2 => hinv.unlock hs h1 h2, fun i t s' hs => ?_, fun i hh => ?_, hinv.parked⟩
  · exact Option.some.inj ((hinv.inside hi).symm.trans (hinv.inside hj))
  · have hi := hinv.cpus i
    cases hs with
    | switch hh _ =>
      rw [CpuInv, hh] at hi
      exact hi.1
  · have hi := hinv.cpus i
    rw [CpuInv, hh] at hi
    exact hi.counted

/-- Two CPUs after boot. -/
def twoCpus : Guard Bool Bool where
  mutationLock := false
  owner := none
  cpu i := ⟨0, 0, i, none⟩
  ctx _ := ⟨.out, true, 0⟩

theorem twoCpus_boot : Boot twoCpus :=
  ⟨rfl, rfl, fun _ => rfl, fun _ => rfl, fun _ _ h => h, fun _ => ⟨rfl, rfl⟩⟩

/-- A CPU takes the guard, and a timer interrupt on the other one waits for it. -/
theorem mutation_guard_excludes_two : ∃ l s, Run Step twoCpus l s ∧ s.Inside false ∧
    (s.cpu true).handler = some .tryCount ∧ s.mutationLock = true ∧ s.owner = some false := by
  have h1 : Run Step twoCpus _ _ := .single (.call (i := false) (k := .disable) rfl rfl rfl)
  have h2 := h1.snoc (.task (i := false) rfl rfl)
  have h3 := h2.snoc (.task (i := false) rfl rfl)
  have h4 := h3.snoc (.task (i := false) rfl rfl)
  have h5 := h4.snoc (.task (i := false) rfl rfl)
  have h6 := h5.snoc (.task (i := false) rfl rfl)
  have h7 := h6.snoc (.timer (i := true) rfl rfl)
  refine ⟨_, _, h7, ?_, rfl, (mutation_guard_excludes twoCpus_boot h7).1 false ?_⟩
  · exact .inl (.inl Nat.one_pos)
  · exact .inl (.inl Nat.one_pos)

end GenOS.Preempt
