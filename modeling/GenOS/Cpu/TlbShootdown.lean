import Mathlib.Tactic.Common
import GenOS.Cpu.Tlb
import GenOS.Lib.Machine

/-!
# A shootdown is complete

A CPU that is not a target of the current call is `Quiet`. A target is `Asked`: it acknowledges the
call only after it invalidated the address of the call. `TlbInv` has this for every CPU, with what
the sender has passed in its two loops.
-/

namespace GenOS

open Machine

/-! ## Targets -/

theorem TlbCall.isTarget_iff {c : TlbCall} {i : Nat} : c.isTarget i ↔ c.targets.getLsbD i := by
  unfold isTarget
  rw [decide_eq_true_iff]
  constructor
  · intro h
    by_contra hn
    apply h
    apply BitVec.eq_of_getLsbD_eq
    intro j hj
    rw [BitVec.getLsbD_and, BitVec.getLsbD_shiftLeft, BitVec.getLsbD_one]
    by_cases hij : j = i
    · subst hij
      simp [Bool.eq_false_iff.mpr hn]
    · have : j < i ∨ j - i ≠ 0 := by omega
      rcases this with h1 | h1 <;> simp [h1]
  · intro h h0
    have hi : i < 32 := BitVec.lt_of_getLsbD h
    have hb : (c.targets &&& 1#32 <<< i).getLsbD i = (0 : BitVec 32).getLsbD i := by rw [h0]
    rw [BitVec.getLsbD_and, h, BitVec.getLsbD_shiftLeft] at hb
    simp [hi] at hb

theorem TlbCall.isTarget_zero {c : TlbCall} (h : c.targets = 0) (i : Nat) : ¬ c.isTarget i := by
  rw [isTarget_iff, h]
  simp

/-- `targets |= 1U << i`. -/
theorem TlbCall.isTarget_or {c : TlbCall} {i j : Nat} (hi : i < 32) :
    ({ c with targets := c.targets ||| 1#32 <<< i } : TlbCall).isTarget j ↔
      c.isTarget j ∨ j = i := by
  rw [isTarget_iff, isTarget_iff, BitVec.getLsbD_or, BitVec.getLsbD_shiftLeft, BitVec.getLsbD_one,
    Bool.or_eq_true]
  refine or_congr_right ⟨fun h => ?_, fun h => ?_⟩
  · simp only [Bool.and_eq_true, Bool.not_eq_true', decide_eq_true_eq, decide_eq_false_iff_not] at h
    omega
  · subst h
    simp [hi]

/-! ## The state of a CPU -/

/-- All requests of the CPU are acknowledged. -/
structure TlbCpu.Quiet (p : TlbCpu) : Prop where
  ack : p.tlbRequest = p.tlbAck
  poll : p.poll = .idle ∨ p.poll = .requested p.tlbAck

/-- The CPU has the request `seq` to invalidate `va`; `done` is that it has. -/
structure TlbCpu.Asked (p : TlbCpu) (va seq : Nat) (done : Prop) : Prop where
  request : p.tlbRequest = seq
  ack : p.tlbAck = seq → done
  poll : match p.poll with
    | .idle => True
    | .requested r => r = seq ∨ r = p.tlbAck
    | .behind r => r = seq ∧ p.tlbAck ≠ seq
    | .invalidating r a => r = seq ∧ a = va ∧ p.tlbAck ≠ seq
    | .invalidated r a => r = seq ∧ a = va ∧ p.tlbAck ≠ seq ∧ done

section Cpu

variable {p : TlbCpu} {s : TlbState} {va seq : Nat} {done done' : Prop}

/-- A quiet CPU invalidates nothing. -/
theorem TlbCpu.Quiet.pollCpu (h : p.Quiet) :
    (s.pollCpu p).Quiet ∧ (s.pollCpu p).cached = p.cached ∧ (s.pollCpu p).tlbAck = p.tlbAck := by
  obtain ⟨hack, hp | hp⟩ := h
  · simp only [TlbState.pollCpu, hp]
    exact ⟨⟨hack, .inr (congrArg TlbPoll.requested hack)⟩, trivial, trivial⟩
  · simp only [TlbState.pollCpu, hp, ne_eq, not_true_eq_false, if_false]
    exact ⟨⟨hack, .inl rfl⟩, trivial, trivial⟩

/-- An asked CPU acknowledges its request after it invalidated the address. -/
theorem TlbCpu.Asked.pollCpu (h : p.Asked va seq done) (ha : s.address = va) (hd : done → done')
    (hi : ∀ r, p.poll = .invalidating r va → done') :
    (s.pollCpu p).Asked va seq done' ∧ (p.tlbAck = seq → (s.pollCpu p).tlbAck = seq) := by
  obtain ⟨hreq, hack, hp⟩ := h
  have hack' : p.tlbAck = seq → done' := fun he => hd (hack he)
  unfold TlbState.pollCpu
  split
  · exact ⟨⟨hreq, hack', .inl hreq⟩, id⟩
  · next r hr =>
    rw [hr] at hp
    refine ⟨⟨hreq, hack', ?_⟩, id⟩
    by_cases he : r = p.tlbAck
    · simp only [he, ne_eq, not_true_eq_false, if_false]
    · simp only [he, ne_eq, not_false_eq_true, if_true]
      obtain rfl := hp.resolve_right he
      exact ⟨rfl, Ne.symm he⟩
  · next r hr =>
    rw [hr] at hp
    exact ⟨⟨hreq, hack', hp.1, ha, hp.2⟩, id⟩
  · next r a hr =>
    rw [hr] at hp
    obtain ⟨hp1, hp2, hp3⟩ := hp
    exact ⟨⟨hreq, hack', hp1, hp2, hp3, hi r (hp2 ▸ hr)⟩, id⟩
  · next r a hr =>
    rw [hr] at hp
    obtain ⟨hp1, -, -, hp4⟩ := hp
    exact ⟨⟨hreq, fun _ => hd hp4, trivial⟩, fun _ => hp1⟩

/-- A CPU that has acknowledged its request is quiet. -/
theorem TlbCpu.Asked.quiet (h : p.Asked va seq done) (hack : p.tlbAck = seq) : p.Quiet := by
  obtain ⟨hreq, -, hp⟩ := h
  refine ⟨hreq.trans hack.symm, ?_⟩
  split at hp
  · next hr => exact .inl hr
  · next r hr =>
    refine .inr (hr.trans (congrArg _ ?_))
    exact hp.elim (fun he => he.trans hack.symm) id
  · exact absurd hack hp.2
  · exact absurd hack hp.2.2
  · exact absurd hack hp.2.2.1

end Cpu

/-! ## The invariant -/

/-- The call that a CPU is in. -/
def TlbSender.call? : TlbSender → Option TlbCall
  | .idle => none
  | .counted c | .scan c _ | .post c _ | .flush c | .wait c _ => some c

/-- The CPUs below this number are past the first loop. -/
def TlbSender.scanned (count : Nat) : TlbSender → Nat
  | .idle | .counted _ => 0
  | .scan _ i | .post _ i => i
  | .flush _ | .wait _ _ => count

structure TlbInv (count : Nat) (s : TlbState) (g : TlbLog) : Prop where
  quiet : ∀ i, (∀ c ∈ s.sender.call?, ¬ c.isTarget i) → (s.cpus i).Quiet
  asked : ∀ c ∈ s.sender.call?, ∀ i, c.isTarget i →
    (s.cpus i).Asked c.va c.seq ((i, c.va) ∈ g.done)
  address : ∀ c ∈ s.sender.call?, s.sender = .counted c ∧ c.targets = 0 ∨ s.address = c.va
  clean : ∀ c ∈ s.sender.call?, ∀ i, (i, c.va) ∈ g.done → ∀ e ∈ (s.cpus i).cached,
    tlbCovers c.va e.1 → e.2 = s.table e.1
  online : ∀ c ∈ s.sender.call?, ∀ i, g.online i → (s.cpus i).schedulerOnline
  scanned : ∀ c ∈ s.sender.call?, ∀ i < s.sender.scanned count, g.online i →
    i = c.self ∨ c.isTarget i
  bound : ∀ c i, s.sender = .post c i → i < count
  targets : ∀ c ∈ s.sender.call?, ∀ i, c.isTarget i → i < count ∧ i < s.sender.scanned count
  flushed : ∀ c j, s.sender = .wait c j → (c.self, c.va) ∈ g.done
  waited : ∀ c j, s.sender = .wait c j → ∀ i < j, c.isTarget i → (s.cpus i).tlbAck = c.seq

section Inv

variable {count : Nat} {s : TlbState} {g : TlbLog}

theorem TlbInv.of_quiet (hs : s.sender = .idle) (hq : ∀ i, (s.cpus i).Quiet) :
    TlbInv count s g := by
  have hnone : ∀ c, c ∉ s.sender.call? := by
    intro c hc
    rw [hs] at hc
    cases hc
  refine { quiet := fun i _ => hq i, asked := fun c hc => absurd hc (hnone c),
           address := fun c hc => absurd hc (hnone c), clean := fun c hc => absurd hc (hnone c),
           online := fun c hc => absurd hc (hnone c), scanned := fun c hc => absurd hc (hnone c),
           bound := ?_, targets := fun c hc => absurd hc (hnone c), flushed := ?_, waited := ?_ }
  all_goals
    intro c j hj
    rw [hs] at hj
    cases hj

/-- A step of one CPU. -/
theorem TlbInv.setCpu (h : TlbInv count s g) {i : Nat} {p : TlbCpu} {g' : TlbLog}
    (hg : g'.online = g.online) (hd : ∀ k, k ≠ i → ∀ a, (k, a) ∈ g'.done ↔ (k, a) ∈ g.done)
    (hmono : ∀ e ∈ g.done, e ∈ g'.done)
    (hquiet : (∀ c ∈ s.sender.call?, ¬ c.isTarget i) → p.Quiet)
    (hasked : ∀ c ∈ s.sender.call?, c.isTarget i → p.Asked c.va c.seq ((i, c.va) ∈ g'.done) ∧
      ((s.cpus i).tlbAck = c.seq → p.tlbAck = c.seq))
    (honline : (s.cpus i).schedulerOnline → p.schedulerOnline)
    (hclean : ∀ c ∈ s.sender.call?, (i, c.va) ∈ g'.done → ∀ e ∈ p.cached,
      tlbCovers c.va e.1 → e.2 = s.table e.1) : TlbInv count (s.setCpu i p) g' where
  quiet := by
    intro k hk
    by_cases hki : k = i
    · subst hki
      simpa [TlbState.setCpu] using hquiet hk
    · simpa [TlbState.setCpu, hki] using h.quiet k hk
  asked := by
    intro c hc k hk
    by_cases hki : k = i
    · subst hki
      simpa [TlbState.setCpu] using (hasked c hc hk).1
    · simpa [TlbState.setCpu, hki, hd k hki] using h.asked c hc k hk
  address := h.address
  clean := by
    intro c hc k hk
    by_cases hki : k = i
    · subst hki
      simpa [TlbState.setCpu] using hclean c hc hk
    · simpa [TlbState.setCpu, hki] using h.clean c hc k ((hd k hki _).mp hk)
  online := by
    intro c hc k hk
    rw [hg] at hk
    by_cases hki : k = i
    · subst hki
      simpa [TlbState.setCpu] using honline (h.online c hc k hk)
    · simpa [TlbState.setCpu, hki] using h.online c hc k hk
  scanned := by
    rw [hg]
    exact h.scanned
  bound := h.bound
  targets := h.targets
  flushed := fun c j hj => hmono _ (h.flushed c j hj)
  waited := by
    intro c j hj k hk ht
    have hc : c ∈ s.sender.call? := by
      change s.sender = .wait c j at hj
      rw [hj]
      rfl
    have hack := h.waited c j hj k hk ht
    by_cases hki : k = i
    · subst hki
      simpa [TlbState.setCpu] using (hasked c hc ht).2 hack
    · simpa [TlbState.setCpu, hki] using hack

/-- A step of one CPU that leaves what `tlb_poll` uses, and caches only what the table has. -/
theorem TlbInv.touch (h : TlbInv count s g) {i : Nat} {p : TlbCpu}
    (hreq : p.tlbRequest = (s.cpus i).tlbRequest) (hack : p.tlbAck = (s.cpus i).tlbAck)
    (hpoll : p.poll = (s.cpus i).poll) (honline : (s.cpus i).schedulerOnline → p.schedulerOnline)
    (hcached : ∀ e ∈ p.cached, e ∈ (s.cpus i).cached ∨ e.2 = s.table e.1) :
    TlbInv count (s.setCpu i p) g := by
  refine h.setCpu rfl (fun _ _ _ => Iff.rfl) (fun _ he => he) (fun hq => ?_) (fun c hc ht => ?_)
    honline (fun c hc hd e he hcov => ?_)
  · obtain ⟨h1, h2⟩ := h.quiet i hq
    exact ⟨by rw [hreq, hack, h1], by rw [hpoll, hack]; exact h2⟩
  · obtain ⟨h1, h2, h3⟩ := h.asked c hc i ht
    refine ⟨⟨by rw [hreq, h1], by rw [hack]; exact h2, ?_⟩, by rw [hack]; exact id⟩
    rw [hpoll, hack]
    exact h3
  · exact (hcached e he).elim (fun hm => h.clean c hc i hd e hm hcov) id

/-- A step of `tlb_poll`. -/
theorem TlbInv.poll (h : TlbInv count s g) (i : Nat) :
    TlbInv count (s.setCpu i (s.pollCpu (s.cpus i))) (g.record s (.poll i)) := by
  generalize hp : s.cpus i = p
  have hnew : ∀ r va, p.poll = .invalidating r va →
      (g.record s (.poll i)).done = (i, va) :: g.done := fun r va hr => by
    simp only [TlbLog.record, hp, hr]
  have hsame : (∀ r va, p.poll ≠ .invalidating r va) → (g.record s (.poll i)).done = g.done := by
    intro hr
    simp only [TlbLog.record, hp]
  have hrec : (g.record s (.poll i)).online = g.online := by
    simp only [TlbLog.record, hp]
    cases p.poll <;> rfl
  have honline : (s.pollCpu p).schedulerOnline = p.schedulerOnline := by
    unfold TlbState.pollCpu
    split <;> rfl
  have hmono : ∀ e ∈ g.done, e ∈ (g.record s (.poll i)).done := by
    intro e he
    by_cases hr : ∃ r va, p.poll = .invalidating r va
    · obtain ⟨r, va, hr⟩ := hr
      exact hnew r va hr ▸ List.mem_cons_of_mem _ he
    · exact hsame (fun r va h => hr ⟨r, va, h⟩) ▸ he
  refine h.setCpu hrec (fun k hk a => ?_) hmono (fun hq => ?_) (fun c hc ht => ?_)
    (by rw [hp, honline]; exact id) (fun c hc hd e he hcov => ?_)
  · by_cases hr : ∃ r va, p.poll = .invalidating r va
    · obtain ⟨r, va, hr⟩ := hr
      simp [hnew r va hr, hk]
    · rw [hsame fun r va h => hr ⟨r, va, h⟩]
  · exact (hp ▸ h.quiet i hq).pollCpu.1
  · have ha := h.asked c hc i ht
    have hva : s.address = c.va := by
      refine (h.address c hc).resolve_left fun h0 => ?_
      exact TlbCall.isTarget_zero h0.2 i ht
    rw [hp] at ha ⊢
    refine ha.pollCpu hva (hmono _) fun r hr => ?_
    rw [hnew _ _ hr]
    exact List.mem_cons_self
  · by_cases ht : c.isTarget i
    · have ha := h.asked c hc i ht
      rw [hp] at ha
      unfold TlbState.pollCpu at he
      split at he
      case h_4 r va hr =>
        have hva := ha.poll
        rw [hr] at hva
        obtain ⟨-, rfl, -⟩ := hva
        have hm := (List.mem_filter.mp he).2
        rw [hcov] at hm
        cases hm
      all_goals
        next hr =>
          rw [hsame (by simp [hr])] at hd
          exact h.clean c hc i hd e (hp ▸ he) hcov
    · have hquiet := h.quiet i fun c' hc' => by
        rw [Option.mem_def.mp hc] at hc'
        obtain rfl := Option.some.inj hc'
        exact ht
      rw [hp] at hquiet
      rw [hquiet.pollCpu.2.1] at he
      rw [hsame fun r va hi => by rcases hquiet.poll with hr | hr <;> simp [hr] at hi] at hd
      exact h.clean c hc i hd e (hp ▸ he) hcov

/-- The sender goes on in its call. -/
theorem TlbInv.advance (h : TlbInv count s g) {c : TlbCall} (sender : TlbSender)
    (hc : s.sender.call? = some c) (hc' : sender.call? = some c) (address : Nat)
    (ha : address = c.va) (hmore : min count (s.sender.scanned count) ≤ sender.scanned count)
    (hscan : ∀ i < sender.scanned count, g.online i → i = c.self ∨ c.isTarget i)
    (hbound : ∀ i, sender = .post c i → i < count)
    (hflush : ∀ j, sender = .wait c j → (c.self, c.va) ∈ g.done)
    (hwait : ∀ j, sender = .wait c j → ∀ i < j, c.isTarget i → (s.cpus i).tlbAck = c.seq) :
    TlbInv count { s with sender := sender, address := address } g where
  quiet := by
    intro i hi
    rw [hc'] at hi
    exact h.quiet i (by rw [hc]; exact hi)
  asked := by
    intro c₁ hc₁
    rw [hc'] at hc₁
    exact h.asked c₁ (by rw [hc]; exact hc₁)
  address := by
    intro c₁ hc₁
    rw [hc'] at hc₁
    obtain rfl := Option.some.inj hc₁
    exact .inr ha
  clean := by
    intro c₁ hc₁
    rw [hc'] at hc₁
    exact h.clean c₁ (by rw [hc]; exact hc₁)
  online := by
    intro c₁ hc₁
    rw [hc'] at hc₁
    exact h.online c₁ (by rw [hc]; exact hc₁)
  scanned := by
    intro c₁ hc₁
    rw [hc'] at hc₁
    obtain rfl := Option.some.inj hc₁
    exact hscan
  bound := by
    rintro c₁ i rfl
    obtain rfl := Option.some.inj hc'
    exact hbound i rfl
  targets := by
    intro c₁ hc₁ i hi
    rw [hc'] at hc₁
    obtain ⟨h1, h2⟩ := h.targets c₁ (by rw [hc]; exact hc₁) i hi
    exact ⟨h1, Nat.lt_of_lt_of_le (Nat.lt_min.mpr ⟨h1, h2⟩) hmore⟩
  flushed := by
    rintro c₁ j rfl
    obtain rfl := Option.some.inj hc'
    exact hflush j rfl
  waited := by
    rintro c₁ j rfl
    obtain rfl := Option.some.inj hc'
    exact hwait j rfl

/-- After its first step the sender has written the address. -/
theorem TlbInv.address_eq (h : TlbInv count s g) {c : TlbCall} (hc : c ∈ s.sender.call?)
    (hs : s.sender ≠ .counted c) : s.address = c.va :=
  (h.address c hc).resolve_left fun h0 => hs h0.1

/-- The sender posts its request to CPU `i`, which has not acknowledged it. -/
theorem TlbInv.post (h : TlbInv count s g) {c : TlbCall} {i : Nat} (hs : s.sender = .post c i)
    (hi : i < 32) (hfresh : ¬ c.isTarget i → (s.cpus i).tlbAck ≠ c.seq) :
    TlbInv count { s.setCpu i { s.cpus i with tlbRequest := c.seq } with
      sender := .scan { c with targets := c.targets ||| 1#32 <<< i } (i + 1) } g := by
  have hc : c ∈ s.sender.call? := by
    rw [hs]
    rfl
  have hva : s.address = c.va := h.address_eq hc (by rw [hs]; exact nofun)
  have hor (k : Nat) := TlbCall.isTarget_or (c := c) (j := k) hi
  refine { quiet := ?_, asked := ?_, address := ?_, clean := ?_, online := ?_, scanned := ?_,
           bound := ?_, targets := ?_, flushed := ?_, waited := ?_ }
  · intro k hk
    have hk' := hk _ rfl
    rw [hor, not_or] at hk'
    have hq := h.quiet k fun c' hc' => by
      rw [Option.mem_def.mp hc] at hc'
      obtain rfl := Option.some.inj hc'
      exact hk'.1
    simpa [TlbState.setCpu, hk'.2] using hq
  · rintro _ ⟨⟩ k hk
    rw [hor] at hk
    by_cases hki : k = i
    · subst hki
      simp only [TlbState.setCpu, Function.update_self]
      by_cases ht : c.isTarget k
      · obtain ⟨h1, h2, h3⟩ := h.asked c hc k ht
        exact ⟨rfl, h2, h3⟩
      · have hq := h.quiet k fun c' hc' => by
          rw [Option.mem_def.mp hc] at hc'
          obtain rfl := Option.some.inj hc'
          exact ht
        refine ⟨rfl, fun he => absurd he (hfresh ht), ?_⟩
        rcases hq.poll with hp | hp <;> rw [hp]
        · trivial
        · exact .inr rfl
    · simpa [TlbState.setCpu, hki] using h.asked c hc k (hk.resolve_right hki)
  · rintro _ ⟨⟩
    exact .inr hva
  · rintro _ ⟨⟩ k hk
    by_cases hki : k = i
    · subst hki
      simpa [TlbState.setCpu] using h.clean c hc k hk
    · simpa [TlbState.setCpu, hki] using h.clean c hc k hk
  · rintro _ ⟨⟩ k hk
    by_cases hki : k = i
    · subst hki
      simpa [TlbState.setCpu] using h.online c hc k hk
    · simpa [TlbState.setCpu, hki] using h.online c hc k hk
  · rintro _ ⟨⟩ k hk ho
    rw [hor]
    rcases Nat.lt_succ_iff_lt_or_eq.mp hk with hlt | rfl
    · have hscan := h.scanned c hc k (by rw [hs]; exact hlt) ho
      exact hscan.imp_right .inl
    · exact .inr (.inr rfl)
  · intro c' j hj
    cases hj
  · rintro _ ⟨⟩ k hk
    rw [hor] at hk
    rcases hk with hk | rfl
    · obtain ⟨h1, h2⟩ := h.targets c hc k hk
      rw [hs] at h2
      exact ⟨h1, Nat.lt_succ_of_lt h2⟩
    · exact ⟨h.bound c k hs, Nat.lt_succ_self k⟩
  · intro c' j hj
    cases hj
  · intro c' j hj
    cases hj

/-- The sender invalidates the address itself. -/
theorem TlbInv.flush (h : TlbInv count s g) {c : TlbCall} (hs : s.sender = .flush c) :
    TlbInv count { s.setCpu c.self { s.cpus c.self with
        cached := tlbInvalidate c.va (s.cpus c.self).cached } with sender := .wait c 0 }
      (g.record s .send) := by
  have hc : c ∈ s.sender.call? := by
    rw [hs]
    rfl
  have hva : s.address = c.va := h.address_eq hc (by rw [hs]; exact nofun)
  have hrec : g.record s .send = { g with done := (c.self, c.va) :: g.done } := by
    simp only [TlbLog.record, hs]
  rw [hrec]
  have h1 : TlbInv count (s.setCpu c.self { s.cpus c.self with
        cached := tlbInvalidate c.va (s.cpus c.self).cached })
      { g with done := (c.self, c.va) :: g.done } := by
    refine h.setCpu rfl (fun k hk a => ?_) (fun e he => List.mem_cons_of_mem _ he) (fun hq => ?_)
      (fun c' hc' ht => ?_) id (fun c' hc' _ e he hcov => ?_)
    · simp [hk]
    · obtain ⟨h1, h2⟩ := h.quiet c.self hq
      exact ⟨h1, h2⟩
    · obtain ⟨h1, h2, h3⟩ := h.asked c' hc' c.self ht
      refine ⟨⟨h1, fun he => List.mem_cons_of_mem _ (h2 he), ?_⟩, id⟩
      dsimp only
      split at h3
      · trivial
      · exact h3
      · exact h3
      · exact h3
      · exact ⟨h3.1, h3.2.1, h3.2.2.1, List.mem_cons_of_mem _ h3.2.2.2⟩
    · rw [Option.mem_def.mp hc] at hc'
      obtain rfl := Option.some.inj hc'
      have hm := (List.mem_filter.mp he).2
      rw [hcov] at hm
      cases hm
  refine h1.advance (.wait c 0) hc rfl s.address hva (Nat.min_le_left _ _) ?_
    (fun _ hp => by cases hp) ?_ ?_
  · intro i hi ho
    refine h.scanned c hc i ?_ ho
    rw [hs]
    exact hi
  · exact fun _ _ => List.mem_cons_self
  · intro j hj i hi
    cases hj
    cases hi

/-- The sender looks at the next CPU, or has seen them all. -/
theorem TlbInv.scan (h : TlbInv count s g) {c : TlbCall} {i : Nat} {t : TlbState}
    (hs : s.sender = .scan c i) (ht : s.send count = some t) : TlbInv count t g := by
  have hc : s.sender.call? = some c := by
    rw [hs]
    rfl
  have hva : s.address = c.va := h.address_eq hc (by rw [hs]; exact nofun)
  have hscan : ∀ k < i, g.online k → k = c.self ∨ c.isTarget k := fun k hk =>
    h.scanned c hc k (by rw [hs]; exact hk)
  unfold TlbState.send at ht
  rw [hs] at ht
  dsimp only at ht
  split at ht
  · next hi =>
    split at ht
    · next hskip =>
      cases ht
      have hmore : min count (s.sender.scanned count) ≤ i + 1 := by
        rw [hs]
        exact Nat.le_trans (Nat.min_le_right _ _) (Nat.le_succ i)
      refine h.advance (.scan c (i + 1)) hc rfl s.address hva hmore (fun k hk ho => ?_)
        nofun nofun nofun
      rcases Nat.lt_succ_iff_lt_or_eq.mp hk with hlt | rfl
      · exact hscan k hlt ho
      · refine .inl (hskip.resolve_right fun hoff => ?_)
        rw [h.online c hc k ho] at hoff
        cases hoff
    · cases ht
      exact h.advance (.post c i) hc rfl s.address hva (by rw [hs]; exact Nat.min_le_right _ _)
        hscan (fun j hj => by cases hj; exact hi) nofun nofun
  · next hi =>
    cases ht
    exact h.advance (.flush c) hc rfl s.address hva (Nat.min_le_left _ _)
      (fun k hk => hscan k (Nat.lt_of_lt_of_le hk (Nat.le_of_not_lt hi))) nofun nofun nofun

/-- The sender sees the acknowledgement of the next CPU, or has seen them all: then nothing is
outstanding. -/
theorem TlbInv.wait (h : TlbInv count s g) {c : TlbCall} {i : Nat} {t : TlbState}
    (hs : s.sender = .wait c i) (ht : s.send count = some t) : TlbInv count t g := by
  have hc : s.sender.call? = some c := by
    rw [hs]
    rfl
  have hva : s.address = c.va := h.address_eq hc (by rw [hs]; exact nofun)
  unfold TlbState.send at ht
  rw [hs] at ht
  dsimp only at ht
  split at ht
  · split at ht
    · next hack =>
      cases ht
      refine h.advance (.wait c (i + 1)) hc rfl s.address hva (Nat.min_le_left _ _)
        (fun k hk => ?_) nofun (fun j _ => h.flushed c i hs) (fun j hj k hk htar => ?_)
      · exact h.scanned c hc k (by rw [hs]; exact hk)
      · cases hj
        rcases Nat.lt_succ_iff_lt_or_eq.mp hk with hlt | rfl
        · exact h.waited c i hs k hlt htar
        · exact hack.resolve_left fun hn => by rw [htar] at hn; cases hn
    · cases ht
  · next hi =>
    cases ht
    refine of_quiet rfl fun k => ?_
    by_cases htar : c.isTarget k
    · have hk := Nat.lt_of_lt_of_le (h.targets c hc k htar).1 (Nat.le_of_not_lt hi)
      exact (h.asked c hc k htar).quiet (h.waited c i hs k hk htar)
    · refine h.quiet k fun c' hc' => ?_
      rw [Option.mem_def, hc] at hc'
      obtain rfl := Option.some.inj hc'
      exact htar

/-- A step of `tlb_shootdown`. -/
theorem TlbInv.send {t : TlbState} (h : TlbInv count s g) (hcount : count ≤ maxCpus)
    (hfresh : ∀ c i, s.sender = .post c i → (s.cpus i).tlbAck ≠ c.seq)
    (ht : s.send count = some t) : TlbInv count t (g.record s .send) := by
  cases hs : s.sender with
  | idle =>
    unfold TlbState.send at ht
    rw [hs] at ht
    cases ht
  | counted c =>
    have hrec : g.record s .send = g := by simp only [TlbLog.record, hs]
    unfold TlbState.send at ht
    rw [hs] at ht
    cases ht
    rw [hrec]
    exact h.advance (.scan c 0) (by rw [hs]; rfl) rfl c.va rfl
      (by rw [hs]; exact Nat.min_le_right _ _) nofun nofun nofun nofun
  | scan c i =>
    have hrec : g.record s .send = g := by simp only [TlbLog.record, hs]
    rw [hrec]
    exact h.scan hs ht
  | post c i =>
    have hrec : g.record s .send = g := by simp only [TlbLog.record, hs]
    have hi : i < 32 := by
      have := h.bound c i hs
      have : maxCpus = 16 := rfl
      omega
    unfold TlbState.send at ht
    rw [hs] at ht
    cases ht
    rw [hrec]
    exact h.post hs hi fun _ => hfresh c i hs
  | flush c =>
    unfold TlbState.send at ht
    rw [hs] at ht
    cases ht
    exact h.flush hs
  | wait c i =>
    have hrec : g.record s .send = g := by simp only [TlbLog.record, hs]
    rw [hrec]
    exact h.wait hs ht

end Inv

/-! ## Runs -/

/-- A CPU is not sent the sequence number that it acknowledged last. -/
def TlbFresh (s : TlbState × TlbLog) (a : TlbAct) : Prop :=
  a = .send → ∀ c i, s.1.sender = .post c i → (s.1.cpus i).tlbAck ≠ c.seq

section Runs

variable {count : Nat} {s t : TlbState} {g : TlbLog}

theorem TlbInv.init : TlbInv count {} {} := of_quiet rfl fun _ => ⟨rfl, .inl rfl⟩

/-- A call finds nothing outstanding. -/
theorem TlbInv.call (h : TlbInv count s g) (hs : s.sender = .idle) (self va seq : Nat) :
    TlbInv count
      { s with sequence := seq, sender := .counted { self := self, va := va, seq := seq } }
      { online := fun i => (s.cpus i).schedulerOnline, done := [] } where
  quiet := fun i _ => h.quiet i (by rw [hs]; exact fun _ hc => by cases hc)
  asked := by
    rintro _ ⟨⟩ i hi
    exact absurd hi (TlbCall.isTarget_zero rfl i)
  address := by
    rintro _ ⟨⟩
    exact .inl ⟨rfl, rfl⟩
  clean := fun _ _ _ hd => by cases hd
  online := fun _ _ _ hi => hi
  scanned := fun _ _ _ hi => by cases hi
  bound := fun _ _ hp => by cases hp
  targets := by
    rintro _ ⟨⟩ i hi
    exact absurd hi (TlbCall.isTarget_zero rfl i)
  flushed := fun _ _ hp => by cases hp
  waited := fun _ _ hp => by cases hp

/-- Every step keeps the invariant. -/
theorem TlbInv.step (h : TlbInv count s g) (hcount : count ≤ maxCpus) {a : TlbAct}
    (hfresh : TlbFresh (s, g) a) (ht : s.step count a = some t) :
    TlbInv count t (g.record s a) := by
  cases a with
  | refill i page =>
    cases ht
    refine h.touch rfl rfl rfl id fun e he => ?_
    rcases List.mem_cons.mp he with rfl | he
    · exact .inr rfl
    · exact .inl he
  | evict i page =>
    cases ht
    exact h.touch rfl rfl rfl id fun e he => .inl (List.mem_filter.mp he).1
  | online i =>
    cases ht
    exact h.touch rfl rfl rfl (fun _ => rfl) fun e he => .inl he
  | write page pte =>
    simp only [TlbState.step] at ht
    split at ht
    · next hs =>
      cases ht
      refine .of_quiet hs fun i => h.quiet i ?_
      rw [hs]
      exact fun _ hc => by cases hc
    · cases ht
  | poll i =>
    cases ht
    exact h.poll i
  | call self va =>
    simp only [TlbState.step] at ht
    split at ht
    · next hs =>
      cases ht
      exact h.call hs self va _
    · cases ht
  | send => exact h.send hcount (hfresh rfl) ht

theorem TlbInv.of_run {l : List TlbAct} {s : TlbState × TlbLog} (hcount : count ≤ maxCpus)
    (h : Run (Restrict (TlbStep count) TlbFresh) ({}, {}) l s) : TlbInv count s.1 s.2 := by
  refine h.invariant (I := fun s => TlbInv count s.1 s.2) .init ?_
  rintro _ a _ hi ⟨⟨ht⟩, hfresh⟩
  exact hi.step hcount hfresh ht

end Runs

/-! ## Shootdowns -/

/-- What a shootdown promises. -/
structure TlbSafe (count : Nat) (s : TlbState) (g : TlbLog) : Prop where
  /-- A CPU about to acknowledge a request has invalidated the address of that request. -/
  acknowledges : ∀ i r va, (s.cpus i).poll = .invalidated r va →
    ∃ c, s.sender.call? = some c ∧ r = c.seq ∧ va = c.va ∧ (i, va) ∈ g.done
  /-- An acknowledgement counts for the call only if the CPU has invalidated its address since. -/
  counts : ∀ c ∈ s.sender.call?, ∀ i, c.isTarget i → (s.cpus i).tlbAck = c.seq → (i, c.va) ∈ g.done
  /-- When the call returns, every CPU that was online at the call has invalidated the address, and
  what it caches there is in the page table. -/
  returns : ∀ c i, s.sender = .wait c i → count ≤ i → ∀ k, k < count ∧ g.online k ∨ k = c.self →
    (k, c.va) ∈ g.done ∧ ∀ e ∈ (s.cpus k).cached, tlbCovers c.va e.1 → e.2 = s.table e.1

section Safe

variable {count : Nat} {s : TlbState} {g : TlbLog} {l : List TlbAct}

theorem TlbInv.safe (h : TlbInv count s g) : TlbSafe count s g where
  acknowledges := by
    intro i r va hp
    by_cases ht : ∃ c ∈ s.sender.call?, c.isTarget i
    · obtain ⟨c, hc, ht⟩ := ht
      have ha := (h.asked c hc i ht).poll
      rw [hp] at ha
      obtain ⟨hr, rfl, -, hd⟩ := ha
      exact ⟨c, hc, hr, rfl, hd⟩
    · have hq := h.quiet i fun c hc hi => ht ⟨c, hc, hi⟩
      rcases hq.poll with hp' | hp' <;> rw [hp] at hp' <;> cases hp'
  counts := fun c hc i ht => (h.asked c hc i ht).ack
  returns := by
    intro c i hs hi k hk
    have hc : c ∈ s.sender.call? := by
      rw [hs]
      rfl
    have hd : (k, c.va) ∈ g.done := by
      rcases hk with ⟨hlt, ho⟩ | rfl
      · rcases h.scanned c hc k (by rw [hs]; exact hlt) ho with rfl | ht
        · exact h.flushed c i hs
        · exact (h.asked c hc k ht).ack (h.waited c i hs k (Nat.lt_of_lt_of_le hlt hi) ht)
      · exact h.flushed c i hs
    exact ⟨hd, h.clean c hc k hd⟩

end Safe

/-! ## The number comes round -/

/-- The second loop passes a CPU that is no target, or acknowledged the number. -/
theorem TlbState.step_skip {count : Nat} {s : TlbState} {c : TlbCall} {i : Nat}
    (hs : s.sender = .wait c i) (hi : i < count) (ht : !c.isTarget i ∨ (s.cpus i).tlbAck = c.seq) :
    s.step count .send = some { s with sender := .wait c (i + 1) } := by
  unfold step send
  rw [hs]
  dsimp only
  rw [if_pos hi, if_pos ht]

/-- A call of CPU 0 while CPU 1 is offline. -/
theorem TlbStep.exists_call {k : Nat} (hk : k + 1 < 18446744073709551616) (g : TlbLog) :
    ∃ l u, Run (TlbStep 2) ({ sequence := k }, g) l u ∧ u.1 = { sequence := k + 1 } := by
  refine Run.exists_cons (.act (a := .call 0 0) rfl) ?_
  rw [Nat.mod_eq_of_lt hk]
  iterate 5 refine Run.exists_cons (.act (a := .send) rfl) ?_
  have ht (i : Nat) : !({ self := 0, va := 0, seq := k + 1 } : TlbCall).isTarget i := by
    rw [Bool.not_eq_true', ← Bool.not_eq_true]
    exact TlbCall.isTarget_zero rfl i
  refine Run.exists_cons (.act (a := .send) (TlbState.step_skip rfl (by decide) (.inl (ht 0)))) ?_
  refine Run.exists_cons (.act (a := .send) (TlbState.step_skip rfl (by decide) (.inl (ht 1)))) ?_
  refine Run.exists_cons (.act (a := .send) rfl) ?_
  refine ⟨[], _, .nil, ?_⟩
  have hsame : Function.update (fun _ => ({} : TlbCpu)) 0 {} = fun _ => {} :=
    Function.update_eq_self _ _
  exact congrArg (fun f => ({ cpus := f, sequence := k + 1 } : TlbState)) hsame

theorem TlbStep.exists_calls {k : Nat} (hk : k < 18446744073709551616) :
    ∃ l u, Run (TlbStep 2) ({}, {}) l u ∧ u.1 = { sequence := k } := by
  induction k with
  | zero => exact ⟨[], _, .nil, rfl⟩
  | succ k ih =>
    obtain ⟨l, ⟨s, g⟩, hr, rfl⟩ := ih (Nat.lt_of_succ_lt hk)
    obtain ⟨l', u, hr', hu⟩ := exists_call hk g
    exact ⟨_, u, hr.append hr', hu⟩

theorem tlb_shootdown_incomplete : ∃ l s g, Run (TlbStep 2) ({}, {}) l (s, g) ∧
    ¬ TlbSafe 2 s g := by
  obtain ⟨l, ⟨s, g⟩, hr, rfl⟩ :=
    TlbStep.exists_calls (k := 18446744073709551615) (by decide)
  suffices h : ∃ l u, Run (TlbStep 2) ({ sequence := 18446744073709551615 }, g) l u ∧
      ∃ c, u.1.sender = .wait c 2 ∧ u.2.online 1 ∧ (1, c.va) ∉ u.2.done by
    obtain ⟨l', ⟨s, g⟩, hr', c, hs, hon, hd⟩ := h
    exact ⟨_, s, g, hr.append hr', fun hsafe =>
      hd (hsafe.returns c 2 hs (Nat.le_refl _) 1 (.inl ⟨by decide, hon⟩)).1⟩
  refine Run.exists_cons (.act (a := .online 1) rfl) ?_
  refine Run.exists_cons (.act (a := .refill 1 0) rfl) ?_
  refine Run.exists_cons (.act (a := .write 0 1) rfl) ?_
  refine Run.exists_cons (.act (a := .call 0 0) rfl) ?_
  iterate 6 refine Run.exists_cons (.act (a := .send) rfl) ?_
  refine Run.exists_cons (.act (a := .send) (TlbState.step_skip rfl (by decide) (.inr rfl))) ?_
  refine Run.exists_cons (.act (a := .send) (TlbState.step_skip rfl (by decide) (.inr rfl))) ?_
  refine ⟨[], _, .nil, _, rfl, rfl, fun h => ?_⟩
  exact absurd (congrArg Prod.fst (List.mem_singleton.mp h)) (by decide)

/-! ## Few calls -/

def TlbAct.isCall : TlbAct → Bool
  | .call _ _ => true
  | _ => false

/-- The numbers after `n` calls, when they have not come round. -/
structure TlbCounted (n : Nat) (s : TlbState) : Prop where
  sequence : s.sequence = n
  seq : ∀ c ∈ s.sender.call?, c.seq = n
  ack : ∀ i, (s.cpus i).tlbAck ≤ n
  behind : ∀ c ∈ s.sender.call?, ∀ i, ¬ c.isTarget i → (s.cpus i).tlbAck < n

section Few

variable {count n : Nat} {s t : TlbState} {g : TlbLog}

theorem TlbCounted.fresh (h : TlbCounted n s) (hi : TlbInv count s g) (a : TlbAct) :
    TlbFresh (s, g) a := by
  rintro - c i hs
  change s.sender = .post c i at hs
  have hc : c ∈ s.sender.call? := by
    rw [hs]
    rfl
  rw [h.seq c hc]
  refine Nat.ne_of_lt (h.behind c hc i fun ht => ?_)
  have hlt := (hi.targets c hc i ht).2
  rw [hs] at hlt
  exact Nat.lt_irrefl i hlt

/-- A step of one CPU, which may acknowledge the call that it is a target of. -/
theorem TlbCounted.setCpu (h : TlbCounted n s) {i : Nat} {p : TlbCpu}
    (hack : p.tlbAck = (s.cpus i).tlbAck ∨
      p.tlbAck = n ∧ ∀ c ∈ s.sender.call?, c.isTarget i) : TlbCounted n (s.setCpu i p) where
  sequence := h.sequence
  seq := h.seq
  ack := by
    intro k
    by_cases hki : k = i
    · subst hki
      simp only [TlbState.setCpu, Function.update_self]
      rcases hack with he | ⟨he, -⟩
      · rw [he]
        exact h.ack k
      · exact Nat.le_of_eq he
    · simpa [TlbState.setCpu, hki] using h.ack k
  behind := by
    intro c hc k hk
    by_cases hki : k = i
    · subst hki
      simp only [TlbState.setCpu, Function.update_self]
      rcases hack with he | ⟨-, ht⟩
      · rw [he]
        exact h.behind c hc k hk
      · exact absurd (ht c hc) hk
    · simpa [TlbState.setCpu, hki] using h.behind c hc k hk

theorem TlbCounted.poll (h : TlbCounted n s) (hi : TlbInv count s g) (i : Nat) :
    TlbCounted n (s.setCpu i (s.pollCpu (s.cpus i))) := by
  refine h.setCpu ?_
  cases hp : (s.cpus i).poll with
  | idle | requested | behind | invalidating =>
    unfold TlbState.pollCpu
    rw [hp]
    exact .inl rfl
  | invalidated r va =>
    obtain ⟨c, hc, rfl, -, -⟩ := hi.safe.acknowledges i r va hp
    have hack : (s.pollCpu (s.cpus i)).tlbAck = n := by
      unfold TlbState.pollCpu
      rw [hp]
      exact h.seq c hc
    refine .inr ⟨hack, fun c' hc' => ?_⟩
    rw [Option.mem_def, hc] at hc'
    obtain rfl := Option.some.inj hc'
    by_contra ht
    have hq := hi.quiet i fun c' hc' => by
      rw [Option.mem_def, hc] at hc'
      obtain rfl := Option.some.inj hc'
      exact ht
    rcases hq.poll with hp' | hp' <;> rw [hp] at hp' <;> cases hp'

/-- The sender goes on; its targets only grow. -/
theorem TlbCounted.advance (h : TlbCounted n s)
    (hack : ∀ i, (t.cpus i).tlbAck = (s.cpus i).tlbAck) (hseq : t.sequence = s.sequence)
    (hc : ∀ c' ∈ t.sender.call?, ∃ c ∈ s.sender.call?, c'.seq = c.seq ∧
      ∀ i, c.isTarget i → c'.isTarget i) : TlbCounted n t where
  sequence := hseq.trans h.sequence
  seq := by
    intro c' hc'
    obtain ⟨c, hm, he, -⟩ := hc c' hc'
    rw [he]
    exact h.seq c hm
  ack := by
    intro i
    rw [hack]
    exact h.ack i
  behind := by
    intro c' hc' i hi
    obtain ⟨c, hm, -, ht⟩ := hc c' hc'
    rw [hack]
    exact h.behind c hm i fun h' => hi (ht i h')

theorem TlbCounted.send (h : TlbCounted n s) (hi : TlbInv count s g) (hcount : count ≤ maxCpus)
    (ht : s.send count = some t) : TlbCounted n t := by
  have hupdate (i : Nat) (p : TlbCpu) (hp : p.tlbAck = (s.cpus i).tlbAck) (k : Nat) :
      ((s.setCpu i p).cpus k).tlbAck = (s.cpus k).tlbAck := by
    by_cases hki : k = i
    · subst hki
      simpa [TlbState.setCpu] using hp
    · simp [TlbState.setCpu, hki]
  unfold TlbState.send at ht
  cases hs : s.sender with
  | idle =>
    rw [hs] at ht
    cases ht
  | counted c =>
    rw [hs] at ht
    cases ht
    refine h.advance (fun _ => rfl) rfl ?_
    rintro _ ⟨⟩
    exact ⟨c, by rw [hs]; rfl, rfl, fun _ => id⟩
  | scan c i =>
    rw [hs] at ht
    dsimp only at ht
    split at ht
    · split at ht
      all_goals
        cases ht
        refine h.advance (fun _ => rfl) rfl ?_
        rintro _ ⟨⟩
        exact ⟨c, by rw [hs]; rfl, rfl, fun _ => id⟩
    · cases ht
      refine h.advance (fun _ => rfl) rfl ?_
      rintro _ ⟨⟩
      exact ⟨c, by rw [hs]; rfl, rfl, fun _ => id⟩
  | post c i =>
    have hi32 : i < 32 := by
      have := hi.bound c i hs
      have : maxCpus = 16 := rfl
      omega
    rw [hs] at ht
    cases ht
    refine h.advance (hupdate i _ rfl) rfl ?_
    rintro _ ⟨⟩
    exact ⟨c, by rw [hs]; rfl, rfl, fun k hk => (TlbCall.isTarget_or hi32).mpr (.inl hk)⟩
  | flush c =>
    rw [hs] at ht
    cases ht
    refine h.advance (hupdate c.self _ rfl) rfl ?_
    rintro _ ⟨⟩
    exact ⟨c, by rw [hs]; rfl, rfl, fun _ => id⟩
  | wait c i =>
    rw [hs] at ht
    dsimp only at ht
    split at ht
    · split at ht
      · cases ht
        refine h.advance (fun _ => rfl) rfl ?_
        rintro _ ⟨⟩
        exact ⟨c, by rw [hs]; rfl, rfl, fun _ => id⟩
      · cases ht
    · cases ht
      refine h.advance (fun _ => rfl) rfl ?_
      intro c' hc'
      cases hc'

theorem TlbCounted.call (h : TlbCounted n s) (hn : n + 1 < 18446744073709551616) (self va : Nat) :
    TlbCounted (n + 1)
      { s with
        sequence := (s.sequence + 1) % 18446744073709551616
        sender := .counted
          { self := self, va := va, seq := (s.sequence + 1) % 18446744073709551616 } } where
  sequence := by rw [h.sequence, Nat.mod_eq_of_lt hn]
  seq := by
    rintro _ ⟨⟩
    change (s.sequence + 1) % 18446744073709551616 = n + 1
    rw [h.sequence, Nat.mod_eq_of_lt hn]
  ack := fun i => Nat.le_succ_of_le (h.ack i)
  behind := fun _ _ i _ => Nat.lt_succ_of_le (h.ack i)

theorem TlbCounted.step (h : TlbCounted n s) (hi : TlbInv count s g) (hcount : count ≤ maxCpus)
    {a : TlbAct} (hn : n + a.isCall.toNat < 18446744073709551616)
    (ht : s.step count a = some t) : TlbCounted (n + a.isCall.toNat) t := by
  cases a with
  | refill | evict | online =>
    cases ht
    exact h.setCpu (.inl rfl)
  | write page pte =>
    simp only [TlbState.step] at ht
    split at ht
    · cases ht
      exact ⟨h.sequence, h.seq, h.ack, h.behind⟩
    · cases ht
  | poll i =>
    cases ht
    exact h.poll hi i
  | call self va =>
    simp only [TlbState.step] at ht
    split at ht
    · cases ht
      exact h.call hn self va
    · cases ht
  | send => exact h.send hi hcount ht

/-- The numbers do not come round in fewer than `2 ^ 64` calls. -/
theorem tlb_fresh_of_few {l : List TlbAct} {s : TlbState × TlbLog} (hcount : count ≤ maxCpus)
    (h : Run (TlbStep count) ({}, {}) l s)
    (hl : l.countP TlbAct.isCall < 18446744073709551616) :
    Run (Restrict (TlbStep count) TlbFresh) ({}, {}) l s := by
  suffices hs : Run (Restrict (TlbStep count) TlbFresh) ({}, {}) l s ∧
      TlbCounted (l.countP TlbAct.isCall) s.1 from hs.1
  induction h with
  | nil =>
    refine ⟨.nil, rfl, ?_, fun _ => Nat.le_refl _, ?_⟩ <;> intro c hc <;> cases hc
  | @snoc l s t a _ ha ih =>
    have hadd : (l ++ [a]).countP TlbAct.isCall =
        l.countP TlbAct.isCall + a.isCall.toNat := by
      rw [List.countP_append, List.countP_singleton]
      cases a.isCall <;> rfl
    rw [hadd] at hl ⊢
    obtain ⟨hr, hc⟩ := ih (Nat.lt_of_le_of_lt (Nat.le_add_right _ _) hl)
    obtain ⟨ht⟩ := ha
    have hi := TlbInv.of_run hcount hr
    exact ⟨hr.snoc ⟨.act ht, hc.fresh hi a⟩, hc.step hi hcount hl ht⟩

end Few

/-- Every shootdown is complete in a run where no CPU is sent the number that it acknowledged
last, and so in every run of fewer than `2 ^ 64` calls. -/
theorem tlb_shootdown_complete {count : Nat} (hcount : count ≤ maxCpus) :
    (∀ l s, Run (Restrict (TlbStep count) TlbFresh) ({}, {}) l s → TlbSafe count s.1 s.2) ∧
    ∀ l s, Run (TlbStep count) ({}, {}) l s → l.countP TlbAct.isCall < 18446744073709551616 →
      Run (Restrict (TlbStep count) TlbFresh) ({}, {}) l s :=
  ⟨fun _ _ h => (TlbInv.of_run hcount h).safe, fun _ _ h hl => tlb_fresh_of_few hcount h hl⟩

/-! ## A shootdown of two CPUs -/

/-- The state and the history after some steps; none if one of them is not enabled. -/
def tlbAfter (count : Nat) (x : TlbState × TlbLog) : List TlbAct → Option (TlbState × TlbLog)
  | [] => some x
  | a :: l => (x.1.step count a).bind fun t => tlbAfter count (t, x.2.record x.1 a) l

theorem tlbAfter_run {count : Nat} {x y : TlbState × TlbLog} {l : List TlbAct}
    (h : tlbAfter count x l = some y) : Run (TlbStep count) x l y := by
  induction l generalizing x with
  | nil =>
    cases h
    exact .nil
  | cons a l ih =>
    obtain ⟨t, ht, hl⟩ := Option.bind_eq_some_iff.mp h
    exact (Run.single (.act ht)).append (ih hl)

/-- CPU 1 has cached page 0 when the page is written. CPU 0 asks for the invalidation, and waits
until CPU 1 has polled its request and acknowledged it; then CPU 1 caches the page again. -/
def shootdownActs : List TlbAct :=
  [.online 0, .online 1, .refill 1 0, .write 0 7, .call 0 0] ++ List.replicate 7 .send ++
    List.replicate 5 (.poll 1) ++ [.refill 1 0, .send]

def shootdown : TlbState × TlbLog := (tlbAfter 2 ({}, {}) shootdownActs).getD ({}, {})

theorem shootdown_run : Run (TlbStep 2) ({}, {}) shootdownActs shootdown := by
  refine tlbAfter_run ?_
  have h : (tlbAfter 2 ({}, {}) shootdownActs).isSome = true := by decide
  obtain ⟨x, hx⟩ := Option.isSome_iff_exists.mp h
  rw [shootdown, hx]
  rfl

/-- The call is about to return. -/
theorem tlb_shootdown_complete_pair : TlbSafe 2 shootdown.1 shootdown.2 ∧
    shootdown.1.sender = .wait ⟨0, 0, 1, 2⟩ 2 ∧ ((1, 0) ∈ shootdown.2.done ∧
      ∀ e ∈ (shootdown.1.cpus 1).cached, tlbCovers 0 e.1 → e.2 = shootdown.1.table e.1) ∧
    (shootdown.1.cpus 1).cached = [(0, 7)] ∧ (shootdown.1.step 2 .send).isSome = true := by
  have h := @tlb_shootdown_complete 2 (by decide)
  have hs : TlbSafe 2 shootdown.1 shootdown.2 :=
    h.1 shootdownActs shootdown (h.2 shootdownActs shootdown shootdown_run (by decide))
  have hw : shootdown.1.sender = .wait ⟨0, 0, 1, 2⟩ 2 := by decide
  exact ⟨hs, hw, hs.returns _ 2 hw (Nat.le_refl _) 1 (.inl ⟨by decide, by decide⟩), by decide,
    by decide⟩

end GenOS
