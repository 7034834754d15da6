import GenOS.Mm.VmmMap

/-!
# When a mapping succeeds

`mapPage_spec` says what `map_page` leaves behind; here is which of its two ends it comes to. A call
needs one frame for each table that is missing on the way to the page (`tablesMissing`), and it
succeeds when these requests are granted, no entry on the way refuses the flags, and the page is
not mapped yet.
-/

namespace GenOS.Phys

open Radix Pmm

/-- If all requests before it are granted, so is the `k`-th request for a frame from here on. -/
def Granted (s : Phys) (k : Nat) : Prop := s.deny (s.asked + k) = false ∧ k < s.pmm.freePages

/-- The tables missing on the way to `va`, unless an entry on the way refuses the flags. -/
def tablesMissing (s : Phys) (flags : Word) (va : Nat) : (level table : Nat) → Option Nat
  | 0, _ => some 0
  | level + 1, table =>
    if (s.mem table (indexAt va (level + 1))).has ptePresent then
      if refused flags (s.mem table (indexAt va (level + 1))) then none
      else tablesMissing s flags va level (tableAt (s.mem table (indexAt va (level + 1))))
    else some (level + 1)

variable {s s' : Phys} {r va n : Nat} {I : Slots} {P : List Nat} {flags : Word}

/-- A request was granted: the later ones move up. -/
theorem granted_succ (ha : s'.asked = s.asked + n) (hd : s'.deny = s.deny)
    (hf : s'.pmm.freePages + n = s.pmm.freePages) (k : Nat) : s'.Granted k ↔ s.Granted (n + k) := by
  unfold Granted
  rw [ha, hd, Nat.add_assoc]
  refine and_congr_right fun _ => ?_
  omega

/-- The next `n` requests for a frame were granted. -/
structure Spent (s s' : Phys) (n : Nat) : Prop where
  asked : s'.asked = s.asked + n
  deny : s'.deny = s.deny
  free : s'.pmm.freePages + n = s.pmm.freePages

theorem Spent.refl (s : Phys) : Spent s s 0 := ⟨rfl, rfl, rfl⟩

theorem Spent.granted (h : Spent s s' n) (k : Nat) : s'.Granted k ↔ s.Granted (n + k) :=
  granted_succ h.asked h.deny h.free k

theorem Spent.trans {m : Nat} (h : Spent s s' n) (h' : Spent s' s'' m) : Spent s s'' (n + m) := by
  refine ⟨?_, h'.deny.trans h.deny, ?_⟩
  · rw [h'.asked, h.asked, Nat.add_assoc]
  · have h1 := h.free
    have h2 := h'.free
    omega

/-- A request for a frame is granted or it fails. -/
theorem allocFrame_count (h : s.pmm.Inv) :
    (¬ s.Granted 0 ∧ s.allocFrame = (0, { s with asked := s.asked + 1 })) ∨
    (s.Granted 0 ∧ ∃ f p, s.allocFrame = (f, { s with pmm := p, asked := s.asked + 1 }) ∧ f ≠ 0 ∧
      s.pmm.FreeAt f ∧ Moves s.pmm p [] [f] ∧ p.freePages + 1 = s.pmm.freePages) := by
  unfold allocFrame Granted
  split
  · rename_i hd
    exact .inl ⟨fun hc => by simp [hd] at hc, rfl⟩
  · rename_i hd
    have hd : s.deny s.asked = false := by simpa using hd
    rcases allocPage_moves h with ⟨he, hn⟩ | ⟨hf, hm⟩
    · rw [he]
      exact .inl ⟨fun hc => absurd ((freePages_pos_iff h).mp hc.2) fun ⟨a, ha⟩ => hn a ha, rfl⟩
    · exact .inr ⟨⟨hd, (freePages_pos_iff h).mpr ⟨_, hf⟩⟩, _, _, rfl, hf.ne_zero h, hf, hm,
        hm.freePages h (List.nodup_singleton _) fun a ha => List.mem_singleton.mp ha ▸ hf⟩

theorem tablesMissing_empty {level table : Nat} (h : ¬ pageShape.Occupied s.mem table) :
    s.tablesMissing flags va level table = some level := by
  cases level with
  | zero => rfl
  | succ level =>
    have hd : (s.mem table (indexAt va (level + 1))).has ptePresent = false :=
      Shape.dead_of_not_occupied h (indexAt_lt va _)
    rw [tablesMissing, hd]
    rfl

/-- A way that is there and permits the flags. -/
theorem tablesMissing_of_walk {level table t : Nat} {es : List Word}
    (h : Walk pageShape s.mem (indexAt va) level table 0 t es)
    (hes : ∀ e ∈ es, refused flags e = false) : s.tablesMissing flags va level table = some 0 := by
  induction level generalizing table es with
  | zero => rfl
  | succ level ih =>
    cases h with
    | @down _ _ c _ _ es hc hw =>
      obtain ⟨h1, -, h3⟩ := child_eq_some hc
      rw [tablesMissing, h1, if_pos rfl, hes _ List.mem_cons_self, h3]
      exact ih hw fun e he => hes e (List.mem_cons_of_mem _ he)

/-- **The walk of `map_page`** reaches the last table when its requests are granted. -/
theorem mapWalk_count (hI : indexAt va 3 ∈ I.idx) :
    ∀ {level table : Nat} {created : List (Nat × Nat)} {s : Phys} {es : List Word},
      s.Tree r I P → s.Reaches r va level table es →
      ((mapWalk va flags level table created s).1 = none ∧
        ∀ n, s.tablesMissing flags va level table = some n → ∃ k < n, ¬ s.Granted k) ∨
      ∃ n t C s', mapWalk va flags level table created s = (some t, C, s') ∧
        s.tablesMissing flags va level table = some n ∧ (∀ k < n, s.Granted k) ∧
        s'.asked = s.asked + n ∧ s'.pmm.freePages + n = s.pmm.freePages
  | 0, table, created, s, es, ht, hw =>
    .inr ⟨0, table, created, s, rfl, rfl, fun _ hk => absurd hk (Nat.not_lt_zero _), rfl, rfl⟩
  | level + 1, table, created, s, es, ht, hw => by
    rw [mapWalk, tablesMissing]
    simp only
    split
    · rename_i hpres
      split
      · exact .inl ⟨rfl, fun n hn => by cases hn⟩
      · rename_i hok
        have hlarge : (s.mem table (indexAt va (level + 1))).has pteLarge = false := by
          have hok : refused flags (s.mem table (indexAt va (level + 1))) =
            false := by simpa using hok
          simp only [refused, Bool.or_eq_false_iff] at hok
          exact hok.1.1.1
        exact mapWalk_count hI ht (Walk.snoc hw (child_of_present hpres hlarge))
    · rename_i hdead
      have hdead : (s.mem table (indexAt va (level + 1))).has ptePresent =
        false := by simpa using hdead
      rcases allocFrame_count ht.inv with ⟨hg, ha⟩ | ⟨hg, f, p, ha, hf0, hf, hm, hcount⟩
      · rw [ha]
        refine .inl ⟨rfl, fun n hn => ⟨0, ?_, hg⟩⟩
        cases hn
        exact Nat.succ_pos _
      · rw [ha]
        simp only [hf0, ↓reduceIte]
        obtain ⟨heff, hgr, hw'⟩ := ht.graft hw hI hdead hf hm rfl
        obtain ⟨ha', hlt⟩ := freeAt_lt ht.small hf
        have hat : ∀ x : Phys, x.mem table (indexAt va (level + 1)) = tableEntry f →
            tableAt (x.mem table (indexAt va (level + 1))) = f := fun x hx => by
          rw [hx]
          exact tableAt_tableEntry ha' hlt
        rw [hat _ hgr.entry]
        -- below the new table everything is missing
        have hmiss := @tablesMissing_empty _ va flags level f hgr.empty
        have hshift :=
          fun k => @granted_succ s ((zeroFrame { s with pmm := p, asked := s.asked + 1 } f).store
          table (indexAt va (level + 1)) (tableEntry f)) 1 rfl rfl hcount k
        rcases @mapWalk_count hI level f
          ((table, indexAt va (level + 1)) :: created) _ _ heff.tree hw'
          with ⟨he, hno⟩ | ⟨n, t, C, s', he, hn, hall, h1, h2⟩
        · refine .inl ⟨he, fun n hn => ?_⟩
          cases hn
          obtain ⟨k, hk, hgk⟩ := hno level hmiss
          exact ⟨1 + k, by omega, fun hc => hgk ((hshift k).mpr hc)⟩
        · rw [hmiss] at hn
          cases hn
          refine .inr ⟨level + 1, t, C, s', he, rfl, fun k hk => ?_, ?_, ?_⟩
          · cases k with
            | zero => exact hg
            | succ k =>
              rw [Nat.add_comm]
              exact (hshift k).mp (hall k (by omega))
          · rw [h1]
            show s.asked + 1 + level = s.asked + (level + 1)
            omega
          · have h2 : s'.pmm.freePages + level = p.freePages := h2
            omega

/-- **When `map_page` succeeds.** -/
theorem mapPage_count (ht : s.Tree r I P) (hr : r ≠ 0) (hI : indexAt va 3 ∈ I.idx) {phys : Word}
    (hargs : MapArgs va phys flags) :
    ((s.mapPage r va phys flags).1 = false ∧ ∀ n, s.tablesMissing flags va 3 r = some n →
      s.lookup r (indexAt va) = none → ∃ k < n, ¬ s.Granted k) ∨
    ∃ n, (s.mapPage r va phys flags).1 = true ∧ s.tablesMissing flags va 3 r = some n ∧
      s.lookup r (indexAt va) = none ∧ (∀ k < n, s.Granted k) ∧
      (s.mapPage r va phys flags).2.asked = s.asked + n ∧
      (s.mapPage r va phys flags).2.pmm.freePages + n = s.pmm.freePages := by
  have hok := (mapArgs_iff hr).mpr hargs
  unfold mapPage
  rw [hok]
  simp only [Bool.false_eq_true, ↓reduceIte]
  obtain ⟨C, F, s', t?, he, heff, hg, hres⟩ := @mapWalk_spec r I P va flags hI 3 r [] s []
    ht (.refl _ _) (by simp)
  rcases @mapWalk_count r va I P flags hI 3 r [] s [] ht (.refl _ _) with
    ⟨hn, hno⟩ | ⟨n, t, C', s'', he', hn, hall, h1, h2⟩
  · rw [he] at hn ⊢
    simp only at hn
    subst hn
    exact .inl ⟨rfl, fun n hn _ => hno n hn⟩
  · rw [he'] at he ⊢
    cases he
    obtain ⟨es, hw, -, -⟩ := hres t rfl
    have hlook : s.lookup r (indexAt va) = if (s'.mem t (indexAt va 0)).has ptePresent then
        some (es ++ [s'.mem t (indexAt va 0)]) else none := by
      rw [← hg.view _ (inRange_indexAt va) hI, lookup, Walk.path_eq hw, path_zero]
      show Option.map _ (if (s'.mem t (indexAt va 0)).has ptePresent = true then _ else _) = _
      split
      · rfl
      · rfl
    simp only
    split
    · rename_i hp
      rw [if_pos hp] at hlook
      refine .inl ⟨rfl, fun _ _ hl => ?_⟩
      rw [hl] at hlook
      cases hlook
    · rename_i hp
      rw [if_neg hp] at hlook
      exact .inr ⟨n, rfl, hn, hlook, hall, h1, h2⟩

end GenOS.Phys
