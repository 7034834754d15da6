import GenOS.Mm.HeapGrow

/-!
# When a growth step succeeds

The loop of `heap_grow` asks for one frame for each of its 16 pages, and with the first page for the
tables that are missing on the way to it (`tablesMissing`). `PagesServed s base k` says that these
requests are granted for the first `k` pages and that the pages are not mapped yet: the loop maps
the pages that are served, and stops at the first that is not (`growLoop_spec`).
-/

namespace GenOS.Phys

open Radix Pmm

/-- The first `k` pages from `base` on can be obtained and mapped. -/
def PagesServed (s : Phys) (base : Nat) : Nat → Prop
  | 0 => True
  | k + 1 => ∃ n, s.tablesMissing heapFlags base 3 s.kernelPml4 = some n ∧
      (∀ i ≤ k, s.lookup s.kernelPml4 (indexAt (base + i * 4096)) = none) ∧
      ∀ j < k + 1 + n, s.Granted j

/-- The loop has mapped the pages `F`, and made no other requests than those for them. -/
structure Growing (base : Nat) (s₀ s : Phys) (F : List Nat) : Prop where
  grew : Grew base s₀ s F []
  served : PagesServed s₀ base F.length
  start : F = [] → s = s₀
  spent : F ≠ [] → ∀ n, s₀.tablesMissing heapFlags base 3 s₀.kernelPml4 = some n →
    Spent s₀ s (F.length + n)

variable {base k : Nat} {s₀ s s' : Phys} {F : List Nat}

theorem PagesServed.mono {j : Nat} (h : PagesServed s base k) (hj : j ≤ k) :
    PagesServed s base j := by
  cases j with
  | zero => trivial
  | succ j =>
    cases k with
    | zero => omega
    | succ k =>
      obtain ⟨n, hn, hl, hg⟩ := h
      exact ⟨n, hn, fun i hi => hl i (by omega), fun i hi => hg i (by omega)⟩

theorem tablesMissing_congr {flags : Word} {va va' : Nat} :
    ∀ {level table : Nat}, (∀ l, 1 ≤ l → l ≤ level → indexAt va l = indexAt va' l) →
      s.tablesMissing flags va level table = s.tablesMissing flags va' level table
  | 0, _, _ => rfl
  | level + 1, table, h => by
    have ih := fun t => @tablesMissing_congr flags va va' level t fun l h1 h2 => h l h1 (by omega)
    rw [tablesMissing, tablesMissing, h (level + 1) (by omega) (Nat.le_refl _), ih]

namespace Growing

theorem nil (h₀ : s₀.KernelTree) : Growing base s₀ s₀ [] :=
  ⟨.refl h₀, trivial, fun _ => rfl, fun hne => absurd rfl hne⟩

/-- Behind the first page of a step the way to the pages of the same table is there. -/
theorem tablesMissing_near (h : Growing base s₀ s F) (hne : F ≠ []) {va : Nat}
    (hva : ∀ l, 1 ≤ l → l ≤ 3 → indexAt va l = indexAt base l) :
    s.tablesMissing heapFlags va 3 s.kernelPml4 = some 0 := by
  have hkernel := h.grew.kernel
  obtain ⟨f, F', rfl⟩ := List.exists_cons_of_ne_nil hne
  obtain ⟨es, hes, hperm, hl⟩ := h.grew.leaf 0 f rfl
  rw [Nat.zero_mul, Nat.add_zero] at hl
  obtain ⟨t, hw, -, -⟩ := reaches_of_lookup hl hes
  rw [hkernel, tablesMissing_congr hva]
  exact tablesMissing_of_walk hw hperm

theorem tablesMissing (h : Growing base s₀ s F) (hb : GrowBase base) (hF : F.length < 16)
    (hne : F ≠ []) :
    s.tablesMissing heapFlags (base + F.length * 4096) 3 s.kernelPml4 = some 0 :=
  h.tablesMissing_near hne fun _ h1 h2 => hb.index hF h1 h2

/-- The next page is not one of those mapped so far. -/
theorem lookup (h : Growing base s₀ s F) (hb : GrowBase base) (hF : F.length < 16) :
    s.lookup s.kernelPml4 (indexAt (base + F.length * 4096)) =
      s₀.lookup s₀.kernelPml4 (indexAt (base + F.length * 4096)) := by
  rw [h.grew.kernel]
  refine h.grew.view _ (inRange_indexAt _) fun i hi hat => ?_
  have := hb.apart (by omega) hF hat (atPage_self _)
  omega

/-- The requests for the next page, in the terms of the state now. -/
theorem served_succ (h : Growing base s₀ s F) (hb : GrowBase base) (hF : F.length < 16) :
    PagesServed s₀ base (F.length + 1) ↔
      ∃ n, s.tablesMissing heapFlags (base + F.length * 4096) 3 s.kernelPml4 = some n ∧
        s.lookup s.kernelPml4 (indexAt (base + F.length * 4096)) = none ∧
        ∀ j < n + 1, s.Granted j := by
  rw [h.lookup hb hF]
  by_cases hne : F = []
  · obtain rfl := h.start hne
    subst hne
    simp only [List.length_nil, Nat.zero_mul, Nat.add_zero]
    refine exists_congr fun n => and_congr_right fun _ => ⟨fun ⟨hl, hg⟩ => ?_, fun ⟨hl, hg⟩ => ?_⟩
    · exact ⟨hl 0 (Nat.le_refl 0), fun j hj => hg j (show j < 0 + 1 + n by omega)⟩
    · refine ⟨fun i hi => ?_, fun j (hj : j < 0 + 1 + n) => hg j (by omega)⟩
      obtain rfl : i = 0 := Nat.le_zero.mp hi
      exact hl
  · rw [h.tablesMissing hb hF hne]
    constructor
    · rintro ⟨n, hn, hl, hg⟩
      refine ⟨0, rfl, hl _ (Nat.le_refl _), fun j hj => ?_⟩
      rw [(h.spent hne n hn).granted]
      exact hg _ (by omega)
    · rintro ⟨_, -, hl, hg⟩
      have hserved := h.served
      obtain ⟨k, hk⟩ : ∃ k, F.length = k + 1 := Nat.exists_eq_succ_of_ne_zero fun h0 =>
        hne (List.length_eq_zero_iff.mp h0)
      rw [hk] at hserved
      obtain ⟨n, hn, hl', hg'⟩ := hserved
      refine ⟨n, hn, fun i hi => ?_, fun j hj => ?_⟩
      · by_cases hik : i ≤ k
        · exact hl' i hik
        · obtain rfl : i = F.length := by omega
          exact hl
      · by_cases hjk : j < k + 1 + n
        · exact hg' j hjk
        · have h0 := hg 0 (Nat.succ_pos _)
          rw [(h.spent hne n hn).granted] at h0
          obtain rfl : j = F.length + n := by omega
          exact h0

/-- **One round**: the next page is mapped if it is served. -/
theorem round (h : Growing base s₀ s F) (h₀ : s₀.KernelTree) (hb : GrowBase base)
    (hF : F.length < 16) (left : Nat) :
    (∃ s', Heap.growLoop base (left + 1) F.length s = (some F.length, s') ∧ Grew base s₀ s' F [] ∧
      Moves s.pmm s'.pmm [] [] ∧ ¬ PagesServed s₀ base (F.length + 1)) ∨
    ∃ f s', Heap.growLoop base (left + 1) F.length s = Heap.growLoop base left (F.length + 1) s' ∧
      Growing base s₀ s' (F ++ [f]) := by
  have hnext := h.served_succ hb hF
  rcases growRound h.grew h₀ hb hF left with ⟨s', he, hg, hm, hno⟩ |
    ⟨f, s', n, he, hg, hn, hl, hall, hsp⟩
  · refine .inl ⟨s', he, hg, hm, fun hp => ?_⟩
    obtain ⟨n, hn, hl, hall⟩ := hnext.mp hp
    obtain ⟨j, hj, hnj⟩ := hno n hn hl
    exact hnj (hall j hj)
  · have hserved := hnext.mpr ⟨n, hn, hl, hall⟩
    have hlen : (F ++ [f]).length = F.length + 1 := by simp
    refine .inr ⟨f, s', he, hg, hlen ▸ hserved, by simp, fun _ n₀ hn₀ => ?_⟩
    rw [hlen]
    by_cases hne : F = []
    · obtain rfl := h.start hne
      subst hne
      simp only [List.length_nil, Nat.zero_mul, Nat.add_zero] at hn ⊢
      rw [hn₀] at hn
      cases hn
      rwa [Nat.zero_add, Nat.add_comm]
    · rw [h.tablesMissing hb hF hne] at hn
      cases hn
      have := (h.spent hne n₀ hn₀).trans hsp
      rwa [show F.length + n₀ + (0 + 1) = F.length + 1 + n₀ by omega] at this

/-- The rest of the loop. -/
theorem loop (h₀ : s₀.KernelTree) (hb : GrowBase base) :
    ∀ {left : Nat} {F : List Nat} {s : Phys}, Growing base s₀ s F → F.length + left ≤ 16 →
      ∃ r F' s', Heap.growLoop base left F.length s = (r, s') ∧ Grew base s₀ s' F' [] ∧
        F'.length ≤ F.length + left ∧ PagesServed s₀ base F'.length ∧
        (r = none → F'.length = F.length + left ∧ Growing base s₀ s' F') ∧
        ∀ i, r = some i → i = F'.length ∧ i < F.length + left ∧ ¬ PagesServed s₀ base (i + 1) ∧
          (i = 0 → Moves s₀.pmm s'.pmm [] [])
  | 0, F, s, h, _ => ⟨none, F, s, rfl, h.grew, Nat.le_refl _, h.served, fun _ => ⟨rfl, h⟩,
      fun i hi => absurd hi (by simp)⟩
  | left + 1, F, s, h, hle => by
    rcases h.round h₀ hb (by omega) left with ⟨s', he, h', hm, hno⟩ | ⟨f, s', he, h'⟩
    · refine ⟨_, F, s', he, h', by omega, h.served, by simp, fun i hi => ?_⟩
      cases hi
      refine ⟨rfl, by omega, hno, fun h0 => ?_⟩
      rw [← h.start (List.length_eq_zero_iff.mp h0)]
      exact hm
    · have hlen : (F ++ [f]).length = F.length + 1 := by simp
      obtain ⟨r, F', s'', he', h'', h1, h2, h3, h4⟩ := @loop h₀ hb left _ _ h' (by omega)
      rw [hlen] at he'
      rw [hlen] at h1 h3 h4
      refine ⟨r, F', s'', he.trans he', h'', by omega, h2, fun hr => ?_, fun i hi => ?_⟩
      · obtain ⟨h5, h6⟩ := h3 hr
        exact ⟨by omega, h6⟩
      · obtain ⟨h5, h6, h7⟩ := h4 i hi
        exact ⟨h5, by omega, h7⟩

end Growing

/-- **The loop of `heap_grow`** maps the pages that are served, up to the first that is not. -/
theorem growLoop_spec (h₀ : s₀.KernelTree) (hb : GrowBase base) :
    ∃ r F s, Heap.growLoop base 16 0 s₀ = (r, s) ∧ Grew base s₀ s F [] ∧ F.length ≤ 16 ∧
      PagesServed s₀ base F.length ∧ (r = none → F.length = 16 ∧ Growing base s₀ s F) ∧
      ∀ i, r = some i → i = F.length ∧ i < 16 ∧ ¬ PagesServed s₀ base (i + 1) ∧
        (i = 0 → Moves s₀.pmm s.pmm [] []) := by
  have hle : ([] : List Nat).length + 16 ≤ 16 := by decide
  obtain ⟨r, F, s, he, hg, hle, hp, hn, hs⟩ := Growing.loop h₀ hb (Growing.nil h₀) hle
  simp only [List.length_nil, Nat.zero_add] at he hle hn hs
  exact ⟨r, F, s, he, hg, hle, hp, hn, hs⟩

/-- The loop ends well when all 16 pages are served. -/
theorem growLoop_none_iff (h₀ : s₀.KernelTree) (hb : GrowBase base) :
    (Heap.growLoop base 16 0 s₀).1 = none ↔ PagesServed s₀ base 16 := by
  obtain ⟨r, F, s, he, -, hle, hp, hn, hs⟩ := growLoop_spec h₀ hb
  rw [he]
  constructor
  · intro hr
    rw [← (hn hr).1]
    exact hp
  · intro h16
    cases r with
    | none => rfl
    | some i =>
      obtain ⟨-, hi, hno, -⟩ := hs i rfl
      exact absurd (h16.mono hi) hno

/-! ## On a small machine -/

theorem tinyPhys_served : tinyPhys.PagesServed heapStart 16 :=
  ⟨3, rfl, fun _ _ => path_of_dead dead_zero, fun _ hj =>
    ⟨rfl, Nat.lt_of_lt_of_le hj (by decide)⟩⟩

/-- The first 64 KiB of the heap take 19 frames, 3 for tables, and the next 64 KiB the other 16. -/
theorem tinyPhys_grows : ∃ s, Heap.growLoop heapStart 16 0 tinyPhys = (none, s) ∧ s.KernelTree ∧
    s.PagesServed (heapStart + 65536) 16 ∧ s.pmm.freePages = 16 := by
  have hb : GrowBase heapStart := ⟨by decide, by decide, by decide⟩
  have hb' : GrowBase (heapStart + 65536) := ⟨by decide, by decide, by decide⟩
  obtain ⟨r, F, s, he, -, -, -, hn, -⟩ := growLoop_spec tinyPhys_rootOnly.kernelTree hb
  have hnone := (growLoop_none_iff tinyPhys_rootOnly.kernelTree hb).mpr tinyPhys_served
  rw [he] at hnone
  obtain rfl : r = none := hnone
  obtain ⟨hlen, hg⟩ := hn rfl
  have hne : F ≠ [] := List.ne_nil_of_length_eq_add_one hlen
  have hspent := hg.spent hne 3 rfl
  have hfree : tinyPhys.pmm.freePages = 35 := rfl
  have hleft := hspent.free
  refine ⟨s, he, hg.grew.tree, ⟨0, ?_, fun i (hi : i ≤ 15) => ?_,
    fun j (hj : j < 16) => ?_⟩, by omega⟩
  · refine hg.tablesMissing_near hne fun l h1 h2 => ?_
    obtain rfl | rfl | rfl : l = 1 ∨ l = 2 ∨ l = 3 := by omega
    · rfl
    · rfl
    · rfl
  · rw [hg.grew.kernel, hg.grew.view _ (inRange_indexAt _) fun j hj hat => ?_]
    · exact path_of_dead dead_zero
    · have := atPage_inj hat (atPage_self _) (hb.canonical (by omega)) (hb'.canonical (by omega))
        hb.page hb'.page
      omega
  · rw [hspent.granted, hlen]
    exact ⟨rfl, by omega⟩

end GenOS.Phys
