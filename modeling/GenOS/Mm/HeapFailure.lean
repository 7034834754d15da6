import GenOS.Mm.HeapPhys

/-!
# Requests that fail

A growth step that fails rolls back: the blocks, the heap's end and every lookup are as before
(`heapGrow_failed`). A request may take several steps, and the steps before the failing one stay;
and the rollback keeps a table right below the kernel's root that the step was the first to need. So
a request that returns `NULL` is cancelled exactly when its first step fails, and fails without such
a table (`Heap.Cancels`).
-/

namespace GenOS

open Pmm Phys HeapBlock FirstFit Radix

/-- One growth step of the heap can map its first `k` pages. -/
def Heap.StepServed (h : Heap) (k : Nat) : Prop :=
  h.fin ≤ 2 ^ 64 - 1 - 65536 ∧ h.phys.PagesServed h.fin k

/-- The kernel's root has a table for the addresses behind the heap. -/
def Heap.Rooted (h : Heap) : Prop :=
  (h.phys.mem h.phys.kernelPml4 (indexAt h.fin 3)).has ptePresent = true

/-- The sizes `kmalloc` refuses to round up, and the heaps whose first growth step fails without a
trace. -/
def Heap.Cancels (h : Heap) (size : Nat) : Prop :=
  2 ^ 64 - 1 - 15 - 32 < size ∨ ¬ h.StepServed 16 ∧ (h.Rooted ∨ ¬ h.StepServed 1)

/-- The same blocks with the same contents, the same range mapped to the same frames, and the same
number of free frames. -/
structure Heap.Same (h h' : Heap) : Prop where
  bytes : h'.bytes = h.bytes
  head : h'.head = h.head
  fin : h'.fin = h.fin
  mapped : ∀ k, pageShape.InRange k →
    h'.phys.lookup h'.phys.kernelPml4 k = h.phys.lookup h.phys.kernelPml4 k
  freePages : h'.phys.pmm.freePages = h.phys.pmm.freePages

variable {h h' : Heap} {l : List Block} {s : Phys} {want n r size : Nat}

theorem Heap.Same.refl (h : Heap) : h.Same h := ⟨rfl, rfl, rfl, fun _ _ => rfl, rfl⟩

/-! ## The free-page counter -/

theorem Pmm.Moves.freePages_eq {p p' : Pmm} (hm : Moves p p' [] []) (hp : p.Inv) :
    p'.freePages = p.freePages :=
  hm.freePages hp .nil nofun

/-- After the rollback of a step the tables are those from before, or one more below the root. -/
theorem Phys.Grew.freePages {base : Nat} {s₀ : Phys} (hg : Grew base s₀ s [] [])
    (h₀ : s₀.KernelTree) :
    ((s.mem s₀.kernelPml4 (indexAt base 3)).has ptePresent =
        (s₀.mem s₀.kernelPml4 (indexAt base 3)).has ptePresent ∧
      s.pmm.freePages = s₀.pmm.freePages) ∨
    ((s₀.mem s₀.kernelPml4 (indexAt base 3)).has ptePresent = false ∧
      s.pmm.freePages + 1 = s₀.pmm.freePages) := by
  have hv : SameView s₀.kernelPml4 wholeTree s₀ s := fun k hk _ => hg.view k hk fun i hi => by
    cases hi
  have hm := hg.moves
  simp only [List.append_nil] at hm
  rcases kernelTables_perm h₀ hg.tree hg.kernel (indexAt_lt base 3) hv hg.root hg.top with
    ⟨hp, hw⟩ | ⟨c, hf, hd, hp⟩
  · have hm' : Moves s₀.pmm s.pmm [] [] := hm.congr fun a _ => by
      rw [hp.count_eq]
    exact .inl ⟨hw, hm'.freePages_eq h₀.tree.inv⟩
  · have hm' : Moves s₀.pmm s.pmm [] [c] := hm.congr fun a _ => by
      rw [hp.count_eq, List.count_cons, List.count_cons]
      omega
    refine .inr ⟨hd, ?_⟩
    exact hm'.freePages h₀.tree.inv (List.nodup_singleton c) fun a ha =>
      List.mem_singleton.mp ha ▸ hf

/-! ## One step -/

theorem heapGrow_served (ht : Tiled h l) (hp : HeapPages h) (he : h.heapGrow = some (true, h')) :
    h.StepServed 16 ∧ h'.fin = h.fin + 65536 := by
  rcases heapGrow_cases ht with ⟨-, hc⟩ | ⟨i, s, -, -, hc⟩ | ⟨s, bytes, hlt, hl, hc, -, -⟩
  · rw [hc] at he
    cases he
  · rw [hc] at he
    cases he
  · rw [hc] at he
    cases he
    exact ⟨⟨hlt, (growLoop_none_iff hp.tree (growBase ht hp hlt)).mp (congrArg Prod.fst hl)⟩, rfl⟩

/-- **A step that fails** leaves everything as it was, but for the table below the root. -/
theorem heapGrow_failed (ht : Tiled h l) (hp : HeapPages h) (he : h.heapGrow = some (false, h')) :
    ¬ h.StepServed 16 ∧ (h.Same h' ↔ h.Rooted ∨ ¬ h.StepServed 1) := by
  rcases heapGrow_cases ht with ⟨hbig, hc⟩ | ⟨i, s, hlt, hl, hc⟩ | ⟨s, bytes, -, -, hc, -, -⟩
  · have hno : ∀ k, ¬ h.StepServed k := fun k hs => absurd hs.1 (by omega)
    rw [hc] at he
    cases he
    exact ⟨hno 16, fun _ => .inr (hno 1), fun _ => .refl h⟩
  · have hb := growBase ht hp hlt
    obtain ⟨r, F, s', hl', hg, hle, hserved, -, hr⟩ := growLoop_spec hp.tree hb
    rw [hl] at hl'
    cases hl'
    obtain ⟨hi, hi16, hno, hzero⟩ := hr i rfl
    obtain ⟨hg', hroot⟩ := growRollback_spec hb hi.symm (by omega) hg
    rw [hg.kernel] at hroot
    have hfirst : h.StepServed 1 ↔ F ≠ [] := by
      constructor
      · rintro ⟨-, h1⟩ rfl
        exact hno (h1.mono (by rw [hi]; exact Nat.le_refl 1))
      · exact fun hne => ⟨hlt, hserved.mono (List.length_pos_iff.mpr hne)⟩
    rw [hc] at he
    cases he
    refine ⟨fun h16 => hno (h16.2.mono hi16), ?_⟩
    rw [hfirst, not_not]
    constructor
    · -- a page was mapped behind the new entry, and the rollback keeps the entry
      intro hsame
      by_contra hc
      obtain ⟨hdead, hne⟩ := not_or.mp hc
      have hdead : (h.phys.mem h.phys.kernelPml4 (indexAt h.fin 3)).has ptePresent = false := by
        simpa [Heap.Rooted] using hdead
      rcases hg'.freePages hp.tree with ⟨hw, -⟩ | ⟨-, hfree⟩
      · rw [hdead, hroot] at hw
        exact hne (hg.empty_of_dead hb hw)
      · have hfree' := hsame.freePages
        simp only at hfree'
        omega
    · intro hcond
      refine ⟨rfl, rfl, rfl, fun k hk => ?_, ?_⟩
      · simp only
        rw [hg'.kernel]
        exact hg'.view k hk fun j hj => by cases hj
      · rcases hg'.freePages hp.tree with ⟨-, hfree⟩ | ⟨hdead, -⟩
        · exact hfree
        · rcases hcond with hrooted | rfl
          · have hrooted : (h.phys.mem h.phys.kernelPml4 (indexAt h.fin 3)).has ptePresent = true :=
              hrooted
            rw [hdead] at hrooted
            cases hrooted
          · subst hi
            exact (hzero rfl).freePages_eq hp.tree.tree.inv
  · rw [hc] at he
    cases he

/-! ## Requests -/

/-- **`kmalloc` that returns `NULL`.** -/
theorem kmalloc_cancels (ht : Tiled h l) (hp : HeapPages h) (h0 : size ≠ 0)
    (he : h.kmalloc size = some (0, h')) : h.Same h' ↔ h.Cancels size := by
  unfold Heap.kmalloc at he
  split at he
  · cases he
    exact iff_of_true (.refl h) (.inl (by omega))
  rename_i hsize
  have hbig : ¬ 2 ^ 64 - 1 - 15 - 32 < size := fun hc => hsize (.inr hc)
  have hwant : 0 < Heap.roundUp size := by
    unfold Heap.roundUp
    omega
  have hdvd : 16 ∣ Heap.roundUp size := Nat.dvd_mul_left _ _
  generalize Heap.roundUp size = want at he hwant hdvd
  obtain ⟨n, hn⟩ : ∃ n, h.retries = n + 1 := ⟨_, rfl⟩
  have hretry : (2 ^ 64 - 1 - h.fin) / 65536 < n + 1 := by
    rw [← hn]
    exact Nat.lt_succ_self _
  rw [hn, Heap.kmallocLoop] at he
  obtain ⟨curr, -, he⟩ := Option.bind_eq_some_iff.mp he
  split at he
  · cases he
  obtain ⟨⟨grown, h₁⟩, hgr, he⟩ := Option.bind_eq_some_iff.mp he
  unfold Heap.Cancels
  rw [or_iff_right hbig]
  cases grown with
  | false =>
    simp only [Bool.false_eq_true, ↓reduceIte] at he
    cases he
    obtain ⟨h16, hsame⟩ := heapGrow_failed ht hp hgr
    rw [hsame, and_iff_right h16]
  | true =>
    -- the first step stays, whatever becomes of the others
    simp only [↓reduceIte] at he
    obtain ⟨h16, hfin⟩ := heapGrow_served ht hp hgr
    obtain ⟨l₁, ht₁⟩ := heapGrow_tiled ht hgr
    have hlt := h16.1
    obtain ⟨r, h₂, l₂, he', hs⟩ := kmallocLoop_spec hwant hdvd ht₁ (n := n) (by omega)
    rw [he] at he'
    cases he'
    have hle := hs.fin
    refine iff_of_false (fun hsame => ?_) fun hc => hc.1 h16
    have := hsame.fin
    omega

/-! ## Runs -/

/-- The contents of the heap do not matter. -/
theorem HeapPages.bytes (hp : HeapPages h) (bytes : Bytes.Mem) : HeapPages { h with bytes } :=
  ⟨hp.aligned, hp.tree⟩

theorem kfree_pages {ptr : Nat} (hp : HeapPages h) (he : h.kfree ptr = some h') : HeapPages h' := by
  obtain ⟨bytes, rfl⟩ := kfree_bytes he
  exact hp.bytes bytes

theorem kmalloc_pages (ht : Tiled h l) (hp : HeapPages h) (he : h.kmalloc size = some (r, h')) :
    HeapPages h' := by
  obtain ⟨F, hF⟩ := kmalloc_grown ht hp he
  exact hF.pages

theorem krealloc_pages {ptr : Nat} (ht : Tiled h l) (hp : HeapPages h)
    (he : h.krealloc ptr size = some (r, h')) : HeapPages h' := by
  unfold Heap.krealloc at he
  split at he
  · exact kmalloc_pages ht hp he
  split at he
  · obtain ⟨h₁, hf, he⟩ := Option.map_eq_some_iff.mp he
    cases he
    exact kfree_pages hp hf
  dsimp only at he
  split at he
  · cases he
    exact hp
  obtain ⟨⟨newPtr, h₁⟩, hm, he⟩ := Option.bind_eq_some_iff.mp he
  have hp₁ := kmalloc_pages ht hp hm
  dsimp only at he
  split at he
  · cases he
    exact hp₁
  · obtain ⟨h₂, hf, he⟩ := Option.bind_eq_some_iff.mp he
    cases he
    exact kfree_pages (hp₁.bytes _) hf

/-- The page tables of a heap that was just made. -/
theorem heapInit_pages {phys : Phys} {bytes : Bytes.Mem} (hk : phys.KernelTree)
    (h₀ : Heap.heapInit phys bytes = some h) : HeapPages h := by
  have hb : GrowBase heapStart := ⟨by decide, by decide, by decide⟩
  obtain ⟨r, F, s, he, hg, -⟩ := growLoop_spec hk hb
  unfold Heap.heapInit at h₀
  rw [he] at h₀
  cases r with
  | some i => cases h₀
  | none =>
    cases h₀
    have ha : (heapStart + 65536) % 65536 = 0 := by decide
    exact ⟨ha, hg.tree⟩

namespace HeapClient

variable {c c' : HeapClient} {op : HeapOp}

/-- The size a call asks for; zero for a call that asks for none. -/
def request : HeapOp → Nat
  | .kmalloc size => size
  | .krealloc _ size => size
  | .kfree _ => 0
  | .write _ _ => 0

/-- A call that changed nothing. -/
structure Cancelled (c c' : HeapClient) : Prop where
  live : c'.live = c.live
  heap : c.heap.Same c'.heap

theorem call_pages (ho : Owned c l) (hp : HeapPages c.heap) (he : c.call op = some (r, c')) :
    HeapPages c'.heap := by
  cases op with
  | kmalloc size =>
    obtain ⟨g, hm, he⟩ := Option.map_eq_some_iff.mp ((call_kmalloc c size).symm.trans he)
    cases he
    exact kmalloc_pages ho.tiled hp hm
  | kfree ptr =>
    obtain ⟨g, hf, he⟩ := Option.map_eq_some_iff.mp ((call_kfree c ptr).symm.trans he)
    cases he
    exact kfree_pages hp hf
  | krealloc ptr size =>
    obtain ⟨g, hm, he⟩ := Option.map_eq_some_iff.mp ((call_krealloc c ptr size).symm.trans he)
    cases he
    exact krealloc_pages ho.tiled hp hm
  | write addr v =>
    cases he
    exact hp.bytes _

theorem Reaches.pages {ok : Phys → Prop} (hok : ∀ phys, ok phys → phys.KernelTree)
    (hr : Reaches ok c c') (ho : Owned c l) (hp : HeapPages c.heap) : HeapPages c'.heap := by
  induction hr with
  | start => exact hp
  | step hr' _ hc ih =>
    obtain ⟨l', ho'⟩ := hr'.owned ho
    exact call_pages ho' ih hc
  | elsewhere _ hphys ih => exact ⟨ih.aligned, hok _ hphys⟩

/-- A request that returned `NULL` is a `kmalloc` that did. -/
theorem call_null (ho : Owned c l) (hv : c.Valid op) (hs : request op ≠ 0)
    (he : c.call op = some (0, c')) :
    c'.live = c.live ∧ c.heap.kmalloc (request op) = some (0, c'.heap) := by
  cases op with
  | kmalloc size =>
    obtain ⟨g, hm, he⟩ := Option.map_eq_some_iff.mp ((call_kmalloc c size).symm.trans he)
    obtain ⟨r, h'⟩ := g
    cases he
    exact ⟨rfl, hm⟩
  | kfree ptr => exact absurd rfl hs
  | write addr v => exact absurd rfl hs
  | krealloc ptr size =>
    have h0 : size ≠ 0 := hs
    obtain ⟨g, hm, he⟩ := Option.map_eq_some_iff.mp ((call_krealloc c ptr size).symm.trans he)
    obtain ⟨r, h'⟩ := g
    simp only [h0, ↓reduceIte] at he
    cases he
    refine ⟨rfl, ?_⟩
    rcases hv with rfl | ⟨n, hx⟩
    · rwa [Heap.krealloc, if_pos rfl] at hm
    · obtain ⟨hu, -⟩ := ho.mem_used hx
      have h32 := (ho.holds.block _ hx).1
      obtain ⟨r, h₁, l', hk, -, hcases⟩ := krealloc_spec ho.tiled hu (Nat.pos_of_ne_zero h0)
      simp only at h32 hk hcases
      rw [Nat.sub_add_cancel h32, hm] at hk
      cases hk
      rcases hcases with ⟨-, -, -, -, hk⟩ | ⟨hr, -⟩ | ⟨hr, -⟩
      · exact hk
      · omega
      · omega

/-- **A request that returns `NULL` is cancelled exactly when its first growth step fails**, and
leaves no table behind. -/
theorem heap_request_cancelled {phys : Phys} {bytes : Bytes.Mem} (hk : phys.KernelTree)
    (h₀ : Heap.heapInit phys bytes = some h) {ok : Phys → Prop}
    (hok : ∀ phys, ok phys → phys.KernelTree) (hr : Reaches ok ⟨h, []⟩ c) (hv : c.Valid op)
    (hs : request op ≠ 0) (he : c.call op = some (0, c')) :
    Cancelled c c' ↔ c.heap.Cancels (request op) := by
  have ho₀ := heapInit_owned h₀
  obtain ⟨l, ho⟩ := hr.owned ho₀
  have hp := hr.pages hok ho₀ (heapInit_pages hk h₀)
  obtain ⟨hlive, hm⟩ := call_null ho hv hs he
  rw [← kmalloc_cancels ho.tiled hp hs hm]
  exact ⟨Cancelled.heap, fun hsame => ⟨hlive, hsame⟩⟩

/-- Without free frames no step succeeds. -/
theorem heapGrow_full (ht : Tiled h l) (hp : HeapPages h) (hfree : h.phys.pmm.freePages = 0) :
    ∃ s, h.heapGrow = some (false, { h with phys := s }) := by
  rcases heapGrow_cases ht with ⟨-, he⟩ | ⟨i, s, -, -, he⟩ | ⟨s, bytes, hlt, hl, -, -⟩
  · exact ⟨h.phys, he⟩
  · exact ⟨_, he⟩
  · have hserved := (growLoop_none_iff hp.tree (growBase ht hp hlt)).mp (congrArg Prod.fst hl)
    obtain ⟨k, -, -, hgranted⟩ := hserved.mono (Nat.succ_pos 15)
    have hfirst := (hgranted 0 (show 0 < 1 + k by omega)).2
    omega

/-- A step that takes the last frames. -/
theorem heapGrow_last (ht : Tiled h l) (hp : HeapPages h) (h16 : h.StepServed 16)
    (hfree : h.phys.pmm.freePages = 16) : ∃ s bytes,
    h.heapGrow = some (true, { h with phys := s, bytes, fin := h.fin + 65536 }) ∧
    Tiled { h with phys := s, bytes, fin := h.fin + 65536 } (grow 32 65504 l) ∧
    s.KernelTree ∧ s.pmm.freePages = 0 := by
  have hb := growBase ht hp h16.1
  have hnone := (growLoop_none_iff hp.tree hb).mpr h16.2
  obtain ⟨r, F, s, hl, -, -, -, hdone, -⟩ := growLoop_spec hp.tree hb
  rw [hl] at hnone
  obtain rfl : r = none := hnone
  obtain ⟨hlen, hg⟩ := hdone rfl
  obtain ⟨hlt, k, hmiss, -, hgranted⟩ := h16
  have hk : k = 0 := by
    by_contra hne
    have hlast := (hgranted 16 (show 16 < 16 + k by omega)).2
    omega
  have hleft := (hg.spent (List.ne_nil_of_length_eq_add_one hlen) k hmiss).free
  rcases heapGrow_cases ht with ⟨hc, -⟩ | ⟨i, s', -, hc, -⟩ | ⟨s', bytes, -, hc, he, ht', -⟩
  · omega
  · rw [hl] at hc
    cases hc
  · rw [hl] at hc
    cases hc
    exact ⟨s, bytes, he, ht', hg.grew.tree, by omega⟩

/-- A request that takes two steps: the first takes the last frames, and the second fails. -/
theorem kmallocLoop_two (ht : Tiled h l) (hp : HeapPages h) (h16 : h.StepServed 16)
    (hfree : h.phys.pmm.freePages = 16) (h1 : alloc 32 want heapStart l = none)
    (h2 : alloc 32 want heapStart (grow 32 65504 l) = none) (n : Nat) :
    ∃ h', Heap.kmallocLoop want (n + 2) h = some (0, h') ∧ h'.fin = h.fin + 65536 := by
  obtain ⟨s, bytes, he, ht', hk, hfree'⟩ := heapGrow_last ht hp h16 hfree
  have hfin : (h.fin + 65536) % 65536 = 0 := by
    have := hp.aligned
    omega
  have hp' : HeapPages { h with phys := s, bytes, fin := h.fin + 65536 } := ⟨hfin, hk⟩
  obtain ⟨s', he'⟩ := heapGrow_full ht' hp' hfree'
  refine ⟨{ h with phys := s', bytes, fin := h.fin + 65536 }, ?_, rfl⟩
  rw [kmallocLoop_grow ht h1 (n + 1), he, Option.bind_some, if_pos rfl,
    kmallocLoop_grow ht' h2 n, he']
  rfl

theorem kmalloc_tiny (hl : Heap.growLoop heapStart 16 0 tinyPhys = (none, s))
    (hs : s.PagesServed (heapStart + 65536) 16) (hfree : s.pmm.freePages = 16) :
    ∃ h', (oneBlock s fun _ => 0#8).kmalloc 131072 = some (0, h') ∧
      h'.fin = (oneBlock s fun _ => 0#8).fin + 65536 := by
  have ht := (oneBlock_owned s fun _ => 0#8).tiled
  have hp : HeapPages (oneBlock s fun _ => 0#8) := heapInit_pages tinyPhys_rootOnly.kernelTree
    (heapInit_eq hl)
  have h1 : alloc 32 131072 heapStart [⟨65504, true⟩] = none := by simp [alloc, fits]
  have h2 : alloc 32 131072 heapStart (grow 32 65504 [⟨65504, true⟩]) = none := by
    simp [grow, alloc, fits]
  have hsize : ¬ (131072 = 0 ∨ 131072 > 2 ^ 64 - 1 - 15 - 32) := by decide
  have hwant : Heap.roundUp 131072 = 131072 := by decide
  have hfin : heapStart + 65536 ≤ 2 ^ 64 - 1 - 65536 := by decide
  obtain ⟨n, hn⟩ : ∃ n, (oneBlock s fun _ => 0#8).retries = n + 2 := by
    refine ⟨(2 ^ 64 - 1 - (heapStart + 65536)) / 65536 - 1, ?_⟩
    have h1 : 1 ≤ (2 ^ 64 - 1 - (heapStart + 65536)) / 65536 := by decide
    show (2 ^ 64 - 1 - (heapStart + 65536)) / 65536 + 1 = _
    omega
  unfold Heap.kmalloc
  rw [if_neg hsize, hwant, hn]
  exact kmallocLoop_two ht hp ⟨hfin, hs⟩ hfree h1 h2 n

/-- A request that returns `NULL` keeps the step that succeeded. -/
theorem heap_request_keeps_step : ∃ s h', Heap.heapInit tinyPhys (fun _ => 0#8) =
      some (oneBlock s fun _ => 0#8) ∧
    (oneBlock s fun _ => 0#8).kmalloc 131072 = some (0, h') ∧
    h'.fin = (oneBlock s fun _ => 0#8).fin + 65536 := by
  obtain ⟨s, hl, -, hs, hfree⟩ := tinyPhys_grows
  obtain ⟨h', he, hfin⟩ := kmalloc_tiny hl hs hfree
  exact ⟨s, h', heapInit_eq hl, he, hfin⟩

theorem heap_request_cancelled_tiny : ∃ s c', call ⟨oneBlock s fun _ => 0#8, []⟩ (.kmalloc 131072) =
      some (0, c') ∧
    (Cancelled ⟨oneBlock s fun _ => 0#8, []⟩ c' ↔ (oneBlock s fun _ => 0#8).Cancels 131072) := by
  obtain ⟨s, hl, -, hs, hfree⟩ := tinyPhys_grows
  obtain ⟨h', he, -⟩ := kmalloc_tiny hl hs hfree
  have hr : Reaches Phys.KernelTree ⟨oneBlock s fun _ => 0#8, []⟩ ⟨oneBlock s fun _ => 0#8, []⟩ :=
    .start
  have hv : Valid ⟨oneBlock s fun _ => 0#8, []⟩ (.kmalloc 131072) := trivial
  have hcall : call ⟨oneBlock s fun _ => 0#8, []⟩ (.kmalloc 131072) = some (0, ⟨h', []⟩) := by
    rw [call_kmalloc, he]
    rfl
  have hsize : request (.kmalloc 131072) ≠ 0 := by decide
  exact ⟨s, _, hcall, heap_request_cancelled tinyPhys_rootOnly.kernelTree (heapInit_eq hl)
    (fun _ hp => hp) hr
    hv hsize hcall⟩

end HeapClient

end GenOS
