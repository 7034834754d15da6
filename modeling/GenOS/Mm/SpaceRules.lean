import GenOS.Mm.Spaces
import GenOS.Mm.VmmSpace

/-!
# Rules for the address spaces

How the pieces of a call change `Spaces`: frames are taken (`Spaces.take`), given back
(`Spaces.release`) or written (`Spaces.write`), an owner comes (`Spaces.add`), and an owner's tree
is edited (`Edited`, `Edited.change`).
-/

namespace GenOS.Phys

open Radix Pmm

variable {s s' s'' : Phys} {t t' u : Owner} {os os' os₁ os₂ : List Owner}
variable {shared rest rest' new new' gone : List Nat} {r g a va base : Nat}

/-! ## Frames of no owner -/

/-- The frames `new` were taken from the free ones, and filled. -/
structure Taken (s s' : Phys) (new : List Nat) : Prop where
  moves : Moves s.pmm s'.pmm [] new
  fresh : ∀ f ∈ new, s.pmm.FreeAt f
  nodup : new.Nodup
  mem : ∀ g, g ∉ new → s'.mem g = s.mem g
  kernel : s'.kernelPml4 = s.kernelPml4

theorem Taken.refl (h : s.pmm.Inv) : Taken s s [] :=
  ⟨.refl h, nofun, .nil, fun _ _ => rfl, rfl⟩

theorem Taken.used (h : Taken s s' new) (hg : g ∈ new) : ¬ s'.pmm.FreeAt g := fun hf => by
  have h1 := h.moves.refs g (h.fresh g hg).1
  have h2 := List.count_pos_iff.mpr hg
  have h3 := hf.2
  rw [List.count_nil] at h1
  omega

theorem Taken.trans (h : Taken s s' new) (h' : Taken s' s'' new') :
    Taken s s'' (new ++ new') := by
  have hfree : ∀ f ∈ new', s.pmm.FreeAt f := fun f hf => by
    by_contra hc
    exact h.moves.not_freeAt hc (Nat.zero_le _) (h'.fresh f hf)
  refine ⟨h.moves.trans h'.moves, fun f hf => ?_, ?_, fun g hg => ?_, h'.kernel.trans h.kernel⟩
  · exact (List.mem_append.mp hf).elim (h.fresh f) (hfree f)
  · refine List.nodup_append.mpr ⟨h.nodup, h'.nodup, fun f hf g hg he => ?_⟩
    exact h.used hf (he ▸ h'.fresh g hg)
  · rw [List.mem_append, not_or] at hg
    exact (h'.mem g hg.2).trans (h.mem g hg.1)

/-- A step that touches no table, and moves frames among those of no owner. -/
theorem Spaces.of_tables (h : Spaces s os shared rest) (hk : s'.kernelPml4 = s.kernelPml4)
    (hm : ∀ g ∈ s.allTables os, s'.mem g = s.mem g) (hmv : Moves s.pmm s'.pmm rest rest')
    (hr : ∀ g ∈ rest', g ∈ rest ∨ s.pmm.FreeAt g) : Spaces s' os shared rest' := by
  have hused : ∀ g ∈ s.allTables os, ¬ s'.pmm.FreeAt g := fun g hg => by
    refine hmv.not_freeAt (h.used_table hg) ?_
    rw [List.count_eq_zero_of_not_mem fun hm => (h.apart g hg).1 (List.mem_append_right _ hm)]
    exact Nat.zero_le _
  have htab : ∀ u ∈ os, s'.tables u.pml4 lowerHalf = s.tables u.pml4 lowerHalf := fun u hu =>
    tables_of_mem fun g hg => hm g (mem_allTables hu hg)
  have hkt : s'.kernelTables = s.kernelTables :=
    kernelTables_of_mem hk fun g hg => hm g (List.mem_append_left _ hg)
  have hall : s'.allTables os = s.allTables os := by
    unfold allTables
    rw [hkt, List.flatMap_congr htab]
  refine ⟨h.kernel.of_mem hk (fun g hg => hm g (List.mem_append_left _ hg)) hmv.inv hmv.total
    fun g hg => hused g (List.mem_append_left _ hg), fun u hu => ?_, ?_, fun g hg => ?_,
    fun a ha => ?_⟩
  · exact (h.owner u hu).of_mem (fun g hg => hm g (mem_allTables hu hg)) hmv.inv hmv.total
      (fun g hg => hused g (mem_allTables hu hg)) fun a ha => hmv.tracked.mpr ha
  · rw [hall]
    exact h.tables
  · rw [hall] at hg
    obtain ⟨h1, h2⟩ := h.apart g hg
    refine ⟨fun hm => ?_, h2⟩
    rcases List.mem_append.mp hm with hm | hm
    · exact h1 (List.mem_append_left _ hm)
    · exact (hr g hm).elim (fun hm => h1 (List.mem_append_right _ hm)) (h.used_table hg)
  · have hrefs := hmv.refs a (hmv.tracked.mp ha)
    have hold := h.refs a (hmv.tracked.mp ha)
    have hown : os.flatMap (owned s') = os.flatMap (owned s) := List.flatMap_congr fun u hu => by
      unfold owned
      rw [htab u hu]
    unfold held at hold ⊢
    rw [hkt, hown]
    simp only [List.count_append] at hrefs hold ⊢
    omega

/-- An owner whose tables and pages keep their contents. -/
theorem Spaces.unaffected_of_mem (h : Spaces s os shared rest) (hu : u ∈ os)
    (hm : ∀ g, ¬ s.pmm.FreeAt g → s'.mem g = s.mem g) : Unaffected s s' u :=
  ⟨fun _ hva => translate_of_mem (fun g hg => hm g (h.used_table (mem_allTables hu hg))) hva,
    fun _ hva _ _ hp => hm _ (h.leaf_frame hu hva hp).1⟩

theorem Taken.mem_used (h : Taken s s' new) (hf : ¬ s.pmm.FreeAt g) : s'.mem g = s.mem g :=
  h.mem g fun hg => hf (h.fresh g hg)

theorem Spaces.take (h : Spaces s os shared rest) (ht : Taken s s' new) :
    Spaces s' os shared (new ++ rest) ∧ ∀ u ∈ os, Unaffected s s' u := by
  refine ⟨h.of_tables ht.kernel (fun g hg => ht.mem_used (h.used_table hg)) ?_ fun g hg => ?_,
    fun u hu => h.unaffected_of_mem hu fun g hg => ht.mem_used hg⟩
  · simpa using ht.moves.frame rest
  · exact (List.mem_append.mp hg).elim (fun hg => .inr (ht.fresh g hg)) .inl

theorem Spaces.release (h : Spaces s os shared (gone ++ rest)) (hk : s'.kernelPml4 = s.kernelPml4)
    (hm : s'.mem = s.mem) (hmv : Moves s.pmm s'.pmm gone []) : Spaces s' os shared rest :=
  h.of_tables hk (fun g _ => by rw [hm]) (by simpa using hmv.frame rest) fun _ hg =>
    .inl (List.mem_append_right _ hg)

theorem Spaces.count_rest_le (h : Spaces s os shared rest) (ha : s.pmm.Tracked a) :
    rest.count a ≤ s.pmm.refcounts (a / 4096) := by
  rw [h.refs a ha]
  unfold held
  simp only [List.count_append]
  omega

theorem Spaces.perm (h : Spaces s os shared rest) (hp : os.Perm os') (hr : rest.Perm rest') :
    Spaces s os' shared rest' := by
  refine ⟨h.kernel, fun t ht => h.owner t (hp.mem_iff.mpr ht), (allTables_perm hp).nodup_iff.mp
    h.tables, fun g hg => ?_, fun a ha => ?_⟩
  · obtain ⟨h1, h2⟩ := h.apart g ((allTables_perm hp).mem_iff.mpr hg)
    exact ⟨fun hm => h1 ((hr.append_left shared).mem_iff.mpr hm), fun u hu =>
      h2 u (hp.mem_iff.mpr hu)⟩
  · rw [h.refs a ha]
    exact ((((hp.flatMap_right _).append (hr.append_left shared))).append_left _).count_eq a

/-- Frames that are no tables are written. -/
theorem Spaces.write (h : Spaces s os shared rest) (hk : s'.kernelPml4 = s.kernelPml4)
    (hp : s'.pmm = s.pmm) (hm : ∀ g ∈ s.allTables os, s'.mem g = s.mem g) :
    Spaces s' os shared rest :=
  h.of_tables hk hm (by rw [hp]; exact .refl h.inv) fun _ hg => .inl hg

/-! ## Owners come and go -/

/-- The frames of an owner, as frames of nobody in particular. -/
theorem Spaces.disown (h : Spaces s (os₁ ++ t :: os₂) shared rest) :
    Spaces s (os₁ ++ os₂) shared (owned s t ++ rest) := by
  have hnd := h.tables
  rw [(allTables_middle s t).nodup_iff] at hnd
  refine ⟨h.kernel, fun u hu => h.owner u (mem_middle hu), (List.nodup_append.mp hnd).2.1,
    fun g hg => ?_, fun a ha => ?_⟩
  · obtain ⟨h1, h2⟩ := h.apart g (mem_allTables_middle hg t)
    refine ⟨fun hm => ?_, fun u hu => h2 u (mem_middle hu)⟩
    rcases List.mem_append.mp hm with hm | hm
    · exact h1 (List.mem_append_left _ hm)
    rcases List.mem_append.mp hm with hm | hm
    · rcases List.mem_append.mp hm with hm | hm
      · exact h.tables_disjoint hg hm
      · exact h2 t (List.mem_append_right _ List.mem_cons_self) hm
    · exact h1 (List.mem_append_right _ hm)
  · rw [h.refs a ha]
    unfold held
    simp only [List.flatMap_append, List.flatMap_cons, List.count_append]
    omega

theorem Created.taken (h : Created s s' a) : Taken s s' [a] :=
  ⟨h.moves, fun _ hf => by rw [List.mem_singleton.mp hf]; exact h.free, List.nodup_singleton a,
    fun g hg => h.mem g fun he => hg (List.mem_singleton.mpr he), h.kernel⟩

theorem Created.translate (h : Created s s' a) (hva : va < 0x800000000000) :
    s'.translate a va = none := by
  have hdead : (s'.mem a (indexAt va 3)).has ptePresent = false := by
    rw [h.empty _ (mem_lowerHalf.mp (index_lower hva))]
    exact dead_zero
  exact translate_of_none (path_of_dead hdead)

/-- **An owner comes**, with an empty address space. -/
theorem Spaces.add (h : Spaces s os shared rest) (hc : Created s s' a) (ha : a ≠ 0)
    (ht : t.pml4 = a) (hp : t.userPages = []) :
    Spaces s' (t :: os) shared rest ∧ ∀ u ∈ os, Unaffected s s' u := by
  subst ht
  obtain ⟨h', hun⟩ := h.take hc.taken
  have htab := hc.tables
  have hnew : t.pml4 ∉ s.held os shared rest := fun hm => h.not_free hm hc.free
  have hused : ¬ s'.pmm.FreeAt t.pml4 := hc.taken.used (List.mem_singleton_self _)
  have hfresh : t.pml4 ∉ s'.allTables os := fun hm => (h'.apart _ hm).1 (by simp)
  have hperm : (s'.allTables (t :: os)).Perm (t.pml4 :: s'.allTables os) := by
    have := @allTables_middle [] os s' t
    rwa [htab] at this
  refine ⟨⟨h'.kernel, fun u hu => ?_, ?_, fun g hg => ?_, fun b hb => ?_⟩, hun⟩
  · rcases List.mem_cons.mp hu with rfl | hu
    · refine ⟨ha, ⟨h'.inv, h'.small, ?_, fun g hg => ?_⟩, fun g hg => ?_, fun p hm => ?_, ?_,
        fun va hva _ p flags hm => ?_, fun va hva p flags hm => ?_⟩
      · rw [htab]
        exact List.nodup_singleton _
      · rw [htab, List.append_nil] at hg
        rw [List.mem_singleton.mp hg]
        exact hused
      · rw [htab] at hg
        exact .inl (List.mem_singleton.mp hg)
      · rw [hp] at hm
        exact absurd hm List.not_mem_nil
      · rw [hp]
        exact .nil
      · rw [hc.translate hva] at hm
        cases hm
      · rw [hc.translate hva] at hm
        cases hm
    · exact h'.owner u hu
  · rw [hperm.nodup_iff]
    exact List.nodup_cons.mpr ⟨hfresh, h'.tables⟩
  · have hpages : ∀ u ∈ t :: os, g ∈ u.userPages.map PageRecord.phys → u ∈ os := fun u hu hm => by
      rcases List.mem_cons.mp hu with rfl | hu
      · rw [hp] at hm
        exact absurd hm List.not_mem_nil
      · exact hu
    rcases List.mem_cons.mp (hperm.mem_iff.mp hg) with rfl | hg
    · refine ⟨fun hm => hnew (mem_held_others hm), fun u hu hm => ?_⟩
      exact hnew (mem_held_page (hpages u hu hm) hm)
    · obtain ⟨h1, h2⟩ := h'.apart g hg
      refine ⟨fun hm => h1 ?_, fun u hu hm => h2 u (hpages u hu hm) hm⟩
      rcases List.mem_append.mp hm with hm | hm
      · exact List.mem_append_left _ hm
      · exact List.mem_append_right _ (List.mem_append_right _ hm)
  · rw [h'.refs b hb]
    unfold held
    have hown : owned s' t = [t.pml4] := by
      unfold owned
      rw [htab, hp]
      rfl
    simp only [List.flatMap_cons, hown, List.count_append]
    omega

/-! ## Edits of a tree -/

/-- The tree of an owner was edited: its lower half maps as `f` says. -/
structure Edited (s s' : Phys) (r : Nat) (f : AddrMap) : Prop where
  eff : Eff r lowerHalf s [] s' []
  full : s'.Full r lowerHalf (· = r)
  map : ∀ va < 0x800000000000, s'.translate r va = f va

/-- What the records of an owner have to say about a map. -/
structure Records (t : Owner) (shared : List Nat) (tracked : Nat → Prop) (f : AddrMap) :
    Prop where
  mapped : ∀ p ∈ t.userPages, p.vaddr % 4096 = 0 ∧ p.vaddr < 0x800000000000 ∧ tracked p.phys ∧
    ∃ flags, f p.vaddr = some (BitVec.ofNat 64 p.phys, flags)
  distinct : (t.userPages.map PageRecord.vaddr).Nodup
  leaves : ∀ va < 0x800000000000, va % 4096 = 0 → ∀ p flags, f va = some (p, flags) →
    ⟨p.toNat, va⟩ ∈ t.userPages ∨ (InAttachment t va ∧ p.toNat ∈ shared)
  written : ∀ va < 0x800000000000, ∀ p flags, f va = some (p, flags) →
    flags.has pteWrite = true → flags.has pteCow = false

theorem OwnerOk.recorded (h : OwnerOk s t shared) :
    Records t shared s.pmm.Tracked (s.translate t.pml4) :=
  ⟨fun p hp => by obtain ⟨h1, h2, h3, h4⟩ := h.records p hp; exact ⟨h1, h2, h3, h4⟩, h.distinct,
    h.leaves, h.written⟩

namespace Records

variable {f : AddrMap} {tracked : Nat → Prop} {new : List PageRecord} {base count : Nat}
variable {flags : Word}

/-- The map of frames that fit a leaf. -/
theorem ofNat_phys {p : PageRecord} (h : p.phys < 2 ^ 64) :
    (BitVec.ofNat 64 p.phys).toNat = p.phys :=
  Nat.mod_eq_of_lt h

/-- **Pages are mapped and recorded.** -/
theorem insert (h : Records t shared tracked f) (hu : base % 4096 = 0)
    (htop : base + new.length * 4096 ≤ 0x800000000000)
    (hfree : ∀ va, InRange base new.length va → f va = none)
    (hv : ∀ i p, new[i]? = some p → p.vaddr = base + i * 4096)
    (htr : ∀ p ∈ new, tracked p.phys ∧ p.phys < 2 ^ 64)
    (hfl : flags.has pteWrite = true → flags.has pteCow = false)
    (hp : t'.userPages = t.userPages ++ new) (ha : t'.shmAttached = t.shmAttached) :
    Records t' shared tracked
      (f.insert base (new.map fun p => BitVec.ofNat 64 p.phys) flags) := by
  -- a page of the range is a new one, any other is as before
  have hin : ∀ va, InRange base new.length va → ∃ p, new[(va - base) / 4096]? = some p ∧
      f.insert base (new.map fun p => BitVec.ofNat 64 p.phys) flags va =
        some (BitVec.ofNat 64 p.phys, flags) := fun va hva => by
    have hlt : (va - base) / 4096 < new.length := by
      obtain ⟨h1, h2⟩ := hva
      omega
    refine ⟨_, List.getElem?_eq_getElem hlt, ?_⟩
    unfold AddrMap.insert
    rw [if_pos (by rw [List.length_map]; exact hva), List.getElem?_map,
      List.getElem?_eq_getElem hlt]
    rfl
  have hout : ∀ va, ¬ InRange base new.length va →
      f.insert base (new.map fun p => BitVec.ofNat 64 p.phys) flags va = f va := fun va hva =>
    if_neg (by rw [List.length_map]; exact hva)
  have hold : ∀ p ∈ t.userPages, ¬ InRange base new.length p.vaddr := fun p hm hr => by
    obtain ⟨-, -, -, fl, hf⟩ := h.mapped p hm
    rw [hfree _ hr] at hf
    cases hf
  have hnew : ∀ (i : Nat) (p : PageRecord), new[i]? = some p → InRange base new.length p.vaddr :=
      fun i p hi => by
    have hlt := (List.getElem?_eq_some_iff.mp hi).1
    rw [hv i p hi]
    exact ⟨by omega, by omega⟩
  refine ⟨fun p hm => ?_, ?_, fun va hva hal p fl hm => ?_, fun va hva p fl hm => ?_⟩
  · rw [hp] at hm
    rcases List.mem_append.mp hm with hm | hm
    · obtain ⟨h1, h2, h3, fl, h4⟩ := h.mapped p hm
      exact ⟨h1, h2, h3, fl, (hout _ (hold p hm)).trans h4⟩
    · obtain ⟨i, hi, rfl⟩ := List.getElem_of_mem hm
      have hvi := hv i _ (List.getElem?_eq_getElem hi)
      obtain ⟨q, hq, hf⟩ := hin _ (hnew i _ (List.getElem?_eq_getElem hi))
      have hidx : (new[i].vaddr - base) / 4096 = i := by omega
      rw [hidx, List.getElem?_eq_getElem hi] at hq
      cases hq
      exact ⟨by omega, by omega, (htr _ hm).1, flags, hf⟩
  · rw [hp, List.map_append]
    refine List.nodup_append.mpr ⟨h.distinct, List.nodup_iff_injective_getElem.mpr ?_,
      fun a hao b hb he => ?_⟩
    · intro i j hij
      have hi := i.2
      have hj := j.2
      simp only [List.length_map] at hi hj
      simp only [List.getElem_map] at hij
      rw [hv i _ (List.getElem?_eq_getElem hi), hv j _ (List.getElem?_eq_getElem hj)] at hij
      exact Fin.ext (by omega)
    · obtain ⟨p, hpm, rfl⟩ := List.mem_map.mp hao
      obtain ⟨q, hqm, rfl⟩ := List.mem_map.mp hb
      obtain ⟨i, hi, rfl⟩ := List.getElem_of_mem hqm
      exact hold p hpm (he ▸ hnew i _ (List.getElem?_eq_getElem hi))
  · have hatt : InAttachment t va → InAttachment t' va := fun ⟨a, hm, hx⟩ => ⟨a, ha ▸ hm, hx⟩
    by_cases hr : InRange base new.length va
    · obtain ⟨q, hq, hf⟩ := hin va hr
      rw [hf] at hm
      cases hm
      have hqm := List.mem_of_getElem? hq
      have hvq := hv _ q hq
      obtain ⟨hr1, hr2⟩ := hr
      refine .inl ?_
      rw [hp, ofNat_phys (htr q hqm).2, show va = q.vaddr by omega]
      exact List.mem_append_right _ hqm
    · rw [hout va hr] at hm
      refine (h.leaves va hva hal p fl hm).imp (fun hx => ?_) fun hx => ⟨hatt hx.1, hx.2⟩
      rw [hp]
      exact List.mem_append_left _ hx
  · by_cases hr : InRange base new.length va
    · obtain ⟨q, -, hf⟩ := hin va hr
      rw [hf] at hm
      cases hm
      exact hfl
    · rw [hout va hr] at hm
      exact h.written va hva p fl hm

/-- **The pages of a range are unmapped**, and their records go. -/
theorem erase (h : Records t shared tracked f)
    (hp : ∀ p, p ∈ t'.userPages ↔ p ∈ t.userPages ∧ ¬ InRange base count p.vaddr)
    (hd : (t'.userPages.map PageRecord.vaddr).Nodup) (ha : t'.shmAttached = t.shmAttached) :
    Records t' shared tracked (f.erase base count) := by
  have hmap : ∀ va p, f.erase base count va = some p → ¬ InRange base count va ∧ f va = some p :=
    fun va p hm => by
      unfold AddrMap.erase at hm
      split at hm
      · cases hm
      · next hr => exact ⟨hr, hm⟩
  refine ⟨fun p hm => ?_, hd, fun va hva hal p fl hm => ?_, fun va hva p fl hm => ?_⟩
  · obtain ⟨hm, hr⟩ := (hp p).mp hm
    obtain ⟨h1, h2, h3, fl, h4⟩ := h.mapped p hm
    exact ⟨h1, h2, h3, fl, (if_neg hr).trans h4⟩
  · obtain ⟨hr, hm⟩ := hmap va _ hm
    refine (h.leaves va hva hal p fl hm).imp
      (fun hx => (hp _).mpr ⟨hx, hr⟩) fun ⟨⟨a, ham, hx⟩, hs⟩ => ?_
    exact ⟨⟨a, ha ▸ ham, hx⟩, hs⟩
  · exact h.written va hva p fl (hmap va _ hm).2

end Records

/-- **An edit is a change**, when the new records go with the new map. -/
theorem Edited.change {f : AddrMap} (he : Edited s s' t.pml4 f)
    (h : Spaces s (os₁ ++ t :: os₂) shared rest) (ht : t'.pml4 = t.pml4)
    (hr : Records t' shared s.pmm.Tracked f)
    (hp : (t'.userPages.map PageRecord.phys ++ rest').Perm
      (t.userPages.map PageRecord.phys ++ rest)) : Change s s' t t' shared rest rest' := by
  have htm : t ∈ os₁ ++ t :: os₂ := List.mem_append_right _ List.mem_cons_self
  have ho := h.owner t htm
  have hmv : Moves s.pmm s'.pmm (s.tables t.pml4 lowerHalf) (s'.tables t.pml4 lowerHalf) := by
    simpa using he.eff.moves
  have hfresh : ∀ g ∈ s'.tables t.pml4 lowerHalf, g ∈ s.tables t.pml4 lowerHalf ∨ s.pmm.FreeAt g :=
    fun g hg => by simpa using he.eff.fresh g (List.mem_append_left _ hg)
  refine ⟨⟨?_, ?_, ?_, fun p hm => ?_, hr.distinct, ?_, ?_⟩, he.eff.kernel, ?_, fun g hg hf => ?_,
    fun g hg => ?_, fun g hg => ?_⟩
  · rw [ht]
    exact ho.root
  · rw [ht]
    exact he.eff.tree
  · rw [ht]
    exact he.full
  · obtain ⟨h1, h2, h3, flags, h4⟩ := hr.mapped p hm
    exact ⟨h1, h2, hmv.tracked.mpr h3, flags, by rw [ht, he.map _ h2]; exact h4⟩
  · intro va hva ha p flags hm
    rw [ht, he.map _ hva] at hm
    exact hr.leaves va hva ha p flags hm
  · intro va hva p flags hm
    rw [ht, he.map _ hva] at hm
    exact hr.written va hva p flags hm
  · refine (hmv.frame (t.userPages.map PageRecord.phys ++ rest)).perm ?_ ?_
    · unfold owned
      rw [List.append_assoc]
    · unfold owned
      rw [ht, List.append_assoc]
      exact hp.symm.append_left _
  · exact he.eff.mem g (by simpa using hg) hf
  · rw [ht] at hg
    exact hfresh g hg
  · have hg' := hp.mem_iff.mp hg
    have hheld : g ∈ s.held (os₁ ++ t :: os₂) shared rest := by
      rcases List.mem_append.mp hg' with hg' | hg'
      · exact mem_held_page htm hg'
      · exact mem_held_others (List.mem_append_right _ hg')
    refine ⟨fun hgt => ?_, .inl hg'⟩
    rw [ht] at hgt
    rcases hfresh g hgt with hgt | hf
    · obtain ⟨h1, h2⟩ := h.apart g (mem_allTables htm hgt)
      rcases List.mem_append.mp hg' with hg' | hg'
      · exact h2 t htm hg'
      · exact h1 (List.mem_append_right _ hg')
    · exact h.not_free hheld hf

/-! ### The edits -/

variable {pages : List Word} {flags p : Word} {count : Nat}

/-- A page-aligned range of user space. -/
structure UserRange (base count : Nat) : Prop where
  pos : 0 < count
  aligned : base % 4096 = 0
  top : base + count * 4096 ≤ 0x800000000000

/-- A base with room for a guard page is a range. -/
theorem Candidate.userRange {start stop count b : Nat}
    (h : Candidate s t start stop ((count + 1) * 4096) b) (hc : 0 < count)
    (hstop : stop ≤ 0x800000000000) : UserRange b count := by
  have hspan : b + count * 4096 ≤ b + (count + 1) * 4096 := by omega
  obtain ⟨-, h2, h3, -⟩ := h
  exact ⟨hc, h3, Nat.le_trans hspan (Nat.le_trans h2 hstop)⟩

namespace UserRange

theorem valid (h : UserRange base count) (hc : count < 2 ^ 32) : validRange base count = true :=
  (validRange_iff hc).mpr ⟨Nat.pos_iff_ne_zero.mp h.pos, h.aligned, .inl h.top⟩

theorem index (h : UserRange base count) :
    ∀ a, base ≤ a → a ≤ base + (count - 1) * 4096 → indexAt a 3 ∈ lowerHalf.idx := fun a _ h2 =>
  index_lower (by have := h.top; have := h.pos; omega)

theorem page (h : UserRange base count) {i : Nat} (hi : i < count) :
    canonical (base + i * 4096) = true ∧ (base + i * 4096) % 4096 = 0 := by
  have h1 := h.aligned
  have h2 := h.top
  exact ⟨canonical_lower (by omega), by omega⟩

end UserRange

theorem RangeMapped.edited (ho : OwnerOk s t shared)
    (h : RangeMapped t.pml4 lowerHalf s s' (fun i => base + i * 4096) pages flags)
    (hu : UserRange base pages.length) :
    Edited s s' t.pml4 ((s.translate t.pml4).insert base pages flags) :=
  ⟨h.eff, h.full _ ho.full, fun _ hva =>
    h.translate (fun _ hi => hu.page hi) (canonical_lower hva) (index_lower hva)⟩

/-- `vmm_map_pages_in` for an owner. -/
theorem mapPages_edited (ho : OwnerOk s t shared) (hu : UserRange base pages.length)
    (hc : pages.length < 2 ^ 32) (flags : Word) :
    (∃ s', s.vmmMapPagesIn t.pml4 base pages flags = (false, s') ∧
      Edited s s' t.pml4 (s.translate t.pml4) ∧ Moves s.pmm s'.pmm [] []) ∨
    ∃ s', s.vmmMapPagesIn t.pml4 base pages flags = (true, s') ∧
      RangeMapped t.pml4 lowerHalf s s' (fun i => base + i * 4096) pages flags := by
  rcases vmmMapPagesIn_spec ho.tree ho.root hc (hu.valid hc) hu.index flags with
    ⟨s', he, hf⟩ | ⟨s', he, hm⟩
  · exact .inl ⟨s', he, ⟨hf.eff, hf.full lowerOnly_lowerHalf _ rfl ho.full, fun va hva =>
      translate_congr (hf.view _ (inRange_indexAt va) (index_lower hva))⟩,
      hf.refs lowerOnly_lowerHalf ho.full⟩
  · exact .inr ⟨s', he, hm⟩

/-- `vmm_unmap_pages_in` for an owner. -/
theorem unmapPages_edited (ho : OwnerOk s t shared) (hu : UserRange base count)
    (hc : count < 2 ^ 32) : Edited s (s.vmmUnmapPagesIn t.pml4 base count).2 t.pml4
      ((s.translate t.pml4).erase base count) := by
  have h := vmmUnmapPagesIn_spec ho.tree ho.root hc (hu.valid hc) hu.index
  exact ⟨h.eff, h.full _ (lowerOnly_lowerHalf.top rfl) ho.full, fun va hva =>
    h.translate (inPages_iff hc (hu.valid hc) (canonical_lower hva)) (index_lower hva)
      (canonical_lower hva)⟩

/-- `vmm_map_page_in` for an owner. -/
theorem mapPage_edited (ho : OwnerOk s t shared) (hva : va < 0x800000000000) (p flags : Word) :
    (∃ s', s.vmmMapPageIn t.pml4 va p flags = (false, s') ∧
      Edited s s' t.pml4 (s.translate t.pml4) ∧ Moves s.pmm s'.pmm [] []) ∨
    ∃ s', s.vmmMapPageIn t.pml4 va p flags = (true, s') ∧
      RangeMapped t.pml4 lowerHalf s s' (fun i => va + i * 4096) [p] flags := by
  rcases mapPage_spec ho.tree ho.root (index_lower hva) p flags with ⟨s', he, hu⟩ | ⟨s', es, he, hm⟩
  · exact .inl ⟨s', he, ⟨hu.eff, hu.full ho.full, fun b hb =>
      translate_congr (hu.view _ (inRange_indexAt b) (index_lower hb))⟩, hu.refs⟩
  · exact .inr ⟨s', he, hm.range (index_lower hva)⟩

end GenOS.Phys
