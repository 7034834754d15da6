import GenOS.Mm.CowClone
import GenOS.Mm.CowExact
import GenOS.Mm.NewPage
import GenOS.Mm.OwnerEnd
import GenOS.Mm.VmmVisit

/-!
# Mapping the pages of the parent in the child

The visit of `cow_clone_address_space`: each page of the parent is mapped in the child, a private
page with one more reference, write-protected, and with a record (`clonePage_step`). Until the child
has its attachments, `Owner.twin` stands for it: the child's records with the attachments of the
parent.
-/

namespace GenOS

open Phys Pmm

variable {c c' : HeapClient} {s s' : Phys} {m : Shm} {o o' child tw tw' : Owner}
  {os os₁ os₂ : List Owner}
variable {shared rest rest' ps : List Nat} {va f : Nat} {w p flags : Word}
  {records : List PageRecord}

/-! ## Rules -/

/-- A page of shared memory is mapped. -/
theorem Phys.Records.share {tracked : Nat → Prop} {g : AddrMap} (h : Records o shared tracked g)
    (ha : va % 4096 = 0) (hfree : ∀ b, InRange va 1 b → g b = none) (hin : InAttachment o va)
    (hp : p.toNat ∈ shared) (hfl : flags.has pteWrite = true → flags.has pteCow = false) :
    Records o shared tracked (g.insert va [p] flags) := by
  have hcase : ∀ b, (InRange va 1 b ∧ g.insert va [p] flags b = some (p, flags)) ∨
      (¬ InRange va 1 b ∧ g.insert va [p] flags b = g b) := fun b => by
    unfold AddrMap.insert
    by_cases hb : InRange va 1 b
    · refine .inl ⟨hb, ?_⟩
      have hb' : va ≤ b ∧ b < va + [p].length * 4096 := hb
      rw [if_pos hb', show (b - va) / 4096 = 0 by obtain ⟨h1, h2⟩ := hb; omega]
      rfl
    · exact .inr ⟨hb, if_neg hb⟩
  refine ⟨fun r hr => ?_, h.distinct, fun b hb hab q fl hq => ?_, fun b hb q fl hq => ?_⟩
  · obtain ⟨h1, h2, h3, fl, h4⟩ := h.mapped r hr
    refine ⟨h1, h2, h3, fl, ?_⟩
    rcases hcase r.vaddr with ⟨hin, -⟩ | ⟨-, he⟩
    · rw [hfree _ hin] at h4
      cases h4
    · rw [he, h4]
  · rcases hcase b with ⟨⟨h1, h2⟩, he⟩ | ⟨-, he⟩
    · rw [he] at hq
      cases hq
      rw [show b = va by omega]
      exact .inr ⟨hin, hp⟩
    · exact h.leaves b hb hab q fl (he ▸ hq)
  · rcases hcase b with ⟨-, he⟩ | ⟨-, he⟩
    · rw [he] at hq
      cases hq
      exact hfl
    · exact h.written b hb q fl (he ▸ hq)

/-- **A page gets one more reference**, which nobody in particular holds. -/
theorem Memory.ref (h : Memory c os shared rest ps) (hf : f ∉ c.phys.allTables os)
    (hmv : Moves c.phys.pmm s.pmm [] [f]) (hm : s.mem = c.phys.mem)
    (hk : s.kernelPml4 = c.phys.kernelPml4) :
    Memory (c.setPhys s) os shared (f :: rest) ps ∧ Stable c (c.setPhys s) os := by
  have hs := h.spaces
  have htab : ∀ I r, s.tables r I = c.phys.tables r I := fun I r => by
    unfold tables
    rw [hm]
  have hall : s.allTables os = c.phys.allTables os := by
    unfold allTables
    rw [kernelTables_of_mem hk fun g _ => by rw [hm]]
    exact congrArg _ (List.flatMap_congr fun u _ => htab ..)
  have hused : ∀ g ∈ c.phys.allTables os, ¬ s.pmm.FreeAt g := fun g hg =>
    hmv.not_freeAt (hs.used_table hg) (by rw [List.count_nil]; exact Nat.zero_le _)
  have hown : os.flatMap (owned s) = os.flatMap (owned c.phys) := List.flatMap_congr fun u _ => by
    unfold owned
    rw [htab]
  have hspaces : Spaces s os shared (c.heap.frames ++ f :: rest) := by
    refine ⟨hs.kernel.of_mem hk (fun g _ => by rw [hm]) hmv.inv hmv.total
      fun g hg => hused g (List.mem_append_left _ hg), fun u hu => ?_, hall ▸ hs.tables,
      fun g hg => ?_,
      fun a ha => ?_⟩
    · exact (hs.owner u hu).of_mem (fun g _ => by rw [hm]) hmv.inv hmv.total
        (fun g hg => hused g (mem_allTables hu hg)) fun a ha => hmv.tracked.mpr ha
    · rw [hall] at hg
      obtain ⟨h1, h2⟩ := hs.apart g hg
      refine ⟨fun hx => ?_, h2⟩
      rw [List.mem_append, List.mem_append, List.mem_cons] at hx
      rw [List.mem_append, List.mem_append] at h1
      rcases hx with hx | hx | rfl | hx
      · exact h1 (.inl hx)
      · exact h1 (.inr (.inl hx))
      · exact hf hg
      · exact h1 (.inr (.inr hx))
    · have h1 := hmv.refs a (hmv.tracked.mp ha)
      have h2 := hs.refs a (hmv.tracked.mp ha)
      unfold held at h2 ⊢
      rw [hown, kernelTables_of_mem hk fun g _ => by rw [hm]]
      simp only [List.count_append, List.count_cons, List.count_nil] at h1 h2 ⊢
      omega
  exact ⟨h.setPhys hspaces hk fun g _ => by rw [hm], .setPhys hk (fun g _ => by rw [hm]) hmv
    fun u hu => hs.unaffected_of_mem hu fun g _ => by rw [hm]⟩

/-! ## The child while its pages are mapped -/

/-- The child with these records, and with the attachments of its parent. -/
def Owner.twin (child o : Owner) (records : List PageRecord) : Owner :=
  { child with userPages := records, shmAttached := o.shmAttached }

/-- The state of the visit: `tw` stands for the child, `lost` are frames with a reference that it
does not record yet, and the tables of the parent `o` are as they were. -/
structure Twinned (c : HeapClient) (os : List Owner) (o tw : Owner)
    (shared lost rest ps : List Nat) (s : Phys) :
    Prop where
  memory : Memory (c.setPhys s) (os ++ [tw]) shared (lost ++ rest) ps
  work : Work c.phys s os (c.phys.tables tw.pml4 lowerHalf) (lost ++ owned s tw)
  tables : ∀ g ∈ c.phys.tables o.pml4 lowerHalf, s.mem g = c.phys.mem g

namespace Twinned

variable {lost' : List Nat}

theorem stable (h : Twinned c os o tw shared lost rest ps s) : Stable c (c.setPhys s) os :=
  .setPhys h.work.kernel h.work.mem h.work.moves h.work.unaffected

/-- The visit took what the child has beyond its tables. -/
theorem trade (h : Twinned c os o tw shared lost rest ps s) :
    Trade c (c.setPhys s) (c.phys.tables tw.pml4 lowerHalf) (lost ++ owned s tw) :=
  .setPhys h.work.kernel h.work.mem h.work.moves

theorem change (h : Twinned c os o tw shared lost rest ps s) (ho : o ∈ os) (hr : tw'.pml4 = tw.pml4)
    (hc : Change s s' tw tw' shared ((c.setPhys s).heap.frames ++ (lost ++ rest))
      ((c.setPhys s).heap.frames ++ (lost' ++ rest))) :
    Twinned c os o tw' shared lost' rest ps s' := by
  have hm : Memory (c.setPhys s) (os ++ tw :: []) shared (lost ++ rest) ps := h.memory
  obtain ⟨hm', -⟩ := hm.update hc
  refine ⟨hm', ?_, fun g hg => ?_⟩
  · have hw : Work s s' os (owned s tw ++ ((c.setPhys s).heap.frames ++ (lost ++ rest)))
        (owned s' tw' ++ ((c.setPhys s).heap.frames ++ (lost' ++ rest))) :=
      (hm.spaces.change_work hc).mono fun u hu => List.mem_append_left _ hu
    rw [hr]
    refine h.work.comp (hw.congr fun a _ => ?_)
    simp only [List.count_append]
    omega
  · have htab : s.tables o.pml4 lowerHalf = c.phys.tables o.pml4 lowerHalf := tables_of_mem h.tables
    exact (hm.spaces.owner_mem hc (by rwa [List.append_nil]) g (htab.symm ▸ hg)).trans
      (h.tables g hg)

theorem ref (h : Twinned c os o tw shared lost rest ps s) (hf : f ∉ s.allTables (os ++ [tw]))
    (hmv : Moves s.pmm s'.pmm [] [f]) (hm : s'.mem = s.mem) (hk : s'.kernelPml4 = s.kernelPml4) :
    Twinned c os o tw shared (f :: lost) rest ps s' := by
  obtain ⟨hm', hst⟩ := h.memory.ref hf hmv hm hk
  have htab : s'.tables tw.pml4 lowerHalf = s.tables tw.pml4 lowerHalf :=
    tables_of_mem fun g _ => by rw [hm]
  have hown : owned s' tw = owned s tw := by
    unfold owned
    rw [htab]
  have hw : Work s s' os [] [f] := ⟨hk, fun g _ => by rw [hm], hmv, fun u hu =>
    hst.unaffected u (List.mem_append_left _ hu)⟩
  refine ⟨hm', ?_, fun g hg => by rw [hm]; exact h.tables g hg⟩
  rw [hown]
  exact h.work.comp (hw.frame (lost ++ owned s tw))

theorem unref (h : Twinned c os o tw shared (f :: lost) rest ps s) :
    Twinned c os o tw shared lost rest ps (s.freeFrame f) := by
  have hm : Memory (c.setPhys s) (os ++ [tw]) shared ([f] ++ (lost ++ rest)) ps := h.memory
  obtain ⟨hm', hst⟩ := hm.freeFrames
  have hw : Work s (s.freeFrame f) os [f] [] :=
    ⟨rfl, fun _ _ => rfl, hm.freeFrames_moves, fun u hu =>
    hst.unaffected u (List.mem_append_left _ hu)⟩
  exact ⟨hm', h.work.comp (hw.frame (lost ++ owned s tw)), h.tables⟩

end Twinned

/-! ## The map of the child -/

/-- The page has a record: it is private. -/
def isPrivate (o : Owner) (va phys : Nat) : Bool := (privateIndex o va phys).isSome

theorem isPrivate_iff : isPrivate o va f = true ↔ ⟨f, va⟩ ∈ o.userPages := by
  unfold isPrivate
  constructor
  · intro h
    obtain ⟨i, hi⟩ := Option.isSome_iff_exists.mp h
    exact List.mem_of_getElem? (privateIndex_some hi)
  · intro h
    cases hi : privateIndex o va f with
    | some i => rfl
    | none =>
      have := List.findIdx?_eq_none_iff.mp hi _ h
      simp at this

/-- What the child sees of a page: a private one is write-protected. -/
def cloneView (o : Owner) (va : Nat) (p flags : Word) : Word × Word :=
  (p, if isPrivate o (va / 4096 * 4096) p.toNat then cowShare flags else flags)

/-- The records of the pages that were visited. -/
def cloneRecords (o : Owner) (M : List (Nat × Word)) : List PageRecord := M.filterMap fun x =>
  if isPrivate o x.1 (vmmPteAddress x.2).toNat then some ⟨(vmmPteAddress x.2).toNat, x.1⟩ else none

/-- After the visit of the pages `M`. -/
structure Visited (c : HeapClient) (os : List Owner) (o child : Owner) (shared rest ps : List Nat)
    (M : List (Nat × Word)) (x : Phys × List PageRecord) : Prop where
  twin : Twinned c os o (child.twin o x.2) shared [] rest ps x.1
  map : ∀ va < 0x800000000000, x.1.translate child.pml4 va =
    if va / 4096 * 4096 ∈ M.map Prod.fst then
      (c.phys.translate o.pml4 va).map fun q => cloneView o va q.1 q.2
    else none
  records : x.2 = cloneRecords o M

/-- The bits of shared flags. -/
theorem getLsbD_cowShare (flags : Word) {k : Nat} (hk : k < 64) : (cowShare flags).getLsbD k =
    if k = 1 then false else if k =
      9 then flags.getLsbD 1 || flags.getLsbD 9 else flags.getLsbD k := by
  have hand := @Word.and_ofBits flags [1, 9] [] (by decide) (by simp)
  rw [show Word.ofBits [1, 9] = pteWrite ||| pteCow by decide] at hand
  unfold cowShare
  cases hh : flags.has (pteWrite ||| pteCow) with
  | true =>
    have hor : (flags.getLsbD 1 || flags.getLsbD 9) = true := by
      by_contra hne
      simp only [Bool.or_eq_true, not_or, Bool.not_eq_true] at hne
      have : flags &&& (pteWrite ||| pteCow) = 0#64 := hand.mpr fun k hk => by
        rcases List.mem_pair.mp hk with rfl | rfl
        · exact hne.1
        · exact hne.2
      rw [Word.has, this] at hh
      cases hh
    rw [if_pos rfl, hor, BitVec.getLsbD_or, BitVec.getLsbD_and, BitVec.getLsbD_not,
      pteWrite, pteCow,
      Word.getLsbD_shift, Word.getLsbD_shift]
    by_cases h1 : k = 1
    · subst h1
      simp
    · by_cases h9 : k = 9
      · subst h9
        simp
      · simp [h1, h9, hk]
  | false =>
    have h0 : flags &&& (pteWrite ||| pteCow) = 0#64 := by
      rw [Word.has, bne_eq_false_iff_eq] at hh
      exact hh
    have hbits := hand.mp h0
    have h1 : flags.getLsbD 1 = false := by simpa using hbits 1 (by decide)
    have h9 : flags.getLsbD 9 = false := by simpa using hbits 9 (by decide)
    rw [if_neg Bool.false_ne_true, h1, h9]
    split
    · next hk1 => rw [hk1, h1]
    split
    · next hk9 => rw [hk9, h9, Bool.or_false]
    · rfl

theorem cowShare_write (flags : Word) : (cowShare flags).has pteWrite = false := by
  rw [Word.has_write, getLsbD_cowShare flags (by decide), if_pos rfl]

theorem cowShare_nx (flags : Word) : (cowShare flags).has pteNx = flags.has pteNx := by
  rw [Word.has_nx, getLsbD_cowShare flags (by decide), if_neg (by decide),
    if_neg (by decide), Word.has_nx]

theorem cowShare_cow (flags : Word) :
    (cowShare flags).has pteCow = (flags.has pteWrite || flags.has pteCow) := by
  rw [Word.has_cow, getLsbD_cowShare flags (by decide), if_neg (by decide), if_pos rfl,
    Word.has_write,
    Word.has_cow]

/-! ## One page -/

theorem cloneRecords_snoc (o : Owner) (M : List (Nat × Word)) (x : Nat × Word) :
    cloneRecords o (M ++ [x]) = cloneRecords o M ++
      if isPrivate o x.1
        (vmmPteAddress x.2).toNat then [⟨(vmmPteAddress x.2).toNat, x.1⟩] else [] := by
  unfold cloneRecords
  rw [List.filterMap_append]
  congr 1
  rw [List.filterMap_cons, List.filterMap_nil]
  split
  · next h =>
    split at h
    · cases h
    · next hn => rw [if_neg hn]
  · next h =>
    split at h
    · next hp =>
      cases h
      rw [if_pos hp]
    · cases h

section Step

variable {M R : List (Nat × Word)} {x : Phys × List PageRecord}

/-- What the visit of the page `va` starts from. -/
structure Visiting (c : HeapClient) (os : List Owner) (o child : Owner) (shared rest ps : List Nat)
    (M : List (Nat × Word)) (x : Phys × List PageRecord) (va : Nat) (w : Word) : Prop where
  visited : Visited c os o child shared rest ps M x
  parent : o ∈ os
  aligned : va % 4096 = 0
  user : va < 0x800000000000
  page : c.phys.translate o.pml4 va = some (vmmPteAddress w, w &&& pteFlagMask)
  new : va ∉ M.map Prod.fst

namespace Visiting

variable (h : Visiting c os o child shared rest ps M x va w)

include h

/-- The page is not mapped in the child yet. -/
theorem unmapped {b : Nat} (hb : InRange va 1 b) : x.1.translate child.pml4 b = none := by
  have hal := h.aligned
  have hu := h.user
  obtain ⟨h1, h2⟩ := hb
  rw [h.visited.map b (by omega), show b / 4096 * 4096 = va by omega, if_neg h.new]

theorem ok : OwnerOk x.1 (child.twin o x.2) shared :=
  h.visited.twin.memory.spaces.owner _ (List.mem_append_right _ List.mem_cons_self)

/-- A step of the map. -/
theorem map_step
    (hv :
      (if isPrivate o va (vmmPteAddress w).toNat then cowShare
        (w &&& pteFlagMask) else w &&& pteFlagMask) =
      flags)
    (hm : ∀ b < 0x800000000000, s'.translate child.pml4 b =
      (x.1.translate child.pml4).insert va [vmmPteAddress w] flags b) :
    ∀ b < 0x800000000000, s'.translate child.pml4 b =
      if b / 4096 * 4096 ∈ (M ++ [(va, w)]).map Prod.fst then
        (c.phys.translate o.pml4 b).map fun q => cloneView o b q.1 q.2
      else none := fun b hb => by
  have hal := h.aligned
  rw [hm b hb, List.map_append, List.map_singleton]
  unfold AddrMap.insert
  by_cases hin : b / 4096 * 4096 = va
  · rw [if_pos (by simp only [List.length_singleton]; omega),
      show (b - va) / 4096 = 0 by omega, hin,
      if_pos (List.mem_append_right _ (List.mem_singleton.mpr rfl)),
      translate_page (show b / 4096 = va / 4096 by omega),
      h.page]
    unfold cloneView
    rw [hin]
    simp only [List.getElem?_cons_zero, Option.map_some, hv]
  · rw [if_neg (by simp only [List.length_singleton]; omega), h.visited.map b hb]
    simp only [List.mem_append, List.mem_singleton, hin, or_false]

end Visiting

namespace Visiting

/-- The child has the page, or nothing is left of the attempt. -/
def Tried (c : HeapClient) (os : List Owner) (o child : Owner) (shared rest ps : List Nat)
    (M : List (Nat × Word)) (va : Nat) (w : Word) (r : Bool × Phys × List PageRecord) : Prop :=
  (r.1 = true → Visited c os o child shared rest ps (M ++ [(va, w)]) r.2) ∧
  (r.1 = false → Twinned c os o (child.twin o r.2.2) shared [] rest ps r.2.1)

variable {records : List PageRecord}

theorem userRange (h : Visiting c os o child shared rest ps M x va w) :
    UserRange va [vmmPteAddress w].length := ⟨Nat.one_pos, h.aligned, by
  have := h.aligned
  have := h.user
  simp only [List.length_singleton]
  omega⟩

/-- A page of an attachment is mapped as it is. -/
theorem mapShared (h : Visiting c os o child shared rest ps M (s, records) va w)
    (hok : OwnerOk c.phys o shared) (hpriv : isPrivate o va (vmmPteAddress w).toNat = false)
    (hcow : (w &&& pteFlagMask).has pteCow = false) :
    Tried c os o child shared rest ps M va w
      ((s.vmmMapPageIn child.pml4 va (vmmPteAddress w) (w &&& pteFlagMask)).1,
        (s.vmmMapPageIn child.pml4 va (vmmPteAddress w) (w &&& pteFlagMask)).2, records) := by
  have hV := h.visited
  have hold : Twinned c os o (child.twin o records) shared [] rest ps s := hV.twin
  have hmem : Memory (c.setPhys s) (os ++ child.twin o records :: []) shared rest ps := hold.memory
  obtain ⟨hin, hsh⟩ : InAttachment o va ∧ (vmmPteAddress w).toNat ∈ shared := by
    refine (hok.leaves va h.user h.aligned _ _ h.page).resolve_left fun hm => ?_
    rw [isPrivate_iff.mpr hm] at hpriv
    cases hpriv
  rcases mapPage_edited h.ok h.user (vmmPteAddress w) (w &&& pteFlagMask) with
    ⟨s', he, hed, -⟩ | ⟨s', he, hmap⟩
  · have he : s.vmmMapPageIn child.pml4 va (vmmPteAddress w) (w &&& pteFlagMask) =
      (false, s') := he
    rw [he]
    exact ⟨nofun, fun _ => hold.change h.parent rfl (hmem.edit hed rfl h.ok.recorded (.refl _))⟩
  · have he : s.vmmMapPageIn child.pml4 va (vmmPteAddress w) (w &&& pteFlagMask) =
      (true, s') := he
    have hed := @RangeMapped.edited _ _ _ _ va _ _ h.ok hmap h.userRange
    rw [he]
    have hrec : Records (child.twin o records) shared s.pmm.Tracked
        ((s.translate child.pml4).insert va [vmmPteAddress w] (w &&& pteFlagMask)) :=
      Records.share h.ok.recorded h.aligned (fun b hb => h.unmapped hb) hin hsh fun _ => hcow
    refine ⟨fun _ => ⟨hold.change h.parent rfl (hmem.edit hed rfl hrec (.refl _)), ?_, ?_⟩, nofun⟩
    · exact h.map_step (by rw [hpriv]; rfl) hed.map
    · rw [cloneRecords_snoc, hpriv, if_neg Bool.false_ne_true, List.append_nil]
      exact hV.records

/-- The record of a private page that was counted, in the child. -/
theorem privateRecords {q : Pmm} (h : Visiting c os o child shared rest ps M (s, records) va w)
    (hok : OwnerOk ({ s with pmm := q } : Phys) (child.twin o records) shared)
    (htk : q.Tracked (vmmPteAddress w).toNat) :
    Records (child.twin o (records ++ [⟨(vmmPteAddress w).toNat, va⟩])) shared q.Tracked
      ((s.translate child.pml4).insert va [vmmPteAddress w] (cowShare (w &&& pteFlagMask))) := by
  have hal := Word.address_aligned w
  have hrec : Records (child.twin o (records ++ [⟨(vmmPteAddress w).toNat, va⟩])) shared q.Tracked
      ((s.translate child.pml4).insert va
        (([⟨(vmmPteAddress w).toNat, va⟩] : List PageRecord).map fun p =>
          BitVec.ofNat 64 p.phys) (cowShare (w &&& pteFlagMask))) := by
    refine hok.recorded.insert h.aligned h.userRange.top (fun b hb => h.unmapped hb)
      (fun i p hi => ?_) (fun p hp => ?_) (fun hw => ?_) rfl rfl
    · obtain ⟨rfl, rfl⟩ : i = 0 ∧ p = ⟨(vmmPteAddress w).toNat, va⟩ := by
        cases i with
        | zero => exact ⟨rfl, by simpa using hi.symm⟩
        | succ i => simp at hi
      exact (Nat.add_zero _).symm
    · rw [List.mem_singleton.mp hp]
      exact ⟨htk, Nat.lt_trans hal.2 (by decide)⟩
    · rw [cowShare_write] at hw
      cases hw
  rwa [List.map_singleton, BitVec.ofNat_toNat, BitVec.setWidth_eq] at hrec

/-- A private page is mapped once it has another reference, which goes again if it is not. -/
theorem mapPrivate {q : Pmm} (h : Visiting c os o child shared rest ps M (s, records) va w)
    (hpriv : isPrivate o va (vmmPteAddress w).toNat = true)
    (hmv : Moves s.pmm q [] [(vmmPteAddress w).toNat])
    (htk : s.pmm.Tracked (vmmPteAddress w).toNat) :
    Tried c os o child shared rest ps M va w
      (match ({ s with pmm := q } : Phys).vmmMapPageIn child.pml4 va (vmmPteAddress w)
          (cowShare (w &&& pteFlagMask)) with
        | (false, s') => (false, s'.freeFrame (vmmPteAddress w).toNat, records)
        | (true, s') => (true, s', records ++ [⟨(vmmPteAddress w).toNat, va⟩])) := by
  have hV := h.visited
  have hold : Twinned c os o (child.twin o records) shared [] rest ps s := hV.twin
  have hmem : Memory (c.setPhys s) (os ++ child.twin o records :: []) shared rest ps := hold.memory
  -- the frame behind the page is no table
  have htr : s.translate o.pml4 va = some (vmmPteAddress w, w &&& pteFlagMask) :=
    (translate_of_mem hold.tables h.user).trans h.page
  obtain ⟨-, hnt⟩ := hmem.spaces.leaf_frame (List.mem_append_left _ h.parent) h.user htr
  have h₁ : Twinned c os o (child.twin o records) shared [(vmmPteAddress w).toNat] rest ps
      { s with pmm := q } := hold.ref hnt hmv rfl rfl
  have hmem₁ : Memory (c.setPhys { s with pmm := q }) (os ++ child.twin o records :: []) shared
      ((vmmPteAddress w).toNat :: rest) ps := h₁.memory
  have hok₁ : OwnerOk ({ s with pmm := q } : Phys) (child.twin o records) shared :=
    hmem₁.spaces.owner _ (List.mem_append_right _ List.mem_cons_self)
  rcases mapPage_edited hok₁ h.user (vmmPteAddress w) (cowShare (w &&& pteFlagMask)) with
    ⟨s', he, hed, -⟩ | ⟨s', he, hmap⟩
  · have he : ({ s with pmm := q } : Phys).vmmMapPageIn child.pml4 va (vmmPteAddress w)
      (cowShare (w &&& pteFlagMask)) = (false, s') := he
    rw [he]
    exact ⟨nofun,
      fun _ => (h₁.change h.parent rfl (hmem₁.edit hed rfl hok₁.recorded (.refl _))).unref⟩
  · have he : ({ s with pmm := q } : Phys).vmmMapPageIn child.pml4 va (vmmPteAddress w)
      (cowShare (w &&& pteFlagMask)) = (true, s') := he
    have hed := @RangeMapped.edited _ _ _ _ va _ _ hok₁ hmap h.userRange
    have hrec := h.privateRecords hok₁ (hmv.tracked.mpr htk)
    rw [he]
    refine ⟨fun _ => ⟨h₁.change h.parent rfl (hmem₁.edit hed rfl hrec ?_), ?_, ?_⟩, nofun⟩
    · unfold Owner.twin
      rw [List.map_append, List.append_assoc]
      exact .refl _
    · exact h.map_step (by rw [hpriv]; rfl) hed.map
    · rw [cloneRecords_snoc, hpriv, if_pos rfl]
      exact congrArg (· ++ [_]) hV.records

end Visiting

/-- **One page of the parent is mapped in the child**, or nothing is left of the attempt. -/
theorem clonePage_step (h : Visiting c os o child shared rest ps M x va w)
    (hok : OwnerOk c.phys o shared) :
    ((clonePage m o child va w x).1 = true →
      Visited c os o child shared rest ps (M ++ [(va, w)]) (clonePage m o child va w x).2) ∧
    ((clonePage m o child va w x).1 = false →
      Twinned c os o (child.twin o (clonePage m o child va w x).2.2) shared [] rest ps
        (clonePage m o child va w x).2.1) := by
  obtain ⟨s, records⟩ := x
  have hstay : Visiting.Tried c os o child shared rest ps M va w (false, s, records) :=
    ⟨nofun, fun _ => h.visited.twin⟩
  have hofNat : BitVec.ofNat 64 (vmmPteAddress w).toNat = vmmPteAddress w := BitVec.ofNat_toNat ..
  show Visiting.Tried c os o child shared rest ps M va w (clonePage m o child va w (s, records))
  unfold clonePage
  dsimp only
  rw [hofNat]
  split
  · exact hstay
  cases hp : privateIndex o va (vmmPteAddress w).toNat with
  | none =>
    have hpriv : isPrivate o va (vmmPteAddress w).toNat = false := by
      unfold isPrivate
      rw [hp]
      rfl
    dsimp only
    split
    · exact hstay
    next hcow =>
    simp only [not_or, Bool.not_eq_true, Bool.not_eq_false] at hcow
    exact h.mapShared hok hpriv hcow.1
  | some index =>
    have hpriv : isPrivate o va (vmmPteAddress w).toNat = true := by
      unfold isPrivate
      rw [hp]
      rfl
    dsimp only
    split
    · exact hstay
    unfold refFrame
    rcases refPage_moves h.visited.twin.memory.spaces.inv (vmmPteAddress w).toNat with
      he | ⟨he, htk, -, hmv⟩
    · have he : s.pmm.pmmRefPage (vmmPteAddress w).toNat = (false, s.pmm) := he
      rw [he]
      exact hstay
    · obtain ⟨q, hq⟩ : ∃ q, s.pmm.pmmRefPage (vmmPteAddress w).toNat = (true, q) :=
        ⟨_, Prod.ext he rfl⟩
      have hmv : Moves s.pmm (s.pmm.pmmRefPage (vmmPteAddress w).toNat).2 []
        [(vmmPteAddress w).toNat] := hmv
      rw [hq] at hmv ⊢
      exact h.mapPrivate hpriv hmv htk

end Step

end GenOS
