import GenOS.Mm.Shm
import GenOS.Mm.UserAlloc

/-!
# Shared frames in the address spaces

Rules of `Memory` for what `Spaces` leaves to shared memory: frames move between `shared` and `rest`
(`Memory.reshare`), an attachment is mapped (`Records.attach`, `Layout.attach`) or unmapped
(`Records.detach`, `Layout.detach`). `Stable` is what a call leaves to those it is not about.
-/

namespace GenOS

open Phys Pmm Radix

variable {c c' c'' : HeapClient} {s s' : Phys} {t t' : Owner} {os os₁ os₂ : List Owner}
variable {shared shared' rest rest' ps : List Nat} {base count slot : Nat} {a : ShmAttach}

/-! ## What others see -/

/-- The kernel half only grew, and the owners see nothing. -/
structure Stable (c c' : HeapClient) (os : List Owner) : Prop where
  keeps : ∀ g ∈ c.kernelFrames, g ∈ c'.kernelFrames
  total : c'.phys.pmm.totalPages = c.phys.pmm.totalPages
  reserved : ∀ i, c'.phys.pmm.Reserved i ↔ c.phys.pmm.Reserved i
  unaffected : ∀ u ∈ os, Unaffected c.phys c'.phys u

namespace Stable

theorem refl : Stable c c os := ⟨fun _ h => h, rfl, fun _ => Iff.rfl, fun _ _ => .refl⟩

theorem trans (h : Stable c c' os) (h' : Stable c' c'' os) : Stable c c'' os :=
  ⟨fun g hg => h'.keeps g (h.keeps g hg), h'.total.trans h.total,
    fun i => (h'.reserved i).trans (h.reserved i),
    fun u hu => (h.unaffected u hu).trans (h'.unaffected u hu)⟩

theorem mono {os' : List Owner} (h : Stable c c' os) (ho : ∀ u ∈ os', u ∈ os) : Stable c c' os' :=
  ⟨h.keeps, h.total, h.reserved, fun u hu => h.unaffected u (ho u hu)⟩

theorem tracked (h : Stable c c' os) {a : Nat} : c'.phys.pmm.Tracked a ↔ c.phys.pmm.Tracked a := by
  refine ⟨fun ⟨h1, h2, h3⟩ => ⟨h1, h.total ▸ h2, fun hr => h3 ((h.reserved _).mpr hr)⟩,
    fun ⟨h1, h2, h3⟩ => ⟨h1, h.total.symm ▸ h2, fun hr => h3 ((h.reserved _).mp hr)⟩⟩

end Stable

theorem Steady.stable (h : Steady c c' os) : Stable c c' os := by
  obtain ⟨G, hG⟩ := h.retains
  exact ⟨hG.keeps, hG.moves.total, hG.moves.reserved, h.unaffected⟩

/-- Physical memory changed, but not the kernel half. -/
theorem Stable.setPhys {gone new : List Nat} (hk : s.kernelPml4 = c.phys.kernelPml4)
    (hm : ∀ g ∈ c.phys.kernelTables, s.mem g = c.phys.mem g)
    (hmv : Moves c.phys.pmm s.pmm gone new) (hu : ∀ u ∈ os, Unaffected c.phys s u) :
    Stable c (c.setPhys s) os := by
  refine ⟨fun g hg => ?_, hmv.total, hmv.reserved, hu⟩
  have hf : (c.setPhys s).heap.frames = c.heap.frames := Heap.frames_congr hk hm
  unfold HeapClient.kernelFrames at hg ⊢
  rwa [hf, HeapClient.phys_setPhys, kernelTables_of_mem hk hm]

/-! ## References that change hands -/

/-- The kernel heap took the frame `g`, which nobody held beyond the references `gone`. -/
structure HeapTook (c c' : HeapClient) (gone : List Nat) (g : Nat) : Prop where
  now : g ∈ c'.kernelFrames
  before : g ∉ c.kernelFrames
  tracked : c.phys.pmm.Tracked g
  unheld : c.phys.pmm.refcounts (g / 4096) ≤ gone.count g

/-- The references `gone` were given back and `new` were taken. Besides, the kernel heap may have
taken frames for itself. -/
structure Trade (c c' : HeapClient) (gone new : List Nat) : Prop where
  moves : ∃ G : List Nat, Moves c.phys.pmm c'.phys.pmm gone (new ++ G) ∧ G.Nodup ∧ ∀ g ∈ G,
    HeapTook c c' gone g
  keeps : ∀ g ∈ c.kernelFrames, g ∈ c'.kernelFrames

namespace Trade

variable {A B C : List Nat}

theorem refl (h : c.phys.pmm.Inv) : Trade c c A A := by
  refine ⟨⟨[], ?_, .nil, nofun⟩, fun _ hg => hg⟩
  rw [List.append_nil]
  exact .refl h

theorem trans (h : Trade c c' A B) (h' : Trade c' c'' B C) : Trade c c'' A C := by
  obtain ⟨G, hG, hnd, hk⟩ := h.moves
  obtain ⟨G', hG', hnd', hk'⟩ := h'.moves
  refine ⟨⟨G' ++ G, ?_, ?_, fun g hg => ?_⟩, fun g hg => h'.keeps g (h.keeps g hg)⟩
  · rw [← List.append_assoc]
    exact hG.comp (hG'.frame G)
  · exact List.nodup_append.mpr
      ⟨hnd', hnd, fun a ha b hb he => (hk' a ha).before (he ▸ (hk b hb).now)⟩
  · rcases List.mem_append.mp hg with hg | hg
    · obtain ⟨h1, h2, h3, h4⟩ := hk' g hg
      have ht := hG.tracked.mp h3
      -- what the first trade took is still held
      have hrefs := hG.refs g ht
      rw [List.count_append] at hrefs
      exact ⟨h1, fun hx => h2 (h.keeps g hx), ht, by omega⟩
    · exact ⟨h'.keeps g (hk g hg).now, (hk g hg).before, (hk g hg).tracked, (hk g hg).unheld⟩

theorem perm {A' B' : List Nat} (h : Trade c c' A B) (hA : A.Perm A') (hB : B.Perm B') :
    Trade c c' A' B' := by
  obtain ⟨G, hG, hnd, hk⟩ := h.moves
  exact ⟨⟨G, hG.perm hA (hB.append_right G), hnd,
    fun g hg => ⟨(hk g hg).now, (hk g hg).before, (hk g hg).tracked,
    hA.count_eq g ▸ (hk g hg).unheld⟩⟩, h.keeps⟩

theorem frame (h : Trade c c' A B) (C : List Nat) : Trade c c' (A ++ C) (B ++ C) := by
  obtain ⟨G, hG, hnd, hk⟩ := h.moves
  refine ⟨⟨G, (hG.frame C).congr fun a _ => ?_, hnd, fun g hg => ⟨(hk g hg).now, (hk g hg).before,
    (hk g hg).tracked, ?_⟩⟩, h.keeps⟩
  · simp only [List.count_append]
    omega
  · have := (hk g hg).unheld
    rw [List.count_append]
    omega

/-- When no reference changed hands, the heap took free frames. -/
theorem retains (h : Trade c c' [] []) : ∃ G, Retains c c' G := by
  obtain ⟨G, hG, hnd, hk⟩ := h.moves
  exact ⟨G, fun g hg => ⟨(hk g hg).tracked, Nat.le_zero.mp (hk g hg).unheld⟩, hnd, hG,
    fun g hg => (hk g hg).now,
    h.keeps⟩

end Trade

/-- Physical memory changed, but not the kernel half. -/
theorem Trade.setPhys {gone new : List Nat} (hk : s.kernelPml4 = c.phys.kernelPml4)
    (hm : ∀ g ∈ c.phys.kernelTables, s.mem g = c.phys.mem g)
    (hmv : Moves c.phys.pmm s.pmm gone new) :
    Trade c (c.setPhys s) gone new := by
  have hst : Stable c (c.setPhys s) [] := .setPhys hk hm hmv nofun
  exact ⟨⟨[], by rwa [List.append_nil], .nil, nofun⟩, hst.keeps⟩

/-- Only the heap's own words changed. -/
theorem Stable.trade (h : Stable c c' os) (hp : c'.phys = c.phys) (hi : c.phys.pmm.Inv) :
    Trade c c' [] [] :=
  ⟨⟨[], by rw [hp]; exact .refl hi, .nil, nofun⟩, h.keeps⟩

/-- The heap may have grown. -/
theorem Steady.trade (h : Steady c c' os) (hm : Memory c os shared rest ps) : Trade c c' [] [] := by
  obtain ⟨G, hG⟩ := h.retains
  refine ⟨⟨G, hG.moves, hG.nodup, fun g hg => ⟨hG.kernel g hg, fun hk => ?_, (hG.fresh g hg).1,
    Nat.le_of_eq (hG.fresh g hg).2⟩⟩, hG.keeps⟩
  rcases List.mem_append.mp hk with hk | hk
  · exact hm.kernel_used hk (hG.fresh g hg)
  · exact hm.spaces.not_free (mem_held_others (List.mem_append_right _ (List.mem_append_left _ hk)))
      (hG.fresh g hg)

/-- The heap does not write to the tables of the owners. -/
theorem Memory.kmalloc_owned (h : Memory c os shared rest ps) {size r : Nat}
    (he : c.kmalloc size = some (r, c'))
    (ht : t ∈ os) : owned c'.phys t = owned c.phys t := by
  obtain ⟨r', c'', F, he', hg, -⟩ := h.holding.kmalloc size
  rw [he] at he'
  cases he'
  have hnd := List.nodup_append.mp h.spaces.tables
  have htab : c'.phys.tables t.pml4 lowerHalf = c.phys.tables t.pml4 lowerHalf :=
    tables_of_mem fun g hgt =>
    (hg.phys.others g (fun hk => hnd.2.2 g hk g (List.mem_flatMap.mpr ⟨t, ht, hgt⟩) rfl)
      ((h.spaces.owner t ht).tree.used_table hgt)).1
  unfold owned
  rw [htab]

theorem userPagesReserve_owned {u u' : UserTask} {count : Nat} {ok : Bool}
    (h : UserOk c os₁ os₂ u shared rest ps)
    (he : userPagesReserve c u count = some (ok, c', u')) (ht : t ∈ os₁ ++ u.toOwner :: os₂) :
    owned c'.phys t = owned c.phys t := by
  unfold userPagesReserve at he
  split at he
  · cases he
    rfl
  split at he
  · cases he
    rfl
  generalize doubled count u.userPageCapacity = capacity at he
  obtain ⟨data, c₁, he₁, -, hm⟩ := h.memory.kmalloc (capacity * 2 * 8)
  have hown := h.memory.kmalloc_owned he₁ ht
  simp only [he₁, Option.bind_eq_bind, Option.bind_some] at he
  split at he
  · cases he
    exact hown
  next hd =>
  split at he
  · -- the old arrays go
    next hb =>
    rw [if_neg hd] at hm
    unfold UserTask.blocks at hm
    rw [if_neg hb] at hm
    obtain ⟨c₂, he₂, hp, -⟩ := (hm.perm (.refl _) (.refl _) (.swap ..)).kfree
    rw [he₂] at he
    cases he
    rw [hp, hown]
  · cases he
    exact hown

/-! ## Frames that become shared, or stop to be -/

/-- Every attached page of the owner is shared. -/
def SharedIn (s : Phys) (t : Owner) (shared : List Nat) : Prop :=
  ∀ va < 0x800000000000, ∀ p flags, s.translate t.pml4 va = some (p, flags) →
    InAttachment t va → p.toNat ∈ shared

theorem Phys.OwnerOk.reshare (h : OwnerOk s t shared) (hs : SharedIn s t shared') :
    OwnerOk s t shared' :=
  ⟨h.root, h.tree, h.full, h.records, h.distinct, fun va hva ha p flags hp =>
    (h.leaves va hva ha p flags hp).imp_right fun hx => ⟨hx.1, hs va hva p flags hp hx.1⟩,
    h.written⟩

theorem Phys.Spaces.reshare (h : Spaces s os shared rest)
    (hp : (shared' ++ rest').Perm (shared ++ rest)) (hs : ∀ t ∈ os, SharedIn s t shared') :
    Spaces s os shared' rest' :=
  ⟨h.kernel, fun t ht => (h.owner t ht).reshare (hs t ht), h.tables, fun g hg =>
    ⟨fun hm => (h.apart g hg).1 (hp.mem_iff.mp hm), (h.apart g hg).2⟩, fun a ha => by
      rw [h.refs a ha]
      exact ((hp.symm.append_left _).append_left _).count_eq a⟩

/-- **Frames move between shared memory and the other holders.** -/
theorem Memory.reshare (h : Memory c os shared rest ps)
    (hp : (shared' ++ rest').Perm (shared ++ rest)) (hs : ∀ t ∈ os, SharedIn c.phys t shared') :
    Memory c os shared' rest' ps := by
  refine ⟨h.spaces.reshare ?_ hs, h.holding⟩
  have hswap : ∀ A B C : List Nat, (A ++ (B ++ C)).Perm (B ++ (A ++ C)) := fun A B C =>
    List.perm_append_comm_assoc A B C
  exact (hswap ..).trans ((hp.append_left _).trans (hswap ..))

/-! ## Slots -/

/-- A slot of a list, and the list with another value in the slot. -/
theorem split_slot {α : Type} {l : List α} {i : Nat} {x : α} (h : l[i]? = some x) :
    ∃ l₁ l₂, l = l₁ ++ x :: l₂ ∧ l₁.length = i ∧ ∀ y, l.set i y = l₁ ++ y :: l₂ := by
  obtain ⟨hi, rfl⟩ := List.getElem?_eq_some_iff.mp h
  refine ⟨l.take i, l.drop (i + 1), ?_, List.length_take_of_le (Nat.le_of_lt hi), fun y => ?_⟩
  · rw [← List.drop_eq_getElem_cons hi, List.take_append_drop]
  · rw [List.set_eq_take_append_cons_drop, if_pos hi]

theorem recordsOf_attached {l₁ l₂ : List ShmAttach} {x : ShmAttach}
    (h : t.shmAttached = l₁ ++ x :: l₂) : (recordsOf t).Perm
      ((if 0 ≤ x.shmid then [(x.vaddr, x.pageCount)] else []) ++
        recordsOf { t with shmAttached := l₁ ++ l₂ }) := by
  unfold recordsOf
  rw [h]
  simp only [List.filter_append, List.filter_cons, List.map_append]
  split
  · next hx =>
    rw [if_pos (of_decide_eq_true hx)]
    simp only [List.map_cons, List.singleton_append]
    rw [← List.append_assoc, ← List.append_assoc]
    exact List.perm_middle
  · next hx =>
    rw [if_neg fun hc => hx (decide_eq_true hc)]
    exact .refl _

/-! ## An attachment -/

/-- The slot of an owner takes another record. -/
structure Reslot (t t' : Owner) (slot : Nat) (old new : ShmAttach) : Prop where
  found : t.shmAttached[slot]? = some old
  attached : t'.shmAttached = t.shmAttached.set slot new
  root : t'.pml4 = t.pml4
  records : t'.userPages = t.userPages
  allocations : t'.allocations = t.allocations

namespace Reslot

variable {old new : ShmAttach}

theorem split (h : Reslot t t' slot old new) : ∃ l₁ l₂, t.shmAttached = l₁ ++ old :: l₂ ∧
    t'.shmAttached = l₁ ++ new :: l₂ := by
  obtain ⟨l₁, l₂, h1, -, h2⟩ := split_slot h.found
  exact ⟨l₁, l₂, h1, h.attached.trans (h2 new)⟩

/-- What was in another slot is still there. -/
theorem inAttachment (h : Reslot t t' slot old new) {va : Nat} (hi : InAttachment t va)
    (hne : 0 ≤ old.shmid → ¬ (old.vaddr ≤ va ∧ va < old.vaddr + old.pageCount.toNat * 4096)) :
    InAttachment t' va := by
  obtain ⟨l₁, l₂, h1, h2⟩ := h.split
  obtain ⟨a, ha, hid, hva⟩ := hi
  refine ⟨a, ?_, hid, hva⟩
  rw [h1] at ha
  rw [h2]
  rcases List.mem_append.mp ha with ha | ha
  · exact List.mem_append_left _ ha
  rcases List.mem_cons.mp ha with rfl | ha
  · exact absurd hva (hne hid)
  · exact List.mem_append_right _ (List.mem_cons_of_mem _ ha)

theorem new_mem (h : Reslot t t' slot old new) : new ∈ t'.shmAttached := by
  obtain ⟨l₁, l₂, -, h2⟩ := h.split
  rw [h2]
  exact List.mem_append_right _ List.mem_cons_self

/-- An attachment of the new owner is the new one or another of the old ones. -/
theorem mem (h : Reslot t t' slot old new) {a : ShmAttach} (ha : a ∈ t'.shmAttached) :
    a = new ∨ a ∈ t.shmAttached := by
  obtain ⟨l₁, l₂, h1, h2⟩ := h.split
  rw [h2] at ha
  rw [h1]
  rcases List.mem_append.mp ha with ha | ha
  · exact .inr (List.mem_append_left _ ha)
  · exact (List.mem_cons.mp ha).imp_right fun ha =>
      List.mem_append_right _ (List.mem_cons_of_mem _ ha)

end Reslot

namespace Phys.Records

variable {f : AddrMap} {tracked : Nat → Prop} {old new : ShmAttach}
  {pages : List Word} {flags : Word}

/-- **Shared pages are mapped**, and attached. -/
theorem attach (h : Records t shared tracked f) (hs : Reslot t t' slot old new)
    (hold : old.shmid < 0) (hnew : 0 ≤ new.shmid) (hc : new.pageCount.toNat = pages.length)
    (hfree : ∀ va, InRange new.vaddr pages.length va → f va = none)
    (hp : ∀ p ∈ pages, p.toNat ∈ shared) (hfl : flags.has pteWrite = true →
      flags.has pteCow = false) :
    Records t' shared tracked (f.insert new.vaddr pages flags) := by
  have hout : ∀ va, ¬ InRange new.vaddr pages.length va →
      f.insert new.vaddr pages flags va = f va := fun va hva => if_neg hva
  have hin : ∀ va p fl, InRange new.vaddr pages.length va →
      f.insert new.vaddr pages flags va = some (p, fl) → p ∈ pages ∧
      fl = flags := fun va p fl hr hm => by
    unfold AddrMap.insert at hm
    rw [if_pos (show _ ∧ _ from hr)] at hm
    obtain ⟨q, hq, he⟩ := Option.map_eq_some_iff.mp hm
    cases he
    exact ⟨List.mem_of_getElem? hq, rfl⟩
  have hkeep : ∀ va, InAttachment t va → InAttachment t' va := fun va hi =>
    hs.inAttachment hi fun hc => absurd hold (by omega)
  refine ⟨fun p hm => ?_, by rw [hs.records]; exact h.distinct, fun va hva hal p fl hm => ?_,
    fun va hva p fl hm => ?_⟩
  · rw [hs.records] at hm
    obtain ⟨h1, h2, h3, fl, h4⟩ := h.mapped p hm
    refine ⟨h1, h2, h3, fl, (hout _ fun hr => ?_).trans h4⟩
    rw [hfree _ hr] at h4
    cases h4
  · by_cases hr : InRange new.vaddr pages.length va
    · refine .inr ⟨⟨new, hs.new_mem, hnew, ?_⟩, hp _ (hin va p fl hr hm).1⟩
      rw [hc]
      exact hr
    · rw [hout va hr] at hm
      rw [hs.records]
      exact (h.leaves va hva hal p fl hm).imp_right fun hx => ⟨hkeep va hx.1, hx.2⟩
  · by_cases hr : InRange new.vaddr pages.length va
    · rw [(hin va p fl hr hm).2]
      exact hfl
    · rw [hout va hr] at hm
      exact h.written va hva p fl hm

/-- **Shared pages are unmapped**, and detached. -/
theorem detach (h : Records t shared tracked f) (hs : Reslot t t' slot old new)
    (hpriv : ∀ p ∈ t.userPages, ¬ InRange old.vaddr old.pageCount.toNat p.vaddr) :
    Records t' shared tracked (f.erase old.vaddr old.pageCount.toNat) := by
  have hmap : ∀ va p, f.erase old.vaddr old.pageCount.toNat va = some p →
      ¬ InRange old.vaddr old.pageCount.toNat va ∧ f va = some p := fun va p hm => by
    unfold AddrMap.erase at hm
    split at hm
    · cases hm
    · next hr => exact ⟨hr, hm⟩
  refine ⟨fun p hm => ?_, by rw [hs.records]; exact h.distinct, fun va hva hal p fl hm => ?_,
    fun va hva p fl hm => h.written va hva p fl (hmap va _ hm).2⟩
  · rw [hs.records] at hm
    obtain ⟨h1, h2, h3, fl, h4⟩ := h.mapped p hm
    exact ⟨h1, h2, h3, fl, (if_neg (hpriv p hm)).trans h4⟩
  · obtain ⟨hr, hm⟩ := hmap va _ hm
    rw [hs.records]
    exact (h.leaves va hva hal p fl hm).imp_right fun hx =>
      ⟨hs.inAttachment hx.1 fun _ => hr, hx.2⟩

end Phys.Records

/-! ## The layout -/

section Layout

variable {u u' : UserTask} {old new : ShmAttach}

/-- The records of the owner, with other attachments. -/
theorem Layout.with_records (h : Layout s u) (hs : Reslot u.toOwner u'.toOwner slot old new)
    (hp : u'.isThread = u.isThread) (hb : u'.allocationBlocks = u.allocationBlocks)
    (hcap : u'.userPageCapacity = u.userPageCapacity)
    (hal : new.vaddr % 4096 = 0)
    (htop : ∀ r ∈ recordsOf u'.toOwner, guardEnd r.1 r.2 ≤ 0x800000000000)
    (hcl : (recordsOf u'.toOwner).Pairwise Clear)
    (hg : ∀ r ∈ recordsOf u'.toOwner, s'.translate u.pml4 (r.1 + r.2.toNat * 4096) = none) :
    Layout s' u' := by
  refine ⟨hp.trans h.process, ⟨?_, fun b hb => ?_⟩, htop, hcl, ?_, ?_, ?_, ?_, ?_, ?_, ?_⟩
  · rw [hs.allocations]
    exact h.aligned.allocations
  · rcases hs.mem hb with rfl | hb
    · exact hal
    · exact h.aligned.attachments b hb
  · rw [hs.root]
    exact hg
  · rw [hs.allocations]
    exact h.sized
  · rw [hs.allocations, hs.records]
    exact h.backed
  · rw [hb, hs.allocations]
    exact h.nodes
  · rw [hs.records, hcap]
    exact h.room
  · rw [hcap]
    exact h.capacity
  · rw [hs.records]
    exact h.count

/-- The records with and without the attachment. -/
theorem Reslot.recordsOf (h : Reslot t t' slot old new) : ∃ R,
    (recordsOf t).Perm ((if 0 ≤ old.shmid then [(old.vaddr, old.pageCount)] else []) ++ R) ∧
    (recordsOf t').Perm ((if 0 ≤ new.shmid then [(new.vaddr, new.pageCount)] else []) ++ R) := by
  obtain ⟨l₁, l₂, h1, h2⟩ := h.split
  refine ⟨_, recordsOf_attached h1, ?_⟩
  have := recordsOf_attached h2
  unfold Phys.recordsOf at this ⊢
  rw [h.allocations] at this ⊢
  exact this

theorem Layout.attach {pages : List Word} {flags : Word} (h : Layout s u)
    (hs : Reslot u.toOwner u'.toOwner slot old new)
    (hp : u'.isThread = u.isThread) (hb : u'.allocationBlocks = u.allocationBlocks)
    (hcap : u'.userPageCapacity = u.userPageCapacity) (hold : old.shmid < 0) (hnew : 0 ≤ new.shmid)
    (hc : new.pageCount.toNat = pages.length) (hal : new.vaddr % 4096 = 0)
    (htop : new.vaddr + (pages.length + 1) * 4096 ≤ 0x800000000000)
    (hfree : FreeRange s u.toOwner ((pages.length + 1) * 4096) new.vaddr)
    (hm : ∀ va < 0x800000000000,
      s'.translate u.pml4 va = (s.translate u.pml4).insert new.vaddr pages flags va) :
    Layout s' u' := by
  obtain ⟨R, h1, h2⟩ := hs.recordsOf
  rw [if_neg (by omega), List.nil_append] at h1
  rw [if_pos hnew, List.singleton_append] at h2
  have hge : guardEnd new.vaddr new.pageCount = new.vaddr + (pages.length + 1) * 4096 := by
    unfold guardEnd
    rw [hc]
  refine h.with_records hs hp hb hcap hal (fun r hr => ?_) ?_ fun r hr => ?_
  · rcases List.mem_cons.mp (h2.mem_iff.mp hr) with rfl | hr
    · rw [hge]
      exact htop
    · exact h.top r (h1.mem_iff.mpr hr)
  · refine (h2.pairwise_iff fun hx => hx.symm).mpr (List.pairwise_cons.mpr ⟨fun r hr => ?_, ?_⟩)
    · unfold Clear
      rw [hc]
      exact hfree.record (h1.mem_iff.mpr hr)
    · exact (h1.pairwise_iff fun hx => hx.symm).mp h.clear
  · rcases List.mem_cons.mp (h2.mem_iff.mp hr) with rfl | hr
    · simp only [hc]
      rw [hm _ (by omega)]
      exact (if_neg (by omega)).trans (hfree.unmapped _ (by omega) (by omega))
    · have hr := h1.mem_iff.mpr hr
      rw [hm _ (Nat.lt_of_lt_of_le lt_guardEnd (h.top r hr))]
      refine (if_neg ?_).trans (h.guards r hr)
      have := hfree.record hr
      unfold Apart guardEnd at this
      omega

theorem Layout.detach (h : Layout s u) (hs : Reslot u.toOwner u'.toOwner slot old new)
    (hp : u'.isThread = u.isThread) (hb : u'.allocationBlocks = u.allocationBlocks)
    (hcap : u'.userPageCapacity = u.userPageCapacity) (hold : 0 ≤ old.shmid) (hnew : new.shmid < 0)
    (hal : new.vaddr % 4096 = 0)
    (hm : ∀ va < 0x800000000000,
      s'.translate u.pml4 va = (s.translate u.pml4).erase old.vaddr old.pageCount.toNat va) :
    Layout s' u' := by
  obtain ⟨R, h1, h2⟩ := hs.recordsOf
  rw [if_pos hold, List.singleton_append] at h1
  rw [if_neg (by omega), List.nil_append] at h2
  have hsub : ∀ r ∈ recordsOf u'.toOwner, r ∈ recordsOf u.toOwner := fun r hr =>
    h1.mem_iff.mpr (List.mem_cons_of_mem _ (h2.mem_iff.mp hr))
  refine h.with_records hs hp hb hcap hal (fun r hr => h.top r (hsub r hr)) ?_ fun r hr => ?_
  · refine (h2.pairwise_iff fun hx => hx.symm).mpr ?_
    exact (List.pairwise_cons.mp ((h1.pairwise_iff fun hx => hx.symm).mp h.clear)).2
  · rw [hm _ (Nat.lt_of_lt_of_le lt_guardEnd (h.top r (hsub r hr)))]
    unfold AddrMap.erase
    split
    · rfl
    · exact h.guards r (hsub r hr)

/-- Two attachments are apart. -/
theorem Layout.attached_apart {l₁ l₂ : List ShmAttach} (h : Layout s u)
    (hs : u.shmAttached = l₁ ++ a :: l₂) (ha : 0 ≤ a.shmid) {b : ShmAttach} (hb : b ∈ l₁ ++ l₂)
    (hid : 0 ≤ b.shmid) : Clear (a.vaddr, a.pageCount) (b.vaddr, b.pageCount) := by
  have h1 := recordsOf_attached (t := u.toOwner) hs
  rw [if_pos ha, List.singleton_append] at h1
  have hcl := (h1.pairwise_iff fun hx => hx.symm).mp h.clear
  exact (List.pairwise_cons.mp hcl).1 _ (mem_recordsOf.mpr (.inr ⟨b, hb, hid, rfl⟩))

end Layout

end GenOS
