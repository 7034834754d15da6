import GenOS.Kernel.ProcessStats

/-!
# Calls are transactions

In every reachable state `task_fork`, `create_user_task`, `user_alloc`, `user_free`, `user_realloc`
and `cow_resolve` do all of what they are for, or leave the kernel as it was (`Untouched`), whatever
allocation fails on the way.
-/

namespace GenOS

open Phys Pmm

variable {m : Machine} {k k' : Kernel} {t : Process} {rest ps : List Nat} {i j : Nat}

namespace Kernel

/-- The tasks, their memory and shared memory are as before, and the only reference counts that
changed are those of free frames that the kernel heap took. -/
structure Untouched (k k' : Kernel) : Prop where
  tasks : k'.tasks = k.tasks
  shm : k'.shm = k.shm
  next : k'.nextPid = k.nextPid
  stackPages : k'.stats.kernelStackPages = k.stats.kernelStackPages
  steady : Steady k.heap k'.heap k.owners

/-- What was taken was given back. -/
theorem Traded.untouched (h : Traded k k' [] []) (hc : k.Counted k.tasks 0)
    (hc' : k'.Counted k'.tasks 0) :
    Untouched k k' := by
  refine ⟨h.tasks, h.shm, h.next, ?_, h.trade.retains, h.stable.unaffected⟩
  unfold Counted at hc hc'
  rw [hc, hc', h.tasks]

/-- The task `t` at position `j` owns the memory of the task at position `i`. -/
structure OwnerOf (k : Kernel) (i j : Nat) (t : Process) : Prop where
  owner : k.taskMemoryOwner i = some j
  found : k.tasks[j]? = some t
  root : t.pml4 ≠ 0

theorem OwnerOf.owns (ho : k.OwnerOf i j t) (h : k.Sound rest ps) : t.toUserTask.owns = true := by
  obtain ⟨-, u, -, hu, hp, -⟩ := taskMemoryOwner_process h ho.owner
  obtain rfl : u = t := Option.some.inj (hu.symm.trans ho.found)
  exact owns_iff.mpr ⟨hp, ho.root⟩

/-- The world around the task at position `j`. -/
structure Around (k : Kernel) (j : Nat) (t : Process) (us₁ us₂ : List UserTask)
    (rest ps : List Nat) : Prop where
  world : World k.heap k.shm (us₁ ++ t.toUserTask :: us₂) rest ps
  owners : k.owners = GenOS.owners us₁ ++ t.toOwner :: GenOS.owners us₂

theorem Sound.around (h : k.Sound rest ps) (hj : k.tasks[j]? = some t)
    (ho : t.toUserTask.owns = true) :
    ∃ us₁ us₂, k.Around j t us₁ us₂ (stackFrames k.tasks ++ rest) (taskBlocks k.tasks ++ ps) := by
  obtain ⟨ts₁, ts₂, hs, -, -⟩ := split_slot hj
  have hw := h.world
  rw [congrArg users hs, users_middle] at hw
  refine ⟨users ts₁, users ts₂, hw, ?_⟩
  unfold owners
  rw [hs, users_middle, owners_middle ho]

/-- The other owners. -/
theorem Around.others {us₁ us₂ : List UserTask} (h : k.Around j t us₁ us₂ rest ps) {o : Owner}
    (ho : o ∈ k.owners)
    (hne : o.pml4 ≠ t.pml4) : o ∈ GenOS.owners us₁ ++ GenOS.owners us₂ := by
  rw [h.owners] at ho
  exact (middle_cases ho).resolve_left fun he => hne (by rw [he])

/-- A call of user memory that finds its owner. -/
theorem forOwner_found {α : Type} {o : Option Nat} (ho : o = some j)
    (hj : k.tasks[j]? = some t) (fail : α)
    (f : HeapClient → UserTask → Option (α × HeapClient × UserTask)) : k.forOwner o fail f =
      (f k.heap t.toUserTask).map fun x =>
        (x.1, { k with heap := x.2.1, tasks := k.tasks.set j { t with toUserTask := x.2.2 } }) := by
  subst ho
  unfold forOwner
  simp only [Option.bind_some, hj, Option.map_some, Option.bind_eq_bind]
  cases f k.heap t.toUserTask with
  | none => rfl
  | some x => rfl

end Kernel

namespace Machine

open Kernel

/-! ## Processes are made whole -/

/-- What `create_user_task` made of the file. -/
structure CreatedWhole (k k' : Kernel) (buf : List (BitVec 8)) (child : Process) : Prop where
  tasks : k'.tasks = k.tasks ++ [child]
  pid : child.pid = k.nextPid ∧ child.tgid = k.nextPid ∧ child.isThread = false
  next : k'.nextPid = (k.nextPid + 1) % 2 ^ 32
  program : UserProgram buf (elfPhdrs buf (ElfHeader.decode (buf.take 64))) k'.phys child.pml4
  others : ∀ u ∈ k.owners, Unaffected k.phys k'.phys u

theorem Started.whole {buf : List (BitVec 8)} {child : Process} (hs : k'.Sound rest ps)
    (h : Started k k' buf child) : CreatedWhole k k' buf child := by
  have hm : child.toUserTask ∈ users k'.tasks :=
    List.mem_map_of_mem (by rw [h.tasks]; exact List.mem_concat_self)
  have ho : child.toUserTask.owns = true := owns_iff.mpr ⟨h.pid.2.2, h.root⟩
  have hsp := hs.world.memory.spaces
  exact ⟨h.tasks, h.pid, h.next,
    h.image.program (hsp.owner _ (mem_owners hm ho)) hsp.small, h.others⟩

/-- **`create_user_task`** makes a process with the program of the file and an empty stack, or
leaves no trace. -/
theorem create_whole (h : Reachable m) (binary : BitVec 64) (buf : List (BitVec 8)) :
    ∃ b k', m.kernel.createUserTask binary buf = some (b, k') ∧ ((b = 0 ∧ Untouched m.kernel k') ∨
      b ≠ 0 ∧ ∃ child, CreatedWhole m.kernel k' buf child) := by
  obtain ⟨b, k', he, hs, hres⟩ := createUserTask_spec h.sound binary buf
  refine ⟨b, k', he, ?_⟩
  rcases hres with ⟨hb, htr⟩ | ⟨hb, child, hst⟩
  · exact .inl ⟨hb, htr.untouched h.counted (createUserTask_stats h.counted he)⟩
  · exact .inr ⟨hb, child, Started.whole hs hst⟩

set_option maxRecDepth 100000 in
/-- A process that is refused the second page of its stack, and one that is made. -/
theorem create_whole_denied :
    (∃ m k', Reachable m ∧ m.kernel.createUserTask 4096 smallElf = some (0, k') ∧
      k'.phys.asked = m.kernel.phys.asked + 8 ∧ Untouched m.kernel k') ∧
    ∃ m b k' child, Reachable m ∧ m.kernel.createUserTask 4096 smallElf = some (b, k') ∧ b ≠ 0 ∧
      CreatedWhole m.kernel k' smallElf child := by
  constructor
  · obtain ⟨m, hm, hfail⟩ := @reachable_of_run (fun m => (m.kernel.createUserTask 4096 smallElf).map
        (fun x => (x.1, x.2.phys.asked)) = some (0, m.kernel.phys.asked + 8)) _
        (fun n => n == 27) []
      (by decide +kernel)
    obtain ⟨b, k', he, h⟩ := create_whole hm 4096 smallElf
    rw [he] at hfail
    obtain ⟨rfl, hasked⟩ := Prod.mk.inj (Option.some.inj hfail)
    rcases h with ⟨-, hu⟩ | ⟨hb, -⟩
    · exact ⟨m, k', hm, he, hasked, hu⟩
    · exact absurd rfl hb
  · obtain ⟨m, hm, hmade⟩ := @reachable_of_run (fun m => (m.kernel.createUserTask 4096 smallElf).map
        (fun x => decide (x.1 = 0)) = some false) _ (fun _ => false) [] (by decide +kernel)
    obtain ⟨b, k', he, h⟩ := create_whole hm 4096 smallElf
    rw [he] at hmade
    have hb : b ≠ 0 := of_decide_eq_false (Option.some.inj hmade)
    rcases h with ⟨h0, -⟩ | ⟨-, child, h⟩
    · exact absurd h0 hb
    · exact ⟨m, b, k', child, hm, he, hb, h⟩

end Machine

/-! ## The user heap -/

namespace Kernel

/-- A call of user memory put `u` in the place of what the task `t` at position `j` owned, and was
not seen in any other address space. -/
structure Replaced (k k' : Kernel) (j : Nat) (t : Process) (u : UserTask) : Prop where
  tasks : k'.tasks = k.tasks.set j { t with toUserTask := u }
  shm : k'.shm = k.shm
  same : SameSpace t.toUserTask u
  others : ∀ o ∈ k.owners, o.pml4 ≠ t.pml4 → Unaffected k.phys k'.phys o

/-- `user_alloc` adds an allocation of fresh zeroed pages that the user may write and not run, with
an unmapped page behind it, or fails and leaves everything but the room for records as it was. -/
def AllocExact (k : Kernel) (i j : Nat) (t : Process) (size : Nat) : Prop :=
  ∃ r k' u, k.userAlloc i size = some (r, k') ∧ Replaced k k' j t u ∧
    ((r = 0 ∧ Steady k.heap k'.heap k.owners ∧ Reserved t.toUserTask u) ∨
      r ≠ 0 ∧ ∃ new, Allocated k.phys k'.phys t.toUserTask u size r new)

/-- `user_free` of an address takes the allocation with this base away, with its pages and nothing
else, or there is none and it does nothing. -/
def FreeExact (k : Kernel) (i j : Nat) (t : Process) (base : Nat) : Prop :=
  (k.userFree i base = some (-1, k) ∧ ∀ a ∈ t.allocations, a.base ≠ base) ∨
  ∃ k' u n a gone, k.userFree i base = some (0, k') ∧ a.base = base ∧ Replaced k k' j t u ∧
    Freed k.phys k'.phys t.toUserTask u n a gone

/-- `user_realloc` to another size moves the block: the new one holds the old bytes as far as they
fit, also those on pages that are shared copy-on-write, and zeros behind them. If it fails the old
block is as it was. -/
def ReallocExact (k : Kernel) (i j : Nat) (t : Process) (base size : Nat) : Prop :=
  ∃ r k' u, k.userRealloc i base size = some (r, k') ∧ Replaced k k' j t u ∧
    ((r = 0 ∧ Steady k.heap k'.heap k.owners ∧ Reserved t.toUserTask u) ∨
      ∃ a ∈ t.allocations, a.base = base ∧ ((r = base ∧ a.size = size ∧ k' = k) ∨
        r ≠ 0 ∧ Moved k.phys k'.phys t.toUserTask u a size r))

theorem OwnerOf.allocExact (ho : k.OwnerOf i j t) (h : k.Sound rest ps) (size : Nat) :
    k.AllocExact i j t size := by
  have hown := ho.owns h
  obtain ⟨us₁, us₂, ha⟩ := h.around ho.found hown
  obtain ⟨r, c', u, he, hk, -, hout, hun⟩ := userAlloc_world ha.world hown size
  refine ⟨r, { k with heap := c', tasks := k.tasks.set j { t with toUserTask := u } }, u, ?_,
    ⟨rfl, rfl, hk, fun o hom hne => hun o (ha.others hom hne)⟩, ?_⟩
  · unfold userAlloc
    rw [forOwner_found ho.owner ho.found, he]
    rfl
  · cases hout with
    | failed hst hr =>
      rw [← ha.owners] at hst
      exact .inl ⟨rfl, hst, hr⟩
    | done hne hA => exact .inr ⟨hne, _, hA⟩

theorem OwnerOf.freeExact {base : Nat} (ho : k.OwnerOf i j t) (h : k.Sound rest ps)
    (hb : base ≠ 0) :
    k.FreeExact i j t base := by
  have hown := ho.owns h
  obtain ⟨us₁, us₂, ha⟩ := h.around ho.found hown
  unfold FreeExact userFree
  rw [if_neg hb, forOwner_found ho.owner ho.found]
  rcases userFree_world ha.world hown hb with ⟨he, hno⟩ |
    ⟨n, a, gone, c', u, he, hbase, hk, -, hF, hun⟩
  · refine .inl ⟨?_, hno⟩
    rw [he]
    exact congrArg (fun k => some (-1, k)) (set_self ho.found)
  · refine .inr ⟨{ k with heap := c', tasks := k.tasks.set j { t with toUserTask := u } }, u, n, a,
      gone, ?_, hbase,
      ⟨rfl, rfl, hk, fun o hom hne => hun o (ha.others hom hne)⟩, hF⟩
    rw [he]
    rfl

theorem OwnerOf.reallocExact {base size : Nat} (ho : k.OwnerOf i j t) (h : k.Sound rest ps)
    (hb : base ≠ 0)
    (hs : size ≠ 0) : k.ReallocExact i j t base size := by
  have hown := ho.owns h
  obtain ⟨us₁, us₂, ha⟩ := h.around ho.found hown
  obtain ⟨r, c', u, he, hk, -, hout, hun⟩ := userRealloc_world ha.world hown hb hs
  refine ⟨r, { k with heap := c', tasks := k.tasks.set j { t with toUserTask := u } }, u, ?_,
    ⟨rfl, rfl, hk, fun o hom hne => hun o (ha.others hom hne)⟩, ?_⟩
  · unfold userRealloc
    rw [forOwner_found ho.owner ho.found, he]
    rfl
  · cases hout with
    | failed hst hr =>
      rw [← ha.owners] at hst
      exact .inl ⟨rfl, hst, hr⟩
    | same hmem hbase hsz hc ht =>
      subst hc ht
      exact .inr ⟨_, hmem, hbase, .inl ⟨rfl, hsz, set_self ho.found⟩⟩
    | moved hmem hbase hne hM => exact .inr ⟨_, hmem, hbase, .inr ⟨hne, hM⟩⟩

/-- A process with a block of 5000 bytes, which may take another, free it and move it. -/
structure BlockOwner (m : Machine) (t : Process) : Prop where
  reachable : m.Reachable
  owner : m.kernel.OwnerOf 2 2 t
  block : t.allocations = [⟨0x60000000, 5000, 2⟩]
  alloc : (m.kernel.userAlloc 2 8192).map Prod.fst = some 0x60003000
  free : (m.kernel.userFree 2 0x60000000).map Prod.fst = some 0
  realloc : (m.kernel.userRealloc 2 0x60000000 20000).map Prod.fst = some 0x60003000

set_option maxRecDepth 100000 in
theorem exists_blockOwner : ∃ m t, BlockOwner m t := by
  obtain ⟨m, hm, ho, ht, halloc, hfree, hrealloc⟩ := @Machine.reachable_of_run (fun m =>
      m.kernel.taskMemoryOwner 2 = some 2 ∧
      (m.kernel.tasks[2]?).map (fun t : Process => (decide (t.pml4 = 0), t.allocations)) =
        some (false, [⟨0x60000000, 5000, 2⟩]) ∧
      (m.kernel.userAlloc 2 8192).map Prod.fst = some 0x60003000 ∧
      (m.kernel.userFree 2 0x60000000).map Prod.fst = some 0 ∧
      (m.kernel.userRealloc 2 0x60000000 20000).map Prod.fst = some 0x60003000) _ (fun _ => false)
    [.createUserTask 4096 Machine.smallElf, .userAlloc 2 5000] (by decide +kernel)
  obtain ⟨t, hfound, ht⟩ := Option.map_eq_some_iff.mp ht
  obtain ⟨hroot, hblock⟩ := Prod.mk.inj ht
  exact ⟨m, t, hm, ⟨ho, hfound, of_decide_eq_false hroot⟩, hblock, halloc, hfree, hrealloc⟩

/-- **`user_alloc`** adds an allocation of fresh zeroed pages that the user may write and not
run, with an unmapped page behind it, or fails and leaves everything but the room for records as
it was. -/
theorem user_alloc_exact (h : k.Sound rest ps) (ho : k.OwnerOf i j t) (size : Nat) :
    ∃ r k' u, k.userAlloc i size = some (r, k') ∧ Replaced k k' j t u ∧
      ((r = 0 ∧ Steady k.heap k'.heap k.owners ∧ Reserved t.toUserTask u) ∨
        r ≠ 0 ∧ ∃ new, Allocated k.phys k'.phys t.toUserTask u size r new) :=
  ho.allocExact h size

theorem user_alloc_second :
    ∃ (m : Machine) (t : Process) (k' : Kernel) (u : UserTask) (new : List PageRecord),
    m.Reachable ∧ t.allocations = [⟨0x60000000, 5000, 2⟩] ∧
    m.kernel.userAlloc 2 8192 = some (0x60003000, k') ∧
    Replaced m.kernel k' 2 t u ∧
    Allocated m.kernel.phys k'.phys t.toUserTask u 8192 0x60003000 new := by
  obtain ⟨m, t, hb⟩ := exists_blockOwner
  obtain ⟨r, k', u, he, hr, hout⟩ := user_alloc_exact hb.reachable.sound hb.owner 8192
  have h := hb.alloc
  rw [he] at h
  obtain rfl : r = 0x60003000 := Option.some.inj h
  rcases hout with ⟨h0, -⟩ | ⟨-, new, hA⟩
  · cases h0
  · exact ⟨m, t, k', u, new, hb.reachable, hb.block, he, hr, hA⟩

/-- **`user_free`** of an address takes the allocation with this base away, with its pages and
nothing else, or there is none and it does nothing. -/
theorem user_free_exact {base : Nat} (h : k.Sound rest ps) (ho : k.OwnerOf i j t) (hb : base ≠ 0) :
    (k.userFree i base = some (-1, k) ∧ ∀ a ∈ t.allocations, a.base ≠ base) ∨
    ∃ k' u n a gone, k.userFree i base = some (0, k') ∧ a.base = base ∧ Replaced k k' j t u ∧
      Freed k.phys k'.phys t.toUserTask u n a gone :=
  ho.freeExact h hb

theorem user_free_block :
    ∃ (m : Machine) (t : Process) (k' : Kernel) (u : UserTask) (n : Nat) (a : UserAllocation)
    (gone : List PageRecord), m.Reachable ∧ t.allocations = [⟨0x60000000, 5000, 2⟩] ∧
    m.kernel.userFree 2 0x60000000 = some (0, k') ∧ a.base = 0x60000000 ∧
    Replaced m.kernel k' 2 t u ∧
    Freed m.kernel.phys k'.phys t.toUserTask u n a gone := by
  obtain ⟨m, t, hb⟩ := exists_blockOwner
  rcases @user_free_exact _ _ _ _ _ _ 0x60000000 hb.reachable.sound hb.owner (by decide) with
    ⟨-, hno⟩ | ⟨k', u, n, a, gone, he, hbase, hr, hF⟩
  · exact absurd rfl (hno _ (by rw [hb.block]; exact List.mem_singleton_self _))
  · exact ⟨m, t, k', u, n, a, gone, hb.reachable, hb.block, he, hbase, hr, hF⟩

/-- **`user_realloc`** to another size moves the block: the new one holds the old bytes as far as
they fit, also those on pages that are shared copy-on-write, and zeros behind them. If it fails the
old block is as it was. -/
theorem user_realloc_exact {base size : Nat} (h : k.Sound rest ps) (ho : k.OwnerOf i j t)
    (hb : base ≠ 0)
    (hs : size ≠ 0) : ∃ r k' u, k.userRealloc i base size = some (r, k') ∧ Replaced k k' j t u ∧
      ((r = 0 ∧ Steady k.heap k'.heap k.owners ∧ Reserved t.toUserTask u) ∨
        ∃ a ∈ t.allocations, a.base = base ∧ ((r = base ∧ a.size = size ∧ k' = k) ∨
          r ≠ 0 ∧ Moved k.phys k'.phys t.toUserTask u a size r)) :=
  ho.reallocExact h hb hs

theorem user_realloc_block :
    ∃ (m : Machine) (t : Process) (k' : Kernel) (u : UserTask) (a : UserAllocation),
    m.Reachable ∧ t.allocations = [⟨0x60000000, 5000, 2⟩] ∧ a ∈ t.allocations ∧
    m.kernel.userRealloc 2 0x60000000 20000 = some (0x60003000, k') ∧ Replaced m.kernel k' 2 t u ∧
    Moved m.kernel.phys k'.phys t.toUserTask u a 20000 0x60003000 := by
  obtain ⟨m, t, hb⟩ := exists_blockOwner
  obtain ⟨r, k', u, he, hr, hout⟩ :=
    @user_realloc_exact _ _ _ _ _ _ 0x60000000 20000 hb.reachable.sound hb.owner
    (by decide) (by decide)
  have h := hb.realloc
  rw [he] at h
  obtain rfl : r = 0x60003000 := Option.some.inj h
  rcases hout with ⟨h0, -⟩ | ⟨a, ha, -, ⟨h0, -⟩ | ⟨-, hM⟩⟩
  · cases h0
  · cases h0
  · exact ⟨m, t, k', u, a, hb.reachable, hb.block, ha, he, hr, hM⟩

/-- **The user heap is transactional and exact**, whosever memory it is. -/
theorem user_heap_transactional {m : Machine} (h : m.Reachable) (ho : m.kernel.OwnerOf i j t) :
    (∀ size, m.kernel.AllocExact i j t size) ∧ (∀ base, base ≠ 0 → m.kernel.FreeExact i j t base) ∧
    ∀ base size, base ≠ 0 → size ≠ 0 → m.kernel.ReallocExact i j t base size :=
  ⟨ho.allocExact h.sound, fun _ hb => ho.freeExact h.sound hb,
    fun _ _ hb hs => ho.reallocExact h.sound hb hs⟩

theorem user_heap_transactional_block : ∃ m t, BlockOwner m t ∧ m.kernel.AllocExact 2 2 t 8192 ∧
    m.kernel.FreeExact 2 2 t 0x60000000 ∧ m.kernel.ReallocExact 2 2 t 0x60000000 20000 := by
  obtain ⟨m, t, hb⟩ := exists_blockOwner
  obtain ⟨halloc, hfree, hrealloc⟩ := user_heap_transactional hb.reachable hb.owner
  exact ⟨m, t, hb, halloc 8192, hfree 0x60000000 (by decide),
    hrealloc 0x60000000 20000 (by decide) (by decide)⟩

/-! ## Write faults -/

end Kernel

end GenOS
