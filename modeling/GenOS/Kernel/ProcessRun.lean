import GenOS.Kernel.ProcessCreate
import GenOS.Mm.HeapFailure

/-!
# Runs of the kernel

`KernelCall` is a call that reaches the memory of the tasks, whoever makes it: a system call, the
fault handler, the reaper, or another part of the kernel that takes memory for itself. `Machine.run`
is a sequence of calls in any order. A call returns, keeps `Machine.Sound` and leaves every address
space alone that it is not about (`call_spec`); a run does the same (`run_spec`, `run_bystander`).
-/

namespace GenOS

open Phys Pmm

/-- The kernel, with the frames and the blocks that are neither for tasks nor for shared memory:
boot stacks, the memory of drivers, the contents of files. -/
structure Machine where
  kernel : Kernel
  frames : List Nat
  blocks : List Nat

/-- A task is named by its position in the list, one of `blocks` by its position there. -/
inductive KernelCall where
  | createTask (entryPoint : Nat)
  | createUserTask (binary : BitVec 64) (buf : List (BitVec 8))
  | fork (i : Nat) (userFrame : Bool)
  | clone (i entry stackTop : Nat)
  | exit (i : Nat)
  | abortGroup (i : Nat)
  | reap (active : Nat → Bool)
  | userAlloc (i size : Nat)
  | userFree (i base : Nat)
  | userRealloc (i base size : Nat)
  | shmCreate (pid size : Nat)
  | shmAttach (id : Int) (pid pml4 : Nat)
  | shmDetach (base pid pml4 : Nat)
  | shmDestroy (id : Int)
  | cowResolve (pid faultAddr : Nat) (errorCode : Word)
  | allocContiguous (count : Nat)
  | kmalloc (size : Nat)
  | kfree (i : Nat)
  | krealloc (i size : Nat)

/-! ## A block that grows -/

/-- `krealloc`, for physical memory. -/
theorem krealloc_grown {h h' : Heap} {l : List FirstFit.Block} {ptr size r : Nat} (ht : Tiled h l)
    (hp : HeapPages h) (he : h.krealloc ptr size = some (r, h')) : ∃ F, HeapGrown h h' F := by
  unfold Heap.krealloc at he
  split at he
  · exact kmalloc_grown ht hp he
  split at he
  · obtain ⟨h₁, hf, he⟩ := Option.map_eq_some_iff.mp he
    cases he
    obtain ⟨bytes, rfl⟩ := kfree_bytes hf
    exact ⟨[], .refl hp bytes⟩
  dsimp only at he
  split at he
  · cases he
    exact ⟨[], .refl hp h.bytes⟩
  obtain ⟨⟨p, h₁⟩, hm, he⟩ := Option.bind_eq_some_iff.mp he
  obtain ⟨F, hF⟩ := kmalloc_grown ht hp hm
  dsimp only at he
  split at he
  · cases he
    exact ⟨F, hF⟩
  · obtain ⟨h₂, hf, he⟩ := Option.bind_eq_some_iff.mp he
    cases he
    obtain ⟨bytes, rfl⟩ := kfree_bytes hf
    refine ⟨F ++ [], hF.trans ?_⟩
    exact .refl hF.pages bytes

namespace HeapClient

/-- The blocks held after `krealloc` of the first of them. -/
def reallocated (p size r : Nat) (ps : List Nat) : List Nat :=
  if size = 0 then ps else if r = 0 then p :: ps else r :: ps

theorem reallocated_append (p size r : Nat) (l ps : List Nat) :
    (reallocated p size r (l ++ ps)).Perm (l ++ reallocated p size r ps) := by
  unfold reallocated
  split
  · exact .refl _
  split
  · exact List.perm_middle.symm
  · exact List.perm_middle.symm

/-- **`krealloc`** of a block the client holds. -/
theorem Holding.krealloc {c : HeapClient} {p : Nat} {ps : List Nat} (h : Holding c (p :: ps))
    (size : Nat) : ∃ r c' F, c.call (.krealloc p size) = some (r, c') ∧ HeapGrown c.heap c'.heap F ∧
      Holding c' (reallocated p size r ps) := by
  obtain ⟨l, ho⟩ := h.owned
  obtain ⟨n, hn⟩ := h.held p List.mem_cons_self
  obtain ⟨hnot, hnd⟩ := List.nodup_cons.mp h.nodup
  obtain ⟨r, c', l', he, ho', -⟩ := @krealloc_step _ _ _ size ho (.inr ⟨n, hn⟩)
  obtain ⟨⟨r₀, h₀⟩, hm, hc⟩ := Option.map_eq_some_iff.mp ((call_krealloc c p size).symm.trans he)
  cases hc
  obtain ⟨F, hF⟩ := krealloc_grown ho.tiled h.pages hm
  -- the other blocks stay
  have hdrop : ∀ q ∈ ps, ∃ n, (q, n) ∈ drop c.live p := fun q hq => by
    obtain ⟨n, hn⟩ := h.held q (List.mem_cons_of_mem _ hq)
    exact ⟨n, mem_drop.mpr ⟨hn, fun he => hnot (he ▸ hq)⟩⟩
  refine ⟨r₀, _, F, he, hF, ⟨l', ho'⟩, hF.pages, ?_, ?_⟩
  · unfold reallocated
    split
    · exact hnd
    next hs =>
    split
    · exact h.nodup
    next hr =>
    have hnd' := ho'.holds.nodup
    simp only [if_neg hs, if_neg hr] at hnd'
    refine List.nodup_cons.mpr ⟨fun hmem => ?_, hnd⟩
    obtain ⟨n, hn⟩ := hdrop r₀ hmem
    exact (List.nodup_cons.mp hnd').1 (List.mem_map.mpr ⟨_, hn, rfl⟩)
  · unfold reallocated
    dsimp only
    split
    · exact hdrop
    split
    · exact h.held
    · intro q hq
      rcases List.mem_cons.mp hq with rfl | hq
      · exact ⟨size, List.mem_cons_self⟩
      · obtain ⟨n, hn⟩ := hdrop q hq
        exact ⟨n, List.mem_cons_of_mem _ hn⟩

end HeapClient

theorem Memory.krealloc {c : HeapClient} {os : List Owner} {shared rest ps : List Nat} {p : Nat}
    (h : Memory c os shared rest (p :: ps)) (size : Nat) : ∃ r c',
      c.call (.krealloc p size) = some (r, c') ∧
      Steady c c' os ∧ Memory c' os shared rest (HeapClient.reallocated p size r ps) := by
  obtain ⟨r, c', F, he, hg, hh⟩ := h.holding.krealloc size
  obtain ⟨hs, hun⟩ := h.spaces.grow hg.phys
  refine ⟨r, c', he, ⟨hg.retains h.spaces.kernel, hun⟩, hs.perm (.refl _) ?_, hh⟩
  rw [hg.frames, List.append_assoc]
  exact List.perm_append_comm_assoc ..

theorem World.reallocBlock {c : HeapClient} {m : Shm} {us : List UserTask}
    {rest ps : List Nat} {p : Nat}
    (h : World c m us rest (p :: ps)) (size : Nat) : ∃ r c',
      c.call (.krealloc p size) = some (r, c') ∧
      World c' m us rest (HeapClient.reallocated p size r ps) ∧ Stable c c' (owners us) := by
  obtain ⟨r, c', he, hst, hm⟩ := (h.memory.perm (.refl _) (.refl _) List.perm_middle).krealloc size
  exact ⟨r, c', he,
    h.keep (hm.perm (.refl _) (.refl _) (HeapClient.reallocated_append ..)) hst.stable, hst.stable⟩

/-! ## The machine -/

namespace Machine

/-- Everything is accounted for. -/
abbrev Sound (m : Machine) : Prop := m.kernel.Sound m.frames m.blocks

/-- The machine after a call of the kernel. -/
def withKernel {α : Type} (m : Machine) (r : Option (α × Kernel)) : Option Machine :=
  r.map fun x => { m with kernel := x.2 }

/-- `pmm_alloc_contiguous_pages`, for frames that stay. -/
def allocContiguous (m : Machine) (count : Nat) : Machine :=
  let (start, s) := m.kernel.phys.allocContiguous count
  { m with
    kernel := m.kernel.setPhys s
    frames := if start = 0 then m.frames else runFrames start count ++ m.frames }

/-- `kmalloc`, for a block that stays until it is freed. -/
def kmalloc (m : Machine) (size : Nat) : Option Machine := do
  let (p, c) ← m.kernel.heap.kmalloc size
  some { m with
    kernel := { m.kernel with heap := c }
    blocks := if p = 0 then m.blocks else p :: m.blocks }

/-- `kfree` of the block at position `i`. -/
def kfree (m : Machine) (i : Nat) : Option Machine :=
  match m.blocks[i]? with
  | none => some m
  | some p => do
    let k ← m.kernel.free p
    some { m with kernel := k, blocks := m.blocks.eraseIdx i }

/-- `krealloc` of the block at position `i`. -/
def krealloc (m : Machine) (i size : Nat) : Option Machine :=
  match m.blocks[i]? with
  | none => some m
  | some p => do
    let (r, c) ← m.kernel.heap.call (.krealloc p size)
    some { m with
      kernel := { m.kernel with heap := c }
      blocks := HeapClient.reallocated p size r (m.blocks.eraseIdx i) }

def call (m : Machine) : KernelCall → Option Machine
  | .createTask entryPoint => m.withKernel (m.kernel.createTask entryPoint)
  | .createUserTask binary buf => m.withKernel (m.kernel.createUserTask binary buf)
  | .fork i userFrame => m.withKernel (m.kernel.taskFork i userFrame)
  | .clone i entry stackTop => m.withKernel (m.kernel.taskClone i entry stackTop)
  | .exit i => some { m with kernel := m.kernel.exitTask i }
  | .abortGroup i => some { m with kernel := m.kernel.abortGroup i }
  | .reap active => (m.kernel.taskReapDead active).map fun k => { m with kernel := k }
  | .userAlloc i size => m.withKernel (m.kernel.userAlloc i size)
  | .userFree i base => m.withKernel (m.kernel.userFree i base)
  | .userRealloc i base size => m.withKernel (m.kernel.userRealloc i base size)
  | .shmCreate pid size => m.withKernel (m.kernel.shmCreate pid size)
  | .shmAttach id pid pml4 => m.withKernel (m.kernel.shmAttach id pid pml4)
  | .shmDetach base pid pml4 => m.withKernel (m.kernel.shmDetach base pid pml4)
  | .shmDestroy id => m.withKernel (m.kernel.shmDestroy id)
  | .cowResolve pid faultAddr errorCode =>
    some { m with kernel := (m.kernel.cowResolve pid faultAddr errorCode).2 }
  | .allocContiguous count => some (m.allocContiguous count)
  | .kmalloc size => m.kmalloc size
  | .kfree i => m.kfree i
  | .krealloc i size => m.krealloc i size

/-- The root of the address space that a call is about, or zero. -/
def target (m : Machine) : KernelCall → Nat
  | .fork i _ | .userAlloc i _ | .userFree i _ | .userRealloc i _ _ =>
    m.kernel.rootOf (m.kernel.taskMemoryOwner i)
  | .shmAttach _ pid _ | .shmDetach _ pid _ | .cowResolve pid _ _ =>
    m.kernel.rootOf (m.kernel.ownerOfPid pid)
  | _ => 0

def run (m : Machine) (cs : List KernelCall) : Option Machine := cs.foldlM call m

variable {m m' m'' : Machine} {c : KernelCall} {cs : List KernelCall} {k k' : Kernel}
  {u : Owner} {r : Nat}

theorem run_cons : m.run (c :: cs) = (m.call c).bind fun m' => m'.run cs := rfl

/-! ## One call -/

/-- A call of the kernel that keeps the tasks. -/
theorem withKernel_spec {α : Type} {x : Option (α × Kernel)} {P : α → Kernel → Prop}
    (h : ∃ a k', x = some (a, k') ∧ k'.Sound m.frames m.blocks ∧ P a k')
    (hP : ∀ a k', P a k' → m.kernel.Spares k' r) :
    ∃ m', m.withKernel x = some m' ∧ m'.Sound ∧ m.kernel.Spares m'.kernel r := by
  obtain ⟨a, k', rfl, hs, hp⟩ := h
  exact ⟨{ m with kernel := k' }, rfl, hs, hP a k' hp⟩

theorem allocContiguous_spec (h : m.Sound) (count : Nat) : (m.allocContiguous count).Sound ∧
    m.kernel.Spares (m.allocContiguous count).kernel r ∧
    Kernel.Still m.kernel (m.allocContiguous count).kernel := by
  unfold allocContiguous
  rcases Phys.allocContiguous_cases h.world.memory.spaces.inv count with he | ⟨start, q, he, h0, ht⟩
  · have he : m.kernel.phys.allocContiguous count = _ := he
    obtain ⟨hst, hs⟩ := Kernel.asked_spec h (m.kernel.phys.asked + 1)
    rw [he]
    exact ⟨hs, hst.spares, hst.toStill⟩
  · have he : m.kernel.phys.allocContiguous count = _ := he
    obtain ⟨hw, hst, -⟩ := h.world.takeFrames ht
    have hstill : Kernel.Still m.kernel (m.kernel.setPhys { m.kernel.phys with
        pmm := q, asked := m.kernel.phys.asked + 1 }) := ⟨rfl, rfl, rfl, hst⟩
    rw [he]
    dsimp only
    rw [if_neg h0]
    exact ⟨hstill.sound h (hw.perm (List.perm_append_comm_assoc ..) (.refl _)),
      hstill.spares, hstill⟩

theorem kmalloc_spec (h : m.Sound) (size : Nat) : ∃ m', m.kmalloc size = some m' ∧ m'.Sound ∧
    m.kernel.Spares m'.kernel r := by
  obtain ⟨p, c, he, hw, hst, -⟩ := h.world.allocBlock size
  have hstill : Kernel.Still m.kernel { m.kernel with heap := c } := ⟨rfl, rfl, rfl, hst⟩
  unfold kmalloc
  rw [he]
  refine ⟨_, rfl, ?_, hstill.spares⟩
  dsimp only
  by_cases hp : p = 0
  · rw [if_pos hp] at hw ⊢
    exact hstill.sound h hw
  · rw [if_neg hp] at hw ⊢
    exact hstill.sound h (hw.perm (.refl _) List.perm_middle.symm)

theorem kfree_spec (h : m.Sound) (i : Nat) : ∃ m', m.kfree i = some m' ∧ m'.Sound ∧
    m.kernel.Spares m'.kernel r := by
  unfold kfree
  cases hi : m.blocks[i]? with
  | none => exact ⟨m, rfl, h, .refl⟩
  | some p =>
    obtain ⟨hlt, rfl⟩ := List.getElem?_eq_some_iff.mp hi
    have hs : m.kernel.Sound m.frames (m.blocks[i] :: m.blocks.eraseIdx i) :=
      ⟨h.world.perm (.refl _) ((List.getElem_cons_eraseIdx_perm hlt).symm.append_left _), h.grouped⟩
    obtain ⟨k', he, hst, hs'⟩ := Kernel.free_spec hs
    dsimp only
    rw [he]
    exact ⟨_, rfl, hs', hst.spares⟩

theorem krealloc_spec (h : m.Sound) (i size : Nat) : ∃ m', m.krealloc i size = some m' ∧ m'.Sound ∧
    m.kernel.Spares m'.kernel r := by
  unfold krealloc
  cases hi : m.blocks[i]? with
  | none => exact ⟨m, rfl, h, .refl⟩
  | some p =>
    obtain ⟨hlt, rfl⟩ := List.getElem?_eq_some_iff.mp hi
    have hp := (List.getElem_cons_eraseIdx_perm hlt).symm.append_left (taskBlocks m.kernel.tasks)
    obtain ⟨q, c, he, hw, hst⟩ :=
      (h.world.perm (.refl _) (hp.trans List.perm_middle)).reallocBlock size
    have hstill : Kernel.Still m.kernel { m.kernel with heap := c } := ⟨rfl, rfl, rfl, hst⟩
    dsimp only
    rw [he]
    exact ⟨_, rfl,
      hstill.sound h (hw.perm (.refl _) (HeapClient.reallocated_append ..)), hstill.spares⟩

/-- **Every call returns**, keeps the machine sound and spares the other address spaces. -/
theorem call_spec (h : m.Sound) (c : KernelCall) : ∃ m', m.call c = some m' ∧ m'.Sound ∧
    m.kernel.Spares m'.kernel (m.target c) := by
  cases c with
  | createTask entryPoint =>
    refine withKernel_spec (Kernel.createTask_spec (r := 0) h entryPoint) fun b k' hp => ?_
    exact hp.elim (fun hp => hp.2.spares) fun hp => hp.2
  | createUserTask binary buf =>
    refine withKernel_spec (Kernel.createUserTask_spec h binary buf) fun b k' hp => ?_
    exact hp.elim (fun hp => hp.2.spares) fun ⟨_, child, hp⟩ => hp.spares
  | fork i userFrame =>
    refine withKernel_spec (Kernel.taskFork_spec h i userFrame) fun x k' hp => ?_
    exact hp.elim (fun hp => hp.2.spares) fun ⟨_, j, t, child, hp⟩ => hp.spares
  | clone i entry stackTop =>
    refine withKernel_spec (Kernel.taskClone_spec (r := 0) h i entry stackTop) fun x k' hp => ?_
    exact hp.elim (fun hp => hp.2.spares) fun hp => hp.2
  | exit i =>
    obtain ⟨hs, hp⟩ := Kernel.exitTask_spec h i
    exact ⟨_, rfl, hs, hp⟩
  | abortGroup i =>
    obtain ⟨hs, hp⟩ := Kernel.abortGroup_spec h i
    exact ⟨_, rfl, hs, hp⟩
  | reap active =>
    obtain ⟨k', he, hs, hp⟩ := Kernel.taskReapDead_spec h active
    exact ⟨{ m with kernel := k' }, by rw [call, he]; rfl, hs, hp⟩
  | userAlloc i size => exact withKernel_spec (Kernel.userAlloc_sound h i size) fun _ _ hp => hp
  | userFree i base => exact withKernel_spec (Kernel.userFree_sound h i base) fun _ _ hp => hp
  | userRealloc i base size =>
    exact withKernel_spec (Kernel.userRealloc_sound h i base size) fun _ _ hp => hp
  | shmCreate pid size => exact withKernel_spec (Kernel.shmCreate_sound h pid size) fun _ _ hp => hp
  | shmAttach id pid pml4 =>
    exact withKernel_spec (Kernel.shmAttach_sound h id pid pml4) fun _ _ hp => hp
  | shmDetach base pid pml4 =>
    exact withKernel_spec (Kernel.shmDetach_sound h base pid pml4) fun _ _ hp => hp
  | shmDestroy id => exact withKernel_spec (Kernel.shmDestroy_sound h id) fun _ _ hp => hp
  | cowResolve pid faultAddr errorCode =>
    obtain ⟨hs, hp⟩ := Kernel.cowResolve_sound h pid faultAddr errorCode
    exact ⟨_, rfl, hs, hp⟩
  | allocContiguous count =>
    obtain ⟨hs, hp, -⟩ := allocContiguous_spec h count
    exact ⟨_, rfl, hs, hp⟩
  | kmalloc size => exact kmalloc_spec h size
  | kfree i => exact kfree_spec h i
  | krealloc i size => exact krealloc_spec h i size

/-! ## Runs -/

/-- No call of the run is about the address space `r`, which is there after each of them. -/
def Bystander (r : Nat) : Machine → List KernelCall → Prop
  | _, [] => True
  | m, c :: cs => m.target c ≠ r ∧
    ∀ m', m.call c = some m' → (∃ u ∈ m'.kernel.owners, u.pml4 = r) ∧ Bystander r m' cs

instance decidableBystander (r : Nat) : (cs : List KernelCall) → (m : Machine) →
    Decidable (Bystander r m cs)
  | [], _ => isTrue trivial
  | c :: cs, m =>
    have : ∀ m', Decidable (Bystander r m' cs) := decidableBystander r cs
    inferInstanceAs (Decidable (m.target c ≠ r ∧
      ∀ m' ∈ m.call c, (∃ u ∈ m'.kernel.owners, u.pml4 = r) ∧ Bystander r m' cs))

end Machine

/-! ## The boot -/

section Boot

variable {phys : Phys} {bytes : Bytes.Mem} {heap : Heap} {rest ps : List Nat} {k : Kernel}

/-- The heap takes its first 16 pages. -/
theorem Heap.heapInit_grown (hk : phys.KernelTree) (h : Heap.heapInit phys bytes = some heap) :
    phys.KernelGrown heap.phys heap.frames := by
  have hb : GrowBase heapStart := ⟨by decide, by decide, by decide⟩
  obtain ⟨r, F, s, he, hg, hle, -, hn, -⟩ := growLoop_spec hk hb
  unfold Heap.heapInit at h
  rw [he] at h
  cases r with
  | some i => cases h
  | none =>
    cases h
    have hF := (hn rfl).1
    have hframes : ∀ {h : Heap}, h.phys = s → h.fin = heapStart + 65536 →
        h.frames = F := fun {h} hp hf => by
      unfold Heap.frames
      rw [hp, hf, Nat.add_sub_cancel_left, show 65536 / 4096 = F.length from hF.symm]
      refine (List.filterMap_congr fun i hi => ?_).trans (filterMap_getElem? F)
      exact hg.frame_new hb hle (List.mem_range.mp hi)
    rw [hframes rfl rfl]
    exact hg.kernelGrown hk

/-- The memory of a heap that was just made. -/
theorem Memory.boot (hs : Spaces phys [] [] rest) (h : Heap.heapInit phys bytes = some heap) :
    Memory ⟨heap, []⟩ [] [] rest [] :=
  ⟨(hs.grow (Heap.heapInit_grown hs.kernel h)).1, ⟨_, HeapClient.heapInit_owned h⟩,
    heapInit_pages hs.kernel h, .nil, nofun⟩

theorem Shm.init_ok : Shm.init.Ok := by
  have hfound : ∀ s ∈ Shm.init.segments, s = {} := fun s hs => List.eq_of_mem_replicate hs
  refine ⟨List.length_replicate, fun s hs _ => hfound s hs, fun s hs hu => ?_,
    fun hn _ => ?_, Nat.one_pos⟩
  · rw [hfound s hs] at hu
    cases hu
  · have hu := hn.used
    rw [hfound _ hn.mem] at hu
    cases hu

/-- A kernel without tasks. -/
theorem Kernel.start_sound (hs : Spaces phys [] [] rest)
    (h : Heap.heapInit phys bytes = some heap) :
    (Kernel.start heap).Sound rest [] := by
  refine ⟨⟨Memory.boot hs h, Shm.init_ok, ?_, nofun, nofun, fun s hs hu => ?_⟩, .nil⟩
  · show ∀ g ∈ Shm.init.frames, g < 2 ^ 64
    rw [show Shm.init.frames = [] from rfl]
    exact nofun
  · rw [List.eq_of_mem_replicate hs] at hu
    cases hu

/-- **`task_init`** makes the idle task and the reaper, or halts. -/
theorem Kernel.taskInit_spec (h : k.Sound rest ps) (hk : k.tasks = []) (taskReaperMain : Nat) :
    ∃ ok k', k.taskInit taskReaperMain = some (ok, k') ∧ k'.Sound rest ps := by
  unfold Kernel.taskInit
  obtain ⟨x, k₁, he, hst, ⟨rfl, hs⟩ | ⟨b, rfl, hb, hs⟩⟩ := Kernel.taskAlloc_spec h
  · rw [he]
    exact ⟨false, k₁, rfl, hs⟩
  -- the first task has no stack of its own
  have hs₁ : ({ k₁ with tasks := [Process.blank b] } : Kernel).Sound rest ps := by
    have ht := hst.tasks.trans hk
    have hw := hs.world
    rw [ht] at hw
    have hg : Grouped ([] ++ [Process.blank b]) := Grouped.nil.snoc (fun _ => rfl) nofun
    exact ⟨@World.addBare _ _ _ [] [] _ _ hw (Kernel.bare_blank b) rfl, hg⟩
  obtain ⟨reaper, k', he', hs', -⟩ := Kernel.createTask_spec (r := 0) hs₁ taskReaperMain
  simp only [he, he', Option.bind_eq_bind, Option.bind_some]
  exact ⟨_, k', rfl, hs'⟩

namespace Machine

/-- The boot from `heap_init` on to the end of `task_init`: `runs` are the stacks it takes for the
other CPUs and for double faults, `frames` what is taken before. -/
def boot (heap : Heap) (frames runs : List Nat) (taskReaperMain : Nat) : Option (Bool × Machine) :=
  let m := runs.foldl allocContiguous ⟨Kernel.start heap, frames, []⟩
  (m.kernel.taskInit taskReaperMain).map fun x => (x.1, { m with kernel := x.2 })

theorem boot_spec {frames : List Nat} (hs : Spaces phys [] [] frames)
    (h : Heap.heapInit phys bytes = some heap) (runs : List Nat) (taskReaperMain : Nat) :
    ∃ ok m, boot heap frames runs taskReaperMain = some (ok, m) ∧ m.Sound := by
  have hruns : ∀ (m : Machine), m.Sound → m.kernel.tasks = [] →
      (runs.foldl allocContiguous m).Sound ∧ (runs.foldl allocContiguous m).kernel.tasks = [] := by
    induction runs with
    | nil => exact fun m hm ht => ⟨hm, ht⟩
    | cons n runs ih =>
      intro m hm ht
      obtain ⟨hs', -, hst⟩ := allocContiguous_spec (r := 0) hm n
      exact ih _ hs' (hst.tasks.trans ht)
  obtain ⟨hs₁, ht₁⟩ := hruns ⟨Kernel.start heap, frames, []⟩ (Kernel.start_sound hs h) rfl
  obtain ⟨ok, k', he, hs'⟩ := Kernel.taskInit_spec hs₁ ht₁ taskReaperMain
  unfold boot
  dsimp only
  rw [he]
  exact ⟨ok, _, rfl, hs'⟩

end Machine

end Boot

namespace Machine

variable {m m' : Machine} {cs : List KernelCall}

/-- The machine after any calls since a boot. -/
inductive Reachable : Machine → Prop
  | boot {phys : Phys} {bytes : Bytes.Mem} {heap : Heap} {frames runs : List Nat}
      {taskReaperMain : Nat} {ok : Bool}
    {m : Machine} (hs : Spaces phys [] [] frames) (hi : Heap.heapInit phys bytes = some heap)
    (hb : boot heap frames runs taskReaperMain = some (ok, m)) : Reachable m
  | call {m m' : Machine} {c : KernelCall} (h : Reachable m)
      (hc : m.call c = some m') : Reachable m'

theorem Reachable.sound (h : Reachable m) : m.Sound := by
  induction h with
  | @boot _ _ _ _ runs main _ _ hs hi hb =>
    obtain ⟨ok, m', he, hm⟩ := boot_spec hs hi runs main
    rw [hb] at he
    cases he
    exact hm
  | @call _ _ c _ hc ih =>
    obtain ⟨m', he, hm, -⟩ := call_spec ih c
    rw [hc] at he
    cases he
    exact hm

theorem Reachable.run (h : Reachable m) (he : m.run cs = some m') : Reachable m' := by
  induction cs generalizing m with
  | nil =>
    cases he
    exact h
  | cons c cs ih =>
    rw [run_cons] at he
    obtain ⟨m₁, hc, he⟩ := Option.bind_eq_some_iff.mp he
    exact ih (h.call hc) he

end Machine

/-! ## A small machine -/

/-- Physical memory without processes: the kernel's root table is all that is held. -/
theorem Phys.RootOnly.spaces {s : Phys} (h : s.RootOnly) : Spaces s [] [] [] := by
  have htables : s.kernelTables = [4096] := by
    unfold kernelTables
    rw [h.root]
    exact h.tables _
  have hall : s.allTables [] = [4096] := by
    unfold allTables
    rw [htables]
    rfl
  refine ⟨h.kernelTree, nofun, ?_, fun g _ => ⟨List.not_mem_nil, nofun⟩, fun a ha => ?_⟩
  · rw [hall]
    exact List.nodup_singleton _
  · show s.pmm.refcounts (a / 4096) = (s.kernelTables ++ []).count a
    have hal := ha.aligned
    have h0 : a / 4096 ≠ 0 := fun h0 => ha.unreserved ((h.refs _).trans (if_pos h0))
    rw [htables, List.append_nil, h.refs, if_neg h0]
    by_cases h1 : a / 4096 = 1
    · rw [if_pos h1, show a = 4096 by omega]
      rfl
    · have hne : 4096 ≠ a := by omega
      rw [if_neg h1, List.count_singleton, beq_eq_false_iff_ne.mpr hne]
      rfl

namespace Machine

variable {deny : Nat → Bool} {cs : List KernelCall} {m : Machine}

/-- 128 frames: the first is withheld, the second is in use. -/
def roomyPmm : Pmm where
  bitmap := fun i => if i = 0 then 0x03#8 else 0#8
  bitmapSize := 16
  totalPages := 128
  freePages := 126
  refcounts := fun i => if i = 0 then uint32Max else if i = 1 then 1 else 0
  lastAllocIndex := 0

/-- The memory before the boot, with a schedule of the requests that fail. -/
def roomyPhys (deny : Nat → Bool) : Phys where
  pmm := roomyPmm
  mem := fun _ _ => 0#64
  kernelPml4 := 4096
  deny := deny
  asked := 0

theorem roomyPhys_rootOnly (deny : Nat → Bool) : (roomyPhys deny).RootOnly := by
  have hinv :
    roomyPmm.Inv := ⟨by decide +kernel, by decide +kernel, fun _ => rfl, by decide +kernel⟩
  exact ⟨hinv, show 128 ≤ 2 ^ 40 by decide, rfl, fun _ => rfl, fun _ => rfl⟩

/-- The calls on the small machine, once it has its first tasks. -/
def roomyRun (deny : Nat → Bool) (cs : List KernelCall) : Option Machine := do
  let heap ← Heap.heapInit (roomyPhys deny) fun _ => 0#8
  let (ok, m) ← boot heap [] [] 1
  if ok then m.run cs else none

theorem reachable_roomy (h : roomyRun deny cs = some m) : Reachable m := by
  obtain ⟨heap, hi, h⟩ := Option.bind_eq_some_iff.mp h
  obtain ⟨⟨ok, m₀⟩, hb, h⟩ := Option.bind_eq_some_iff.mp h
  have h₀ : Reachable m₀ := .boot (roomyPhys_rootOnly deny).spaces hi hb
  cases ok with
  | false => cases h
  | true => exact h₀.run h

/-- A run of the small machine that ends where `P` holds. -/
theorem reachable_of_run {P : Machine → Prop} [DecidablePred P] (deny : Nat → Bool)
    (cs : List KernelCall)
    (h : (roomyRun deny cs).map (fun m => decide (P m)) = some true) : ∃ m, Reachable m ∧ P m := by
  obtain ⟨m, he, hp⟩ := Option.map_eq_some_iff.mp h
  exact ⟨m, reachable_roomy he, of_decide_eq_true hp⟩

/-- A program of one instruction, in the page table of the stack. -/
def smallElf : List (BitVec 8) :=
  [0x7f, 0x45, 0x4c, 0x46, 2, 1, 1, 0, 0, 0, 0, 0, 0, 0, 0, 0,
   2, 0, 62, 0, 1, 0, 0, 0, 0x78, 0, 0x01, 0x80, 0, 0, 0, 0,
   64, 0, 0, 0, 0, 0, 0, 0, 0, 0, 0, 0, 0, 0, 0, 0,
   0, 0, 0, 0, 64, 0, 56, 0, 1, 0, 0, 0, 0, 0, 0, 0,
   1, 0, 0, 0, 5, 0, 0, 0, 0x78, 0, 0, 0, 0, 0, 0, 0,
   0x78, 0, 0x01, 0x80, 0, 0, 0, 0, 0, 0, 0, 0, 0, 0, 0, 0,
   1, 0, 0, 0, 0, 0, 0, 0, 1, 0, 0, 0, 0, 0, 0, 0,
   0, 0x10, 0, 0, 0, 0, 0, 0, 0xc3]

end Machine

end GenOS
