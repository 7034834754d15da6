import GenOS.Kernel.ProcessCalls

/-!
# Tasks come and go

`create_task`, `task_clone`, the ends of a task and the reaper. A task that is not in the list yet,
or not any more, is one of the other holders: its stack is among the frames `rest`, its block among
`ps`.
-/

namespace GenOS

open Phys Pmm

variable {c c' : HeapClient} {s s' : Phys} {m m' : Shm} {t t' : Process}
  {ts ts' ts₁ ts₂ : List Process}
variable {us us₁ us₂ : List UserTask} {rest rest' ps ps' gone new : List Nat} {i j r p : Nat}
variable {k k' k'' : Kernel}

/-! ## Frames and blocks of nobody in particular -/

namespace World

theorem freeFrames (h : World c m us (gone ++ rest) ps) :
    World (c.setPhys (gone.foldl freeFrame c.phys)) m us rest ps ∧
      Stable c (c.setPhys (gone.foldl freeFrame c.phys)) (owners us) ∧
      Trade c (c.setPhys (gone.foldl freeFrame c.phys)) gone [] := by
  obtain ⟨hm, hst⟩ := h.memory.freeFrames
  exact ⟨h.keep hm hst, hst, .setPhys (foldl_freeFrame_kernel gone c.phys)
    (fun g _ => by rw [foldl_freeFrame_mem]) h.memory.freeFrames_moves⟩

theorem takeFrames (h : World c m us rest ps) (ht : Taken c.phys s new) :
    World (c.setPhys s) m us (new ++ rest) ps ∧ Stable c (c.setPhys s) (owners us) ∧
      Trade c (c.setPhys s) [] new := by
  obtain ⟨hm, hst⟩ := h.memory.takeFrames ht
  exact ⟨h.keep hm hst, hst,
    .setPhys ht.kernel (fun g hg => ht.mem_used (h.memory.kernel_used hg)) ht.moves⟩

theorem freeBlock (h : World c m us rest (p :: ps)) :
    ∃ c', c.kfree p = some c' ∧ World c' m us rest ps ∧ Stable c c' (owners us) ∧
    Trade c c' [] [] := by
  obtain ⟨c', he, hp, hm, hst⟩ := (h.memory.perm (.refl _) (.refl _) List.perm_middle).freeBlock
  exact ⟨c', he, h.keep hm hst, hst, hst.trade hp h.memory.spaces.inv⟩

theorem allocBlock (h : World c m us rest ps) (size : Nat) : ∃ p c', c.kmalloc size = some (p, c') ∧
    World c' m us rest (if p = 0 then ps else p :: ps) ∧ Stable c c' (owners us) ∧
    Trade c c' [] [] := by
  obtain ⟨p, c', he, hst, hm⟩ := h.memory.kmalloc size
  refine ⟨p, c', he, h.keep ?_ hst.stable, hst.stable, hst.trade h.memory⟩
  split
  · next hp =>
    rw [if_pos hp] at hm
    exact hm
  · next hp =>
    rw [if_neg hp] at hm
    exact hm.perm (.refl _) (.refl _) List.perm_middle.symm

end World

/-! ## A kernel stack -/

/-- The frames of a run. -/
def runFrames (start count : Nat) : List Nat := (List.range count).map fun i => start + i * 4096

theorem Process.stack_eq (t : Process) :
    t.stack = runFrames t.kernelStackPhys t.kernelStackPages := rfl

theorem mem_runFrames {start count a : Nat} :
    a ∈ runFrames (start * 4096) count ↔ a % 4096 = 0 ∧ start ≤ a / 4096 ∧
    a / 4096 < start + count := by
  unfold runFrames
  rw [List.mem_map]
  constructor
  · rintro ⟨i, hi, rfl⟩
    rw [List.mem_range] at hi
    omega
  · rintro ⟨h1, h2, h3⟩
    exact ⟨a / 4096 - start, List.mem_range.mpr (by omega), by omega⟩

theorem nodup_runFrames (start count : Nat) : (runFrames start count).Nodup :=
  List.nodup_range.map fun a b (h : start + a * 4096 = start + b * 4096) => by omega

/-- A run of frames was taken. -/
theorem Pmm.AllocRun.moves {q q' : Pmm} {start count : Nat} (h : q.Inv) (h' : q'.Inv)
    (ha : AllocRun q q' start count) : Moves q q' [] (runFrames (start * 4096) count) := by
  have hfree : ∀ i, start ≤ i → i < start + count → q.Free i := fun i h1 h2 => by
    have := ha.free (i - start) (by omega)
    rwa [show start + (i - start) = i by omega] at this
  refine ⟨h', ha.total, fun i => ?_, fun a hat => ?_⟩
  · unfold Reserved
    rw [ha.refs i]
    split
    · next hi =>
      have := h.free_not_reserved (hfree i hi.1 hi.2)
      unfold Reserved at this
      exact ⟨fun hx => absurd hx (by decide), fun hx => absurd hx this⟩
    · exact Iff.rfl
  · rw [ha.refs, List.count_nil, Nat.add_zero]
    by_cases hi : start ≤ a / 4096 ∧ a / 4096 < start + count
    · have h0 := (h.free_iff hat.lt).mp (hfree _ hi.1 hi.2)
      rw [if_pos hi, h0, List.count_eq_one_of_mem (nodup_runFrames ..)
        (mem_runFrames.mpr ⟨hat.aligned, hi⟩)]
    · rw [if_neg hi, List.count_eq_zero.mpr fun hm => hi (mem_runFrames.mp hm).2, Nat.add_zero]

/-- **`pmm_alloc_contiguous_pages`** takes a run of free frames, or nothing. -/
theorem Phys.allocContiguous_cases (h : s.pmm.Inv) (count : Nat) :
    s.allocContiguous count = (0, { s with asked := s.asked + 1 }) ∨
    ∃ start q,
      s.allocContiguous count = (start, { s with pmm := q, asked := s.asked + 1 }) ∧ start ≠ 0 ∧
      Phys.Taken s { s with pmm := q, asked := s.asked + 1 } (runFrames start count) := by
  unfold allocContiguous
  split
  · exact .inl rfl
  rcases Pmm.allocContiguous_cases h count with ⟨he, -⟩ | ⟨start, he, ha⟩
  · rw [he]
    exact .inl rfl
  · have hinv : (s.pmm.pmmAllocContiguousPages count).2.Inv := step_inv h (.allocContiguous count)
    have hmv := ha.moves h hinv
    have hfree : ∀ f ∈ runFrames (start * 4096) count, s.pmm.FreeAt f := fun f hf => by
      obtain ⟨h1, h2, h3⟩ := mem_runFrames.mp hf
      refine freeAt_of_free h h1 ?_
      have := ha.free (f / 4096 - start) (by omega)
      rwa [show start + (f / 4096 - start) = f / 4096 by omega] at this
    rw [he]
    refine .inr ⟨start * 4096, _, rfl, fun h0 => ?_, hmv, hfree, nodup_runFrames ..,
      fun _ _ => rfl, rfl⟩
    have := h.free_ne_zero (ha.free 0 ha.pos)
    omega

namespace Kernel

/-! ## Making a task -/

/-- Work that leaves the list, the segments and the owners alone. -/
structure Still (k k' : Kernel) : Prop where
  tasks : k'.tasks = k.tasks
  shm : k'.shm = k.shm
  next : k'.nextPid = k.nextPid
  stable : Stable k.heap k'.heap k.owners

namespace Still

theorem refl : Still k k := ⟨rfl, rfl, rfl, .refl⟩

theorem owners (h : Still k k') : k'.owners = k.owners := by
  unfold Kernel.owners
  rw [h.tasks]

theorem trans (h : Still k k') (h' : Still k' k'') : Still k k'' :=
  ⟨h'.tasks.trans h.tasks, h'.shm.trans h.shm, h'.next.trans h.next,
    h.stable.trans (h.owners ▸ h'.stable)⟩

theorem spares (h : Still k k') : k.Spares k' r := .of_stable h.owners h.stable

/-- The tasks after such work. -/
theorem sound (h : Still k k') (hs : k.Sound rest ps) (hw : World k'.heap k.shm (users k.tasks)
    (stackFrames k.tasks ++ rest') (taskBlocks k.tasks ++ ps')) : k'.Sound rest' ps' := by
  refine ⟨?_, h.tasks ▸ hs.grouped⟩
  rw [h.tasks, h.shm]
  exact hw

end Still

/-- Such work that gave back the frames `gone` and took the frames `new`. -/
structure Traded (k k' : Kernel) (gone new : List Nat) : Prop extends Still k k' where
  trade : Trade k.heap k'.heap gone new

namespace Traded

theorem refl (h : k.Sound rest ps) : Traded k k gone gone :=
    ⟨.refl, .refl h.world.memory.spaces.inv⟩

theorem trans {A B C : List Nat} (h : Traded k k' A B) (h' : Traded k' k'' B C) :
    Traded k k'' A C :=
  ⟨h.toStill.trans h'.toStill, h.trade.trans h'.trade⟩

theorem frame (h : Traded k k' gone new) (C : List Nat) : Traded k k' (gone ++ C) (new ++ C) :=
  ⟨h.toStill, h.trade.frame C⟩

end Traded

/-- Frames and blocks of everything else first. -/
theorem Sound.front (h : k.Sound (gone ++ rest) (new ++ ps)) : World k.heap k.shm (users k.tasks)
    (gone ++ (stackFrames k.tasks ++ rest)) (new ++ (taskBlocks k.tasks ++ ps)) :=
  h.world.perm (List.perm_append_comm_assoc ..) (List.perm_append_comm_assoc ..)

theorem taskAlloc_spec (h : k.Sound rest ps) : ∃ x k', k.taskAlloc = some (x, k') ∧
    Traded k k' [] [] ∧
    ((x = none ∧ k'.Sound rest ps) ∨ ∃ b, x = some (.blank b) ∧ b ≠ 0 ∧
      k'.Sound rest (b :: ps)) := by
  obtain ⟨b, c', he, hw, hst, htr⟩ := h.world.allocBlock taskSize
  have hstill : Traded k { k with heap := c' } [] [] := ⟨⟨rfl, rfl, rfl, hst⟩, htr⟩
  unfold taskAlloc
  simp only [he, Option.bind_eq_bind, Option.bind_some]
  by_cases hb : b = 0
  · rw [if_pos hb] at hw ⊢
    exact ⟨_, _, rfl, hstill, .inl ⟨rfl, hstill.sound h hw⟩⟩
  · rw [if_neg hb] at hw ⊢
    exact ⟨_, _, rfl, hstill, .inr ⟨b, rfl, hb, hstill.sound h
      (hw.perm (.refl _) List.perm_middle.symm)⟩⟩

theorem taskAllocStack_spec (h : k.Sound rest ps) (t : Process) :
    (∃ k', k.taskAllocStack t = (false, k', t) ∧ Traded k k' [] [] ∧ k'.Sound rest ps) ∨
    ∃ k' start, k.taskAllocStack t = (true, k', { t with
        kernelStackPhys := start, kernelStackPages := GenOS.kernelStackPages }) ∧
      Traded k k' [] (runFrames start GenOS.kernelStackPages) ∧
          k'.Sound (runFrames start GenOS.kernelStackPages ++ rest) ps := by
  unfold taskAllocStack
  rcases Phys.allocContiguous_cases h.world.memory.spaces.inv GenOS.kernelStackPages with
    he | ⟨start, q, he, h0, ht⟩
  · have hnone : Taken k.phys { k.phys with asked := k.phys.asked + 1 } [] :=
      ⟨.refl h.world.memory.spaces.inv, nofun, .nil, fun _ _ => rfl, rfl⟩
    obtain ⟨hw, hst, htr⟩ := h.world.takeFrames hnone
    have he : k.phys.allocContiguous GenOS.kernelStackPages = _ := he
    rw [he]
    have hstill : Traded k { k.setPhys { k.phys with asked := k.phys.asked + 1 } with stats :=
        { k.stats with stackAllocFailures := k.stats.stackAllocFailures + 1 } } [] [] :=
      ⟨⟨rfl, rfl, rfl, hst⟩, htr⟩
    exact .inl ⟨_, if_pos rfl, hstill, hstill.sound h hw⟩
  · obtain ⟨hw, hst, htr⟩ := h.world.takeFrames ht
    have he : k.phys.allocContiguous GenOS.kernelStackPages = _ := he
    rw [he]
    dsimp only
    rw [if_neg h0]
    have hstill :
        Traded k { k.setPhys { k.phys with pmm := q, asked := k.phys.asked + 1 } with stats :=
        { k.stats with kernelStackPages := k.stats.kernelStackPages + GenOS.kernelStackPages } } []
        (runFrames start GenOS.kernelStackPages) := ⟨⟨rfl, rfl, rfl, hst⟩, htr⟩
    exact .inr
      ⟨_, start, rfl, hstill, hstill.sound h (hw.perm (List.perm_append_comm_assoc ..) (.refl _))⟩

theorem free_spec (h : k.Sound rest (p :: ps)) :
    ∃ k', k.free p = some k' ∧ Traded k k' [] [] ∧ k'.Sound rest ps := by
  obtain ⟨c', he, hw, hst, htr⟩ := (h.world.perm (.refl _) List.perm_middle).freeBlock
  have hstill : Traded k { k with heap := c' } [] [] := ⟨⟨rfl, rfl, rfl, hst⟩, htr⟩
  refine ⟨_, ?_, hstill, hstill.sound h hw⟩
  unfold free
  rw [he]
  rfl

theorem taskFreeStack_spec (h : k.Sound (t.stack ++ rest) ps) :
    Traded k (k.taskFreeStack t).1 t.stack [] ∧ (k.taskFreeStack t).1.Sound rest ps := by
  obtain ⟨hw, hst, htr⟩ := (h.world.perm (List.perm_append_comm_assoc ..) (.refl _)).freeFrames
  have hstill : Traded k (k.taskFreeStack t).1 t.stack [] := ⟨⟨rfl, rfl, rfl, hst⟩, htr⟩
  exact ⟨hstill, hstill.sound h hw⟩

/-- The task that `task_publish` puts at the end of the list. -/
def published (k : Kernel) (t : Process) : Process :=
  { t with pid := k.nextPid, tgid := if t.isThread then t.tgid else k.nextPid }

theorem taskPublish_eq (k : Kernel) (t : Process) : k.taskPublish t =
    { k with tasks := k.tasks ++ [k.published t], nextPid := (k.nextPid + 1) % 2 ^ 32 } := rfl

/-- The group of a task that is published. -/
theorem grouped_published (h : Grouped k.tasks)
    (hl : t.isThread = true → ∃ l ∈ k.tasks, l.Leads t) : Grouped (k.tasks ++ [k.published t]) := by
  refine h.snoc (fun hp => ?_) fun hth => ?_
  · have hp : t.isThread = false := hp
    exact if_neg (by rw [hp]; exact Bool.false_ne_true)
  · have hth : t.isThread = true := hth
    obtain ⟨l, hlm, hl⟩ := hl hth
    refine ⟨l, hlm, hl.process, hl.space, hl.root, ?_⟩
    rw [hl.pid]
    exact (if_pos hth).symm

/-- **A task that was made is published.** -/
theorem publish_sound (hg : Grouped k.tasks) (hl : t.isThread = true → ∃ l ∈ k.tasks, l.Leads t)
    (hw : World k.heap k.shm (users k.tasks ++ [t.toUserTask])
      (stackFrames k.tasks ++ (t.stack ++ rest))
      (taskBlocks k.tasks ++ t.block :: ps)) : (k.taskPublish t).Sound rest ps := by
  refine ⟨?_, grouped_published hg hl⟩
  have hu : users (k.tasks ++ [k.published t]) = users k.tasks ++ [t.toUserTask] := users_append
  have hs : stackFrames (k.tasks ++ [k.published t]) = stackFrames k.tasks ++ t.stack := by
    unfold stackFrames
    rw [List.flatMap_append, List.flatMap_singleton]
    rfl
  have hb : taskBlocks (k.tasks ++ [k.published t]) = taskBlocks k.tasks ++ [t.block] := by
    unfold taskBlocks
    rw [List.map_append, List.map_singleton]
    rfl
  show World k.heap k.shm (users (k.tasks ++ [k.published t]))
    (stackFrames (k.tasks ++ [k.published t]) ++ rest)
    (taskBlocks (k.tasks ++ [k.published t]) ++ ps)
  rw [hu, hs, hb, List.append_assoc, List.append_assoc]
  exact hw

/-- The owners with a task that is published. -/
theorem spares_published (ho : k'.tasks = k.tasks) (hs : Stable k.heap k'.heap k.owners)
    (t : Process) :
    k.Spares (k'.taskPublish t) r := fun u hu _ => .inl ⟨by
  show u ∈ GenOS.owners (users (k'.tasks ++ [k'.published t]))
  rw [users_append, owners_append, ho]
  exact List.mem_append_left _ hu, hs.unaffected u hu⟩

/-- A task that holds no memory of its own is published. -/
theorem publish_bare (h : k.Sound (t.stack ++ rest) (t.block :: ps)) (hb : Bare t.toUserTask)
    (ho : t.toUserTask.owns = false) (hl : t.isThread = true → ∃ l ∈ k.tasks, l.Leads t) :
    (k.taskPublish t).Sound rest ps := by
  refine publish_sound h.grouped hl ?_
  refine World.addBare ?_ hb ho
  rw [List.append_nil]
  exact h.world

/-- A process with memory of its own is published, after work that kept the tasks. -/
theorem publish_process (h : k.Sound rest ps) (ht : k'.tasks = k.tasks)
    (hn : k'.nextPid = k.nextPid)
    (hp : t.isThread = false)
    (hw : World k'.heap k'.shm (users k.tasks ++ [t.toUserTask])
      (t.stack ++ (stackFrames k.tasks ++ rest))
      (t.block :: (taskBlocks k.tasks ++ ps))) :
    (k'.taskPublish t).Sound rest ps ∧
    ((k'.published t).pid = k.nextPid ∧ (k'.published t).tgid = k.nextPid) ∧
      (k'.taskPublish t).nextPid = (k.nextPid + 1) % 2 ^ 32 := by
  refine ⟨publish_sound (ht ▸ h.grouped) (fun hth => ?_) ?_, ⟨hn, ?_⟩, ?_⟩
  · exact absurd (hp.symm.trans hth) Bool.false_ne_true
  · rw [ht]
    exact hw.perm (List.perm_append_comm_assoc ..) List.perm_middle.symm
  · exact (if_neg (by rw [hp]; exact Bool.false_ne_true)).trans hn
  · rw [taskPublish_eq, hn]

/-- A task in the making, with its stack. -/
structure Made (k k' : Kernel) (t : Process) (rest ps : List Nat) : Prop where
  still : Traded k k' [] t.stack
  sound : k'.Sound (t.stack ++ rest) (t.block :: ps)

/-- What the code that makes tasks begins with: `task_alloc` and `task_alloc_stack`. Where one of
them fails, nothing is left. -/
theorem make_cases (h : k.Sound rest ps) :
    (∃ k', k.taskAlloc = some (none, k') ∧ Traded k k' [] [] ∧ k'.Sound rest ps) ∨
    ∃ b k₁, b ≠ 0 ∧ k.taskAlloc = some (some (.blank b), k₁) ∧
      ((∃ k₂ k', k₁.taskAllocStack (.blank b) = (false, k₂, .blank b) ∧ k₂.free b = some k' ∧
          Traded k k' [] [] ∧ k'.Sound rest ps) ∨
        ∃ k' start, k₁.taskAllocStack (.blank b) = (true, k', { Process.blank b with
          kernelStackPhys := start, kernelStackPages := GenOS.kernelStackPages }) ∧
          Made k k' { Process.blank b with
            kernelStackPhys := start, kernelStackPages := GenOS.kernelStackPages } rest ps) := by
  obtain ⟨x, k₁, he, hst₁, ⟨rfl, hs⟩ | ⟨b, rfl, hb, hs⟩⟩ := taskAlloc_spec h
  · exact .inl ⟨k₁, he, hst₁, hs⟩
  refine .inr ⟨b, k₁, hb, he, ?_⟩
  rcases taskAllocStack_spec hs (.blank b) with ⟨k₂, he₂, hst₂, hs₂⟩ | ⟨k', start, he₂, hst₂, hs₂⟩
  · obtain ⟨k', he', hst', hs'⟩ := free_spec hs₂
    exact .inl ⟨k₂, k', he₂, he', (hst₁.trans hst₂).trans hst', hs'⟩
  · exact .inr ⟨k', start, he₂, hst₁.trans hst₂, hs₂⟩

theorem bare_blank (b : Nat) : Bare (Process.blank b).toUserTask := ⟨rfl, rfl, rfl, rfl, rfl, rfl⟩

/-- **`create_task`** makes a kernel task, or leaves everything as it was. -/
theorem createTask_spec (h : k.Sound rest ps) (entryPoint : Nat) :
    ∃ b k', k.createTask entryPoint = some (b, k') ∧ k'.Sound rest ps ∧
      ((b = 0 ∧ Traded k k' [] []) ∨ b ≠ 0 ∧ k.Spares k' r) := by
  unfold createTask
  split
  · exact ⟨0, k, rfl, h, .inl ⟨rfl, .refl h⟩⟩
  rcases make_cases h with ⟨k', he, hst, hs⟩ |
    ⟨b, k₁, hb, he, ⟨k₂, k', he₂, hf, hst, hs⟩ | ⟨k', start, he₂, hm⟩⟩
  · simp only [he, Option.bind_eq_bind, Option.bind_some]
    exact ⟨0, k', rfl, hs, .inl ⟨rfl, hst⟩⟩
  · have hf : k₂.free (Process.blank b).block = some k' := hf
    simp only [he, he₂, hf, Option.bind_eq_bind, Option.bind_some]
    exact ⟨0, k', rfl, hs, .inl ⟨rfl, hst⟩⟩
  · simp only [he, he₂, Option.bind_eq_bind, Option.bind_some]
    exact ⟨b, _, rfl, publish_bare hm.sound (bare_blank b) rfl nofun,
      .inr ⟨hb, spares_published hm.still.tasks hm.still.stable _⟩⟩

/-- The leader of a new thread. -/
theorem leads_clone (h : k.Sound rest ps) {current : Process} (hc : current ∈ k.tasks) :
    ∃ l ∈ k.tasks, l.isThread = false ∧ l.pml4 = current.pml4 ∧
      l.pid = current.tgid := by
  by_cases hth : current.isThread = true
  · obtain ⟨ts₁, ts₂, hs⟩ := List.append_of_mem hc
    obtain ⟨l, hl, hlead⟩ := h.grouped.leader hs hth
    exact ⟨l, by rw [hs]; exact List.mem_append_left _ hl, hlead.process, hlead.space, hlead.pid⟩
  · have hp := Bool.eq_false_of_not_eq_true hth
    exact ⟨current, hc, hp, rfl, (h.grouped.self current hc hp).symm⟩

/-- **`task_clone`** makes a thread of the caller's group, or leaves everything as it was. -/
theorem taskClone_spec (h : k.Sound rest ps) (i entry stackTop : Nat) :
    ∃ x k', k.taskClone i entry stackTop = some (x, k') ∧ k'.Sound rest ps ∧
      ((x = -1 ∧ Traded k k' [] []) ∨ k'.nextPid = (k.nextPid + 1) % 2 ^ 32 ∧ k.Spares k' r) := by
  have hfail : ∀ {x : Int × Kernel}, x = (-1, k) → ∃ y k', some x = some (y, k') ∧
    k'.Sound rest ps ∧
      ((y = -1 ∧ Traded k k' [] []) ∨ k'.nextPid = (k.nextPid + 1) % 2 ^ 32 ∧ k.Spares k' r) :=
        fun hx =>
    ⟨-1, k, congrArg some hx, h, .inl ⟨rfl, .refl h⟩⟩
  unfold taskClone
  cases hc : k.tasks[i]? with
  | none => exact hfail rfl
  | some current =>
    dsimp only
    split
    · exact hfail rfl
    next h0 =>
    cases (k.taskFindByPid current.tgid).bind fun j => k.tasks[j]? with
    | none => exact hfail rfl
    | some leader =>
      dsimp only
      split
      · exact hfail rfl
      obtain ⟨l, hl, hp, hr, hpid⟩ := leads_clone h (List.mem_of_getElem? hc)
      rcases make_cases h with ⟨k', he, hst, hs⟩ |
        ⟨b, k₁, hb, he, ⟨k₂, k', he₂, hf, hst, hs⟩ | ⟨k', start, he₂, hm⟩⟩
      · simp only [he, Option.bind_eq_bind, Option.bind_some]
        exact ⟨-1, k', rfl, hs, .inl ⟨rfl, hst⟩⟩
      · have hf : k₂.free (Process.blank b).block = some k' := hf
        simp only [he, he₂, hf, Option.bind_eq_bind, Option.bind_some]
        exact ⟨-1, k', rfl, hs, .inl ⟨rfl, hst⟩⟩
      · simp only [he, he₂, Option.bind_eq_bind, Option.bind_some]
        refine ⟨_, _, rfl, publish_bare hm.sound ⟨rfl, rfl, rfl, rfl, rfl, rfl⟩ rfl fun _ =>
          ⟨l, hm.still.tasks.symm ▸ hl, hp, hr, hr.symm ▸ h0, hpid⟩,
          .inr ⟨?_, spares_published hm.still.tasks hm.still.stable _⟩⟩
        rw [taskPublish_eq, hm.still.next]

/-! ## The end of a task -/

/-- Everything of a task but whether it is dead. -/
def core (t : Process) : Process := { t with dead := false }

theorem map_core {α : Type} {f : Process → α} (hf : ∀ t, f (core t) = f t)
    (h : ts'.map core = ts.map core) :
    ts'.map f = ts.map f := by
  have := congrArg (List.map f) h
  simpa only [List.map_map, Function.comp_def, hf] using this

/-- Which tasks are dead does not matter to the memory. -/
theorem tasks_core (h : Tasks c m ts rest ps) (he : ts'.map core = ts.map core) :
    Tasks c m ts' rest ps := by
  have hs : stackFrames ts' = stackFrames ts := by
    unfold stackFrames
    rw [List.flatMap_def, List.flatMap_def, map_core (fun _ => rfl) he]
  refine ⟨?_, h.grouped.congr (map_core (fun _ => rfl) he)⟩
  rw [hs, show users ts' = users ts from map_core (fun _ => rfl) he,
    show taskBlocks ts' = taskBlocks ts from map_core (fun _ => rfl) he]
  exact h.world

theorem core_modify (l : List Process) (i : Nat) : (l.modify i die).map core = l.map core := by
  refine List.ext_getElem? fun j => ?_
  simp only [List.getElem?_map, List.getElem?_modify]
  cases l[j]? with
  | none => rfl
  | some t =>
    simp only [Option.map_some]
    split
    · rfl
    · rfl

theorem core_dieWith (pml4 : Nat) (l : List Process) : (dieWith pml4 l).map core = l.map core := by
  unfold dieWith
  rw [List.map_map]
  refine List.map_congr_left fun t _ => ?_
  rw [Function.comp_apply]
  split
  · rfl
  · rfl

theorem owners_core (he : ts'.map core = ts.map core) :
    GenOS.owners (users ts') = GenOS.owners (users ts) := by
  rw [show users ts' = users ts from map_core (fun _ => rfl) he]

/-- Tasks that die keep their memory. -/
theorem exitTask_spec (h : k.Sound rest ps) (i : Nat) :
    (k.exitTask i).Sound rest ps ∧ k.Spares (k.exitTask i) r :=
  ⟨tasks_core h (core_modify ..), .of_stable (owners_core (core_modify ..)) .refl⟩

theorem abortGroup_spec (h : k.Sound rest ps) (i : Nat) :
    (k.abortGroup i).Sound rest ps ∧ k.Spares (k.abortGroup i) r := by
  unfold abortGroup
  split
  · exact ⟨h, .refl⟩
  split
  · next t _ _ =>
    have he : (((dieWith t.pml4 k.tasks).modify i die).map core) = k.tasks.map core := by
      rw [core_modify, core_dieWith]
    exact ⟨tasks_core h he, .of_stable (owners_core he) .refl⟩
  · exact exitTask_spec h i

/-! ## The reaper -/

@[simp] theorem destroySpace_tasks (k : Kernel) (pml4 : Nat) :
    (k.destroySpace pml4).tasks = k.tasks := by
  unfold destroySpace
  split
  · rfl
  · rfl

@[simp] theorem destroySpace_nextPid (k : Kernel) (pml4 : Nat) :
    (k.destroySpace pml4).nextPid = k.nextPid := by
  unfold destroySpace
  split
  · rfl
  · rfl

/-- What a process owns goes back. -/
theorem releaseMemory_spec (hp : t.isThread = false)
    (hw : World k.heap k.shm (us₁ ++ t.toUserTask :: us₂) rest ps) :
    ∃ k₁ t₁, k.releaseMemory t = some (k₁, t₁) ∧ k₁.tasks = k.tasks ∧ k₁.nextPid = k.nextPid ∧
      t₁.pml4 = t.pml4 ∧ t₁.stack = t.stack ∧ t₁.block = t.block ∧
      World (k₁.destroySpace t.pml4).heap (k₁.destroySpace t.pml4).shm (us₁ ++ us₂) rest ps ∧
      ∀ u ∈ GenOS.owners (us₁ ++ us₂), Unaffected k.phys (k₁.destroySpace t.pml4).phys u := by
  unfold releaseMemory destroySpace
  by_cases hr : t.pml4 = 0
  · have ho : t.toUserTask.owns = false := by
      unfold UserTask.owns
      rw [hr, bne_self_eq_false, Bool.and_false]
    have hbare := hw.bare t.toUserTask (List.mem_append_right _ List.mem_cons_self) ho
    obtain ⟨c₁, m₁, he, hw₁, hst, -⟩ := shmCleanupProcess_unattached (hw.dropBare ho)
      (World.bare_unattached hbare) t.pid
    obtain ⟨t₁, he₂, hroot⟩ := userMemoryRelease_bare (c := c₁) hbare
    simp only [he, he₂, Option.bind_eq_bind, Option.bind_some]
    refine ⟨_, _, rfl, rfl, rfl, hroot, rfl, rfl, ?_⟩
    rw [if_neg (not_not.mpr hr)]
    exact ⟨hw₁, fun u hu => hst.unaffected u hu⟩
  · have ho : t.toUserTask.owns = true := owns_iff.mpr ⟨hp, hr⟩
    obtain ⟨c₁, m₁, t₁, he, hw₁, ⟨l, ht₁, hneg⟩, hun⟩ := shmCleanupProcess_spec hw ho t.pid
    have hr₁ : t₁.pml4 = t.pml4 := by rw [ht₁]
    obtain ⟨c₂, he₂, hw₂, hst⟩ := hw₁.removeOwner (by rw [ht₁]; exact ho) (by rw [ht₁]; exact hneg)
    simp only [he, he₂, Option.bind_eq_bind, Option.bind_some]
    refine ⟨_, _, rfl, rfl, rfl, hr₁, rfl, rfl, ?_⟩
    rw [if_pos hr, ← hr₁]
    exact ⟨hw₂, fun u hu => (hun u (by rwa [← owners_append])).trans (hst.unaffected u hu)⟩

/-- **The reaper gives back all a task holds**: `ts₁` and `ts₂` are the other tasks. -/
theorem reapTask_spec (h : Tasks k.heap k.shm (ts₁ ++ t :: ts₂) rest ps)
    (hno : ∀ u ∈ ts₂, ¬ t.Leads u) :
    ∃ k', k.reapTask t = some k' ∧ k'.tasks = k.tasks ∧ k'.nextPid = k.nextPid ∧
      Tasks k'.heap k'.shm (ts₁ ++ ts₂) rest ps ∧
      ∀ u ∈ GenOS.owners (users (ts₁ ++ ts₂)), Unaffected k.phys k'.phys u := by
  have hw : World k.heap k.shm (users ts₁ ++ t.toUserTask :: users ts₂)
      (t.stack ++ (stackFrames (ts₁ ++ ts₂) ++ rest))
      (t.block :: (taskBlocks (ts₁ ++ ts₂) ++ ps)) := by
    have := h.world
    rw [users_middle] at this
    refine this.perm ?_ (taskBlocks_middle.append_right ps)
    rw [← List.append_assoc]
    exact stackFrames_middle.append_right rest
  have hmem : ∃ k₁ t₁, k.reapMemory t = some (k₁, t₁) ∧ k₁.tasks = k.tasks ∧
    k₁.nextPid = k.nextPid ∧ t₁.stack = t.stack ∧
      t₁.block = t.block ∧ World k₁.heap k₁.shm (users ts₁ ++ users ts₂)
        (t.stack ++ (stackFrames (ts₁ ++ ts₂) ++ rest))
        (t.block :: (taskBlocks (ts₁ ++ ts₂) ++ ps)) ∧
      ∀ u ∈ GenOS.owners (users ts₁ ++ users ts₂), Unaffected k.phys k₁.phys u := by
    unfold reapMemory
    by_cases hth : t.isThread = true
    · rw [if_pos hth]
      have ho : t.toUserTask.owns = false := by
        unfold UserTask.owns
        rw [hth]
        rfl
      exact ⟨k, t, rfl, rfl, rfl, rfl, rfl, hw.dropBare ho, fun _ _ => .refl⟩
    · obtain ⟨k₁, t₁, he, htk, hnk, hr, hs, hb, hw₁, hun⟩ :=
        releaseMemory_spec (Bool.eq_false_of_not_eq_true hth) hw
      rw [if_neg hth, he]
      simp only [Option.bind_eq_bind, Option.bind_some]
      rw [hr]
      refine ⟨_, _, rfl, ?_, ?_, hs, hb, hw₁, hun⟩
      · rw [destroySpace_tasks, htk]
      · rw [destroySpace_nextPid, hnk]
  obtain ⟨k₁, t₁, he, htk, hnk, hs, hb, hw₁, hun⟩ := hmem
  -- the stack and the structure
  have hw₁ :
    World k₁.heap k₁.shm (users ts₁ ++ users ts₂) (t₁.stack ++ (stackFrames (ts₁ ++ ts₂) ++ rest))
      (t₁.block :: (taskBlocks (ts₁ ++ ts₂) ++ ps)) := by
    rw [hs, hb]
    exact hw₁
  obtain ⟨hw₂, hst₂, -⟩ := hw₁.freeFrames
  obtain ⟨c', he', hw', hst', -⟩ := hw₂.freeBlock
  unfold reapTask
  rw [he]
  simp only [Option.bind_eq_bind, Option.bind_some]
  unfold taskFreeStack free
  have he' : (k₁.setPhys (t₁.stack.foldl freeFrame k₁.phys)).heap.kfree t₁.block = some c' := he'
  dsimp only at he' ⊢
  rw [he']
  refine ⟨_, rfl, htk, hnk, ⟨?_, h.grouped.remove hno⟩, fun u hu => ?_⟩
  · rw [users_append]
    exact hw'
  · rw [users_append] at hu
    exact (hun u hu).trans ((hst₂.unaffected u hu).trans (hst'.unaffected u hu))

/-- What the reaper's loop leaves: the tasks of the list that are still there see nothing. -/
structure Reaped (k k' : Kernel) (ts : List Process) (rest ps : List Nat) : Prop where
  sound : k'.Sound rest ps
  next : k'.nextPid = k.nextPid
  owners : ∀ u ∈ k'.owners, u ∈ GenOS.owners (users ts)
  unaffected : ∀ u ∈ k'.owners, Unaffected k.phys k'.phys u

theorem reapLoop_spec (active : Nat → Bool) (k : Kernel) (kept todo : List Process)
    (h : Tasks k.heap k.shm (kept ++ todo) rest ps) :
    ∃ k', reapLoop active k kept todo = some k' ∧ Reaped k k' (kept ++ todo) rest ps := by
  match todo with
  | [] =>
    rw [reapLoop]
    rw [List.append_nil] at h ⊢
    exact ⟨_, rfl, h, rfl, fun _ hu => hu, fun _ _ => .refl⟩
  | t :: todo =>
    rw [reapLoop]
    split
    · -- the task stays
      obtain ⟨k', he, hr⟩ := reapLoop_spec active k (kept ++ [t]) todo (by rwa [List.append_assoc])
      rw [List.append_assoc] at hr
      exact ⟨k', he, hr⟩
    split
    · -- the task stays, and the others of its group die
      have hc : ((dieWith t.pml4 kept ++ [t]) ++ dieWith t.pml4 todo).map core =
          (kept ++ t :: todo).map core := by
        simp only [List.map_append, core_dieWith, List.map_cons, List.append_assoc,
          List.singleton_append]
      obtain ⟨k', he, hr⟩ := reapLoop_spec active k (dieWith t.pml4 kept ++ [t])
        (dieWith t.pml4 todo)
        (tasks_core h hc)
      exact ⟨k', he, hr.sound, hr.next, fun u hu => owners_core hc ▸ hr.owners u hu, hr.unaffected⟩
    · next hany =>
      have hno : ∀ u ∈ todo, ¬ t.Leads u := fun u hu hl => by
        refine hany ?_
        rw [hl.process, bne_iff_ne.mpr hl.root, Bool.not_false, Bool.true_and, Bool.true_and,
          List.any_eq_true]
        exact ⟨u, List.mem_append_right _ hu, beq_iff_eq.mpr hl.space.symm⟩
      obtain ⟨k₁, he₁, -, hn₁, h₁, hun₁⟩ := reapTask_spec h hno
      obtain ⟨k', he, hr⟩ := reapLoop_spec active k₁ kept todo h₁
      rw [he₁]
      refine ⟨k', he, hr.sound, hr.next.trans hn₁, fun u hu => ?_, fun u hu =>
        (hun₁ u (hr.owners u hu)).trans (hr.unaffected u hu)⟩
      obtain ⟨x, hx, ho, rfl⟩ := of_mem_owners (hr.owners u hu)
      refine mem_owners ?_ ho
      rw [users_append] at hx ⊢
      exact (List.mem_append.mp hx).elim (List.mem_append_left _)
        fun hx => List.mem_append_right _ (List.mem_cons_of_mem _ hx)
termination_by todo.length
decreasing_by all_goals simp [dieWith]

/-- **`task_reap_dead`** gives back what the tasks it reaps held, and nobody else sees anything of
it. -/
theorem taskReapDead_spec (h : k.Sound rest ps) (active : Nat → Bool) :
    ∃ k', k.taskReapDead active = some k' ∧ k'.Sound rest ps ∧ k.Spares k' r := by
  obtain ⟨k', he, hr⟩ := reapLoop_spec active k [] k.tasks h
  refine ⟨k', he, hr.sound, fun u hu _ => ?_⟩
  by_cases hm : u ∈ k'.owners
  · exact .inl ⟨hm, hr.unaffected u hm⟩
  · refine .inr fun u' hu' he' => hm ?_
    -- a root belongs to one owner
    rw [← h.world.owner_unique hu (hr.owners u' hu') he']
    exact hu'

end Kernel

end GenOS
