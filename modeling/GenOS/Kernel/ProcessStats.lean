import GenOS.Kernel.ProcessSafety

/-!
# The count of kernel stack pages

`kernel_stack_pages` of the resource statistics: `task_alloc_stack` and `task_free_stack` change it,
and the other calls of the kernel do not see it. `Counted k ts n` says that it counts the stacks of
the tasks `ts` and `n` more pages, of a task in the making.
-/

namespace GenOS

variable {k k' : Kernel} {t t' : Process} {ts ts' ts₁ ts₂ : List Process} {n i : Nat}

theorem stackFrames_core (he : ts'.map Kernel.core = ts.map Kernel.core) :
    stackFrames ts' = stackFrames ts := by
  unfold stackFrames
  rw [List.flatMap_def, List.flatMap_def, Kernel.map_core (fun _ => rfl) he]

theorem length_stackFrames_middle : (stackFrames (ts₁ ++ t :: ts₂)).length =
    t.kernelStackPages + (stackFrames (ts₁ ++ ts₂)).length := by
  have hp := @stackFrames_middle t ts₁ ts₂
  rw [hp.length_eq, List.length_append, Process.stack_eq, runFrames, List.length_map,
    List.length_range]

theorem stackFrames_set {u : UserTask} (h : ts[i]? = some t) :
    stackFrames (ts.set i { t with toUserTask := u }) = stackFrames ts := by
  obtain ⟨ts₁, ts₂, rfl, -, hset⟩ := split_slot h
  rw [hset]
  unfold stackFrames
  simp only [List.flatMap_append, List.flatMap_cons]
  rfl

namespace Kernel

/-- The statistics count the stacks of the tasks `ts`, and `n` more pages. -/
def Counted (k : Kernel) (ts : List Process) (n : Nat) : Prop :=
  k.stats.kernelStackPages = (stackFrames ts).length + n

/-- Nothing but the stacks is counted. -/
theorem Counted.congr (h : k.Counted ts n)
    (hs : k'.stats.kernelStackPages = k.stats.kernelStackPages)
    (ht : stackFrames ts' = stackFrames ts) : k'.Counted ts' n := by
  unfold Counted at h ⊢
  rw [hs, ht, h]

/-! ## A task in the making -/

theorem taskAlloc_stats {x : Option Process} (he : k.taskAlloc = some (x, k')) :
    k'.stats = k.stats ∧ k'.tasks = k.tasks ∧ ∀ t, x = some t → t.kernelStackPages = 0 := by
  unfold taskAlloc at he
  obtain ⟨⟨b, c⟩, -, he⟩ := Option.bind_eq_some_iff.mp he
  dsimp only at he
  split at he
  · cases he
    exact ⟨rfl, rfl, nofun⟩
  · cases he
    exact ⟨rfl, rfl, fun t ht => by cases ht; rfl⟩

theorem free_stats {p : Nat} (he : k.free p = some k') : k'.stats = k.stats ∧
    k'.tasks = k.tasks := by
  unfold free at he
  obtain ⟨c, -, he⟩ := Option.bind_eq_some_iff.mp he
  cases he
  exact ⟨rfl, rfl⟩

theorem taskAllocStack_stats {ok : Bool} (h : k.Counted ts 0) (h0 : t.kernelStackPages = 0)
    (he : k.taskAllocStack t = (ok, k', t')) :
    k'.Counted ts t'.kernelStackPages ∧ k'.tasks = k.tasks ∧ (ok = false → t' = t) := by
  unfold taskAllocStack at he
  dsimp only at he
  split at he
  · cases he
    refine ⟨?_, rfl, fun _ => rfl⟩
    rw [h0]
    exact h
  · cases he
    exact ⟨congrArg (· + GenOS.kernelStackPages) h, rfl, nofun⟩

theorem taskFreeStack_stats (h : k.Counted ts (t.kernelStackPages + n)) :
    (k.taskFreeStack t).1.Counted ts n := by
  unfold Counted at h ⊢
  show k.stats.kernelStackPages - t.kernelStackPages = _
  omega

theorem releaseMemory_stats (he : k.releaseMemory t = some (k', t')) :
    k'.stats = k.stats ∧ k'.tasks = k.tasks ∧ t'.kernelStackPages = t.kernelStackPages := by
  unfold releaseMemory at he
  obtain ⟨⟨c, m, u⟩, -, he⟩ := Option.bind_eq_some_iff.mp he
  obtain ⟨⟨c', u'⟩, -, he⟩ := Option.bind_eq_some_iff.mp he
  cases he
  exact ⟨rfl, rfl, rfl⟩

theorem destroySpace_stats (k : Kernel) (pml4 : Nat) : (k.destroySpace pml4).stats = k.stats := by
  unfold destroySpace
  split
  · rfl
  · rfl

/-- **A task that is discarded is not counted any more.** -/
theorem taskDiscard_stats (h : k.Counted ts (t.kernelStackPages + n))
    (he : k.taskDiscard t = some k') :
    k'.Counted ts n ∧ k'.tasks = k.tasks := by
  unfold taskDiscard at he
  obtain ⟨⟨k₁, t₁⟩, he₁, he⟩ := Option.bind_eq_some_iff.mp he
  obtain ⟨hs₁, ht₁, hp₁⟩ := releaseMemory_stats he₁
  dsimp only at he
  obtain ⟨hs₂, ht₂⟩ := free_stats he
  have hs : (if t₁.isThread then k₁ else k₁.destroySpace t₁.pml4).stats = k.stats := by
    split
    · exact hs₁
    · exact (destroySpace_stats ..).trans hs₁
  have ht : (if t₁.isThread then k₁ else k₁.destroySpace t₁.pml4).tasks = k.tasks := by
    split
    · exact ht₁
    · exact (destroySpace_tasks ..).trans ht₁
  generalize (if t₁.isThread then k₁ else k₁.destroySpace t₁.pml4) = k₂ at hs ht hs₂ ht₂
  have hc : k₂.Counted ts (t₁.kernelStackPages + n) := by
    rw [hp₁]
    exact h.congr (congrArg _ hs) rfl
  exact ⟨(taskFreeStack_stats hc).congr (congrArg _ hs₂) rfl, ht₂.trans ht⟩

/-- **A task that is published is counted.** -/
theorem taskPublish_stats (h : k.Counted k.tasks t.kernelStackPages) :
    (k.taskPublish t).Counted (k.taskPublish t).tasks 0 := by
  unfold Counted at h ⊢
  rw [taskPublish_eq]
  show k.stats.kernelStackPages = (stackFrames (k.tasks ++ k.published t :: [])).length + 0
  rw [length_stackFrames_middle, List.append_nil, h, Nat.add_zero, Nat.add_comm]
  rfl

/-! ## The calls that make tasks -/

/-- **What the code that makes tasks begins with.** It goes on with `f`, for a task that has its
stack. -/
theorem making_stats {α : Type} {fail r : α} {f : Kernel → Process → Option (α × Kernel)}
    (h : k.Counted k.tasks 0)
    (hf : ∀ k₂ t₂, k₂.Counted k₂.tasks t₂.kernelStackPages → f k₂ t₂ = some (r, k') →
      k'.Counted k'.tasks 0)
    (he : (k.taskAlloc.bind fun x => match x.1 with
      | none => some (fail, x.2)
      | some t => match x.2.taskAllocStack t with
        | (false, k, t) => (k.free t.block).bind fun k => some (fail, k)
        | (true, k, t) => f k t) = some (r, k')) : k'.Counted k'.tasks 0 := by
  obtain ⟨⟨x, k₁⟩, he₁, he⟩ := Option.bind_eq_some_iff.mp he
  obtain ⟨hs₁, ht₁, h0⟩ := taskAlloc_stats he₁
  have h₁ : k₁.Counted k₁.tasks 0 := h.congr (congrArg _ hs₁) (by rw [ht₁])
  cases x with
  | none =>
    cases he
    exact h₁
  | some t =>
    obtain ⟨ok, k₂, t₂, he₂⟩ : ∃ ok k₂ t₂, k₁.taskAllocStack t = (ok, k₂, t₂) := ⟨_, _, _, rfl⟩
    obtain ⟨h₂, ht₂, hsame⟩ := taskAllocStack_stats h₁ (h0 t rfl) he₂
    dsimp only at he
    rw [he₂] at he
    cases ok with
    | false =>
      -- no stack: the structure goes
      obtain ⟨k₃, he₃, he⟩ := Option.bind_eq_some_iff.mp he
      cases he
      obtain ⟨hs₃, ht₃⟩ := free_stats he₃
      rw [hsame rfl, h0 t rfl] at h₂
      exact h₂.congr (congrArg _ hs₃) (by rw [ht₃, ht₂])
    | true => exact hf k₂ t₂ (ht₂ ▸ h₂) he

/-- A task that is discarded, after work on the memory of the kernel. -/
theorem discard_stats {k₁ : Kernel} (h : k.Counted k.tasks t.kernelStackPages)
    (he : k₁.taskDiscard t' = some k')
    (hs : k₁.stats = k.stats) (ht : k₁.tasks = k.tasks)
    (hp : t'.kernelStackPages = t.kernelStackPages) :
    k'.Counted k'.tasks 0 := by
  have h₁ : k₁.Counted k₁.tasks (t'.kernelStackPages + 0) := by
    rw [hp]
    exact h.congr (congrArg _ hs) (by rw [ht])
  obtain ⟨h', ht'⟩ := taskDiscard_stats h₁ he
  rw [ht']
  exact h'

/-- A task that is published, after such work. -/
theorem publish_stats {k₁ : Kernel} (h : k.Counted k.tasks t.kernelStackPages)
    (hs : k₁.stats = k.stats)
    (ht : k₁.tasks = k.tasks) (hp : t'.kernelStackPages = t.kernelStackPages) :
    (k₁.taskPublish t').Counted (k₁.taskPublish t').tasks 0 := by
  refine taskPublish_stats ?_
  rw [hp]
  exact h.congr (congrArg _ hs) (by rw [ht])

theorem createTask_stats {entryPoint b : Nat} (h : k.Counted k.tasks 0)
    (he : k.createTask entryPoint = some (b, k')) : k'.Counted k'.tasks 0 := by
  unfold createTask at he
  split at he
  · cases he
    exact h
  refine making_stats h (fun k₂ t₂ h₂ he => ?_) he
  cases he
  exact taskPublish_stats h₂

theorem loadUserTask_stats {binary : BitVec 64} {buf : List (BitVec 8)} {ok : Bool}
    (he : k.loadUserTask t binary buf = some (ok, k', t')) :
    k'.stats = k.stats ∧ k'.tasks = k.tasks ∧ t'.kernelStackPages = t.kernelStackPages := by
  unfold loadUserTask at he
  obtain ⟨⟨entry, s, records⟩, -, he⟩ := Option.bind_eq_some_iff.mp he
  dsimp only at he
  split at he
  · cases he
    exact ⟨rfl, rfl, rfl⟩
  split at he
  · cases he
    exact ⟨rfl, rfl, rfl⟩
  · cases he
    exact ⟨rfl, rfl, rfl⟩

theorem buildUserTask_stats {binary : BitVec 64} {buf : List (BitVec 8)}
    {pageCount : Nat} {ok : Bool}
    (he : k.buildUserTask t binary buf pageCount = some (ok, k', t')) :
    k'.stats = k.stats ∧ k'.tasks = k.tasks ∧ t'.kernelStackPages = t.kernelStackPages := by
  unfold buildUserTask at he
  obtain ⟨⟨room, c, u⟩, -, he⟩ := Option.bind_eq_some_iff.mp he
  dsimp only at he
  split at he
  · cases he
    exact ⟨rfl, rfl, rfl⟩
  · obtain ⟨hs, ht, hp⟩ := loadUserTask_stats he
    exact ⟨hs, ht, hp⟩

theorem startUserTask_stats {binary : BitVec 64} {buf : List (BitVec 8)} {pageCount b : Nat}
    (h : k.Counted k.tasks 0) (he : k.startUserTask binary buf pageCount = some (b, k')) :
    k'.Counted k'.tasks 0 := by
  unfold startUserTask at he
  refine making_stats h (fun k₂ t₂ h₂ he => ?_) he
  dsimp only at he
  generalize k₂.phys.vmmCreateAddressSpace = x at he
  obtain ⟨a, s⟩ := x
  dsimp only at he
  split at he
  · obtain ⟨k₃, he₃, he⟩ := Option.bind_eq_some_iff.mp he
    cases he
    exact discard_stats h₂ he₃ rfl rfl rfl
  obtain ⟨⟨built, k₃, t₃⟩, he₃, he⟩ := Option.bind_eq_some_iff.mp he
  obtain ⟨hs₃, ht₃, hp₃⟩ := buildUserTask_stats he₃
  dsimp only at he
  split at he
  · cases he
    exact publish_stats h₂ hs₃ ht₃ hp₃
  · obtain ⟨k₄, he₄, he⟩ := Option.bind_eq_some_iff.mp he
    cases he
    exact discard_stats h₂ he₄ hs₃ ht₃ hp₃

theorem createUserTask_stats {binary : BitVec 64} {buf : List (BitVec 8)} {b : Nat}
    (h : k.Counted k.tasks 0)
    (he : k.createUserTask binary buf = some (b, k')) : k'.Counted k'.tasks 0 := by
  unfold createUserTask at he
  obtain ⟨⟨valid, image⟩, -, he⟩ := Option.bind_eq_some_iff.mp he
  dsimp only at he
  split at he
  · cases he
    exact h
  · exact startUserTask_stats h he

theorem taskFork_stats {userFrame : Bool} {r : Int} (h : k.Counted k.tasks 0)
    (he : k.taskFork i userFrame = some (r, k')) : k'.Counted k'.tasks 0 := by
  unfold taskFork at he
  split at he
  · cases he
    exact h
  split at he
  · cases he
    exact h
  refine making_stats h (fun k₂ t₂ h₂ he => ?_) he
  dsimp only at he
  generalize k₂.phys.vmmCreateAddressSpace = x at he
  obtain ⟨a, s⟩ := x
  dsimp only at he
  split at he
  · obtain ⟨k₃, he₃, he⟩ := Option.bind_eq_some_iff.mp he
    cases he
    exact discard_stats h₂ he₃ rfl rfl rfl
  obtain ⟨⟨cloned, c, m, u⟩, -, he⟩ := Option.bind_eq_some_iff.mp he
  dsimp only at he
  split at he
  · cases he
    exact publish_stats h₂ rfl rfl rfl
  · obtain ⟨k₄, he₄, he⟩ := Option.bind_eq_some_iff.mp he
    cases he
    exact discard_stats h₂ he₄ rfl rfl rfl

theorem taskClone_stats {entry stackTop : Nat} {r : Int} (h : k.Counted k.tasks 0)
    (he : k.taskClone i entry stackTop = some (r, k')) : k'.Counted k'.tasks 0 := by
  unfold taskClone at he
  split at he
  · cases he
    exact h
  split at he
  · cases he
    exact h
  split at he
  · cases he
    exact h
  split at he
  · cases he
    exact h
  refine making_stats h (fun k₂ t₂ h₂ he => ?_) he
  cases he
  exact publish_stats h₂ rfl rfl rfl

/-! ## The reaper -/

theorem reapTask_stats (h : k.Counted (ts₁ ++ t :: ts₂) 0) (he : k.reapTask t = some k') :
    k'.Counted (ts₁ ++ ts₂) 0 := by
  unfold reapTask at he
  obtain ⟨⟨k₁, t₁⟩, he₁, he⟩ := Option.bind_eq_some_iff.mp he
  have hmem : k₁.stats = k.stats ∧ t₁.kernelStackPages = t.kernelStackPages := by
    unfold reapMemory at he₁
    split at he₁
    · cases he₁
      exact ⟨rfl, rfl⟩
    · obtain ⟨⟨k₂, t₂⟩, he₂, he₁⟩ := Option.bind_eq_some_iff.mp he₁
      obtain ⟨hs, -, hp⟩ := releaseMemory_stats he₂
      cases he₁
      exact ⟨(destroySpace_stats ..).trans hs, hp⟩
  dsimp only at he
  obtain ⟨k₂, he₂, he⟩ := Option.bind_eq_some_iff.mp he
  cases he
  obtain ⟨hs₂, -⟩ := free_stats he₂
  have hc : k₁.Counted (ts₁ ++ ts₂) (t₁.kernelStackPages + 0) := by
    unfold Counted at h ⊢
    rw [hmem.1, hmem.2, h, length_stackFrames_middle]
    omega
  refine (taskFreeStack_stats hc).congr ?_ rfl
  rw [← hs₂]

theorem reapLoop_stats (active : Nat → Bool) (k : Kernel) (kept todo : List Process)
    (h : k.Counted (kept ++ todo) 0) (he : reapLoop active k kept todo = some k') :
      k'.Counted k'.tasks 0 := by
  match todo with
  | [] =>
    rw [reapLoop] at he
    cases he
    rwa [List.append_nil] at h
  | t :: todo =>
    rw [reapLoop] at he
    split at he
    · refine reapLoop_stats active k (kept ++ [t]) todo ?_ he
      rwa [List.append_assoc]
    split at he
    · refine reapLoop_stats active k (dieWith t.pml4 kept ++ [t]) (dieWith t.pml4 todo)
        (h.congr rfl ?_) he
      refine stackFrames_core ?_
      simp only [List.map_append, core_dieWith, List.map_cons, List.append_assoc,
        List.singleton_append]
    · obtain ⟨k₁, he₁, he⟩ := Option.bind_eq_some_iff.mp he
      exact reapLoop_stats active k₁ kept todo (reapTask_stats h he₁) he
termination_by todo.length
decreasing_by all_goals simp [dieWith]

/-! ## The calls of user memory -/

theorem forOwner_stats {α : Type} {o : Option Nat} {fail r : α}
    {f : HeapClient → UserTask → Option (α × HeapClient × UserTask)} (h : k.Counted k.tasks 0)
    (he : k.forOwner o fail f = some (r, k')) : k'.Counted k'.tasks 0 := by
  unfold forOwner at he
  split at he
  · cases he
    exact h
  next j t hj =>
  obtain ⟨⟨r', c, u⟩, -, he⟩ := Option.bind_eq_some_iff.mp he
  cases he
  obtain ⟨j', -, hj⟩ := Option.bind_eq_some_iff.mp hj
  obtain ⟨t', ht, he⟩ := Option.map_eq_some_iff.mp hj
  cases he
  exact h.congr rfl (stackFrames_set ht)

theorem forAttacher_stats {α : Type} {o : Option Nat} {fail r : α}
    {f : HeapClient → Shm → UserTask → Option (α × HeapClient × Shm × UserTask)}
    (h : k.Counted k.tasks 0)
    (he : k.forAttacher o fail f = some (r, k')) : k'.Counted k'.tasks 0 := by
  unfold forAttacher at he
  split at he
  · cases he
    exact h
  next j t hj =>
  obtain ⟨⟨r', c, m, u⟩, -, he⟩ := Option.bind_eq_some_iff.mp he
  cases he
  obtain ⟨j', -, hj⟩ := Option.bind_eq_some_iff.mp hj
  obtain ⟨t', ht, he⟩ := Option.map_eq_some_iff.mp hj
  cases he
  exact h.congr rfl (stackFrames_set ht)

theorem cowResolve_stats {pid faultAddr : Nat} {errorCode : Word} (h : k.Counted k.tasks 0) :
    (k.cowResolve pid faultAddr errorCode).2.Counted
    (k.cowResolve pid faultAddr errorCode).2.tasks 0 := by
  unfold cowResolve
  split
  · exact h
  next j t hj =>
  obtain ⟨j', -, hj⟩ := Option.bind_eq_some_iff.mp hj
  obtain ⟨t', ht, he⟩ := Option.map_eq_some_iff.mp hj
  cases he
  exact h.congr rfl (stackFrames_set ht)

end Kernel

/-! ## Runs -/

namespace Machine

variable {m m' : Machine} {c : KernelCall}

theorem withKernel_stats {α : Type} {x : Option (α × Kernel)} (he : m.withKernel x = some m')
    (h : ∀ {a k'}, x = some (a, k') → k'.Counted k'.tasks 0) :
      m'.kernel.Counted m'.kernel.tasks 0 := by
  obtain ⟨⟨a, k'⟩, hx, rfl⟩ := Option.map_eq_some_iff.mp he
  exact h hx

/-- Calls for the rest of the kernel. -/
theorem rest_stats (h : m.kernel.Counted m.kernel.tasks 0) :
    (∀ n, (m.allocContiguous n).kernel.Counted (m.allocContiguous n).kernel.tasks 0) ∧
    (∀ n m', m.kmalloc n = some m' → m'.kernel.Counted m'.kernel.tasks 0) ∧
    (∀ i m', m.kfree i = some m' → m'.kernel.Counted m'.kernel.tasks 0) ∧
    ∀ i n m', m.krealloc i n = some m' → m'.kernel.Counted m'.kernel.tasks 0 := by
  refine ⟨fun n => h, fun n m' he => ?_, fun i m' he => ?_, fun i n m' he => ?_⟩
  · obtain ⟨⟨p, c⟩, -, he⟩ := Option.bind_eq_some_iff.mp he
    cases he
    exact h
  · unfold kfree at he
    split at he
    · cases he
      exact h
    obtain ⟨k', he', he⟩ := Option.bind_eq_some_iff.mp he
    cases he
    obtain ⟨hs, ht⟩ := Kernel.free_stats he'
    exact h.congr (congrArg _ hs) (congrArg _ ht)
  · unfold krealloc at he
    split at he
    · cases he
      exact h
    obtain ⟨⟨r, c⟩, -, he⟩ := Option.bind_eq_some_iff.mp he
    cases he
    exact h

/-- **Every call keeps the count.** -/
theorem call_stats (h : m.kernel.Counted m.kernel.tasks 0) (he : m.call c = some m') :
    m'.kernel.Counted m'.kernel.tasks 0 := by
  obtain ⟨hrun, hmalloc, hfree, hrealloc⟩ := rest_stats h
  cases c with
  | createTask => exact withKernel_stats he (Kernel.createTask_stats h)
  | createUserTask => exact withKernel_stats he (Kernel.createUserTask_stats h)
  | fork => exact withKernel_stats he (Kernel.taskFork_stats h)
  | clone => exact withKernel_stats he (Kernel.taskClone_stats h)
  | exit i =>
    cases he
    exact h.congr rfl (stackFrames_core (Kernel.core_modify ..))
  | abortGroup i =>
    cases he
    refine h.congr ?_ ?_
    · dsimp only
      unfold Kernel.abortGroup
      split
      · rfl
      split
      · rfl
      · rfl
    · dsimp only
      unfold Kernel.abortGroup
      split
      · rfl
      split
      · refine stackFrames_core ?_
        exact (Kernel.core_modify ..).trans (Kernel.core_dieWith ..)
      · exact stackFrames_core (Kernel.core_modify ..)
  | reap active =>
    obtain ⟨k', hk, rfl⟩ := Option.map_eq_some_iff.mp he
    exact Kernel.reapLoop_stats active _ [] _ h hk
  | userAlloc => exact withKernel_stats he (Kernel.forOwner_stats h)
  | userFree i base =>
    refine withKernel_stats he fun hx => ?_
    unfold Kernel.userFree at hx
    split at hx
    · cases hx
      exact h
    · exact Kernel.forOwner_stats h hx
  | userRealloc => exact withKernel_stats he (Kernel.forOwner_stats h)
  | shmCreate =>
    refine withKernel_stats he fun hx => ?_
    obtain ⟨⟨id, c, n⟩, -, hx⟩ := Option.bind_eq_some_iff.mp hx
    cases hx
    exact h
  | shmAttach => exact withKernel_stats he (Kernel.forAttacher_stats h)
  | shmDetach => exact withKernel_stats he (Kernel.forAttacher_stats h)
  | shmDestroy =>
    refine withKernel_stats he fun hx => ?_
    obtain ⟨⟨id, c, n⟩, -, hx⟩ := Option.bind_eq_some_iff.mp hx
    cases hx
    exact h
  | cowResolve =>
    cases he
    exact Kernel.cowResolve_stats h
  | allocContiguous n =>
    cases he
    exact hrun n
  | kmalloc n => exact hmalloc n m' he
  | kfree i => exact hfree i m' he
  | krealloc i n => exact hrealloc i n m' he

theorem boot_stats {heap : Heap} {frames runs : List Nat} {taskReaperMain : Nat} {ok : Bool}
    (he : boot heap frames runs taskReaperMain = some (ok, m)) :
      m.kernel.Counted m.kernel.tasks 0 := by
  -- no task, and no page is counted
  have hruns : ∀ (runs : List Nat) (m : Machine), m.kernel.stats = ⟨0, 0, 0⟩ ∧ m.kernel.tasks = [] →
      (runs.foldl allocContiguous m).kernel.stats = ⟨0, 0, 0⟩ ∧
      (runs.foldl allocContiguous m).kernel.tasks = [] := by
    intro runs
    induction runs with
    | nil => exact fun m hm => hm
    | cons n runs ih => exact fun m hm => ih (m.allocContiguous n) hm
  unfold boot at he
  obtain ⟨⟨ok', k'⟩, hk, he⟩ := Option.map_eq_some_iff.mp he
  cases he
  obtain ⟨h0, ht⟩ := hruns runs ⟨Kernel.start heap, frames, []⟩ ⟨rfl, rfl⟩
  dsimp only at hk ⊢
  generalize (runs.foldl allocContiguous ⟨Kernel.start heap, frames, []⟩).kernel = k at hk h0 ht
  unfold Kernel.taskInit at hk
  obtain ⟨⟨x, k₁⟩, he₁, hk⟩ := Option.bind_eq_some_iff.mp hk
  obtain ⟨hs₁, ht₁, hp₁⟩ := Kernel.taskAlloc_stats he₁
  have hc : k₁.Counted [] 0 := congrArg TaskResourceStats.kernelStackPages (hs₁.trans h0)
  cases x with
  | none =>
    cases hk
    rw [ht₁, ht]
    exact hc
  | some t =>
    obtain ⟨⟨b, k₂⟩, he₂, hk⟩ := Option.bind_eq_some_iff.mp hk
    cases hk
    refine @Kernel.createTask_stats { k₁ with tasks := [t] } _ _ _ (hc.congr rfl ?_) he₂
    show t.stack ++ [] = []
    rw [List.append_nil, Process.stack_eq, hp₁ t rfl]
    rfl

theorem Reachable.counted (h : Reachable m) : m.kernel.Counted m.kernel.tasks 0 := by
  induction h with
  | boot _ _ hb => exact boot_stats hb
  | call _ hc ih => exact call_stats ih hc

/-- **The statistics are right**: `kernel_stack_pages` is the number of stack pages of the tasks in
the list, and none of their frames is free. -/
theorem stack_pages_counted (h : Reachable m) :
    m.kernel.stats.kernelStackPages = (m.kernel.tasks.map fun t => t.kernelStackPages).sum ∧
      ∀ t ∈ m.kernel.tasks, ∀ g ∈ t.stack, ¬ m.kernel.phys.pmm.FreeAt g := by
  refine ⟨?_, fun t ht g hg => ?_⟩
  · have hc : m.kernel.stats.kernelStackPages = (stackFrames m.kernel.tasks).length := h.counted
    have hlen : ∀ t : Process, t.stack.length = t.kernelStackPages := fun t => by
      rw [Process.stack_eq, runFrames, List.length_map, List.length_range]
    unfold stackFrames at hc
    simpa only [List.length_flatMap, hlen] using hc
  · refine h.sound.world.memory.spaces.not_free (Phys.mem_held_others (List.mem_append_right _ ?_))
    exact List.mem_append_right _ (List.mem_append_left _ (List.mem_flatMap.mpr ⟨t, ht, hg⟩))

/-- Of four processes the first gets no stack and the last no page for its program; the second exits
and is reaped. -/
theorem stack_pages_counted_reaped : ∃ m, Reachable m ∧ m.kernel.stats = ⟨8, 1, 1⟩ ∧
    m.kernel.stats.kernelStackPages = (m.kernel.tasks.map fun t => t.kernelStackPages).sum := by
  obtain ⟨m, hm, hstats⟩ := @reachable_of_run (fun m => m.kernel.stats = ⟨8, 1, 1⟩) _
    (fun n => n == 20 || n == 43)
    [.createUserTask 4096 smallElf, .createUserTask 4096 smallElf, .createUserTask 4096 smallElf,
      .createUserTask 4096 smallElf, .exit 2, .reap fun _ => false] (by decide +kernel)
  exact ⟨m, hm, hstats, (stack_pages_counted hm).1⟩

end Machine

end GenOS
