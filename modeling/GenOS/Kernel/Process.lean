import GenOS.Fs.ElfLoad
import GenOS.Mm.CowClone

/-!
# Processes and their memory

The part of `kernel/task.c` that owns memory: `Process` is `struct task` with the blocks and frames
it holds, `Kernel` the kernel heap, the task list, the segments of shared memory and the counters. A
task in the list is named by its position there. Registers, descriptors and credentials are left
out.

What the scheduler keeps is left to `GenOS.Sched` in `Kernel/Task.lean`, with the same functions:
the states of living tasks, `wait_target_pid`, `thread_count`, `ready_since` and the CPUs. Which
tasks are running (`task_active`) is an argument of the reaper, and a constructor is one step.

`none` says that a walk of the kernel heap's list never ends, that the loader leaves the range of
its arithmetic or its buffer, or that a null pointer is followed.
-/

namespace GenOS

open Phys

/-- `KERNEL_STACK_PAGES`. -/
abbrev kernelStackPages : Nat := 4

/-- `USER_STACK_PAGES`. -/
abbrev userStackPages : Nat := 4

/-- `USER_STACK_BASE`. -/
abbrev userStackBase : Nat := 0x80001000

/-- `sizeof(struct task)`. -/
abbrev taskSize : Nat := 3936

/-- What owns memory in `struct task`: a process, a thread or a kernel task (`pml4 = 0`). -/
structure Process extends UserTask where
  /-- The structure itself, on the kernel heap. -/
  block : Nat
  pid : Nat
  tgid : Nat
  /-- `state == TASK_DEAD`. -/
  dead : Bool
  kernelStackPhys : Nat
  kernelStackPages : Nat
  deriving DecidableEq, Repr

/-- `struct task_resource_stats`. -/
structure TaskResourceStats where
  kernelStackPages : Nat
  stackAllocFailures : Nat
  tasksReaped : Nat
  deriving DecidableEq, Repr

structure Kernel where
  heap : HeapClient
  /-- The task list, from its head on. -/
  tasks : List Process
  shm : Shm
  nextPid : Nat
  stats : TaskResourceStats

/-- `pmm_alloc_contiguous_pages`, under the failure schedule. -/
def Phys.allocContiguous (s : Phys) (count : Nat) : Nat × Phys :=
  if s.deny s.asked then (0, { s with asked := s.asked + 1 })
  else ((s.pmm.pmmAllocContiguousPages count).1,
    { s with pmm := (s.pmm.pmmAllocContiguousPages count).2, asked := s.asked + 1 })

namespace Process

/-- A task as `task_alloc` leaves it in the block `block`. -/
def blank (block : Nat) : Process where
  pml4 := 0
  allocations := []
  shmAttached := List.replicate shmMaxAttach .unused
  userPages := []
  userPageCapacity := userInlinePages
  isThread := false
  pagesBlock := 0
  allocationBlocks := []
  block := block
  pid := 0
  tgid := 0
  dead := false
  kernelStackPhys := 0
  kernelStackPages := 0

/-- The frames of a kernel stack. -/
def stack (t : Process) : List Nat :=
  (List.range t.kernelStackPages).map fun i => t.kernelStackPhys + i * 4096

end Process

namespace Kernel

def phys (k : Kernel) : Phys := k.heap.phys

/-- The kernel with other physical memory. -/
def setPhys (k : Kernel) (s : Phys) : Kernel := { k with heap := k.heap.setPhys s }

@[simp] theorem phys_setPhys (k : Kernel) (s : Phys) : (k.setPhys s).phys = s := rfl

/-! ## Lookups -/

/-- `task_find_by_pid`. -/
def taskFindByPid (k : Kernel) (pid : Nat) : Option Nat := k.tasks.findIdx? fun t => t.pid == pid

/-- `task_memory_owner`. -/
def taskMemoryOwner (k : Kernel) (i : Nat) : Option Nat := do
  let t ← k.tasks[i]?
  if !t.isThread then some i
  else do
    let j ← k.taskFindByPid t.tgid
    let leader ← k.tasks[j]?
    if leader.pml4 = t.pml4 then some j else none

/-- What the task that `task_memory_owner` finds owns. -/
def ownerAt (k : Kernel) (i : Nat) : Option Owner :=
  (k.taskMemoryOwner i).bind fun j => (k.tasks[j]?).map fun t => t.toOwner

/-- `task_memory_owner(task_find_by_pid(pid))`. -/
def ownerOfPid (k : Kernel) (pid : Nat) : Option Nat := do
  let i ← k.taskFindByPid pid
  k.taskMemoryOwner i

/-! ## Tasks under construction -/

/-- `task_alloc`. -/
def taskAlloc (k : Kernel) : Option (Option Process × Kernel) := do
  let (block, c) ← k.heap.kmalloc taskSize
  if block = 0 then some (none, { k with heap := c })
  else some (some (.blank block), { k with heap := c })

/-- `task_alloc_stack`. -/
def taskAllocStack (k : Kernel) (t : Process) : Bool × Kernel × Process :=
  let (phys, s) := k.phys.allocContiguous GenOS.kernelStackPages
  if phys = 0 then
    (false, { k.setPhys s with stats :=
      { k.stats with stackAllocFailures := k.stats.stackAllocFailures + 1 } }, t)
  else
    (true, { k.setPhys s with stats :=
      { k.stats with kernelStackPages := k.stats.kernelStackPages + GenOS.kernelStackPages } },
      { t with kernelStackPhys := phys, kernelStackPages := GenOS.kernelStackPages })

/-- `task_free_stack`. -/
def taskFreeStack (k : Kernel) (t : Process) : Kernel × Process :=
  ({ k.setPhys (t.stack.foldl freeFrame k.phys) with stats :=
      { k.stats with kernelStackPages := k.stats.kernelStackPages - t.kernelStackPages } },
    { t with kernelStackPhys := 0, kernelStackPages := 0 })

/-- `kfree`, for a block of a task. -/
def free (k : Kernel) (p : Nat) : Option Kernel := do
  let c ← k.heap.kfree p
  some { k with heap := c }

/-- What `task_discard` and the reaper do with the memory of a process. -/
def releaseMemory (k : Kernel) (t : Process) : Option (Kernel × Process) := do
  let (c, m, u) ← shmCleanupProcess k.heap k.shm t.toUserTask t.pid
  let (c, u) ← userMemoryRelease c u
  some ({ k with heap := c, shm := m }, { t with toUserTask := u })

/-- The tables of an address space go, if there is one. -/
def destroySpace (k : Kernel) (pml4 : Nat) : Kernel :=
  if pml4 ≠ 0 then k.setPhys (k.phys.vmmDestroyAddressSpace pml4) else k

/-- `task_discard`. -/
def taskDiscard (k : Kernel) (t : Process) : Option Kernel := do
  let (k, t) ← k.releaseMemory t
  let k := if t.isThread then k else k.destroySpace t.pml4
  let (k, t) := k.taskFreeStack t
  k.free t.block

/-- `task_publish`; the pid counter is a `uint32_t`. -/
def taskPublish (k : Kernel) (t : Process) : Kernel :=
  { k with
    tasks :=
      k.tasks ++ [{ t with pid := k.nextPid, tgid := if t.isThread then t.tgid else k.nextPid }]
    nextPid := (k.nextPid + 1) % 2 ^ 32 }

/-- `create_task`; the result is the new structure or `NULL`. -/
def createTask (k : Kernel) (entryPoint : Nat) : Option (Nat × Kernel) :=
  if entryPoint = 0 ∨ k.tasks = [] then some (0, k)
  else do
    let (t, k) ← k.taskAlloc
    match t with
    | none => some (0, k)
    | some t =>
      match k.taskAllocStack t with
      | (false, k, t) => do
        let k ← k.free t.block
        some (0, k)
      | (true, k, t) => some (t.block, k.taskPublish t)

/-- The kernel after `heap_init` and `shm_init`, without tasks. -/
def start (heap : Heap) : Kernel where
  heap := ⟨heap, []⟩
  tasks := []
  shm := Shm.init
  nextPid := 1
  stats := ⟨0, 0, 0⟩

/-- `task_init`, which begins with an empty list; `false` is the halt when there is no memory for
the two tasks. -/
def taskInit (k : Kernel) (taskReaperMain : Nat) : Option (Bool × Kernel) := do
  let (t, k) ← k.taskAlloc
  match t with
  | none => some (false, k)
  | some t => do
    let (reaper, k) ← { k with tasks := [t] }.createTask taskReaperMain
    some (reaper != 0, k)

/-- The checks of `create_user_task` that the stack and its guards are unmapped. -/
def stackClear (s : Phys) (pml4 : Nat) : Bool :=
  (List.range (userStackPages + 2)).all fun i =>
    (s.vmmPteIn pml4 (userStackBase - 4096 + i * 4096)).isNone

/-- The loop of `create_user_task` that maps the stack: `n` more pages from page `i` on. -/
def mapStack (pml4 : Nat) : (n i : Nat) → Phys → List PageRecord → Bool × Phys × List PageRecord
  | 0, _, s, records => (true, s, records)
  | n + 1, i, s, records =>
    let (phys, s) := s.allocFrame
    if phys = 0 then (false, s, records)
    else
      let records := records ++ [⟨phys, userStackBase + i * 4096⟩]
      match (s.zeroFrame phys).vmmMapPageIn pml4 (userStackBase + i * 4096) (BitVec.ofNat 64 phys)
        vmmFlagsUserData with
      | (false, s) => (false, s, records)
      | (true, s) => mapStack pml4 n (i + 1) s records

/-- What `create_user_task` does once there is room for the records: `false` is the jump to
`fail`. -/
def loadUserTask (k : Kernel) (t : Process) (binary : BitVec 64) (buf : List (BitVec 8)) :
    Option (Bool × Kernel × Process) := do
  let (entry, s, records) ← (elfLoad binary buf t.pml4 t.userPages
    (.ofNat 32 (t.userPageCapacity - userStackPages)) k.phys).toOption
  let k := k.setPhys s
  let t := { t with userPages := records }
  if entry = 0 then some (false, k, t)
  else if !stackClear k.phys t.pml4 then some (false, k, t)
  else
    let (mapped, s, records) := mapStack t.pml4 userStackPages 0 k.phys t.userPages
    some (mapped, k.setPhys s, { t with userPages := records })

/-- What `create_user_task` does once the task has its address space. -/
def buildUserTask (k : Kernel) (t : Process) (binary : BitVec 64) (buf : List (BitVec 8))
    (pageCount : Nat) : Option (Bool × Kernel × Process) := do
  let (room, c, u) ← userPagesReserve k.heap t.toUserTask (pageCount + userStackPages)
  let k := { k with heap := c }
  let t := { t with toUserTask := u }
  if !room then some (false, k, t) else k.loadUserTask t binary buf

/-- What `create_user_task` does with a file that passed its check. -/
def startUserTask (k : Kernel) (binary : BitVec 64) (buf : List (BitVec 8)) (pageCount : Nat) :
    Option (Nat × Kernel) := do
  let (t, k) ← k.taskAlloc
  match t with
  | none => some (0, k)
  | some t =>
    match k.taskAllocStack t with
    | (false, k, t) => do
      let k ← k.free t.block
      some (0, k)
    | (true, k, t) =>
      let (pml4, s) := k.phys.vmmCreateAddressSpace
      let k := k.setPhys s
      let t := { t with pml4 }
      if pml4 = 0 then do
        let k ← k.taskDiscard t
        some (0, k)
      else do
        let (ok, k, t) ← k.buildUserTask t binary buf pageCount
        if ok then some (t.block, k.taskPublish t)
        else do
          let k ← k.taskDiscard t
          some (0, k)

/-- The most pages that `create_user_task` lets a file have: the stack comes on top. -/
def maxImagePages : BitVec 32 := .ofNat 32 (userMaxPages.toNat - userStackPages)

/-- The `image_info` of `create_user_task` before it is filled in. -/
def blankImage : ElfImageInfo := { header := ElfHeader.decode [], pageCount := 0 }

/-- `create_user_task`; the result is the new structure or `NULL`. -/
def createUserTask (k : Kernel) (binary : BitVec 64) (buf : List (BitVec 8)) :
    Option (Nat × Kernel) := do
  let (valid, image) ← (elfValidate binary buf maxImagePages (some blankImage)).toOption
  if !valid then some (0, k) else k.startUserTask binary buf (image.getD blankImage).pageCount

/-- A pid as an `int32_t`. -/
def pidResult (pid : Nat) : Int := (BitVec.ofNat 32 pid).toInt

/-- `task_fork` of the task at position `i`; `userFrame` tells whether the frame it is called with
is one of user mode. -/
def taskFork (k : Kernel) (i : Nat) (userFrame : Bool) : Option (Int × Kernel) :=
  match k.tasks[i]? with
  | none => some (-1, k)
  | some current =>
    if !userFrame ∨ current.pml4 = 0 then some (-1, k)
    else do
      let (child, k) ← k.taskAlloc
      match child with
      | none => some (-1, k)
      | some child =>
        match k.taskAllocStack child with
        | (false, k, child) => do
          let k ← k.free child.block
          some (-1, k)
        | (true, k, child) =>
          let (pml4, s) := k.phys.vmmCreateAddressSpace
          let k := k.setPhys s
          if pml4 = 0 then do
            let k ← k.taskDiscard child
            some (-1, k)
          else do
            let (ok, c, m, u) ← cowCloneAddressSpace k.heap k.shm (k.ownerAt i)
              { child.toUserTask with pml4 }
            let k := { k with heap := c, shm := m }
            let child := { child with toUserTask := u }
            if ok then some (pidResult k.nextPid, k.taskPublish child)
            else do
              let k ← k.taskDiscard child
              some (-1, k)

/-- `task_clone` of the task at position `i`. -/
def taskClone (k : Kernel) (i entry stackTop : Nat) : Option (Int × Kernel) :=
  match k.tasks[i]? with
  | none => some (-1, k)
  | some current =>
    if current.pml4 = 0 then some (-1, k)
    else
      match (k.taskFindByPid current.tgid).bind fun j => k.tasks[j]? with
      | none => some (-1, k)
      | some leader =>
        if leader.dead ∨ entry = 0 ∨ 0x800000000000 ≤ entry ∨ stackTop < 4096 ∨
            0x800000000000 ≤ stackTop then some (-1, k)
        else do
          let (thread, k) ← k.taskAlloc
          match thread with
          | none => some (-1, k)
          | some thread =>
            match k.taskAllocStack thread with
            | (false, k, thread) => do
              let k ← k.free thread.block
              some (-1, k)
            | (true, k, thread) =>
              some (pidResult k.nextPid, k.taskPublish
                { thread with tgid := current.tgid, isThread := true, pml4 := current.pml4 })

/-! ## The end of a task -/

/-- The state of a task that dies. -/
def die (t : Process) : Process := { t with dead := true }

/-- `exit_current_task` of the task at position `i`. -/
def exitTask (k : Kernel) (i : Nat) : Kernel := { k with tasks := k.tasks.modify i die }

/-- All tasks that use the address space `pml4` die. -/
def dieWith (pml4 : Nat) (l : List Process) : List Process :=
  l.map fun t => if t.pml4 = pml4 then die t else t

/-- `task_abort_current_group` of the task at position `i`. -/
def abortGroup (k : Kernel) (i : Nat) : Kernel :=
  match k.tasks[i]? with
  | none => k
  | some t =>
    if t.pml4 ≠ 0 then { k with tasks := dieWith t.pml4 k.tasks }.exitTask i else k.exitTask i

/-- What the reaper does with the memory of a task. -/
def reapMemory (k : Kernel) (t : Process) : Option (Kernel × Process) :=
  if t.isThread then some (k, t)
  else do
    let (k, t) ← k.releaseMemory t
    some (k.destroySpace t.pml4, t)

/-- What the reaper does with a task that it has taken off the list. -/
def reapTask (k : Kernel) (t : Process) : Option Kernel := do
  let (k, t) ← k.reapMemory t
  let (k, t) := k.taskFreeStack t
  let k ← k.free t.block
  some { k with stats := { k.stats with tasksReaped := k.stats.tasksReaped + 1 } }

/-- The loop of `task_reap_dead`: the list is `kept` and then the tasks that are still to be looked
at. `active` tells which tasks `task_active` finds on a CPU. -/
def reapLoop (active : Nat → Bool) (k : Kernel) (kept : List Process) : List Process → Option Kernel
  | [] => some { k with tasks := kept }
  | t :: rest =>
    if !t.dead || active t.block || t.pid == 0 then reapLoop active k (kept ++ [t]) rest
    else if !t.isThread && t.pml4 != 0 && (kept ++ rest).any fun th => th.pml4 == t.pml4 then
      reapLoop active k (dieWith t.pml4 kept ++ [t]) (dieWith t.pml4 rest)
    else do
      let k ← k.reapTask t
      reapLoop active k kept rest
termination_by rest => rest.length
decreasing_by
  · exact Nat.lt_succ_self _
  · simp only [dieWith, List.length_map, List.length_cons]
    exact Nat.lt_succ_self _
  · exact Nat.lt_succ_self _

/-- `task_reap_dead`. -/
def taskReapDead (k : Kernel) (active : Nat → Bool) : Option Kernel := reapLoop active k [] k.tasks

/-! ## System calls -/

/-- A call of user memory for the owner at position `owner`. -/
def forOwner {α : Type} (k : Kernel) (owner : Option Nat) (fail : α)
    (f : HeapClient → UserTask → Option (α × HeapClient × UserTask)) : Option (α × Kernel) :=
  match owner.bind fun j => (k.tasks[j]?).map fun t => (j, t) with
  | none => some (fail, k)
  | some (j, t) => do
    let (r, c, u) ← f k.heap t.toUserTask
    some (r, { k with heap := c, tasks := k.tasks.set j { t with toUserTask := u } })

/-- `user_alloc` of the task at position `i`. -/
def userAlloc (k : Kernel) (i size : Nat) : Option (Nat × Kernel) :=
  k.forOwner (k.taskMemoryOwner i) 0 fun c t => GenOS.userAlloc c t size

/-- `user_free` of the task at position `i`. -/
def userFree (k : Kernel) (i base : Nat) : Option (Int × Kernel) :=
  if base = 0 then some (0, k)
  else k.forOwner (k.taskMemoryOwner i) (-1) fun c t => GenOS.userFree c t base

/-- `user_realloc` of the task at position `i`. -/
def userRealloc (k : Kernel) (i base size : Nat) : Option (Nat × Kernel) :=
  k.forOwner (k.taskMemoryOwner i) 0 fun c t => GenOS.userRealloc c t base size

/-- `shm_create`. -/
def shmCreate (k : Kernel) (pid size : Nat) : Option (Int × Kernel) := do
  let owner := (k.ownerOfPid pid).bind fun j => (k.tasks[j]?).map fun t => t.pid
  let (id, c, m) ← GenOS.shmCreate k.heap k.shm pid owner size
  some (id, { k with heap := c, shm := m })

/-- A call of shared memory for the owner at position `owner`. -/
def forAttacher {α : Type} (k : Kernel) (owner : Option Nat) (fail : α)
    (f : HeapClient → Shm → UserTask → Option (α × HeapClient × Shm × UserTask)) :
    Option (α × Kernel) :=
  match owner.bind fun j => (k.tasks[j]?).map fun t => (j, t) with
  | none => some (fail, k)
  | some (j, t) => do
    let (r, c, m, u) ← f k.heap k.shm t.toUserTask
    some (r, { k with heap := c, shm := m, tasks := k.tasks.set j { t with toUserTask := u } })

/-- `shm_attach`. -/
def shmAttach (k : Kernel) (id : Int) (pid pml4 : Nat) : Option (Nat × Kernel) :=
  k.forAttacher (k.ownerOfPid pid) 0 fun c m t => some (GenOS.shmAttach c m t id pml4)

/-- `shm_detach`. -/
def shmDetach (k : Kernel) (base pid pml4 : Nat) : Option (Int × Kernel) :=
  k.forAttacher (k.ownerOfPid pid) (-1) fun c m t => GenOS.shmDetach c m t base pml4

/-- `shm_destroy`. -/
def shmDestroy (k : Kernel) (id : Int) : Option (Int × Kernel) := do
  let (r, c, m) ← GenOS.shmDestroy k.heap k.shm id
  some (r, { k with heap := c, shm := m })

/-- `cow_resolve`, while the task with pid `pid` is running. -/
def cowResolve (k : Kernel) (pid faultAddr : Nat) (errorCode : Word) : Bool × Kernel :=
  match (k.ownerOfPid pid).bind fun j => (k.tasks[j]?).map fun t => (j, t) with
  | none => ((k.phys.cowResolve none faultAddr errorCode).1, k)
  | some (j, t) =>
    let (handled, s, owner) := k.phys.cowResolve (some t.toOwner) faultAddr errorCode
    (handled,
      { k.setPhys s with tasks := k.tasks.set j { t with toOwner := owner.getD t.toOwner } })

end Kernel

end GenOS
