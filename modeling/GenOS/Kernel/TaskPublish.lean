import GenOS.Kernel.TaskSafety

/-!
# Publication

Six calls publish a task, each after its own checks and allocations. `next_pid` counts the
publications, so it has not wrapped while the constructors have been called less than `2^32 - 2`
times.
-/

namespace GenOS.Sched

open Machine

variable {b : Boot} {s s' : Sched} {i : Nat}

/-- What the constructor that the step calls is given. -/
def alloc : Op → Option Alloc
  | .createTask _ _ al => some al
  | .createTaskOnCpu _ _ _ al => some al
  | .createUserTask _ al => some al
  | .syscall _ (.exec al) => some al
  | .syscall _ (.fork _ al) => some al
  | .syscall _ (.clone _ _ al) => some al
  | _ => none

/-- The call passes its own checks and gets what it allocates, so that a task is published. -/
def Publishes (s : Sched) : Op → Prop
  | .createTask _ entry al => entry ≠ 0 ∧ s.list ≠ [] ∧ al.TaskOk
  | .createTaskOnCpu _ entry cpu al =>
    cpu < s.cpuCount ∧ (s.cpus cpu).idleTask ≠ none ∧ entry ≠ 0 ∧ s.list ≠ [] ∧ al.TaskOk
  | .createUserTask _ al => al.SpaceOk
  | .syscall _ (.exec al) => al.SpaceOk
  | .syscall _ (.fork frameOk al) => frameOk = true ∧ al.SpaceOk
  | .syscall i (.clone entry stackTop al) =>
    (∃ c leader, (s.cpus i).current = some c ∧ s.taskFindByPid (s.mem c).tgid = some leader ∧
      (s.mem leader).state ≠ .dead) ∧
    entry ≠ 0 ∧ entry < 0x800000000000 ∧ 4096 ≤ stackTop ∧ stackTop < 0x800000000000 ∧ al.TaskOk
  | _ => False

/-- Only a constructor publishes. -/
theorem Publishes.alloc {op : Op} (h : s.Publishes op) : (alloc op).isSome = true := by
  cases op with
  | syscall i call => cases call <;> first | rfl | exact h.elim
  | _ => first | rfl | exact h.elim

/-- A step that adds a task passed the checks of its constructor. -/
theorem Step.publishes {op : Op} {r : Sched × Int} (hp : Placed s) (h : s.Step op r)
    (hl : s.list.length < r.1.list.length) : s.Publishes op := by
  have hno : ∀ {s' : Sched}, s'.list = s.list → s.list.length < s'.list.length → s.Publishes op :=
    fun e hlt => absurd hlt (by rw [e]; exact Nat.lt_irrefl _)
  have hexec : ∀ {s₁ : Sched} {i : Nat} {al : Alloc}, s₁.list = s.list → al.Fresh s₁ →
      s.list.length < (s₁.createUserTask i al).1.list.length → al.SpaceOk := by
    intro s₁ i al e hf hlt
    rcases createUserTask_cases (i := i) al hf.space_ne with e' | ⟨_, _, e'⟩ |
      ⟨_, _, _, _, _, hok, _⟩
    · rw [e', e] at hlt
      exact absurd hlt (Nat.lt_irrefl _)
    · rw [e'] at hlt
      exact absurd (e ▸ hlt) (Nat.lt_irrefl _)
    · exact hok
  cases h with
  | tick => exact hno rfl hl
  | entry i => exact hno (by rw [taskContextEnter_eq]; rfl) hl
  | @enter i c h => exact hno (by rw [taskContextEnter_eq]; rfl) hl
  | @schedule i hp =>
    refine hno ?_ hl
    rcases schedule_cases s i with h | ⟨s₁, c, idle, next, h, _, _, _, e⟩
    · exact h.list
    · show ((s.schedule i).leave i).list = s.list
      rw [e]
      exact h.list
  | skip hp => exact hno rfl hl
  | iret hp => exact hno rfl hl
  | createTask i entry hf =>
    rename_i al
    rcases createTask_cases (s := s) (i := i) entry al with e | ⟨a, ha, hok, e⟩
    · exact hno (by rw [e]) hl
    · exact hok
  | createTaskOnCpu i entry cpu hf =>
    rename_i al
    rcases createTaskOnCpu_cases (s := s) (i := i) entry cpu al with e | ⟨a, ha, hok, e⟩
    · exact hno (by rw [e]) hl
    · exact hok
  | createUserTask i hf => exact hexec rfl hf hl
  | setCpu pid cpu =>
    refine hno ?_ hl
    unfold taskSetCpu
    split
    · rfl
    · split <;> rfl
  | @syscall i c call h hu hd hf =>
    have hm : Same s (s.taskMarkRunning c) := taskMarkRunning_same
    have hd' : ((s.taskMarkRunning c).mem c).state ≠ .dead := by simp [taskMarkRunning, hd]
    cases call with
    | exec al =>
      rw [dispatch_exec] at hl
      exact hexec hm.list (Alloc.Fresh.same hf hm) hl
    | fork ok al =>
      dsimp only [dispatch] at hl
      rcases taskFork_cases (s := s.taskMarkRunning c) (i := i) ok al
        (Alloc.Fresh.space_ne hf) with e | ⟨_, _, e⟩ | ⟨_, _, _, _, _, hok, _⟩
      · exact hno (by rw [e]; exact hm.list) hl
      · exact hno (by rw [e]; exact hm.list) hl
      · exact hok
    | clone entry stackTop al =>
      dsimp only [dispatch] at hl
      rcases taskClone_cases (s := s.taskMarkRunning c) (i := i) entry stackTop al with
        e | ⟨c', leader, a, u, hc, h4, hlead, hdead, ha, hok, e, _⟩
      · exact hno (by rw [e]; exact hm.list) hl
      · rw [hm.cpus] at hc
        rw [hm.taskFindByPid, (hm.task c').ident] at hlead
        exact ⟨⟨c', leader, hc, hlead, fun hd => hdead ((hm.task leader).dead hd)⟩, hok⟩
    | sleep w => exact hno (hm.trans (sleepCurrentTask_same hd')).list hl
    | waitPid p => exact hno (hm.trans (waitForPid_same hd' ((hm.mortal c).mpr (.inl hu)))).list hl
    | nice v => exact hno (hm.trans taskSetNice_same).list hl
    | other => exact hno hm.list hl
  | exit h hu hr => exact hno rfl hl
  | abort h => exact hno taskAbortCurrentGroup_same.list hl
  | reap => exact absurd hl (Nat.not_lt.mpr (taskReapDead_reaped hp.nodup).list.length_le)
  | reaperWait h hr => exact hno rfl hl

/-! ## The counter -/

/-- The number of calls of a constructor. -/
def constructs (ops : List Op) : Nat := ops.countP fun op => (alloc op).isSome

theorem taskReapDead_nextPid (h : s.list.Nodup) : s.taskReapDead.nextPid = s.nextPid := by
  refine taskReapDead_induct (P := fun s' => s'.nextPid = s.nextPid) h rfl fun s' t e _ _ => ?_
  rcases reapOne_cases s' t with ⟨hs, _⟩ | ⟨_, _, _, _, e'⟩
  · exact hs.nextPid.trans e
  · rw [e']
    exact (removeTask_removed (s := s') (t := t)).nextPid.trans e

theorem Effect.nextPid (h : Effect s s') (hp : Placed s) : s'.nextPid = s.nextPid ∨
    s'.nextPid = (s.nextPid + 1) % 4294967296 ∧ s.list.length < s'.list.length := by
  have hpub : ∀ {a}, Published s s' a → s'.nextPid = s.nextPid ∨
      s'.nextPid = (s.nextPid + 1) % 4294967296 ∧ s.list.length < s'.list.length :=
    fun hpu => .inr ⟨hpu.nextPid, by rw [hpu.list]; simp⟩
  cases h with
  | kernel _ _ _ _ _ hs => exact hpub (taskPublish_published hs)
  | process _ _ _ _ _ _ _ hs => exact hpub (placed_published hs)
  | thread _ _ _ _ _ _ _ _ _ hs => exact hpub (joined_published hs)
  | reap => exact .inl (taskReapDead_nextPid hp.nodup)
  | _ => exact .inl rfl

/-- A step hands out an identifier only if it publishes a task. -/
theorem Step.nextPid {op : Op} {r : Sched × Int} (hp : Placed s) (hs : s.Step op r) :
    r.1.nextPid = s.nextPid ∨
      r.1.nextPid = (s.nextPid + 1) % 4294967296 ∧ s.Publishes op := by
  obtain ⟨s₁, h₁, he⟩ := hs.effect hp.reaper_alive
  have h := he.nextPid (hp.same h₁)
  rw [h₁.nextPid, h₁.list] at h
  exact h.imp id fun ⟨h1, h2⟩ => ⟨h1, hs.publishes hp h2⟩

/-- `next_pid` is at most what the constructors called can have made it. -/
theorem run_nextPid {ops : List Op} (h : Run Next (taskInit b) ops s)
    (hlt : 2 + constructs ops < 4294967296) :
    2 ≤ s.nextPid ∧ s.nextPid ≤ 2 + constructs ops := by
  suffices Placed s ∧ 2 ≤ s.nextPid ∧ s.nextPid ≤ 2 + constructs ops from this.2
  induction h with
  | nil => exact ⟨taskInit_placed b, by rw [taskInit_nextPid]; exact ⟨le_rfl, Nat.le_add_right ..⟩⟩
  | @snoc l t u op _ ha ih =>
    obtain ⟨r, hs⟩ := ha
    have e : constructs (l ++ [op]) = constructs l + if (alloc op).isSome then 1 else 0 := by
      simp [constructs, List.countP_append, List.countP_singleton]
    rw [e] at hlt ⊢
    obtain ⟨hp, hlo, hhi⟩ := ih (by omega)
    refine ⟨hp.step hs, ?_⟩
    rcases hs.nextPid hp with hn | ⟨hn, hpub⟩
    · rw [hn]
      exact ⟨hlo, by omega⟩
    · rw [hpub.alloc] at hlt ⊢
      rw [hn, Nat.mod_eq_of_lt (by simp only [↓reduceIte] at hlt; omega)]
      simp only [↓reduceIte]
      omega

end GenOS.Sched
