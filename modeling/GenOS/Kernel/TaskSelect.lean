import Mathlib.Algebra.Order.Ring.Int
import GenOS.Lib.Circular
import GenOS.Kernel.TaskAging

/-!
# Which task the scheduler selects

The second loop of `schedule` is a walk over the task list from the task after the current one. It
ends at the first candidate of greatest effective priority: priorities lie between `PRIO_IDLE` and
`PRIO_HIGH` in every state, so the start value -1 is below all of them and the boost above.
-/

namespace GenOS.Sched

open Machine Circular

variable {b : Boot} {s s' s₁ : Sched} {i c t : Nat} {u u' u'' : Task}

/-! ## What a selection is -/

/-- A READY task with an identifier, pinned to CPU `i`. -/
def Candidate (s : Sched) (i t : Nat) : Prop :=
  t ∈ s.list ∧ (s.mem t).state = .ready ∧ (s.mem t).cpuId = i ∧ (s.mem t).pid ≠ 0

/-- Read around the list from the task after `c`, `x` comes before `y`. -/
def Before (s : Sched) (c x y : Nat) : Prop := [x, y].Sublist (order s.list c)

/-- A pass of the scheduler on CPU `i` gets past the time slice and selects `x`. -/
def Selects (s : Sched) (i x : Nat) : Prop :=
  ∃ c idle, (s.cpus i).current = some c ∧ (s.cpus i).idleTask = some idle ∧
    (s.wakeTasks.chargeQuantum i c).2 = false ∧ ((s.scanned i c).pickBest i c).getD idle = x

/-- `x` is the right choice on CPU `i` after `c`. -/
structure Picked (s : Sched) (i c idle x : Nat) : Prop where
  /-- The idle task only when there is no candidate. -/
  candidate : s.Candidate i x ∨ x = idle ∧ ∀ t, ¬ s.Candidate i t
  greatest : ∀ t, s.Candidate i t → s.effectivePriority t ≤ s.effectivePriority x
  first : ∀ t, s.Candidate i t → s.effectivePriority t = s.effectivePriority x →
    t = x ∨ s.Before c x t
  /-- The boost is above every priority. -/
  boost : ∀ t u, s.boosted t = true → s.boosted u = false →
    s.effectivePriority u < s.effectivePriority t

/-! ## Priorities -/

/-- Between `PRIO_IDLE` and `PRIO_HIGH`. -/
def InRange (p : Int) : Prop := 0 ≤ p ∧ p ≤ 3

/-- Every priority is in range. -/
def Ranked (s : Sched) : Prop := ∀ a, InRange (s.mem a).priority

theorem clampPriority_inRange (p : Int) : InRange (clampPriority p) := by
  unfold clampPriority InRange
  split
  · decide
  · split
    · decide
    · omega

theorem Ranked.effectivePriority (h : s.Ranked) (t : Nat) :
    0 ≤ s.effectivePriority t ∧ s.effectivePriority t ≤ 4 := by
  have := h t
  unfold InRange at this
  unfold Sched.effectivePriority
  split <;> omega

theorem effectivePriority_boosted (h : s.boosted t = true) : s.effectivePriority t = 4 := if_pos h

theorem Ranked.unboosted (h : s.Ranked) (hb : s.boosted t = false) :
    s.effectivePriority t < 4 := by
  have := h t
  unfold InRange at this
  unfold Sched.effectivePriority
  rw [if_neg (by rw [hb]; decide)]
  omega

/-! ## The walk -/

theorem eligible_candidate (hp : Placed s) (ht : t ∈ s.list) :
    s.eligible i t = true ↔ s.Candidate i t := by
  rw [eligible_iff]
  constructor
  · rintro ⟨_, h1, h2, h3⟩
    exact ⟨ht, h3, h2, h1⟩
  · rintro ⟨_, h3, h2, h1⟩
    exact ⟨fun hi => h1 (hp.idle i t hi).2.1, h1, h2, h3⟩

theorem pickBest_eq : s.pickBest i c =
    ((order s.list c).foldl (better (s.eligible i) s.effectivePriority) (none, -1)).1 := rfl

/-- The second loop makes the right choice. -/
theorem pickBest_picked (hp : Placed s) (hr : s.Ranked) (idle : Nat) :
    s.Picked i c idle ((s.pickBest i c).getD idle) := by
  have hboost : ∀ t u, s.boosted t = true → s.boosted u = false →
      s.effectivePriority u < s.effectivePriority t := fun t u ht hu => by
    rw [effectivePriority_boosted ht]
    exact hr.unboosted hu
  have hel : ∀ t, s.Candidate i t → t ∈ order s.list c ∧ s.eligible i t = true := fun t ht =>
    ⟨mem_order.mpr ht.1, (eligible_candidate hp ht.1).mpr ht⟩
  rw [pickBest_eq]
  rcases @foldl_better _ _ _ (s.eligible i) s.effectivePriority (-1)
    (order s.list c) with ⟨e, hle⟩ | ⟨y, e, _, hy⟩ <;> rw [e]
  · -- no candidate ranks above the start value
    have hnone : ∀ t, ¬ s.Candidate i t := fun t ht => by
      have h0 := (hr.effectivePriority t).1
      have h1 := hle t (hel t ht).1 (hel t ht).2
      omega
    exact ⟨.inr ⟨rfl, hnone⟩, fun t ht => absurd ht (hnone t), fun t ht => absurd ht (hnone t),
      hboost⟩
  · have hmem := hy.mem
    refine ⟨.inl ((eligible_candidate hp (mem_order.mp hmem.1)).mp hmem.2),
      fun t ht => hy.le (hel t ht).1 (hel t ht).2, fun t ht heq => ?_, hboost⟩
    obtain ⟨o₁, o₂, ho, _, hlt, _⟩ := hy
    have hto := (hel t ht).1
    rw [ho] at hto
    rcases List.mem_append.mp hto with hto | hto
    · exact absurd heq (hlt t hto (hel t ht).2).ne
    · rcases List.mem_cons.mp hto with hto | hto
      · exact .inl hto
      · refine .inr ?_
        unfold Before
        rw [ho]
        exact ((List.singleton_sublist.mpr hto).cons_cons y).trans (List.sublist_append_right o₁ _)

/-! ## Timestamps and priorities along a step -/

/-- The timestamp stays, and the priority stays in range. -/
structure Calm (u u' : Task) : Prop where
  since : u'.readySince = u.readySince
  range : InRange u.priority → InRange u'.priority

theorem Calm.refl (u : Task) : Calm u u := ⟨rfl, id⟩

theorem Calm.trans (h : Calm u u') (h' : Calm u' u'') : Calm u u'' :=
  ⟨h'.since.trans h.since, fun hr => h'.range (h.range hr)⟩

theorem calm_setTask {a : Nat} (h : Calm (s.mem a) u) (t : Nat) :
    Calm (s.mem t) ((s.setTask a u).mem t) := by
  rw [setTask_mem]
  split
  · next e => exact e ▸ h
  · exact .refl _

theorem calm_forTasks {f : Nat → Task → Task} (h : ∀ a u, Calm u (f a u)) (t : Nat) :
    Calm (s.mem t) ((s.forTasks f).mem t) := by
  rw [forTasks_mem]
  split
  · exact h t _
  · exact .refl _

theorem wakeWaiter_calm (p : Nat) (u : Task) : Calm u (wakeWaiter p u) := by
  unfold wakeWaiter
  split
  · exact ⟨rfl, id⟩
  · exact .refl u

theorem exitCurrentTask_calm (t : Nat) : Calm (s.mem t) ((s.exitCurrentTask c).mem t) := by
  have h : Calm (s.mem t) ((s.setTask c { s.mem c with state := .dead }).mem t) := by
    refine calm_setTask ?_ t
    exact ⟨rfl, id⟩
  exact h.trans (calm_forTasks (fun _ => wakeWaiter_calm _) t)

theorem taskAbortCurrentGroup_calm (t : Nat) :
    Calm (s.mem t) ((s.taskAbortCurrentGroup c).mem t) := by
  unfold taskAbortCurrentGroup
  split
  · exact .refl _
  · refine (calm_forTasks (fun _ u => ?_) t).trans (calm_forTasks (fun _ u => ?_) t)
    · split
      · exact ⟨rfl, id⟩
      · exact .refl u
    · split
      · exact ⟨rfl, id⟩
      · exact .refl u

theorem taskMarkRunning_calm (t : Nat) : Calm (s.mem t) ((s.taskMarkRunning c).mem t) := by
  unfold taskMarkRunning
  split
  · exact .refl _
  · refine calm_setTask ?_ t
    exact ⟨rfl, id⟩

theorem waitForPid_calm {p : Nat} (t : Nat) : Calm (s.mem t) ((s.waitForPid c p).mem t) := by
  unfold waitForPid
  split
  · exact .refl _
  · split
    · exact .refl _
    · refine calm_setTask ?_ t
      exact ⟨rfl, id⟩

theorem reapOne_calm (a t : Nat) : Calm (s.mem t) ((s.reapOne a).mem t) := by
  unfold reapOne
  split
  · exact .refl _
  · split
    · refine calm_forTasks (fun b u => ?_) t
      split
      · exact ⟨rfl, id⟩
      · exact .refl u
    · obtain ⟨n, e⟩ := (removeTask_removed (s := s) (t := a)).task t
      rw [e]
      split
      · exact (wakeWaiter_calm _ _).trans ⟨rfl, id⟩
      · exact ⟨rfl, id⟩

theorem taskReapDead_calm (hp : Placed s) (t : Nat) :
    Calm (s.mem t) ((s.taskReapDead).mem t) :=
  taskReapDead_induct (P := fun s' => Calm (s.mem t) (s'.mem t)) hp.nodup (.refl _)
    fun _ a h _ _ => h.trans (reapOne_calm a t)

theorem taskReapDead_ticks (hp : Placed s) : s.taskReapDead.ticks = s.ticks := by
  refine taskReapDead_induct (P := fun s' => s'.ticks = s.ticks) hp.nodup rfl fun s' a h _ _ => ?_
  rcases reapOne_cases s' a with ⟨hs, _⟩ | ⟨_, _, _, _, e⟩
  · exact hs.ticks.trans h
  · rw [e]
    exact removeTask_removed.ticks.trans h

/-- What every step but a tick and a pass of the scheduler leaves alone. -/
structure Quiet (s s' : Sched) : Prop where
  ticks : s'.ticks = s.ticks
  current : ∀ i, (s'.cpus i).current = (s.cpus i).current
  list : (∃ a, s'.list = s.list ++ [a]) ∨ s'.list.Sublist s.list
  since : ∀ t ∈ s.list, (s'.mem t).readySince = (s.mem t).readySince
  ranked : s.Ranked → s'.Ranked

theorem Quiet.of_same (h : Same s s') (hm : ∀ t, Calm (s.mem t) (s'.mem t)) : Quiet s s' where
  ticks := h.ticks
  current i := by rw [h.cpus]
  list := .inr (by rw [h.list])
  since t _ := (hm t).since
  ranked hr t := (hm t).range (hr t)

theorem Quiet.refl (s : Sched) : Quiet s s := .of_same (.refl s) fun _ => .refl _

theorem Quiet.after (h : Same s s₁) (hm : ∀ t, Calm (s.mem t) (s₁.mem t)) (hq : Quiet s₁ s') :
    Quiet s s' where
  ticks := hq.ticks.trans h.ticks
  current i := (hq.current i).trans (by rw [h.cpus])
  list := h.list ▸ hq.list
  since t ht := (hq.since t (h.list ▸ ht)).trans (hm t).since
  ranked hr := hq.ranked fun t => (hm t).range (hr t)

theorem Quiet.setCpu {p : Cpu} (h : CpuMove (s.cpus i) p) : Quiet s (s.setCpu i p) where
  ticks := rfl
  current j := by
    by_cases hj : j = i
    · subst hj; rw [setCpu_cpus_self]; exact h.current
    · rw [setCpu_cpus_ne hj]
  list := .inr (List.Sublist.refl _)
  since _ _ := rfl
  ranked := id

theorem Quiet.withLog (log : List SpaceEvent) : Quiet s (s.withLog log) :=
  ⟨rfl, fun _ => rfl, .inr (List.Sublist.refl _), fun _ _ => rfl, id⟩

theorem Quiet.published {a : Nat} (hf : a ∉ s.list) (h : Published s s' a)
    (hr : s.Ranked → s'.Ranked) : Quiet s s' where
  ticks := h.ticks
  current i := by rw [h.cpus]
  list := .inl ⟨a, h.list⟩
  since t ht := by
    obtain ⟨n, e⟩ := h.others t fun e => hf (e ▸ ht)
    rw [e]
  ranked := hr

/-! ## The priorities of new tasks -/

theorem Ranked.setTask (h : s.Ranked) {a : Nat} (hu : InRange u.priority) :
    (s.setTask a u).Ranked := by
  intro t
  rw [setTask_mem]
  split
  · exact hu
  · exact h t

theorem Ranked.publish (h : s.Ranked) {a : Nat} (hu : InRange u.priority) :
    (s.taskPublish a u).Ranked :=
  h.setTask (u := { u with pid := s.nextPid, tgid := if u.isThread then u.tgid else s.nextPid }) hu

theorem taskInitPriority_inRange {p : Int} (hp : InRange p) :
    InRange (taskInitPriority u p).priority := hp

/-- `PRIO_NORMAL`. -/
theorem inRange_two : InRange 2 := ⟨by decide, by decide⟩

theorem inRange_zero : InRange 0 := ⟨by decide, by decide⟩

theorem inRange_three : InRange 3 := ⟨by decide, by decide⟩

theorem createTask_ranked {entry : Nat} {al : Alloc} (h : s.Ranked) :
    (s.createTask i entry al).1.Ranked := by
  rcases createTask_cases (s := s) (i := i) entry al with e | ⟨a, _, _, e⟩ <;> rw [e]
  · exact h
  · exact h.publish inRange_two

theorem createTaskOnCpu_ranked {entry cpu : Nat} {al : Alloc} (h : s.Ranked) :
    (s.createTaskOnCpu i entry cpu al).1.Ranked := by
  rcases createTaskOnCpu_cases (s := s) (i := i) entry cpu al with e | ⟨a, _, _, e⟩ <;> rw [e]
  · exact h
  · rw [taskPublish_setCpuId]
    exact h.publish inRange_two

theorem createUserTask_ranked {al : Alloc} (h : s.Ranked) :
    (s.createUserTask i al).1.Ranked := by
  unfold createUserTask
  split
  · exact h
  · split
    · exact h
    · split
      · exact h
      · dsimp only
        split
        · exact h
        · refine Ranked.publish (s := { s with log := _, placementCursor := _ }) h ?_
          dsimp only
          split
          · exact taskInitPriority_inRange inRange_three
          · exact inRange_two

theorem taskFork_ranked {ok : Bool} {al : Alloc} (h : s.Ranked) :
    (s.taskFork i ok al).1.Ranked := by
  unfold taskFork
  split
  · exact h
  · next c _ =>
    split
    · exact h
    · split
      · exact h
      · split
        · exact h
        · split
          · exact h
          · dsimp only
            split
            · exact h
            · exact Ranked.publish (s := { s with log := _, placementCursor := _ }) h (h c)

theorem taskClone_ranked {entry stackTop : Nat} {al : Alloc} (h : s.Ranked) :
    (s.taskClone i entry stackTop al).1.Ranked := by
  unfold taskClone
  split
  · exact h
  · next c _ =>
    split
    · exact h
    · split
      · exact h
      · next leader _ =>
        split
        · exact h
        · split
          · exact h
          · split
            · exact h
            · split
              · exact h
              · have hs := h.setTask (a := leader) (u := { s.mem leader with
                  threadCount := ((s.mem leader).threadCount + 1) % 4294967296 }) (h leader)
                exact Ranked.publish
                  (s := { s.setTask leader _ with placementCursor := _ }) hs (h c)

/-! ## Every other step -/

theorem createUserTask_quiet {al : Alloc} (hf : al.Fresh s) :
    Quiet s (s.createUserTask i al).1 := by
  have hr : s.Ranked → (s.createUserTask i al).1.Ranked := createUserTask_ranked
  rcases createUserTask_cases (i := i) al hf.space_ne with
    e | ⟨root, _, e⟩ | ⟨a, root, u, ha, _, _, e, _, _, _, hs, -⟩ <;> rw [e] at hr ⊢
  · exact .refl s
  · exact .withLog _
  · exact .published (hf.1 a ha).1 (placed_published hs) hr

theorem dispatch_quiet {call : Call} (hf : s.Fresh call) (hd : (s.mem c).state ≠ .dead)
    (hm : s.Mortal c) : Quiet s (s.dispatch i c call).1 := by
  cases call with
  | exec al =>
    rw [dispatch_exec]
    exact createUserTask_quiet hf
  | fork ok al =>
    have hr : s.Ranked → (s.taskFork i ok al).1.Ranked := taskFork_ranked
    unfold dispatch
    dsimp only
    rcases taskFork_cases (i := i) ok al (Alloc.Fresh.space_ne hf) with
      e | ⟨root, _, e⟩ | ⟨a, root, u, ha, _, _, e, _, _, _, hs, -⟩ <;> rw [e] at hr ⊢
    · exact .refl s
    · exact .withLog _
    · exact .published (hf.1 a ha).1 (placed_published hs) hr
  | clone entry stackTop al =>
    have hr : s.Ranked → (s.taskClone i entry stackTop al).1.Ranked := taskClone_ranked
    unfold dispatch
    dsimp only
    rcases taskClone_cases (i := i) entry stackTop al with
      e | ⟨_, leader, a, u, _, _, _, _, ha, _, e, _, _, _, hs, -⟩ <;> rw [e] at hr ⊢
    · exact .refl s
    · exact .published (hf.1 a ha).1 (joined_published hs) hr
  | sleep w =>
    refine .of_same (sleepCurrentTask_same hd) (calm_setTask ?_)
    exact ⟨rfl, id⟩
  | waitPid p => exact .of_same (waitForPid_same hd hm) waitForPid_calm
  | nice v =>
    refine .of_same taskSetNice_same (calm_setTask ?_)
    exact ⟨rfl, fun _ => clampPriority_inRange _⟩
  | other => exact .refl s

theorem Step.quiet {op : Op} {r : Sched × Int} (hp : Placed s) (h : s.Step op r)
    (ht : op ≠ .tick) (hop : ∀ j, op ≠ .schedule j) : Quiet s r.1 := by
  cases h with
  | tick => exact absurd rfl ht
  | entry i =>
    rw [taskContextEnter_eq]
    exact .setCpu .entry
  | @enter i c hr =>
    rw [taskContextEnter_eq, setCpu_setCpu, setCpu_cpus_self]
    exact .setCpu (.enter hr.2.2 hr.2.1)
  | @schedule i _ => exact absurd rfl (hop i)
  | skip hph => exact .setCpu (.leave hph)
  | iret hph => exact .setCpu (.iret hph)
  | @createTask i entry al hf =>
    have hr : s.Ranked → (s.createTask i entry al).1.Ranked := createTask_ranked
    rcases createTask_cases (s := s) (i := i) entry al with e | ⟨a, ha, _, e⟩ <;> rw [e] at hr ⊢
    · exact .refl s
    · exact .published (hf.1 a ha).1 (taskPublish_published rfl) hr
  | @createTaskOnCpu i entry cpu al hf =>
    have hr : s.Ranked → (s.createTaskOnCpu i entry cpu al).1.Ranked := createTaskOnCpu_ranked
    rcases createTaskOnCpu_cases (s := s) (i := i) entry cpu al with
      e | ⟨a, ha, _, e⟩ <;> rw [e] at hr ⊢
    · exact .refl s
    · rw [taskPublish_setCpuId] at hr ⊢
      exact .published (hf.1 a ha).1 (taskPublish_published rfl) hr
  | createUserTask i hf => exact createUserTask_quiet hf
  | setCpu pid cpu =>
    unfold taskSetCpu
    split
    · exact .refl s
    · next t _ =>
      split
      · exact .refl s
      · refine ⟨rfl, fun _ => rfl, .inr (List.Sublist.refl _), fun u _ => ?_,
          fun hr => hr.setTask (hr t)⟩
        exact (calm_setTask (u := { s.mem t with cpuId := cpu }) ⟨rfl, id⟩ u).since
  | @syscall i c call h hu hd hf =>
    have hm : Same s (s.taskMarkRunning c) := taskMarkRunning_same
    have hf' : (s.taskMarkRunning c).Fresh call := by
      cases call <;> first | exact Alloc.Fresh.same hf hm | trivial
    have hd' : ((s.taskMarkRunning c).mem c).state ≠ .dead := by simp [taskMarkRunning, hd]
    exact .after hm taskMarkRunning_calm (dispatch_quiet hf' hd' ((hm.mortal c).mpr (.inl hu)))
  | exit h hu hr =>
    exact .of_same (exitCurrentTask_same (hu.imp id fun he => ⟨he, hr⟩)) exitCurrentTask_calm
  | abort h => exact .of_same taskAbortCurrentGroup_same taskAbortCurrentGroup_calm
  | reap =>
    exact ⟨taskReapDead_ticks hp, fun i => by rw [(taskReapDead_reaped hp.nodup).cpus],
      .inr (taskReapDead_reaped hp.nodup).list, fun t _ => (taskReapDead_calm hp t).since,
      fun hr t => (taskReapDead_calm hp t).range (hr t)⟩
  | @reaperWait i c h hr =>
    have hd := hp.reaper_alive c hr
    refine .of_same (same_setTask (u := { s.mem c with state := .waiting })
      ⟨rfl, rfl, rfl, fun h => absurd h hd⟩ (fun h => by cases h) (.inl ⟨rfl, fun _ => .inr hr⟩))
      (calm_setTask ?_)
    exact ⟨rfl, id⟩

/-! ## The scheduler -/

/-- What the pass leaves of a READY task up to the second loop, and of every priority. -/
structure Waiting (u u' : Task) : Prop where
  ready : u.state = .ready → u'.state = .ready ∧ u'.readySince = u.readySince
  range : InRange u.priority → InRange u'.priority

theorem Waiting.refl (u : Task) : Waiting u u := ⟨fun h => ⟨h, rfl⟩, id⟩

theorem Waiting.trans (h : Waiting u u') (h' : Waiting u' u'') : Waiting u u'' where
  ready hu := by
    obtain ⟨h1, h2⟩ := h.ready hu
    obtain ⟨h3, h4⟩ := h'.ready h1
    exact ⟨h3, h4.trans h2⟩
  range hr := h'.range (h.range hr)

theorem waiting_setTask {a : Nat} (h : Waiting (s.mem a) u) (t : Nat) :
    Waiting (s.mem t) ((s.setTask a u).mem t) := by
  rw [setTask_mem]
  split
  · next e => exact e ▸ h
  · exact .refl _

theorem wakeTasks_waiting (t : Nat) : Waiting (s.mem t) (s.wakeTasks.mem t) := by
  have hf : Waiting (s.mem t) ((s.forTasks fun _ => wakeSleeper s.ticks).mem t) := by
    rw [forTasks_mem]
    split
    · unfold wakeSleeper
      split
      · next h =>
        refine ⟨fun hu => ?_, id⟩
        rw [h.1] at hu
        cases hu
      · exact .refl _
    · exact .refl _
  unfold wakeTasks
  dsimp only
  split
  · exact hf
  · split
    · next h =>
      refine hf.trans (waiting_setTask ?_ t)
      refine ⟨fun hu => ?_, id⟩
      rw [h.2] at hu
      cases hu
    · exact hf

theorem chargeQuantum_waiting (t : Nat) :
    Waiting (s.mem t) ((s.chargeQuantum i c).1.mem t) := by
  unfold chargeQuantum
  dsimp only
  split
  all_goals
    refine waiting_setTask ?_ t
    exact ⟨fun hu => ⟨hu, rfl⟩, id⟩

theorem preempt_waiting (t : Nat) : Waiting (s.mem t) ((s.preempt c).mem t) := by
  unfold preempt
  split
  · next h =>
    refine waiting_setTask ?_ t
    refine ⟨fun hu => ?_, id⟩
    rw [h] at hu
    cases hu
  · exact .refl _

theorem charged_waiting (t : Nat) :
    Waiting (s.mem t) ((s.wakeTasks.chargeQuantum i c).1.mem t) :=
  (wakeTasks_waiting t).trans (chargeQuantum_waiting t)

theorem scanned_waiting (t : Nat) : Waiting (s.mem t) ((s.scanned i c).mem t) :=
  (charged_waiting t).trans (preempt_waiting t)

theorem scanned_ranked (h : s.Ranked) : (s.scanned i c).Ranked := fun t =>
  (scanned_waiting t).range (h t)

/-- A pass of the scheduler does nothing, charges the current task, or selects a task. -/
theorem schedule_inv (s : Sched) (i : Nat) :
    s.schedule i = s ∨
    (∃ c, (s.cpus i).current = some c ∧ s.schedule i = (s.wakeTasks.chargeQuantum i c).1) ∨
    ∃ c x, (s.cpus i).current = some c ∧ s.Selects i x ∧
      s.schedule i = (s.scanned i c).switchTo i c x := by
  unfold schedule
  cases hc : (s.cpus i).current with
  | none => exact .inl rfl
  | some c =>
    cases hi : (s.cpus i).idleTask with
    | none => exact .inl rfl
    | some idle =>
      dsimp only
      cases hq : s.wakeTasks.chargeQuantum i c with
      | mk s₁ go =>
        cases go with
        | true => exact .inr (.inl ⟨c, rfl, by rw [hq]⟩)
        | false =>
          have hs : s.scanned i c = s₁.preempt c := by rw [scanned, hq]
          refine .inr (.inr ⟨c, _, rfl, ⟨c, idle, hc, hi, by rw [hq], rfl⟩, ?_⟩)
          rw [hs]

theorem Selects.unique {x y : Nat} (h : s.Selects i x) (h' : s.Selects i y) : x = y := by
  obtain ⟨c, idle, hc, hi, _, rfl⟩ := h
  obtain ⟨c', idle', hc', hi', _, rfl⟩ := h'
  rw [hc] at hc'
  rw [hi] at hi'
  cases hc'
  cases hi'
  rfl

/-- The task that a pass selects becomes the current one. -/
theorem Selects.schedule {x : Nat} (h : s.Selects i x) (hc : (s.cpus i).current = some c) :
    s.schedule i = (s.scanned i c).switchTo i c x := by
  obtain ⟨c', idle, hc', hi, hq, rfl⟩ := h
  rw [hc] at hc'
  cases hc'
  unfold Sched.schedule scanned
  rw [hc, hi]
  dsimp only
  generalize s.wakeTasks.chargeQuantum i c = r at hq
  obtain ⟨s₁, go⟩ := r
  cases hq
  rfl

/-- A pass of the scheduler selects the right task. -/
theorem Selects.picked {x : Nat} (hp : Placed s) (hr : s.Ranked) (h : s.Selects i x) :
    ∃ c idle, (s.cpus i).current = some c ∧ (s.cpus i).idleTask = some idle ∧
      (s.scanned i c).Picked i c idle x := by
  obtain ⟨c, idle, hc, hi, _, rfl⟩ := h
  exact ⟨c, idle, hc, hi, pickBest_picked (hp.same (scanned_same c)) (scanned_ranked hr) idle⟩

theorem schedule_ranked (h : s.Ranked) : (s.schedule i).Ranked := by
  rcases schedule_inv s i with e | ⟨c, _, e⟩ | ⟨c, x, _, _, e⟩ <;> rw [e]
  · exact h
  · exact fun t => (charged_waiting t).range (h t)
  · exact (scanned_ranked h).setTask (scanned_ranked h x)

theorem Step.ranked {op : Op} {r : Sched × Int} (hp : Placed s) (h : s.Step op r)
    (hr : s.Ranked) : r.1.Ranked := by
  by_cases ht : op = .tick
  · subst ht
    cases h
    exact hr
  · by_cases hop : ∃ j, op = .schedule j
    · obtain ⟨j, rfl⟩ := hop
      cases h
      exact schedule_ranked hr
    · exact (h.quiet hp ht (not_exists.mp hop)).ranked hr

theorem taskInit_ranked (b : Boot) : (taskInit b).Ranked := by
  intro t
  by_cases ht : t = b.reaper
  · rw [ht, taskInit_mem_reaper]
    exact inRange_three
  · rw [taskInit_mem_ne ht]
    simp only [bootTable]
    split <;> exact inRange_zero

theorem Reaches.ranked (h : Reaches b s) : s.Ranked := by
  obtain ⟨ops, h⟩ := h
  refine (h.invariant (I := fun s => Placed s ∧ s.Ranked) ⟨taskInit_placed b, taskInit_ranked b⟩
    ?_).2
  exact fun s _ t ⟨hp, hr⟩ ⟨_, hs⟩ => ⟨hp.step hs, hs.ranked hp hr⟩

end GenOS.Sched
