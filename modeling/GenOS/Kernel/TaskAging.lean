import GenOS.Kernel.TaskPublish
import GenOS.Kernel.TaskWait

/-!
# Aging

`schedule` lets a READY task compete above every priority once it has been READY for
`STARVATION_BOOST_INTERVAL` ticks, which it reads off `ready_since`. A `Watched` scheduler records
beside the state when each task really became READY. Preemption and the wake from sleep write the
timestamp. The wake of a task that waits does not, so it is right only for a waiter that last had a
CPU in the tick in which it is woken; nor does `task_publish`, so it is right only for a task that
is published in the tick of its `task_alloc`.
-/

namespace GenOS.Sched

open Machine

variable {b : Boot} {s s' s₁ : Sched} {i : Nat} {now : Nat} {u u' u'' : Task}

/-! ## The history -/

/-- A task on the list, or the idle task of a CPU. -/
def Used (s : Sched) (t : Nat) : Prop :=
  t ∈ s.list ∨ ∃ i < s.cpuCount, (s.cpus i).idleTask = some t

/-- `t` is a task, and READY. -/
def IsReady (s : Sched) (t : Nat) : Prop := s.Used t ∧ (s.mem t).state = .ready

instance (t : Nat) : Decidable (s.Used t) :=
  inferInstanceAs (Decidable (t ∈ s.list ∨ ∃ i < s.cpuCount, (s.cpus i).idleTask = some t))

instance (t : Nat) : Decidable (s.IsReady t) :=
  inferInstanceAs (Decidable (s.Used t ∧ (s.mem t).state = .ready))

/-- A scheduler, the ticks of its whole life, and the tick at which each task last became READY. -/
structure Watched where
  sched : Sched
  now : Nat
  since : Nat → Nat

/-- The time after a step. -/
def clock (now : Nat) : Op → Nat
  | .tick => now + 1
  | _ => now

/-- The record after a step to `s'`. -/
def Watched.after (x : Watched) (op : Op) (s' : Sched) : Watched where
  sched := s'
  now := clock x.now op
  since t := if s'.IsReady t ∧ ¬ x.sched.IsReady t then clock x.now op else x.since t

/-- One step, recorded. -/
def Watch (x : Watched) (op : Op) (y : Watched) : Prop :=
  ∃ s', Next x.sched op s' ∧ y = x.after op s'

/-- At boot no task is READY. -/
def watchInit (b : Boot) : Watched := ⟨taskInit b, b.ticks, fun _ => b.ticks⟩

/-! ## The steps that keep the timestamps right -/

/-- `t` has a dead leader that the reaper finds inactive. -/
def Led (s : Sched) (t : Nat) : Prop :=
  ∃ l ∈ s.list, (s.mem l).state = .dead ∧ s.taskActive l = false ∧ (s.mem l).pid ≠ 0 ∧
    (s.mem l).isThread = false ∧ (s.mem l).pml4 ≠ 0 ∧ (s.mem t).pml4 = (s.mem l).pml4

/-- The next pass of the reaper may remove `t`: it is dead, or its leader takes it along. -/
def Doomed (s : Sched) (t : Nat) : Prop :=
  s.taskActive t = false ∧ (s.mem t).pid ≠ 0 ∧ ((s.mem t).state = .dead ∨ s.Led t)

/-- The step makes `w` READY if it waits. -/
def WakesUp (s : Sched) (w : Nat) : Op → Prop
  | .exit i => ∃ c, (s.cpus i).current = some c ∧ w ≠ c ∧ (s.mem w).waitTargetPid = (s.mem c).pid
  | .abort i => ∃ c, (s.cpus i).current = some c ∧ (s.mem c).pml4 ≠ 0 ∧
      (s.mem w).pml4 ≠ (s.mem c).pml4 ∧
      ∀ t, s.taskFindByPid (s.mem w).waitTargetPid = some t →
        (s.mem t).state = .dead ∨ (s.mem t).pml4 = (s.mem c).pml4
  | .reap => ∃ t ∈ s.list, s.Doomed t ∧ (s.mem t).pid = (s.mem w).waitTargetPid
  | .schedule _ => s.reaperTask = some w ∧
      ∃ t ∈ s.list, (s.mem t).state = .dead ∧ s.taskActive t = false
  | _ => False

/-- Who is woken or published got its timestamp in this tick. -/
def Prompt (s : Sched) (op : Op) : Prop :=
  (∀ w ∈ s.list, (s.mem w).state = .waiting → s.WakesUp w op → (s.mem w).readySince = s.ticks) ∧
  (s.Publishes op → ∀ al, alloc op = some al → elapsed s.ticks al.delay = s.ticks)

/-- Who is woken or published got its timestamp in this tick, and nobody stays READY for `2^64`
ticks. -/
def Watched.Timely (x : Watched) (op : Op) : Prop :=
  x.sched.Prompt op ∧
    (op = .tick → ∀ t, x.sched.IsReady t → x.now + 1 - x.since t < 18446744073709551616)

/-! ## What a step does to one timestamp -/

/-- The task stays as it was, or becomes READY with the timestamp `now`. -/
def Wake (now : Nat) (u u' : Task) : Prop :=
  u'.state = u.state ∧ u'.readySince = u.readySince ∨
    u.state ≠ .ready ∧ u'.state = .ready ∧ u'.readySince = now

/-- If the task is READY in the end, it stayed as it was or became READY with the right
timestamp. -/
def Stamp (now : Nat) (u u' : Task) : Prop := u'.state ≠ .ready ∨ Wake now u u'

theorem Wake.refl (u : Task) : Wake now u u := .inl ⟨rfl, rfl⟩

theorem Wake.trans (h : Wake now u u') (h' : Wake now u' u'') : Wake now u u'' := by
  rcases h with ⟨hs, hr⟩ | ⟨hn, hs, hr⟩
  · rcases h' with ⟨hs', hr'⟩ | ⟨hn', hs', hr'⟩
    · exact .inl ⟨hs'.trans hs, hr'.trans hr⟩
    · exact .inr ⟨hs ▸ hn', hs', hr'⟩
  · rcases h' with ⟨hs', hr'⟩ | ⟨hn', _, _⟩
    · exact .inr ⟨hn, hs'.trans hs, hr'.trans hr⟩
    · exact absurd hs hn'

theorem Wake.stamp (h : Wake now u u') (h' : Stamp now u' u'') : Stamp now u u'' :=
  h'.imp id h.trans

/-- Every task that is READY after the step has the right timestamp, if it had it before. -/
structure Stamps (s s' : Sched) : Prop where
  ticks : s'.ticks = s.ticks
  ready : ∀ t, s'.IsReady t → s.Used t ∧ Wake s.ticks (s.mem t) (s'.mem t) ∨
    ¬ s.Used t ∧ (s'.mem t).readySince = s.ticks

/-- A step that publishes nothing. -/
theorem Stamps.of_mem (hl : s'.list ⊆ s.list) (hc : s'.cpuCount = s.cpuCount)
    (hi : ∀ i, (s'.cpus i).idleTask = (s.cpus i).idleTask) (ht : s'.ticks = s.ticks)
    (hm : ∀ t, Stamp s.ticks (s.mem t) (s'.mem t)) : Stamps s s' where
  ticks := ht
  ready t h := by
    obtain ⟨hu, hr⟩ := h
    refine .inl ⟨?_, (hm t).resolve_left (not_not.mpr hr)⟩
    rcases hu with hu | ⟨i, hlt, hu⟩
    · exact .inl (hl hu)
    · exact .inr ⟨i, hc ▸ hlt, hi i ▸ hu⟩

theorem Stamps.of_same (h : Same s s') (hm : ∀ t, Stamp s.ticks (s.mem t) (s'.mem t)) :
    Stamps s s' :=
  .of_mem (by rw [h.list]; exact List.Subset.refl _) h.cpuCount (fun i => by rw [h.cpus]) h.ticks hm

theorem Stamps.setCpu {p : Cpu} (hp : p.idleTask = (s.cpus i).idleTask) :
    Stamps s (s.setCpu i p) := by
  refine .of_mem (List.Subset.refl _) rfl (fun j => ?_) rfl fun t => .inr (.refl _)
  by_cases hj : j = i
  · subst hj; rw [setCpu_cpus_self]; exact hp
  · rw [setCpu_cpus_ne hj]

/-- A publication, after stores that make nobody READY. -/
theorem Stamps.published {a : Nat} (h : Same s s₁) (hm : ∀ t, Stamp s.ticks (s.mem t) (s₁.mem t))
    (ha : ¬ s.Used a) (hp : Published s₁ s' a) (hr : (s'.mem a).readySince = s.ticks) :
    Stamps s s' where
  ticks := hp.ticks.trans h.ticks
  ready t ht := by
    by_cases hta : t = a
    · subst hta
      exact .inr ⟨ha, hr⟩
    · obtain ⟨hu, hr⟩ := ht
      obtain ⟨n, e⟩ := hp.others t hta
      rw [e] at hr ⊢
      refine .inl ⟨?_, ((hm t).resolve_left (not_not.mpr hr))⟩
      rcases hu with hu | ⟨i, hlt, hu⟩
      · rw [hp.list, h.list] at hu
        rcases List.mem_append.mp hu with hu | hu
        · exact .inl hu
        · exact absurd (List.mem_singleton.mp hu) hta
      · rw [hp.cpuCount, h.cpuCount] at hlt
        rw [hp.cpus, h.cpus] at hu
        exact .inr ⟨i, hlt, hu⟩

theorem Alloc.Fresh.unused {al : Alloc} {a : Nat} (h : al.Fresh s) (ha : al.task = some a) :
    ¬ s.Used a := by
  rintro (hu | ⟨i, hlt, hu⟩)
  · exact (h.1 a ha).1 hu
  · exact (h.1 a ha).2 i hlt hu

/-! ## The scheduler -/

/-- The state in which the scheduler looks for the next task. -/
def scanned (s : Sched) (i c : Nat) : Sched := (s.wakeTasks.chargeQuantum i c).1.preempt c

/-- The only timestamp that the first loop may leave behind is the reaper's. -/
theorem wakeTasks_wake (h : s.Prompt (.schedule i)) (hr : ∀ r, s.reaperTask = some r → r ∈ s.list)
    (t : Nat) : Wake s.ticks (s.mem t) (s.wakeTasks.mem t) := by
  have hf : ∀ t, Wake s.ticks (s.mem t) ((s.forTasks fun _ => wakeSleeper s.ticks).mem t) := by
    intro t
    rw [forTasks_mem]
    split
    · unfold wakeSleeper
      split
      · next hs => exact .inr ⟨by rw [hs.1]; decide, rfl, rfl⟩
      · exact .refl _
    · exact .refl _
  unfold wakeTasks
  dsimp only
  split
  · exact hf t
  · next r hrt =>
    split
    · next hd =>
      rw [setTask_mem]
      split
      · next e =>
        -- the reaper waited before the loop too
        obtain ⟨⟨d, hdl, hdd, hda⟩, hw⟩ := hd
        obtain ⟨hs, hst⟩ : (s.mem r).state = .waiting ∧
            ((s.forTasks fun _ => wakeSleeper s.ticks).mem r).readySince =
            (s.mem r).readySince := by
          rcases hf r with ⟨h1, h2⟩ | ⟨_, h1, _⟩
          · exact ⟨h1 ▸ hw, h2⟩
          · rw [h1] at hw
            cases hw
        have hdl : d ∈ s.list := hdl
        have hdead : (s.mem d).state = .dead := by
          rw [forTasks_mem, if_pos hdl] at hdd
          exact (wakeSleeper_same _ _).2.1 hdd
        have hnow := h.1 r (hr r hrt) hs ⟨hrt, d, hdl, hdead, Bool.eq_false_iff.mpr hda⟩
        rw [e]
        exact .inr ⟨by rw [hs]; decide, rfl, hst.trans hnow⟩
      · exact hf t
    · exact hf t

theorem chargeQuantum_wake {c : Nat} (t : Nat) :
    Wake now (s.mem t) ((s.chargeQuantum i c).1.mem t) := by
  unfold chargeQuantum
  dsimp only
  split
  all_goals
    rw [setTask_mem]
    split
    · next e => rw [e]; exact .inl ⟨rfl, rfl⟩
    · exact .refl _

theorem preempt_wake {c : Nat} (t : Nat) : Wake s.ticks (s.mem t) ((s.preempt c).mem t) := by
  unfold preempt
  split
  · next hs =>
    rw [setTask_mem]
    split
    · next e => rw [e]; exact .inr ⟨by rw [hs]; decide, rfl, rfl⟩
    · exact .refl _
  · exact .refl _

theorem scanned_wake (h : s.Prompt (.schedule i)) (hr : ∀ r, s.reaperTask = some r → r ∈ s.list)
    (c t : Nat) : Wake s.ticks (s.mem t) ((s.scanned i c).mem t) := by
  have ht : (s.wakeTasks.chargeQuantum i c).1.ticks = s.ticks :=
    (wakeTasks_same.trans chargeQuantum_same).ticks
  have hp := preempt_wake (s := (s.wakeTasks.chargeQuantum i c).1) (c := c) t
  rw [ht] at hp
  exact ((wakeTasks_wake h hr t).trans (chargeQuantum_wake t)).trans hp

theorem scanned_same (c : Nat) : Same s (s.scanned i c) :=
  (wakeTasks_same.trans chargeQuantum_same).trans preempt_same

theorem schedule_stamps (hp : Placed s) (h : s.Prompt (.schedule i)) :
    Stamps s ((s.schedule i).leave i) := by
  have hr : ∀ r, s.reaperTask = some r → r ∈ s.list := fun r e => (hp.reaper r e).1
  unfold schedule
  cases hc : (s.cpus i).current with
  | none => exact .setCpu rfl
  | some c =>
    cases hi : (s.cpus i).idleTask with
    | none => exact .setCpu rfl
    | some idle =>
      dsimp only
      have hw : ∀ t, Wake s.ticks (s.mem t) ((s.wakeTasks.chargeQuantum i c).1.mem t) := fun t =>
        (wakeTasks_wake h hr t).trans (chargeQuantum_wake t)
      have hsc : ∀ t, Wake s.ticks (s.mem t) ((s.scanned i c).mem t) := scanned_wake h hr c
      have hs : Same s (s.scanned i c) := scanned_same c
      have hs₁ : Same s (s.wakeTasks.chargeQuantum i c).1 := wakeTasks_same.trans chargeQuantum_same
      unfold scanned at hsc hs
      generalize s.wakeTasks.chargeQuantum i c = r at hw hsc hs hs₁
      obtain ⟨s₁, go⟩ := r
      cases go with
      | true =>
        refine .of_mem ?_ hs₁.cpuCount (fun j => ?_) hs₁.ticks fun t => .inr (hw t)
        · rw [leave, setCpu_list, hs₁.list]
          exact List.Subset.refl _
        · unfold leave
          rw [hs₁.cpus]
          by_cases hj : j = i
          · subst hj; rw [setCpu_cpus_self]
          · rw [setCpu_cpus_ne hj, hs₁.cpus]
      | false =>
        dsimp only at hsc hs ⊢
        generalize ((s₁.preempt c).pickBest i c).getD idle = next
        generalize s₁.preempt c = s₂ at hsc hs
        unfold switchTo leave
        dsimp only
        rw [setCpu_setCpu, setCpu_cpus_self]
        refine .of_mem ?_ hs.cpuCount (fun j => ?_) hs.ticks fun t => ?_
        · rw [setCpu_list, setTask_list, hs.list]
          exact List.Subset.refl _
        · by_cases hj : j = i
          · subst hj; rw [setCpu_cpus_self, hs.cpus]
          · rw [setCpu_cpus_ne hj, setTask_cpus, hs.cpus]
        · rw [setCpu_mem, setTask_mem]
          split
          · exact .inl fun h => by cases h
          · exact .inr (hsc t)

/-! ## Deaths -/

theorem wakeWaiter_stamp {p : Nat} (h : u.state = .waiting → u.waitTargetPid = p →
    u.readySince = now) : Wake now u (wakeWaiter p u) := by
  unfold wakeWaiter
  split
  · next hw => exact .inr ⟨by rw [hw.1]; decide, rfl, h hw.1 hw.2⟩
  · exact .refl _

theorem exit_stamps {c : Nat} (hc : (s.cpus i).current = some c) (hm : s.Mortal c)
    (h : s.Prompt (.exit i)) : Stamps s (s.exitCurrentTask c) := by
  refine .of_same (exitCurrentTask_same hm) fun t => ?_
  unfold exitCurrentTask
  rw [forTasks_mem, setTask_list]
  by_cases htc : t = c
  · subst htc
    rw [setTask_mem_self]
    split
    · exact .inl (by rw [(wakeWaiter_same _ _).1.dead rfl]; decide)
    · exact .inl nofun
  · rw [setTask_mem_ne htc]
    split
    · next hl =>
      exact .inr (wakeWaiter_stamp fun hw ht => h.1 t hl hw ⟨c, hc, htc, ht⟩)
    · exact .inr (.refl _)

/-- A task found by its identifier before a loop is found after it. -/
theorem forTasks_find {f : Nat → Task → Task} (hf : ∀ a w, (f a w).pid = w.pid) (p : Nat) :
    (s.forTasks f).taskFindByPid p = s.taskFindByPid p := by
  have h : ∀ a, ((s.forTasks f).mem a).pid = (s.mem a).pid := by
    intro a
    rw [forTasks_mem]
    split
    · exact hf a _
    · rfl
  unfold taskFindByPid
  simp only [h, forTasks_list]

theorem abort_stamps {c : Nat} (hc : (s.cpus i).current = some c) (h : s.Prompt (.abort i)) :
    Stamps s (s.taskAbortCurrentGroup c) := by
  refine .of_same taskAbortCurrentGroup_same fun t => ?_
  unfold taskAbortCurrentGroup
  split
  · exact .inr (.refl _)
  · next h4 =>
    dsimp only
    have hm : ∀ w ∈ s.list, (s.forTasks fun _ t => if t.pml4 = (s.mem c).pml4 then
        { t with state := .dead } else t).mem w =
        if (s.mem w).pml4 = (s.mem c).pml4 then { s.mem w with state := .dead } else s.mem w :=
      fun w hw => by rw [forTasks_mem, if_pos hw]
    have hf : ∀ p, (s.forTasks fun _ t => if t.pml4 = (s.mem c).pml4 then
        { t with state := .dead } else t).taskFindByPid p = s.taskFindByPid p :=
      forTasks_find fun _ w => by split <;> rfl
    have hl : (s.forTasks fun _ t => if t.pml4 = (s.mem c).pml4 then
        { t with state := .dead } else t).list = s.list := rfl
    have hn : ∀ w, w ∉ s.list → (s.forTasks fun _ t => if t.pml4 = (s.mem c).pml4 then
        { t with state := .dead } else t).mem w = s.mem w :=
      fun w hw => by rw [forTasks_mem, if_neg hw]
    generalize (s.forTasks fun _ t => if t.pml4 = (s.mem c).pml4 then
      { t with state := .dead } else t) = s₁ at hm hf hl hn
    rw [forTasks_mem, hl]
    split
    · next ht =>
      rw [hm t ht]
      by_cases hg : (s.mem t).pml4 = (s.mem c).pml4
      · rw [if_pos hg, if_neg (fun hw => by cases hw.1)]
        exact .inl nofun
      · rw [if_neg hg]
        split
        · next hw =>
          -- the target was dead, or has just been killed
          refine .inr (.inr ⟨by rw [hw.1]; decide, rfl, h.1 t ht hw.1 ⟨c, hc, h4, hg, ?_⟩⟩)
          intro x hx
          have hdead := hw.2
          unfold taskIsDead at hdead
          rw [hf, hx] at hdead
          have hdead : (s₁.mem x).state = .dead := of_decide_eq_true hdead
          rw [hm x (taskFindByPid_some hx).1] at hdead
          split at hdead
          · next hg => exact .inr hg
          · exact .inl hdead
        · exact .inr (.refl _)
    · next ht =>
      rw [hn t ht]
      exact .inr (.refl _)

/-! ## The reaper -/

/-- What holds between the turns of a pass of the reaper that started in `s`. -/
structure Passing (s s' : Sched) : Prop where
  list : s'.list ⊆ s.list
  cpus : s'.cpus = s.cpus
  cpuCount : s'.cpuCount = s.cpuCount
  ticks : s'.ticks = s.ticks
  ident : ∀ t, (s'.mem t).toIdent = (s.mem t).toIdent
  target : ∀ t, (s'.mem t).waitTargetPid = (s.mem t).waitTargetPid
  task : ∀ t, (s'.mem t).state = .dead ∧ s.Led t ∨ Wake s.ticks (s.mem t) (s'.mem t)

theorem Passing.refl (s : Sched) : Passing s s :=
  ⟨List.Subset.refl _, rfl, rfl, rfl, fun _ => rfl, fun _ => rfl, fun _ => .inr (.refl _)⟩

theorem Passing.active (h : Passing s s') (t : Nat) : s'.taskActive t = s.taskActive t := by
  unfold taskActive
  rw [h.cpus, h.cpuCount]

theorem Passing.dead (h : Passing s s') {t : Nat} (hd : (s'.mem t).state = .dead) :
    (s.mem t).state = .dead ∨ s.Led t := by
  rcases h.task t with ⟨_, hl⟩ | ⟨hs, _⟩ | ⟨_, hs, _⟩
  · exact .inr hl
  · exact .inl (hs ▸ hd)
  · rw [hs] at hd
    cases hd

/-- Who is in the group of a dead leader was so before the pass. -/
theorem Passing.led (h : Passing s s') {t : Nat} (hl : s'.Led t) : s.Led t := by
  obtain ⟨l, hl, hd, ha, hp, hth, h4, e⟩ := hl
  rw [h.active] at ha
  rw [h.ident] at hp hth h4 e
  rw [h.ident l] at e
  rcases h.dead hd with hd | ⟨m, hm, hmd, hma, hmp, hmt, hm4, e'⟩
  · exact ⟨l, h.list hl, hd, ha, hp, hth, h4, e⟩
  · exact ⟨m, hm, hmd, hma, hmp, hmt, hm4, e.trans e'⟩

/-- Who waits between two turns waited before the pass, with the same timestamp. -/
theorem Passing.waiting (h : Passing s s') {w : Nat} (hw : (s'.mem w).state = .waiting) :
    (s.mem w).state = .waiting ∧ (s'.mem w).readySince = (s.mem w).readySince := by
  rcases h.task w with ⟨hd, _⟩ | ⟨hs, hr⟩ | ⟨_, hs, _⟩
  · rw [hd] at hw
    cases hw
  · exact ⟨hs ▸ hw, hr⟩
  · rw [hs] at hw
    cases hw

theorem Passing.marked (h : Passing s s') {t : Nat} (hd : (s'.mem t).state = .dead)
    (ha : s'.taskActive t = false) (hp : (s'.mem t).pid ≠ 0) (hl : t ∈ s'.list)
    (hth : (s'.mem t).isThread = false) (h4 : (s'.mem t).pml4 ≠ 0) :
    Passing s (s'.forTasks fun a th =>
      if a ≠ t ∧ th.pml4 = (s'.mem t).pml4 then { th with state := .dead } else th) where
  list := h.list
  cpus := h.cpus
  cpuCount := h.cpuCount
  ticks := h.ticks
  ident a := by
    rw [forTasks_mem, ← h.ident a]
    split
    · split <;> rfl
    · rfl
  target a := by
    rw [forTasks_mem, ← h.target a]
    split
    · split <;> rfl
    · rfl
  task a := by
    rw [forTasks_mem]
    split
    · split
      · next hg => exact .inl ⟨rfl, h.led ⟨t, hl, hd, ha, hp, hth, h4, hg.2⟩⟩
      · exact h.task a
    · exact h.task a

theorem Passing.removed (h : Passing s s') (hpr : s.Prompt .reap) {t : Nat} (hl : t ∈ s'.list)
    (hd : (s'.mem t).state = .dead) (ha : s'.taskActive t = false) (hp : (s'.mem t).pid ≠ 0) :
    Passing s (s'.removeTask t) := by
  have hr : Removed s' (s'.removeTask t) t := removeTask_removed
  refine
    { list := fun x hx => h.list (List.mem_of_mem_erase (hr.list ▸ hx))
      cpus := hr.cpus.trans h.cpus
      cpuCount := hr.cpuCount.trans h.cpuCount
      ticks := hr.ticks.trans h.ticks
      ident := fun a => (hr.ident a).trans (h.ident a)
      target := fun a => ?_
      task := fun a => ?_ }
  · obtain ⟨n, e⟩ := hr.task a
    rw [e, ← h.target a]
    split
    · exact (wakeWaiter_same _ _).2.2.1
    · rfl
  · obtain ⟨n, e⟩ := hr.task a
    rw [e]
    split
    · next hal =>
      rcases h.task a with ⟨hda, hled⟩ | hw
      · exact .inl ⟨(wakeWaiter_same _ _).1.dead hda, hled⟩
      · -- a waiter on the task that goes was prompt
        refine .inr (hw.trans (wakeWaiter_stamp fun hst ht => ?_))
        obtain ⟨hs, hrs⟩ := h.waiting hst
        have hdoom : s.Doomed t :=
          ⟨h.active t ▸ ha, by rw [h.ident] at hp; exact hp, h.dead hd⟩
        rw [hrs]
        refine hpr.1 a (h.list (List.mem_of_mem_erase hal)) hs ⟨t, h.list hl, hdoom, ?_⟩
        rw [← h.target a, ht, h.ident]
    · exact h.task a

theorem reap_stamps (hp : Placed s) (h : s.Prompt .reap) : Stamps s s.taskReapDead := by
  have hpass : Passing s s.taskReapDead := by
    refine taskReapDead_induct hp.nodup (.refl s) fun s' t hs _ hl => ?_
    unfold reapOne
    split
    · exact hs
    · next hn =>
      simp only [not_or, not_not, Bool.not_eq_true, ne_eq] at hn
      split
      · next h4 => exact hs.marked hn.1 hn.2.1 hn.2.2 hl (by simpa using h4.1) h4.2.1
      · exact hs.removed h hl hn.1 hn.2.1 hn.2.2
  refine .of_mem hpass.list hpass.cpuCount (fun i => by rw [hpass.cpus]) hpass.ticks fun t => ?_
  rcases hpass.task t with ⟨hd, _⟩ | hw
  · exact .inl (by rw [hd]; decide)
  · exact .inr hw

/-! ## Every step -/

/-- The task that `task_publish` adds keeps the timestamp of its `task_alloc`. -/
theorem taskPublish_stamp {a : Nat} (h : u.readySince = now) :
    ((s.taskPublish a u).mem a).readySince = now := by
  rw [taskPublish_mem_self]
  exact h

theorem created_stamps {a : Nat} {al : Alloc} (hf : al.Fresh s) (ha : al.task = some a)
    (hp : Published s s' a) (hr : (s'.mem a).readySince = s.ticks) : Stamps s s' :=
  .published (.refl s) (fun _ => .inr (.refl _)) (hf.unused ha) hp hr

theorem Stamps.refl (s : Sched) : Stamps s s := .of_same (.refl s) fun _ => .inr (.refl _)

/-- A store that leaves nobody but the caller in another state. -/
theorem Stamps.caller {c : Nat} (h : Same s s') (hc : (s'.mem c).state ≠ .ready)
    (hm : ∀ t, t ≠ c → s'.mem t = s.mem t) : Stamps s s' := by
  refine .of_same h fun t => ?_
  by_cases htc : t = c
  · exact .inl (htc ▸ hc)
  · rw [hm t htc]
    exact .inr (.refl _)

theorem syscall_stamps {c : Nat} {call : Call} (hp : Placed s) (hr : s.Runs i c)
    (hu : (s.mem c).pml4 ≠ 0) (hd : (s.mem c).state ≠ .dead) (hf : s.Fresh call)
    (h : s.Prompt (.syscall i call)) :
    Stamps s ((s.taskMarkRunning c).dispatch i c call).1 := by
  have hpub := Step.publishes hp (Step.syscall hr hu hd hf)
  have hm : Same s (s.taskMarkRunning c) := taskMarkRunning_same
  have hrun : ((s.taskMarkRunning c).mem c).state = .running := by simp [taskMarkRunning, hd]
  have hne : ∀ t, t ≠ c → (s.taskMarkRunning c).mem t = s.mem t := by
    intro t ht
    unfold taskMarkRunning
    split
    · rfl
    · exact setTask_mem_ne ht
  generalize s.taskMarkRunning c = s₁ at hm hrun hne hpub
  have hgrown : ∀ {l : List Nat} {a : Nat}, l = s₁.list → s.list.length < (l ++ [a]).length :=
    fun e => by rw [e, hm.list]; simp
  have hself : Stamps s s₁ := .caller hm (by rw [hrun]; decide) hne
  have hst : ∀ t, Stamp s.ticks (s.mem t) (s₁.mem t) := by
    intro t
    by_cases htc : t = c
    · exact .inl (by rw [htc, hrun]; decide)
    · rw [hne t htc]
      exact .inr (.refl _)
  have hlog : ∀ log, Stamps s (s₁.withLog log) := fun log =>
    .of_mem (fun _ h => hm.list ▸ h) hm.cpuCount (fun i => congrFun hm.cpus i ▸ rfl) hm.ticks hst
  have hdd : (s₁.mem c).state ≠ .dead := by rw [hrun]; decide
  have hmo : s₁.Mortal c := (hm.mortal c).mpr (.inl hu)
  cases call with
  | exec al =>
    rw [dispatch_exec] at hpub ⊢
    rcases createUserTask_cases (i := i) al (Alloc.Fresh.space_ne hf) with
      e | ⟨root, _, e⟩ | ⟨a, root, u, ha, _, _, e, _, _, _, hs, hr⟩ <;> rw [e] at hpub ⊢
    · exact hself
    · exact hlog _
    · rw [hm.ticks] at hr
      exact .published hm hst (Alloc.Fresh.unused hf ha) (placed_published hs)
        (taskPublish_stamp (hr.trans (h.2 (hpub (hgrown rfl)) al rfl)))
  | fork ok al =>
    dsimp only [dispatch] at hpub ⊢
    rcases taskFork_cases (i := i) ok al (Alloc.Fresh.space_ne hf) with
      e | ⟨root, _, e⟩ | ⟨a, root, u, ha, _, _, e, _, _, _, hs, hr⟩ <;> rw [e] at hpub ⊢
    · exact hself
    · exact hlog _
    · rw [hm.ticks] at hr
      exact .published hm hst (Alloc.Fresh.unused hf ha) (placed_published hs)
        (taskPublish_stamp (hr.trans (h.2 (hpub (hgrown rfl)) al rfl)))
  | clone entry stackTop al =>
    dsimp only [dispatch] at hpub ⊢
    rcases taskClone_cases (i := i) entry stackTop al with
      e | ⟨_, leader, a, u, _, _, _, _, ha, _, e, _, _, _, hs, hr⟩ <;> rw [e] at hpub ⊢
    · exact hself
    · rw [hm.ticks] at hr
      exact .published hm hst (Alloc.Fresh.unused hf ha) (joined_published hs)
        (taskPublish_stamp (hr.trans (h.2 (hpub (hgrown rfl)) al rfl)))
  | sleep w =>
    refine .caller (c := c) (hm.trans (sleepCurrentTask_same hdd)) ?_ fun t ht => ?_
    · simp [dispatch, sleepCurrentTask]
    · exact (setTask_mem_ne ht).trans (hne t ht)
  | waitPid p =>
    refine .caller (c := c) (hm.trans (waitForPid_same hdd hmo)) ?_ fun t ht => ?_
    · simp only [dispatch, waitForPid]
      split
      · rw [hrun]; decide
      · split
        · rw [hrun]; decide
        · simp
    · simp only [dispatch, waitForPid]
      split
      · exact hne t ht
      · split
        · exact hne t ht
        · exact (setTask_mem_ne ht).trans (hne t ht)
  | nice v =>
    refine .caller (c := c) (hm.trans taskSetNice_same) ?_ fun t ht => ?_
    · simp [dispatch, taskSetNice, hrun]
    · exact (setTask_mem_ne ht).trans (hne t ht)
  | other => exact hself

/-- Every prompt step but the timer's keeps the timestamps. -/
theorem Placed.stamps {op : Op} {r : Sched × Int} (hp : Placed s) (hs : s.Step op r)
    (h : s.Prompt op) (hop : op ≠ .tick) : Stamps s r.1 := by
  cases hs with
  | tick => exact absurd rfl hop
  | entry i =>
    rw [taskContextEnter_eq]
    exact .setCpu (CpuMove.entry (p := s.cpus i)).idleTask
  | @enter i c hr =>
    rw [taskContextEnter_eq, setCpu_setCpu, setCpu_cpus_self]
    exact .setCpu (CpuMove.enter hr.2.2 hr.2.1).idleTask
  | schedule _ => exact schedule_stamps hp h
  | skip _ => exact .setCpu rfl
  | iret _ => exact .setCpu rfl
  | @createTask i entry al hf =>
    rcases createTask_cases (s := s) (i := i) entry al with e | ⟨a, ha, hok, e⟩ <;> rw [e]
    · exact .refl s
    · exact created_stamps hf ha (taskPublish_published rfl)
        (taskPublish_stamp (h.2 hok al rfl))
  | @createTaskOnCpu i entry cpu al hf =>
    rcases createTaskOnCpu_cases (s := s) (i := i) entry cpu al with e | ⟨a, ha, hok, e⟩ <;> rw [e]
    · exact .refl s
    · rw [taskPublish_setCpuId]
      exact created_stamps hf ha (taskPublish_published rfl)
        (taskPublish_stamp (h.2 hok al rfl))
  | @createUserTask i al hf =>
    rcases createUserTask_cases (s := s) (i := i) al hf.space_ne with
      e | ⟨root, _, e⟩ | ⟨a, root, u, ha, _, hok, e, _, _, _, hs, hr⟩ <;> rw [e]
    · exact .refl s
    · exact .of_mem (List.Subset.refl _) rfl (fun _ => rfl) rfl fun _ => .inr (.refl _)
    · exact created_stamps hf ha (placed_published hs)
        (taskPublish_stamp (hr.trans (h.2 hok al rfl)))
  | setCpu pid cpu =>
    unfold taskSetCpu
    split
    · exact .refl s
    · split
      · exact .refl s
      · refine .of_mem (List.Subset.refl _) rfl (fun _ => rfl) rfl fun t => .inr ?_
        rw [setTask_mem]
        split
        · next e => rw [e]; exact .inl ⟨rfl, rfl⟩
        · exact .refl _
  | syscall hr hu hd hf => exact syscall_stamps hp hr hu hd hf h
  | @exit i c hr hu hne => exact exit_stamps hr.2.1 (hu.imp id fun he => ⟨he, hne⟩) h
  | @abort i c hr => exact abort_stamps hr.2.1 h
  | reap => exact reap_stamps hp h
  | @reaperWait i c hr hrt =>
    have hd := hp.reaper_alive c hrt
    refine .caller (c := c) (same_setTask (u := { s.mem c with state := .waiting })
      ⟨rfl, rfl, rfl, fun h => absurd h hd⟩ nofun (.inl ⟨rfl, fun _ => .inr hrt⟩)) ?_
      fun t ht => setTask_mem_ne ht
    rw [setTask_mem_self]
    exact nofun

/-! ## Runs -/

/-- The timestamps and the history agree. -/
structure Aged (x : Watched) : Prop where
  ticks : x.sched.ticks = x.now % 18446744073709551616
  ready : ∀ t, x.sched.IsReady t →
    (x.sched.mem t).readySince = x.since t % 18446744073709551616 ∧ x.since t ≤ x.now ∧
    x.now - x.since t < 18446744073709551616

theorem watchInit_aged (b : Boot) : Aged (watchInit b) where
  ticks := by
    show (taskInit b).ticks = _
    rw [taskInit_eq]
    exact (Nat.mod_eq_of_lt b.ticks_lt).symm
  ready t h := by
    -- nobody is READY at boot
    obtain ⟨_, hr⟩ := h
    exfalso
    by_cases ht : t = b.reaper
    · rw [show (watchInit b).sched = taskInit b from rfl, ht, taskInit_mem_reaper] at hr
      cases hr
    · rw [show (watchInit b).sched = taskInit b from rfl, taskInit_mem_ne ht] at hr
      simp only [bootTable] at hr
      split at hr <;> cases hr

theorem clock_of_ne {op : Op} (h : op ≠ .tick) : clock now op = now := by
  cases op with
  | tick => exact absurd rfl h
  | _ => rfl

theorem Aged.stamps {x : Watched} {op : Op} (h : Aged x) (hs : Stamps x.sched s')
    (hop : op ≠ .tick) : Aged (x.after op s') where
  ticks := by
    show s'.ticks = clock x.now op % _
    rw [hs.ticks, h.ticks, clock_of_ne hop]
  ready t ht := by
    obtain ⟨hu', hr'⟩ := id ht
    show (s'.mem t).readySince = (if s'.IsReady t ∧ ¬ x.sched.IsReady t then clock x.now op
      else x.since t) % _ ∧ (if s'.IsReady t ∧ ¬ x.sched.IsReady t then clock x.now op
      else x.since t) ≤ clock x.now op ∧ clock x.now op -
      (if s'.IsReady t ∧ ¬ x.sched.IsReady t then clock x.now op else x.since t) < _
    rw [clock_of_ne hop]
    by_cases hold : x.sched.IsReady t
    · rw [if_neg (fun h => h.2 hold)]
      obtain ⟨h1, h2⟩ := h.ready t hold
      refine ⟨?_, h2⟩
      rcases hs.ready t ht with ⟨_, ⟨_, hr⟩ | ⟨hn, _⟩⟩ | ⟨hn, _⟩
      · exact hr.trans h1
      · exact absurd hold.2 hn
      · exact absurd hold.1 hn
    · rw [if_pos ⟨ht, hold⟩]
      refine ⟨?_, le_rfl, by omega⟩
      rw [← h.ticks]
      rcases hs.ready t ht with ⟨hu, ⟨hst, _⟩ | ⟨_, _, hr⟩⟩ | ⟨_, hr⟩
      · exact absurd ⟨hu, hst.symm.trans hr'⟩ hold
      · exact hr
      · exact hr

theorem Aged.step {x y : Watched} {op : Op} (hp : Placed x.sched) (h : Aged x)
    (hs : Watch x op y) (hok : x.Timely op) : Aged y := by
  obtain ⟨s', ⟨r, hs⟩, rfl⟩ := hs
  by_cases hop : op = .tick
  · subst hop
    cases hs with
    | tick =>
      have hsame : ∀ t, ({ x.sched with ticks := (x.sched.ticks + 1) % 18446744073709551616 } :
          Sched).IsReady t ↔ x.sched.IsReady t := fun t => Iff.rfl
      refine ⟨?_, fun t ht => ?_⟩
      · show (x.sched.ticks + 1) % _ = (x.now + 1) % _
        rw [h.ticks, Nat.mod_add_mod]
      · obtain ⟨h1, h2, h3⟩ := h.ready t ht
        have hlt := hok.2 rfl t ht
        unfold Watched.after
        dsimp only
        rw [if_neg (fun hn => hn.2 ((hsame t).mp hn.1))]
        exact ⟨h1, h2.trans (Nat.le_succ _), hlt⟩
  · exact h.stamps (hp.stamps hs hok.1 hop) hop

theorem elapsed_mod {n m : Nat} (h : m ≤ n) (hlt : n - m < 18446744073709551616) :
    elapsed (n % 18446744073709551616) (m % 18446744073709551616) = n - m := by
  unfold elapsed
  omega

/-- The timestamps are truthful, and the boost goes to the tasks that have been READY since 500
ticks, also where the scheduler asks, after its first loop and the preemption. -/
structure Truthful (x : Watched) : Prop where
  stamp : ∀ t, x.sched.IsReady t →
    (x.sched.mem t).readySince = x.since t % 18446744073709551616
  boost : ∀ t, x.sched.IsReady t →
    (x.sched.boosted t = true ↔ starvationBoostInterval ≤ x.now - x.since t)
  scan : ∀ i c t, x.sched.Prompt (.schedule i) → (x.sched.scanned i c).IsReady t →
    ((x.sched.scanned i c).boosted t = true ↔
      x.sched.IsReady t ∧ starvationBoostInterval ≤ x.now - x.since t)

theorem Aged.boost {x : Watched} (h : Aged x) {t : Nat} (ht : x.sched.IsReady t) :
    x.sched.boosted t = true ↔ starvationBoostInterval ≤ x.now - x.since t := by
  obtain ⟨h1, h2, h3⟩ := h.ready t ht
  unfold boosted
  rw [h.ticks, h1, elapsed_mod h2 h3, decide_eq_true_iff]

theorem Aged.scan {x : Watched} (h : Aged x) (hp : Placed x.sched)
    (hpr : x.sched.Prompt (.schedule i)) {c t : Nat} (ht : (x.sched.scanned i c).IsReady t) :
    (x.sched.scanned i c).boosted t = true ↔
      x.sched.IsReady t ∧ starvationBoostInterval ≤ x.now - x.since t := by
  have hs : Same x.sched (x.sched.scanned i c) := scanned_same c
  have hu : x.sched.Used t := by
    unfold IsReady Used at ht
    rw [hs.list, hs.cpus, hs.cpuCount] at ht
    exact ht.1
  rcases scanned_wake hpr (fun r e => (hp.reaper r e).1) c t with ⟨hst, hr⟩ | ⟨hn, _, hr⟩
  · have hready : x.sched.IsReady t := ⟨hu, hst.symm.trans ht.2⟩
    rw [and_iff_right hready, ← h.boost hready]
    unfold boosted
    rw [hs.ticks, hr]
  · -- a task that has just become READY
    have h0 : (x.sched.scanned i c).boosted t = false := by
      unfold boosted elapsed
      rw [hs.ticks, hr]
      simp
    rw [h0]
    exact iff_of_false nofun fun hready => hn hready.1.2

/-- **Aging.** In every run in which each waiter that is woken got its timestamp in the tick of its
wake, and each new task in the tick of its publication, the timestamps are truthful. -/
theorem aging_truthful {ops : List Op} {x : Watched}
    (h : Run (Restrict Watch Watched.Timely) (watchInit b) ops x) : Truthful x := by
  obtain ⟨hp, ha⟩ := h.invariant (I := fun x => Placed x.sched ∧ Aged x)
    ⟨taskInit_placed b, watchInit_aged b⟩ fun x op y ⟨hp, ha⟩ ⟨hs, hok⟩ =>
      ⟨by obtain ⟨s', ⟨r, hs⟩, rfl⟩ := hs; exact hp.step hs, ha.step hp hs hok⟩
  exact ⟨fun t ht => (ha.ready t ht).1, fun t ht => ha.boost ht, fun _ _ _ hpr ht =>
    ha.scan hp hpr ht⟩

/-! ## Clock runs -/

/-- Ticks, one after the other. -/
theorem ticks_restrict {ok : Sched → Op → Prop} (h : s.ticks < 18446744073709551616)
    (hok : ∀ n, ok { s with ticks := n } .tick) (n : Nat) :
    Run (Restrict Next ok) s (List.replicate n .tick)
      { s with ticks := (s.ticks + n) % 18446744073709551616 } := by
  induction n with
  | zero =>
    rw [Nat.add_zero, Nat.mod_eq_of_lt h]
    exact .nil
  | succ n ih =>
    rw [List.replicate_succ']
    refine ih.snoc ⟨⟨0, ?_⟩, hok _⟩
    have e := Step.tick (s := { s with ticks := (s.ticks + n) % 18446744073709551616 })
    dsimp only at e
    rwa [Nat.mod_add_mod] at e

theorem ticks_run (h : s.ticks < 18446744073709551616) (n : Nat) :
    Run Next s (List.replicate n .tick)
      { s with ticks := (s.ticks + n) % 18446744073709551616 } :=
  (@ticks_restrict s (fun _ _ => True) h (fun _ => trivial) n).mono fun _ _ _ h => h.1

/-- Every run has its history. -/
theorem watch_run {ops : List Op} (n : Nat) (f : Nat → Nat) (h : Run Next s ops s') :
    ∃ g, Run Watch ⟨s, n, f⟩ ops ⟨s', ops.foldl clock n, g⟩ := by
  induction h with
  | nil => exact ⟨f, .nil⟩
  | @snoc l t u op _ ha ih =>
    obtain ⟨g, hg⟩ := ih
    refine ⟨(Watched.after ⟨t, l.foldl clock n, g⟩ op u).since, ?_⟩
    rw [List.foldl_append]
    exact hg.snoc ⟨u, ha, rfl⟩

theorem foldl_ticks (n : Nat) : (List.replicate n Op.tick).foldl clock now = now + n := by
  induction n generalizing now with
  | zero => rfl
  | succ n ih =>
    rw [List.replicate_succ, List.foldl_cons, ih]
    exact Nat.add_right_comm now 1 n

/-- Ticks with their history, in which nobody becomes READY. -/
theorem ticks_timely (x : Watched) (h : x.sched.ticks < 18446744073709551616) (n : Nat)
    (hlt : x.now + n < 18446744073709551616) :
    Run (Restrict Watch Watched.Timely) x (List.replicate n .tick)
      { x with
        sched := { x.sched with ticks := (x.sched.ticks + n) % 18446744073709551616 }
        now := x.now + n } := by
  induction n with
  | zero =>
    rw [Nat.add_zero, Nat.mod_eq_of_lt h]
    exact .nil
  | succ n ih =>
    rw [List.replicate_succ']
    refine (ih (by omega)).snoc ⟨⟨_, ⟨0, .tick⟩, ?_⟩, ⟨fun _ _ _ h => h.elim, fun h => h.elim⟩,
      fun _ t _ => by dsimp only; omega⟩
    simp only [Watched.after, clock, Nat.mod_add_mod, Nat.add_assoc, Watched.mk.injEq, true_and]
    exact funext fun t => (if_neg fun h => h.2 h.1).symm

/-- Two processors with a process that is READY at once. -/
def smallReady : Watched := (watchInit smallBoot).after (userOp 10 4096)
  ((taskInit smallBoot).createUserTask 0 ⟨some 10, true, some 4096, true, 0⟩).1

/-- After 500 ticks the process has the boost. -/
theorem aging_truthful_small : ∃ x,
    Run (Restrict Watch Watched.Timely) (watchInit smallBoot)
      ([userOp 10 4096] ++ List.replicate 500 .tick) x ∧
    Truthful x ∧ x.sched.IsReady 10 ∧ x.now - x.since 10 = 500 ∧ x.sched.boosted 10 = true := by
  have h₁ : Run (Restrict Watch Watched.Timely) (watchInit smallBoot) [userOp 10 4096] smallReady :=
    .single ⟨⟨_, userOp_next (by decide) (by decide), rfl⟩,
      ⟨fun _ _ _ h => h.elim, fun _ _ e => Option.some.inj e ▸ by decide⟩, nofun⟩
  have h₂ := h₁.append (ticks_timely smallReady (by decide) 500 (by decide))
  exact ⟨_, h₂, aging_truthful h₂, by decide, by decide, by decide⟩

/-! ## Stale timestamps -/

/-- The first process waits for 500 ticks; the exit of the second makes it READY with its old
timestamp, and the scheduler takes it for starved. -/
theorem waiter_stale : ∃ x, Run Watch (watchInit smallBoot)
      (smallWaitOps ++ List.replicate 500 .tick ++ [.exit 1]) x ∧
    x.sched.IsReady 10 ∧ x.since 10 = x.now ∧
    (x.sched.mem 10).readySince ≠ x.since 10 % 18446744073709551616 ∧
    x.sched.boosted 10 = true := by
  have h := smallWait_run.append (ticks_run (s := smallWait) (by decide) 500)
  obtain ⟨g, hg⟩ := watch_run 0 (fun _ => 0) h
  rw [List.foldl_append, foldl_ticks, show smallWaitOps.foldl clock 0 = 0 from rfl] at hg
  generalize hs : ({ smallWait with ticks := (smallWait.ticks + 500) % 18446744073709551616 } :
    Sched) = s at hg
  have hne : ¬ s.IsReady 10 := by rw [← hs]; decide
  have hready : (s.exitCurrentTask 11).IsReady 10 := by rw [← hs]; decide
  have hr : s.Runs 1 11 := by rw [← hs]; exact ⟨by decide, by decide, by decide⟩
  have hstale : ((s.exitCurrentTask 11).mem 10).readySince = 0 ∧
      (s.exitCurrentTask 11).boosted 10 = true := by rw [← hs]; decide
  have hx := hg.snoc (a := .exit 1) ⟨s.exitCurrentTask 11, ⟨0, .exit hr (.inl ?_) ?_⟩, rfl⟩
  · have hsince : (Watched.after ⟨s, 0 + 500, g⟩ (.exit 1) (s.exitCurrentTask 11)).since 10 = 500 :=
      if_pos ⟨hready, hne⟩
    refine ⟨_, hx, hready, hsince, ?_, hstale.2⟩
    rw [hsince]
    exact ne_of_eq_of_ne hstale.1 (by decide)
  · rw [← hs]; decide
  · rw [← hs]; decide

/-- A process is published 500 ticks after its `task_alloc`. -/
theorem published_stale : ∃ x, Run Watch (watchInit smallBoot)
      (List.replicate 500 .tick ++ [.createUserTask 0 ⟨some 10, true, some 4096, true, 500⟩]) x ∧
    x.sched.IsReady 10 ∧ x.since 10 = x.now ∧
    (x.sched.mem 10).readySince ≠ x.since 10 % 18446744073709551616 ∧
    x.sched.boosted 10 = true := by
  obtain ⟨g, hg⟩ := watch_run 0 (fun _ => 0) (ticks_run (s := taskInit smallBoot) (by decide) 500)
  rw [foldl_ticks] at hg
  generalize hs : ({ taskInit smallBoot with
    ticks := ((taskInit smallBoot).ticks + 500) % 18446744073709551616 } : Sched) = s at hg
  have hne : ¬ s.IsReady 10 := by rw [← hs]; decide
  have hf : Alloc.Fresh ⟨some 10, true, some 4096, true, 500⟩ s := by
    rw [← hs]
    exact ⟨fun _ h => Option.some.inj h ▸ by decide, fun _ h => Option.some.inj h ▸ by decide⟩
  generalize hs' : (s.createUserTask 0 ⟨some 10, true, some 4096, true, 500⟩).1 = s'
  have hready : s'.IsReady 10 := by rw [← hs', ← hs]; decide
  have hstale : (s'.mem 10).readySince = 0 ∧ s'.boosted 10 = true := by rw [← hs', ← hs]; decide
  have hx := hg.snoc (a := .createUserTask 0 ⟨some 10, true, some 4096, true, 500⟩)
    ⟨s', ⟨0, hs' ▸ .createUserTask 0 hf⟩, rfl⟩
  have hsince : (Watched.after ⟨s, 0 + 500, g⟩
      (.createUserTask 0 ⟨some 10, true, some 4096, true, 500⟩) s').since 10 = 500 :=
    if_pos ⟨hready, hne⟩
  refine ⟨_, hx, hready, hsince, ?_, hstale.2⟩
  rw [hsince]
  exact ne_of_eq_of_ne hstale.1 (by decide)

/-- A task can become READY with an old timestamp, by a wake and by its publication. -/
theorem aging_stale :
    (∃ x, Run Watch (watchInit smallBoot)
        (smallWaitOps ++ List.replicate 500 .tick ++ [.exit 1]) x ∧
      x.sched.IsReady 10 ∧ x.since 10 = x.now ∧
      (x.sched.mem 10).readySince ≠ x.since 10 % 18446744073709551616 ∧
      x.sched.boosted 10 = true) ∧
    ∃ x, Run Watch (watchInit smallBoot)
        (List.replicate 500 .tick ++ [.createUserTask 0 ⟨some 10, true, some 4096, true, 500⟩]) x ∧
      x.sched.IsReady 10 ∧ x.since 10 = x.now ∧
      (x.sched.mem 10).readySince ≠ x.since 10 % 18446744073709551616 ∧
      x.sched.boosted 10 = true :=
  ⟨waiter_stale, published_stale⟩

end GenOS.Sched
