import GenOS.Kernel.TaskPid
import GenOS.Kernel.TaskSelect

/-!
# Bounded bypass

While a boosted task waits for its CPU, no other task is selected twice there. Whoever is selected
before it ranks as it does and stands before it in the walk, so the walk goes on from there and
meets the waiting task before anybody who has had the CPU already. New tasks come in at the end, and
who leaves changes nothing in the order of the others.
-/

namespace GenOS.Sched

open Machine Circular

variable {b : Boot} {s s' : Sched} {i t x : Nat}

/-- `t` waits for CPU `i` in a state that the step `op` leaves: it is a candidate, the step does not
select it, and a tick does not take its age back to 0. -/
structure Waits (i t : Nat) (s : Sched) (op : Op) : Prop where
  candidate : s.Candidate i t
  passed : op = .schedule i → ¬ s.Selects i t
  clock : op = .tick →
    elapsed ((s.ticks + 1) % 18446744073709551616) (s.mem t).readySince ≠ 0

/-- `t` is boosted, and the walk on CPU `i` meets it before `x`. -/
def Bypassed (s : Sched) (i t x : Nat) : Prop :=
  s.boosted t = true ∧ ∃ c, (s.cpus i).current = some c ∧ Ahead s.list c t x

/-! ## The boost -/

theorem boosted_congr (ht : s'.ticks = s.ticks)
    (hr : (s'.mem t).readySince = (s.mem t).readySince) : s'.boosted t = s.boosted t := by
  unfold boosted
  rw [ht, hr]

theorem elapsed_tick {now since : Nat} (h : starvationBoostInterval ≤ elapsed now since)
    (h0 : elapsed ((now + 1) % 18446744073709551616) since ≠ 0) :
    starvationBoostInterval ≤ elapsed ((now + 1) % 18446744073709551616) since := by
  unfold elapsed at *
  omega

/-- Before the second loop of a pass a waiting task is as it was. -/
theorem Candidate.scanned {c j : Nat} (h : s.Candidate i t) : (s.scanned j c).Candidate i t ∧
    (s.scanned j c).boosted t = s.boosted t := by
  obtain ⟨hl, hr, hc, hp⟩ := h
  have hs : Same s (s.scanned j c) := scanned_same c
  obtain ⟨hr', hsince⟩ := (scanned_waiting (i := j) (c := c) t).ready hr
  refine ⟨⟨hs.list ▸ hl, hr', ?_, ?_⟩, boosted_congr hs.ticks hsince⟩
  · rw [(hs.task t).cpuId, hc]
  · rw [(hs.task t).ident]
    exact hp

/-- The task that is selected on another CPU, or in place of `t`, is not `t`. -/
theorem Selects.ne {j y : Nat} (hp : Placed s) (hr : s.Ranked) (ht : s.Candidate i t)
    (h : s.Selects j y) (hno : j = i → ¬ s.Selects i t) : y ≠ t := by
  rintro rfl
  by_cases hj : j = i
  · exact hno hj (hj ▸ h)
  · obtain ⟨c, idle, _, hi, hpick⟩ := h.picked hp hr
    rcases hpick.candidate with hc | ⟨rfl, _⟩
    · exact hj (hc.2.2.1.symm.trans (ht.scanned (c := c) (j := j)).1.2.2.1)
    · exact ht.2.2.2 (hp.idle j _ hi).2.1

/-- A boosted task that keeps waiting keeps its boost. -/
theorem boosted_step {op : Op} {r : Sched × Int} (hp : Placed s) (hr : s.Ranked)
    (h : s.Step op r) (hw : Waits i t s op) (hb : s.boosted t = true) : r.1.boosted t = true := by
  by_cases hop : op = .tick
  · subst hop
    cases h
    exact decide_eq_true (elapsed_tick (of_decide_eq_true hb) (hw.clock rfl))
  · by_cases hsch : ∃ j, op = .schedule j
    · obtain ⟨j, rfl⟩ := hsch
      cases h
      show (s.schedule j).boosted t = true
      rcases schedule_inv s j with e | ⟨c, _, e⟩ | ⟨c, y, _, hsel, e⟩ <;> rw [e]
      · exact hb
      · have hs : Same s (s.wakeTasks.chargeQuantum j c).1 :=
          wakeTasks_same.trans chargeQuantum_same
        rw [boosted_congr hs.ticks ((charged_waiting t).ready hw.candidate.2.1).2]
        exact hb
      · have hne : t ≠ y := (hsel.ne hp hr hw.candidate fun hj => hw.passed (by rw [hj])).symm
        rw [← (hw.candidate.scanned (c := c) (j := j)).2] at hb
        rw [← hb]
        exact boosted_congr rfl (by rw [switchTo, setCpu_mem, setTask_mem_ne hne])
    · have hq := h.quiet hp hop (not_exists.mp hsch)
      rw [boosted_congr hq.ticks (hq.since t hw.candidate.1)]
      exact hb

/-! ## The order of the walk -/

/-- Who is selected in place of a boosted task stands before it in the walk. -/
theorem Selects.before {y : Nat} (hp : Placed s) (hr : s.Ranked) (ht : s.Candidate i t)
    (hb : s.boosted t = true) (h : s.Selects i y) (hne : y ≠ t) :
    y ∈ s.list ∧ ∃ c, (s.cpus i).current = some c ∧ [y, t].Sublist (order s.list c) := by
  obtain ⟨c, idle, hc, hi, hpick⟩ := h.picked hp hr
  obtain ⟨ht, hbt⟩ := ht.scanned (c := c) (j := i)
  have hs : Same s (s.scanned i c) := scanned_same c
  have h4 : (s.scanned i c).effectivePriority t = 4 := effectivePriority_boosted (hbt.trans hb)
  have hle := hpick.greatest t ht
  have hlt := ((scanned_ranked (i := i) (c := c) hr).effectivePriority y).2
  refine ⟨?_, c, hc, ?_⟩
  · rcases hpick.candidate with hy | ⟨_, hno⟩
    · exact hs.list ▸ hy.1
    · exact absurd ht (hno t)
  · rcases hpick.first t ht (by omega) with e | hbefore
    · exact absurd e.symm hne
    · exact hs.list ▸ hbefore

theorem leave_current {j : Nat} :
    ((s.leave j).cpus i).current = (s.cpus i).current := by
  unfold leave
  by_cases hj : i = j
  · subst hj; rw [setCpu_cpus_self]
  · rw [setCpu_cpus_ne hj]

theorem switchTo_current {j c next : Nat} : ((s.switchTo j c next).cpus i).current =
    if i = j then some next else (s.cpus i).current := by
  by_cases h : i = j
  · subst h
    rw [switchTo, setCpu_cpus_self, if_pos rfl]
  · rw [switchTo, setCpu_cpus_ne h, if_neg h]
    rfl

/-- Who has just been selected comes after everybody else. -/
theorem Bypassed.start {r : Sched × Int} (hp : Placed s) (hr : s.Ranked)
    (hb : s.boosted t = true) (hw : Waits i t s (.schedule i)) (hx : s.Selects i x)
    (h : s.Step (.schedule i) r) : Bypassed r.1 i t x := by
  refine ⟨boosted_step hp hr h hw hb, ?_⟩
  have hne : x ≠ t := fun e => hw.passed rfl (e ▸ hx)
  obtain ⟨hxl, c, hc, _⟩ := hx.before hp hr hw.candidate hb hne
  cases h
  refine ⟨x, ?_, ?_⟩
  · rw [leave_current, hx.schedule hc, switchTo_current, if_pos rfl]
  · show Ahead (s.schedule i).list x t x
    rw [hx.schedule hc]
    show Ahead (s.scanned i c).list x t x
    rw [(scanned_same c).list]
    exact .served hw.candidate.1 hxl hne.symm

theorem Bypassed.step {op : Op} {r : Sched × Int} (hp : Placed s) (hr : s.Ranked)
    (h : Bypassed s i t x) (hs : s.Step op r) (hw : Waits i t s op) (ht : t ∈ r.1.list)
    (hx : x ∈ r.1.list) : Bypassed r.1 i t x := by
  refine ⟨boosted_step hp hr hs hw h.1, ?_⟩
  obtain ⟨hb, c, hc, ha⟩ := h
  by_cases hop : op = .tick
  · subst hop
    cases hs
    exact ⟨c, hc, ha⟩
  · by_cases hsch : ∃ j, op = .schedule j
    · obtain ⟨j, rfl⟩ := hsch
      cases hs
      rw [leave_current]
      show ∃ c, ((s.schedule j).cpus i).current = some c ∧ Ahead (s.schedule j).list c t x
      rcases schedule_inv s j with e | ⟨c', _, e⟩ | ⟨c', y, hc', hsel, e⟩ <;> rw [e]
      · exact ⟨c, hc, ha⟩
      · have hq : Same s (s.wakeTasks.chargeQuantum j c').1 :=
          wakeTasks_same.trans chargeQuantum_same
        rw [hq.list, hq.cpus]
        exact ⟨c, hc, ha⟩
      · have hq : Same s (s.scanned j c') := scanned_same c'
        rw [switchTo_current, hq.cpus]
        show ∃ d, _ ∧ Ahead (s.scanned j c').list d t x
        rw [hq.list]
        split
        · -- the walk goes on behind the task that is selected before `t`
          next hij =>
          subst hij
          have hne : y ≠ t := hsel.ne hp hr hw.candidate fun _ => hw.passed rfl
          obtain ⟨_, d, hd, hbefore⟩ := hsel.before hp hr hw.candidate hb hne
          rw [hc] at hd
          cases hd
          exact ⟨y, rfl, (ha.turn hp.nodup hbefore).1⟩
        · exact ⟨c, hc, ha⟩
    · have hq := hs.quiet hp hop (not_exists.mp hsch)
      refine ⟨c, (hq.current i).trans hc, ?_⟩
      rcases hq.list with ⟨a, e⟩ | hsub
      · exact e ▸ ha.concat a
      · -- a task that a CPU runs stays
        have hcl : c ∈ r.1.list := by
          by_contra hn
          exact ((hp.stepSafe hs).reaped c ha.1 hn i).1 hc
        exact ha.sublist hp.nodup hsub hcl ht hx

theorem Bypassed.not_selected (hp : Placed s) (hr : s.Ranked) (h : Bypassed s i t x)
    (ht : s.Candidate i t) (hne : x ≠ t) : ¬ s.Selects i x := by
  intro hx
  obtain ⟨hb, c, hc, ha⟩ := h
  obtain ⟨_, d, hd, hbefore⟩ := hx.before hp hr ht hb hne
  rw [hc] at hd
  cases hd
  exact (ha.turn hp.nodup hbefore).2 rfl

/-! ## Runs -/

/-- A run during which `t` waits, from a state in which it is boosted. -/
theorem boosted_run {ops : List Op} (h : Reaches b s) (hb : s.boosted t = true)
    (hr : Run (Restrict Next (Waits i t)) s ops s') : Reaches b s' ∧ s'.boosted t = true := by
  refine hr.invariant (I := fun u => Reaches b u ∧ u.boosted t = true) ⟨h, hb⟩ ?_
  rintro u op v ⟨⟨l, hu⟩, hbu⟩ ⟨⟨r, hs⟩, hw⟩
  have hu' : Reaches b u := ⟨l, hu⟩
  exact ⟨⟨_, hu.snoc ⟨r, hs⟩⟩, boosted_step hu'.placed hu'.ranked hs hw hbu⟩

theorem bypassed_run {ops : List Op} (h : Reaches b s) (hb : Bypassed s i t x)
    (hr : Run (Restrict Next fun u op => Waits i t u op ∧ x ∈ u.list) s ops s')
    (ht : t ∈ s'.list) (hx : x ∈ s'.list) : Reaches b s' ∧ Bypassed s' i t x := by
  have hi := hr.invariant
    (I := fun u => Reaches b u ∧ (t ∈ u.list → x ∈ u.list → Bypassed u i t x)) ⟨h, fun _ _ => hb⟩ ?_
  · exact ⟨hi.1, hi.2 ht hx⟩
  · rintro u op v ⟨⟨l, hu⟩, hbu⟩ ⟨⟨r, hs⟩, hw, hxu⟩
    have hu' : Reaches b u := ⟨l, hu⟩
    exact ⟨⟨_, hu.snoc ⟨r, hs⟩⟩, fun ht hx =>
      (hbu hw.candidate.1 hxu).step hu'.placed hu'.ranked hs hw ht hx⟩

/-- No task is selected twice on CPU `i` while a boosted task waits for it: from the moment `s` on
`t` waits, `x` is selected in `s₁`, and is still there in `s₃`. -/
def Fair (i : Nat) (s : Sched) : Prop :=
  ∀ t x s₁ s₂ s₃ l l', s.boosted t = true →
    Run (Restrict Next (Waits i t)) s l s₁ → s₁.Selects i x →
    Restrict Next (Waits i t) s₁ (.schedule i) s₂ →
    Run (Restrict Next fun u op => Waits i t u op ∧ x ∈ u.list) s₂ l' s₃ →
    s₃.Candidate i t → x ∈ s₃.list → ¬ s₃.Selects i x

theorem Reaches.fair (h : Reaches b s) (i : Nat) : Fair i s := by
  rintro t x s₁ s₂ s₃ l l' hb hr₁ hsel ⟨⟨r, hs⟩, hw⟩ hr₂ ht hx
  obtain ⟨h₁, hb₁⟩ := boosted_run h hb hr₁
  have hne : x ≠ t := fun e => hw.passed rfl (e ▸ hsel)
  have hby : Bypassed s₂ i t x := .start h₁.placed h₁.ranked hb₁ hw hsel hs
  have h₂ : Reaches b s₂ := by
    obtain ⟨ops, h₁⟩ := h₁
    exact ⟨_, h₁.snoc ⟨r, hs⟩⟩
  obtain ⟨h₃, hby₃⟩ := bypassed_run h₂ hby hr₂ ht.1 hx
  exact hby₃.not_selected h₃.placed h₃.ranked ht hne

/-- **Selection and bounded bypass.** In every state that a run from boot reaches, a pass of the
scheduler that selects a task selects, for its CPU, the first candidate of greatest effective
priority after the current task, and the idle task only if there is none; and from the moment a
candidate is boosted no other task is selected twice before it, whatever happens in between. -/
theorem selection_fair (h : Reaches b s) (i : Nat) :
    (∀ x, s.Selects i x → ((s.schedule i).cpus i).current = some x ∧
      ∃ c idle, (s.cpus i).current = some c ∧ (s.cpus i).idleTask = some idle ∧
        (s.scanned i c).Picked i c idle x) ∧ Fair i s := by
  refine ⟨fun x hx => ?_, h.fair i⟩
  obtain ⟨c, idle, hc, hi, hpick⟩ := hx.picked h.placed h.ranked
  refine ⟨?_, c, idle, hc, hi, hpick⟩
  rw [hx.schedule hc, switchTo_current, if_pos rfl]

/-- `n` ticks later. -/
def later (s : Sched) (n : Nat) : Sched :=
  { s with ticks := (s.ticks + n) % 18446744073709551616 }

theorem later_run {ok : Sched → Op → Prop} (h : s.ticks < 18446744073709551616)
    (hok : ∀ n, ok { s with ticks := n } .tick) (n : Nat) :
    Run (Restrict Next ok) s (List.replicate n .tick) (s.later n) := ticks_restrict h hok n

/-- CPU `i` takes an interrupt. -/
def entered (s : Sched) (i : Nat) : Sched :=
  (s.taskContextEnter i).setCpu i { (s.taskContextEnter i).cpus i with phase := .entered }

/-- CPU `i` returns from an interrupt. -/
def returned (s : Sched) (i : Nat) : Sched :=
  s.setCpu i { s.cpus i with stack := (s.cpus i).current, phase := .exec }

/-- Two processes, the first of priority 3, that have been READY for 500 ticks. -/
def pair : Sched :=
  let s := ((taskInit oneBoot).createUserTask 0 ⟨some 2, true, some 4096, true, 0⟩).1
  ((s.createUserTask 0 ⟨some 3, true, some 8192, true, 0⟩).1).later 500

theorem pair_reaches : Reaches oneBoot pair := by
  have h₁ : Run Next (taskInit oneBoot) [userOp 2 4096] _ :=
    .single (userOp_next (by decide) (by decide))
  have h₂ := h₁.snoc (@userOp_next _ 3 8192 (by decide) (by decide))
  exact ⟨_, h₂.append (ticks_run (by decide) 500)⟩

/-- The first of the two gets the CPU, and not once more before the second. -/
theorem selection_fair_pair :
    (pair.entered 0).Selects 0 2 ∧
    (((pair.entered 0).schedule 0).cpus 0).current = some 2 ∧
    (∃ c idle, ((pair.entered 0).cpus 0).current = some c ∧
      ((pair.entered 0).cpus 0).idleTask = some idle ∧
      ((pair.entered 0).scanned 0 c).Picked 0 c idle 2) ∧
    ¬ ((((pair.entered 0).schedule 0).leave 0).returned 0).Selects 0 2 := by
  have hr : Reaches oneBoot (pair.entered 0) := by
    obtain ⟨l, h⟩ := pair_reaches
    exact ⟨_, h.snoc ⟨0, .enter (i := 0) (c := 0) ⟨by decide, by decide, by decide⟩⟩⟩
  have hsel : (pair.entered 0).Selects 0 2 := ⟨0, 0, by decide, by decide, by decide, by decide⟩
  have hno : ¬ (pair.entered 0).Selects 0 3 := fun h => absurd (hsel.unique h) (by decide)
  have hs : Restrict Next (Waits 0 3) (pair.entered 0) (.schedule 0)
      (((pair.entered 0).schedule 0).leave 0) :=
    ⟨⟨0, .schedule (by decide)⟩, ⟨by decide, by decide, by decide, by decide⟩, fun _ => hno, nofun⟩
  have hw : Restrict Next (fun u op => Waits 0 3 u op ∧ 2 ∈ u.list)
      (((pair.entered 0).schedule 0).leave 0) (.iret 0)
      ((((pair.entered 0).schedule 0).leave 0).returned 0) :=
    ⟨⟨0, .iret (by decide)⟩, ⟨⟨by decide, by decide, by decide, by decide⟩, nofun, nofun⟩,
      by decide⟩
  exact ⟨hsel, ((selection_fair hr 0).1 2 hsel).1, ((selection_fair hr 0).1 2 hsel).2,
    (selection_fair hr 0).2 3 2 _ _ _ [] [.iret 0] (by decide) .nil hsel hs (.single hw)
      ⟨by decide, by decide, by decide, by decide⟩ (by decide)⟩

/-! ## What a selection does not promise -/

/-- The step leaves `t` on the list and on CPU `i`, and does not select it. -/
def PassesOver (i t : Nat) (s : Sched) (op : Op) : Prop :=
  (t ∈ s.list ∧ (s.mem t).cpuId = i) ∧ (op = .schedule i → ¬ s.Selects i t)

/-- From `s` on `x` is selected twice on CPU `i`, and `t`, which keeps its CPU, is not. -/
def Twice (i t x : Nat) (s : Sched) : Prop :=
  ∃ s₁ s₂ s₃ l l', Run (Restrict Next (PassesOver i t)) s l s₁ ∧ s₁.Selects i x ∧
    Restrict Next (PassesOver i t) s₁ (.schedule i) s₂ ∧
    Run (Restrict Next (PassesOver i t)) s₂ l' s₃ ∧ s₃.Selects i x

/-- One processor, on which `next_pid` has wrapped: the worker 2 has the last identifier and task 3,
which is READY, has the identifier 0. -/
structure Wrapped (p : Cpu) (boot st : TaskState) (s : Sched) : Prop where
  list : s.list = [0, 1, 2, 3]
  cpu : s.cpus 0 = p
  cpuCount : s.cpuCount = 1
  reaperTask : s.reaperTask = some 1
  boot : (s.mem 0).pid = 0 ∧ (s.mem 0).state = boot ∧ (s.mem 0).pml4 = 0
  reaper : (s.mem 1).state = .waiting ∧ (s.mem 1).waitTargetPid = 0
  worker : (s.mem 2).toIdent = { pid := 4294967295, tgid := 4294967295, entryPoint := 4096 } ∧
    (s.mem 2).state = st ∧ (s.mem 2).cpuId = 0 ∧ (s.mem 2).priority = 2
  zero : (s.mem 3).pid = 0 ∧ (s.mem 3).state = .ready ∧ (s.mem 3).cpuId = 0

theorem Wrapped.setCpu {p q : Cpu} {boot st : TaskState} (h : Wrapped p boot st s) :
    Wrapped q boot st (s.setCpu 0 q) :=
  { h with cpu := setCpu_cpus_self }

/-- The idle processor picks the worker. -/
theorem Wrapped.start (h : Wrapped { idleCpu 0 with phase := .entered } .running .ready s) :
    Wrapped { workerCpu .entered with stack := some 0 } .ready .running (s.schedule 0) := by
  obtain ⟨hb1, hb2, hb3⟩ := h.boot
  obtain ⟨hr1, hr2⟩ := h.reaper
  obtain ⟨hw1, hw2, hw3, hw4⟩ := h.worker
  obtain ⟨hz1, hz2, hz3⟩ := h.zero
  have hcpu := h.cpu
  have hw5 : (s.mem 2).pid = 4294967295 := by rw [hw1]
  have hw6 : (s.mem 2).pml4 = 0 := by rw [hw1]
  have hw : s.wakeTasks = s := wakeTasks_eq (by simp [h.list, hb2, hr1, hw2, hz2])
    (by simp [h.list, hb2, hr1, hw2, hz2])
  have hpick : ∀ s₁ : Sched, s₁.list = [0, 1, 2, 3] → s₁.cpus 0 = s.cpus 0 →
      (s₁.mem 1).state = .waiting → s₁.mem 2 = s.mem 2 → (s₁.mem 3).pid = 0 →
      s₁.pickBest 0 0 = some 2 := by
    intro s₁ h1 h2 h3 h4 h5
    have e2 : s₁.effectivePriority 2 > -1 := effectivePriority_pos (by rw [h4, hw4])
    have e3 : s₁.eligible 0 2 = true := by simp [eligible, h2, hcpu, idleCpu, h4, hw5, hw3, hw2]
    have e4 : s₁.eligible 0 1 = false := by simp [eligible, h3]
    have e5 : s₁.eligible 0 0 = false := by simp [eligible, h2, hcpu, idleCpu]
    have e6 : s₁.eligible 0 3 = false := by simp [eligible, h5]
    simp [pickBest, scanOrder, h1, pickBetter, e2, e3, e4, e5, e6]
  unfold schedule
  rw [h.cpu]
  simp only [idleCpu]
  rw [hw]
  simp only [chargeQuantum, h.cpu, idleCpu, ne_eq, not_true_eq_false, false_and, ↓reduceIte]
  rw [hpick _ ?_ ?_ ?_ ?_ ?_]
  · constructor
    · simp [switchTo, preempt, h.list, hb2]
    · simp [switchTo, preempt, h.cpu, hb2, hb1, hw6, idleCpu, workerCpu]
    · simp [switchTo, preempt, h.cpuCount, hb2]
    · simp [switchTo, preempt, h.reaperTask, hb2]
    · simp [switchTo, preempt, hb1, hb2, hb3]
    · simp [switchTo, preempt, hr1, hr2, hb2]
    · simp [switchTo, preempt, hw1, hw3, hw4, hb2]
    · simp [switchTo, preempt, hz1, hz2, hz3, hb2]
  all_goals simp [preempt, h.list, hb2, hr1, hz1]

theorem Wrapped.exit (h : Wrapped p .ready .running s) :
    Wrapped p .ready .dead (s.exitCurrentTask 2) := by
  obtain ⟨hb1, hb2, hb3⟩ := h.boot
  obtain ⟨hr1, hr2⟩ := h.reaper
  obtain ⟨hw1, hw2, hw3, hw4⟩ := h.worker
  obtain ⟨hz1, hz2, hz3⟩ := h.zero
  have hw5 : (s.mem 2).pid = 4294967295 := by rw [hw1]
  exact
    { list := h.list
      cpu := h.cpu
      cpuCount := h.cpuCount
      reaperTask := h.reaperTask
      boot := by simp [exitCurrentTask, forTasks_mem, h.list, wakeWaiter, hb1, hb2, hb3]
      reaper := by simp [exitCurrentTask, forTasks_mem, h.list, wakeWaiter, hr1, hr2, hw5]
      worker := by simp [exitCurrentTask, forTasks_mem, h.list, wakeWaiter, hw1, hw3, hw4]
      zero := by simp [exitCurrentTask, forTasks_mem, h.list, wakeWaiter, hz1, hz2, hz3] }

/-- The dead worker leaves the processor to the idle task, although task 3 is READY. -/
theorem Wrapped.selects_idle (h : Wrapped (workerCpu .entered) .ready .dead s) :
    s.Selects 0 0 := by
  obtain ⟨hb1, hb2, hb3⟩ := h.boot
  obtain ⟨hr1, hr2⟩ := h.reaper
  obtain ⟨hw1, hw2, hw3, hw4⟩ := h.worker
  obtain ⟨hz1, hz2, hz3⟩ := h.zero
  have hcpu := h.cpu
  have hw5 : (s.mem 2).pid = 4294967295 := by rw [hw1]
  have ha : s.taskActive 2 = true :=
    taskActive_iff.mpr ⟨0, by simp [h.cpuCount], .inl (by rw [h.cpu]; rfl)⟩
  have hw : s.wakeTasks = s := wakeTasks_eq (by simp [h.list, hb2, hr1, hw2, hz2])
    (by simp [h.list, hb2, hr1, hw2, hz2, ha])
  refine ⟨2, 0, by rw [h.cpu]; rfl, by rw [h.cpu]; rfl, ?_, ?_⟩
  · rw [hw]
    simp [chargeQuantum, hw2]
  · have e2 : (s.scanned 0 2).eligible 0 2 = false := by
      simp [scanned, hw, chargeQuantum, preempt, eligible, hw2]
    have e1 : (s.scanned 0 2).eligible 0 1 = false := by
      simp [scanned, hw, chargeQuantum, preempt, eligible, hw2, hr1]
    have e0 : (s.scanned 0 2).eligible 0 0 = false := by
      simp [scanned, hw, chargeQuantum, preempt, eligible, hw2, hb1]
    have e3 : (s.scanned 0 2).eligible 0 3 = false := by
      simp [scanned, hw, chargeQuantum, preempt, eligible, hw2, hz1]
    have hl : (s.scanned 0 2).list = [0, 1, 2, 3] := (scanned_same 2).list.trans h.list
    simp [pickBest, scanOrder, hl, pickBetter, e0, e1, e2, e3]

/-- With the last identifier to hand out, two tasks are created; the second gets the identifier
0. -/
theorem Resting.wrapped (h : Resting 4294967295 s) :
    ∃ s', Run Next s [createOp 2, createOp 3] s' ∧ Wrapped (idleCpu 0) .running .ready s' := by
  have h₁ : Run Next s [createOp 2] _ := .single (createOp_next (a := 2) (by simp [h.list])
    (by simp [h.cpu, idleCpu]) h.cpuCount (by simp [h.list]))
  generalize hs₁ :
    s.taskPublish 2 { taskAlloc 0 (elapsed s.ticks 0) with entryPoint := 4096 } = s₁ at h₁
  have hl : s₁.list = [0, 1, 2] := by rw [← hs₁, taskPublish_list, h.list]; rfl
  have hc : s₁.cpus 0 = idleCpu 0 := by rw [← hs₁]; exact h.cpu
  have hn : s₁.nextPid = 0 := by
    rw [← hs₁]
    show (s.nextPid + 1) % 4294967296 = 0
    rw [h.nextPid]
  have hw : (s₁.mem 2).toIdent = { pid := 4294967295, tgid := 4294967295, entryPoint := 4096 } ∧
      (s₁.mem 2).state = .ready ∧ (s₁.mem 2).cpuId = 0 ∧ (s₁.mem 2).priority = 2 := by
    rw [← hs₁]
    simp [taskAlloc, taskInitPriority, h.nextPid]
  have hm : s₁.mem 0 = s.mem 0 ∧ s₁.mem 1 = s.mem 1 := by
    rw [← hs₁]
    simp
  have h₂ := h₁.snoc (createOp_next (a := 3) (by simp [hl]) (by simp [hc, idleCpu])
    (by rw [← hs₁]; exact h.cpuCount) (by simp [hl]))
  refine ⟨_, h₂, ?_⟩
  constructor
  · rw [taskPublish_list, hl]; rfl
  · exact hc
  · rw [← hs₁]; exact h.cpuCount
  · rw [← hs₁]; exact h.reaperTask
  · simpa [hm.1] using h.boot
  · simpa [hm.2] using ⟨h.reaper.2.1, h.reaper.2.2.1⟩
  · simpa using hw
  · simp [taskAlloc, taskInitPriority, hn]

/-- A READY task whose identifier is 0 is left for the idle task. -/
theorem idle_selected : ∃ s, Reaches oneBoot s ∧ (s.cpus 0).idleTask = some 0 ∧ s.Selects 0 0 ∧
    3 ∈ s.list ∧ (s.mem 3).state = .ready ∧ (s.mem 3).cpuId = 0 := by
  obtain ⟨s, h, hr⟩ := taskInit_resting.rounds 4294967293 (by decide)
  obtain ⟨s₁, h₁, hs₁⟩ := hr.wrapped
  have hs₂ := (hs₁.setCpu (q := { idleCpu 0 with phase := .entered })).start
  have hs₃ := (hs₂.setCpu (q := workerCpu .exec)).exit
  have hs₄ := hs₃.setCpu (q := workerCpu .entered)
  have r₁ := (h.append h₁).snoc (enter_next (q := { idleCpu 0 with phase := .entered })
    hs₁.cpuCount hs₁.cpu rfl rfl rfl rfl)
  have r₂ := r₁.append (pass_run (q := workerCpu .exec) (by rw [setCpu_cpus_self]) hs₂.cpu rfl)
  have r₃ := r₂.snoc ⟨0, .exit (i := 0) (c := 2)
    ⟨by rw [setCpu_cpuCount, hs₂.cpuCount]; decide, by rw [setCpu_cpus_self]; rfl,
      by rw [setCpu_cpus_self]; rfl⟩
    (.inr (by rw [setCpu_mem, hs₂.worker.1]; exact Nat.succ_ne_zero _))
    (by rw [setCpu_reaperTask, hs₂.reaperTask]; decide)⟩
  have r₄ := r₃.snoc (enter_next (q := workerCpu .entered) hs₃.cpuCount hs₃.cpu rfl rfl rfl rfl)
  exact ⟨_, ⟨_, r₄⟩, by rw [hs₄.cpu]; rfl, hs₄.selects_idle, by rw [hs₄.list]; decide,
    hs₄.zero.2.1, hs₄.zero.2.2⟩

/-- A process on the CPU whose second thread has been READY for 500 ticks. -/
def group : Sched :=
  let s := (((taskInit oneBoot).createUserTask 0 ⟨some 2, true, some 4096, true, 0⟩).1).interrupt 0
  (((s.taskMarkRunning 2).taskClone 0 4096 8192 ⟨some 3, true, none, true, 0⟩).1).later 500

theorem group_reaches : Reaches oneBoot group := by
  have h₁ : Run Next (taskInit oneBoot) [userOp 2 4096] _ :=
    .single (userOp_next (by decide) (by decide))
  have h₂ := h₁.append (interrupt_run (i := 0) (c := 0) ⟨by decide, by decide, by decide⟩)
  have h₃ := h₂.snoc ⟨_, @Step.syscall _ 0 2 (.clone 4096 8192 ⟨some 3, true, none, true, 0⟩)
    ⟨by decide, by decide, by decide⟩ (by decide) (by decide)
    ⟨fun _ h => Option.some.inj h ▸ by decide, nofun⟩⟩
  exact ⟨_, h₃.append (ticks_run (by decide) 500)⟩

/-- The process aborts. The reaper, which has to wait for the CPU to leave it, is selected over and
over, and the boosted thread is dead. -/
theorem group_twice : Twice 0 3 1 group := by
  have hop : ∀ {u : Sched} {op : Op}, (3 ∈ u.list ∧ (u.mem 3).cpuId = 0) → op ≠ .schedule 0 →
      PassesOver 0 3 u op := fun h hne => ⟨h, fun e => absurd e hne⟩
  have r₁ : Run (Restrict Next (PassesOver 0 3)) group [.abort 0] (group.taskAbortCurrentGroup 2) :=
    .single ⟨⟨0, .abort ⟨by decide, by decide, by decide⟩⟩, hop (by decide) nofun⟩
  have r₂ := r₁.snoc ⟨⟨0, .enter (i := 0) (c := 2) ⟨by decide, by decide, by decide⟩⟩,
    hop (by decide) nofun⟩
  have hsel : ((group.taskAbortCurrentGroup 2).entered 0).Selects 0 1 :=
    ⟨2, 0, by decide, by decide, by decide, by decide⟩
  have r₃ : Run (Restrict Next (PassesOver 0 3))
      ((((group.taskAbortCurrentGroup 2).entered 0).schedule 0).leave 0) [.iret 0]
      (((((group.taskAbortCurrentGroup 2).entered 0).schedule 0).leave 0).returned 0) :=
    .single ⟨⟨0, .iret (by decide)⟩, hop (by decide) nofun⟩
  have r₄ := r₃.snoc ⟨⟨0, .reaperWait (i := 0) (c := 1) ⟨by decide, by decide, by decide⟩
    (by decide)⟩, hop (by decide) nofun⟩
  have r₅ := r₄.snoc ⟨⟨0, .enter (i := 0) (c := 1) ⟨by decide, by decide, by decide⟩⟩,
    hop (by decide) nofun⟩
  exact ⟨_, _, _, _, _, r₂, hsel,
    ⟨⟨0, .schedule (by decide)⟩, by decide, fun _ h => absurd (hsel.unique h) (by decide)⟩, r₅,
    ⟨1, 0, by decide, by decide, by decide, by decide⟩⟩

/-- After 2^64 ticks the second process is not boosted any more, and the first has the greater
priority. -/
theorem pair_twice : Twice 0 3 2 pair := by
  have hop : ∀ {u : Sched} {op : Op}, (3 ∈ u.list ∧ (u.mem 3).cpuId = 0) → op ≠ .schedule 0 →
      PassesOver 0 3 u op := fun h hne => ⟨h, fun e => absurd e hne⟩
  have hpair : 3 ∈ pair.list ∧ (pair.mem 3).cpuId = 0 := by decide
  have r₁ := @later_run pair (PassesOver 0 3) (by decide) (fun _ => hop hpair nofun)
    18446744073709551116
  have r₂ := r₁.snoc ⟨⟨0, .enter (i := 0) (c := 0) ⟨by decide, by decide, by decide⟩⟩,
    hop (by decide) nofun⟩
  have hsel : ((pair.later 18446744073709551116).entered 0).Selects 0 2 :=
    ⟨0, 0, by decide, by decide, by decide, by decide⟩
  have r₃ : Run (Restrict Next (PassesOver 0 3))
      ((((pair.later 18446744073709551116).entered 0).schedule 0).leave 0) [.iret 0]
      (((((pair.later 18446744073709551116).entered 0).schedule 0).leave 0).returned 0) :=
    .single ⟨⟨0, .iret (by decide)⟩, hop (by decide) nofun⟩
  -- the first process gives the CPU up for no time at all
  have r₄ := r₃.snoc ⟨⟨_, @Step.syscall _ 0 2 (.sleep 0) ⟨by decide, by decide, by decide⟩
    (by decide) (by decide) trivial⟩, hop (by decide) nofun⟩
  have r₅ := r₄.snoc ⟨⟨0, .enter (i := 0) (c := 2) ⟨by decide, by decide, by decide⟩⟩,
    hop (by decide) nofun⟩
  exact ⟨_, _, _, _, _, r₂, hsel,
    ⟨⟨0, .schedule (by decide)⟩, by decide, fun _ h => absurd (hsel.unique h) (by decide)⟩, r₅,
    ⟨2, 0, by decide, by decide, by decide, by decide⟩⟩

/-- Without its conditions the result fails: a READY task with the identifier 0 is left for the idle
task, and a boosted task is passed over twice once it has been killed, and once its age has
wrapped. -/
theorem selection_limits :
    (∃ s, Reaches oneBoot s ∧ (s.cpus 0).idleTask = some 0 ∧ s.Selects 0 0 ∧
      3 ∈ s.list ∧ (s.mem 3).state = .ready ∧ (s.mem 3).cpuId = 0) ∧
    (∃ s, Reaches oneBoot s ∧ s.Candidate 0 3 ∧ s.boosted 3 = true ∧ Twice 0 3 1 s) ∧
    ∃ s, Reaches oneBoot s ∧ s.Candidate 0 3 ∧ s.boosted 3 = true ∧ Twice 0 3 2 s :=
  ⟨idle_selected,
    ⟨group, group_reaches, ⟨by decide, by decide, by decide, by decide⟩, by decide, group_twice⟩,
    ⟨pair, pair_reaches, ⟨by decide, by decide, by decide, by decide⟩, by decide, pair_twice⟩⟩

end GenOS.Sched
