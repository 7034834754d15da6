import GenOS.Kernel.TaskEffect

/-!
# Tasks and CPUs

The invariant `Placed` ties every CPU to the tasks it uses: its current task is its idle task or a
listed task pinned to it, and what it may still execute on is its current task, the task in its
retiring slot, or its idle task. The scheduler, the reaper and the dying of tasks are safe because
every step preserves it.
-/

namespace GenOS.Sched

open Machine

variable {b : Boot} {s s' : Sched} {i : Nat}

/-- The tasks that the CPUs use. -/
structure Placed (s : Sched) : Prop where
  nodup : s.list.Nodup
  /-- Idle tasks name no process, and do not die. -/
  idle : ∀ i d, (s.cpus i).idleTask = some d → i < s.cpuCount ∧ (s.mem d).pid = 0 ∧
    (s.mem d).pml4 = 0 ∧ (s.mem d).entryPoint = 0 ∧ (s.mem d).state ≠ .dead
  idle_inj : ∀ i j d, (s.cpus i).idleTask = some d → (s.cpus j).idleTask = some d → i = j
  cur : ∀ i c, (s.cpus i).current = some c → (s.cpus i).idleTask = some c ∨
    c ∈ s.list ∧ (s.mem c).pid ≠ 0 ∧ (s.mem c).cpuId = i
  cur_idle : ∀ i c, (s.cpus i).current = some c → (s.cpus i).idleTask ≠ none
  retire : ∀ i r, (s.cpus i).retiring = some r →
    i < s.cpuCount ∧ r ∈ s.list ∧ (s.mem r).pid ≠ 0 ∧ (s.cpus i).current ≠ some r
  stack : ∀ i, (s.cpus i).stack = (s.cpus i).current ∨ (s.cpus i).stack = (s.cpus i).retiring ∨
    (s.cpus i).stack = (s.cpus i).idleTask
  exec : ∀ i, (s.cpus i).phase ≠ .leaving → (s.cpus i).stack = (s.cpus i).current
  /-- The slot is free when the scheduler runs. -/
  entered : ∀ i, (s.cpus i).phase = .entered → (s.cpus i).retiring = none
  reaper : ∀ r, s.reaperTask = some r →
    r ∈ s.list ∧ (s.mem r).pml4 = 0 ∧ (s.mem r).state ≠ .dead

theorem Placed.lt (h : Placed s) {c : Nat} (hc : (s.cpus i).current = some c) :
    i < s.cpuCount := by
  obtain ⟨d, hd⟩ := Option.ne_none_iff_exists'.mp (h.cur_idle i c hc)
  exact (h.idle i d hd).1

theorem Placed.active (h : Placed s) {t : Nat}
    (ht : (s.cpus i).current = some t ∨ (s.cpus i).retiring = some t) : s.taskActive t = true := by
  apply taskActive_iff.mpr
  rcases ht with hc | hr
  · exact ⟨i, h.lt hc, .inl hc⟩
  · exact ⟨i, (h.retire i t hr).1, .inr hr⟩

/-! ## Steps that do not move a CPU -/

theorem Placed.same (h : Placed s) (hs : Same s s') : Placed s' where
  nodup := by rw [hs.list]; exact h.nodup
  idle i d hd := by
    rw [hs.cpus] at hd
    obtain ⟨h1, h2, h3, h4, h5⟩ := h.idle i d hd
    rw [hs.cpuCount, (hs.task d).ident]
    refine ⟨h1, h2, h3, h4, fun hdead => ?_⟩
    rcases hs.kills d hdead with hdead | hm | hm
    · exact h5 hdead
    · exact hm h3
    · exact hm.1 h4
  idle_inj := by rw [hs.cpus]; exact h.idle_inj
  cur i c hc := by
    rw [hs.cpus] at hc ⊢
    rw [hs.list, (hs.task c).ident, (hs.task c).cpuId]
    exact h.cur i c hc
  cur_idle := by rw [hs.cpus]; exact h.cur_idle
  retire i r hr := by
    rw [hs.cpus] at hr ⊢
    rw [hs.list, hs.cpuCount, (hs.task r).ident]
    exact h.retire i r hr
  stack := by rw [hs.cpus]; exact h.stack
  exec := by rw [hs.cpus]; exact h.exec
  entered := by rw [hs.cpus]; exact h.entered
  reaper r hr := by
    rw [hs.reaperTask] at hr
    obtain ⟨h1, h2, h3⟩ := h.reaper r hr
    rw [hs.list, (hs.task r).ident]
    refine ⟨h1, h2, fun hdead => ?_⟩
    rcases hs.kills r hdead with hdead | hm | hm
    · exact h3 hdead
    · exact hm h2
    · exact hm.2 hr

theorem Placed.published (h : Placed s) {a : Nat} (hf : a ∉ s.list)
    (hi : ∀ i < s.cpuCount, (s.cpus i).idleTask ≠ some a) (hp : Published s s' a) :
    Placed s' where
  nodup := by
    rw [hp.list]
    exact List.nodup_append.mpr ⟨h.nodup, List.nodup_singleton a, by grind⟩
  idle i d hd := by
    rw [hp.cpus] at hd
    have hne : d ≠ a := fun e => hi i (h.idle i d hd).1 (e ▸ hd)
    obtain ⟨n, e⟩ := hp.others d hne
    rw [hp.cpuCount, e]
    exact h.idle i d hd
  idle_inj := by rw [hp.cpus]; exact h.idle_inj
  cur i c hc := by
    rw [hp.cpus] at hc ⊢
    rw [hp.list]
    rcases h.cur i c hc with h1 | ⟨h1, h2, h3⟩
    · exact .inl h1
    · obtain ⟨n, e⟩ := hp.others c (fun e => hf (e ▸ h1))
      rw [e]
      exact .inr ⟨List.mem_append_left _ h1, h2, h3⟩
  cur_idle := by rw [hp.cpus]; exact h.cur_idle
  retire i r hr := by
    rw [hp.cpus] at hr ⊢
    obtain ⟨h0, h1, h2, h3⟩ := h.retire i r hr
    obtain ⟨n, e⟩ := hp.others r (fun e => hf (e ▸ h1))
    rw [hp.list, hp.cpuCount, e]
    exact ⟨h0, List.mem_append_left _ h1, h2, h3⟩
  stack := by rw [hp.cpus]; exact h.stack
  exec := by rw [hp.cpus]; exact h.exec
  entered := by rw [hp.cpus]; exact h.entered
  reaper r hr := by
    rw [hp.reaperTask] at hr
    obtain ⟨h1, h2, h3⟩ := h.reaper r hr
    obtain ⟨n, e⟩ := hp.others r (fun e => hf (e ▸ h1))
    rw [hp.list, e]
    exact ⟨List.mem_append_left _ h1, h2, h3⟩

/-- Moving an inactive task to another CPU. -/
theorem Placed.setCpuId (h : Placed s) {t cpu : Nat} (ha : s.taskActive t = false) :
    Placed (s.setTask t { s.mem t with cpuId := cpu }) where
  nodup := h.nodup
  idle i d hd := by
    rw [setTask_mem]
    split
    · next e => subst e; exact h.idle i d hd
    · exact h.idle i d hd
  idle_inj := h.idle_inj
  cur i c hc := by
    have hne : c ≠ t := fun e => by
      rw [h.active (.inl (e ▸ hc))] at ha
      cases ha
    rw [setTask_mem_ne hne]
    exact h.cur i c hc
  cur_idle := h.cur_idle
  retire i r hr := by
    have hne : r ≠ t := fun e => by
      rw [h.active (.inr (e ▸ hr))] at ha
      cases ha
    rw [setTask_mem_ne hne]
    exact h.retire i r hr
  stack := h.stack
  exec := h.exec
  entered := h.entered
  reaper r hr := by
    rw [setTask_mem]
    split
    · next e => subst e; exact h.reaper r hr
    · exact h.reaper r hr

/-- Removing a dead task that no CPU uses. -/
theorem Placed.removed (h : Placed s) {t : Nat} (hd : (s.mem t).state = .dead)
    (ha : s.taskActive t = false) (hr : Removed s s' t) : Placed s' where
  nodup := by rw [hr.list]; exact h.nodup.erase t
  idle i d hi := by
    rw [hr.cpus] at hi
    rw [hr.cpuCount, hr.ident, ne_eq, hr.dead_iff]
    exact h.idle i d hi
  idle_inj := by rw [hr.cpus]; exact h.idle_inj
  cur i c hc := by
    rw [hr.cpus] at hc ⊢
    have hne : c ≠ t := fun e => by
      rw [h.active (.inl (e ▸ hc))] at ha
      cases ha
    rw [hr.list, hr.ident, hr.cpuId, List.mem_erase_of_ne hne]
    exact h.cur i c hc
  cur_idle := by rw [hr.cpus]; exact h.cur_idle
  retire i r hret := by
    rw [hr.cpus] at hret ⊢
    have hne : r ≠ t := fun e => by
      rw [h.active (.inr (e ▸ hret))] at ha
      cases ha
    rw [hr.list, hr.cpuCount, hr.ident, List.mem_erase_of_ne hne]
    exact h.retire i r hret
  stack := by rw [hr.cpus]; exact h.stack
  exec := by rw [hr.cpus]; exact h.exec
  entered := by rw [hr.cpus]; exact h.entered
  reaper r hrt := by
    rw [hr.reaperTask] at hrt
    obtain ⟨h1, h2, h3⟩ := h.reaper r hrt
    have hne : r ≠ t := fun e => h3 (e ▸ hd)
    rw [hr.list, hr.ident, ne_eq, hr.dead_iff, List.mem_erase_of_ne hne]
    exact ⟨h1, h2, h3⟩

theorem Placed.reapOne (h : Placed s) (t : Nat) : Placed (s.reapOne t) := by
  rcases reapOne_cases s t with ⟨hs, _⟩ | ⟨hd, ha, _, _, e⟩
  · exact h.same hs
  · rw [e]
    exact h.removed hd ha removeTask_removed

/-! ## Steps of one CPU -/

/-- The tasks a CPU uses, as the invariant has them. -/
structure CpuOk (s : Sched) (i : Nat) (p : Cpu) : Prop where
  idleTask : p.idleTask = (s.cpus i).idleTask
  cur : ∀ c, p.current = some c → p.idleTask = some c ∨
    c ∈ s.list ∧ (s.mem c).pid ≠ 0 ∧ (s.mem c).cpuId = i
  cur_idle : ∀ c, p.current = some c → p.idleTask ≠ none
  retire : ∀ r, p.retiring = some r →
    i < s.cpuCount ∧ r ∈ s.list ∧ (s.mem r).pid ≠ 0 ∧ p.current ≠ some r
  stack : p.stack = p.current ∨ p.stack = p.retiring ∨ p.stack = p.idleTask
  exec : p.phase ≠ .leaving → p.stack = p.current
  entered : p.phase = .entered → p.retiring = none

theorem Placed.cpuOk (h : Placed s) (i : Nat) : CpuOk s i (s.cpus i) :=
  ⟨rfl, h.cur i, h.cur_idle i, h.retire i, h.stack i, h.exec i, h.entered i⟩

/-- A CPU's data may be replaced by any that the invariant allows. -/
theorem Placed.setCpu (h : Placed s) {p : Cpu} (hp : CpuOk s i p) : Placed (s.setCpu i p) := by
  have hi : ∀ j, ((s.setCpu i p).cpus j).idleTask = (s.cpus j).idleTask := by
    intro j
    by_cases hj : j = i
    · subst hj; rw [setCpu_cpus_self]; exact hp.idleTask
    · rw [setCpu_cpus_ne hj]
  have hok : ∀ j, CpuOk s j ((s.setCpu i p).cpus j) := by
    intro j
    by_cases hj : j = i
    · subst hj; rw [setCpu_cpus_self]; exact hp
    · rw [setCpu_cpus_ne hj]; exact h.cpuOk j
  exact
    { nodup := h.nodup
      idle := fun j d hd => h.idle j d (hi j ▸ hd)
      idle_inj := fun j k d hd hd' => h.idle_inj j k d (hi j ▸ hd) (hi k ▸ hd')
      cur := fun j => (hok j).cur
      cur_idle := fun j => (hok j).cur_idle
      retire := fun j => (hok j).retire
      stack := fun j => (hok j).stack
      exec := fun j => (hok j).exec
      entered := fun j => (hok j).entered
      reaper := h.reaper }

theorem CpuOk.ack {p : Cpu} (h : CpuOk s i p) : CpuOk s i (ackRetiring p) := by
  unfold ackRetiring
  split
  · exact h
  · next hne =>
    exact
      { idleTask := h.idleTask
        cur := h.cur
        cur_idle := h.cur_idle
        retire := nofun
        stack := by
          rcases h.stack with hs | hs | hs
          · exact .inl hs
          · exact absurd hs.symm hne
          · exact .inr (.inr hs)
        exec := h.exec
        entered := fun _ => rfl }

/-- On the stack of the current task, the acknowledgement empties the slot. -/
theorem CpuOk.ack_none {p : Cpu} (h : CpuOk s i p) (hp : p.phase = .exec) :
    (ackRetiring p).retiring = none := by
  unfold ackRetiring
  split
  · next e =>
    cases hr : p.retiring with
    | none => rfl
    | some r =>
      have hs : p.stack = p.current := h.exec (by rw [hp]; decide)
      exact absurd (by rw [← hs, ← e, hr]) (h.retire r hr).2.2.2
  · rfl

theorem CpuOk.move {p p' : Cpu} (h : CpuOk s i p) (hm : CpuMove p p') : CpuOk s i p' := by
  cases hm with
  | entry => exact h.ack
  | enter hp hc =>
    have ha := h.ack
    have hn := h.ack_none hp
    have hs : (ackRetiring p).stack = (ackRetiring p).current := by
      unfold ackRetiring
      have := h.exec (by rw [hp]; decide)
      split <;> exact this
    exact { ha with exec := fun _ => hs, entered := fun _ => hn }
  | leave hp => exact { h with exec := fun e => absurd rfl e, entered := nofun }
  | iret hp =>
    exact { h with stack := .inl rfl, exec := fun _ => rfl, entered := nofun }

theorem eligible_iff {t : Nat} : s.eligible i t = true ↔ (s.cpus i).idleTask ≠ some t ∧
    (s.mem t).pid ≠ 0 ∧ (s.mem t).cpuId = i ∧ (s.mem t).state = .ready := by
  simp [eligible, and_assoc]

/-- The store of `switchTo` to the next task is a state change. -/
theorem switch_same {next : Nat} (hn : (s.mem next).state ≠ .dead) :
    Same s (s.setTask next { s.mem next with
      state := .running, readySince := s.ticks, quantum := (s.mem next).quantumMax }) :=
  same_setTask ⟨rfl, rfl, rfl, fun h => absurd h hn⟩ nofun (.inl ⟨rfl, nofun⟩)

theorem Placed.next_alive (h : Placed s) {idle next : Nat}
    (hi : (s.cpus i).idleTask = some idle)
    (hn : next = idle ∨ next ∈ s.list ∧ s.eligible i next = true) :
    (s.mem next).state ≠ .dead := by
  rcases hn with e | ⟨_, he⟩
  · exact e ▸ (h.idle i idle hi).2.2.2.2
  · rw [(eligible_iff.mp he).2.2.2]
    decide

/-- The switch itself: the previous task moves into the free retiring slot. -/
theorem Placed.switch (h : Placed s) {c idle next : Nat} (hp : (s.cpus i).phase = .entered)
    (hc : (s.cpus i).current = some c) (hi : (s.cpus i).idleTask = some idle)
    (hn : next = idle ∨ next ∈ s.list ∧ s.eligible i next = true) :
    Placed ((s.switchTo i c next).leave i) := by
  have hs := switch_same (h.next_alive hi hn)
  have h' := h.same hs
  unfold leave switchTo
  dsimp only
  rw [setCpu_setCpu, setCpu_cpus_self]
  refine h'.setCpu ⟨rfl, fun t ht => ?_, fun _ _ => ?_, fun r hr => ?_, ?_, fun e => absurd rfl e,
    nofun⟩
  · cases ht
    rw [setTask_list, hs.pid, (hs.task next).cpuId]
    rcases hn with e | ⟨hl, he⟩
    · exact .inl (e ▸ hi)
    · obtain ⟨_, h2, h3, _⟩ := eligible_iff.mp he
      exact .inr ⟨hl, h2, h3⟩
  · rw [hi]
    exact Option.some_ne_none idle
  · -- the slot was empty, so it can only hold the previous task
    dsimp only at hr
    rw [h.entered i hp] at hr
    split at hr
    · next hne =>
      cases hr
      rcases h.cur i c hc with hid | ⟨hl, h2, h3⟩
      · exact absurd (h.idle i c hid).2.1 hne.2
      · rw [hs.pid]
        exact ⟨h.lt hc, hl, h2, fun e => hne.1 (Option.some.inj e)⟩
    · cases hr
  · have hst : (s.cpus i).stack = some c := by
      rw [h.exec i (by rw [hp]; decide), hc]
    dsimp only
    rw [hst]
    by_cases hne : next = c
    · exact .inl (by rw [hne])
    · rcases h.cur i c hc with hid | ⟨hl, h2, h3⟩
      · exact .inr (.inr hid.symm)
      · exact .inr (.inl (by rw [if_pos ⟨hne, h2⟩]))

/-! ## Every step -/

theorem Placed.effect (h : Placed s) (he : Effect s s') : Placed s' := by
  cases he with
  | none => exact h
  | tick n => exact { h with }
  | @cpu i p hm => exact h.setCpu ((h.cpuOk i).move hm)
  | switch hp hc hi hn => exact h.switch hp hc hi hn
  | kernel hf hi _ _ _ hs => exact h.published hf hi (taskPublish_published hs)
  | process hf hi _ _ _ _ _ hs => exact h.published hf hi (placed_published hs)
  | thread hf hi _ _ _ _ _ _ _ hs => exact h.published hf hi (joined_published hs)
  | discard root => exact { h with }
  | setCpu ha => exact h.setCpuId ha
  | reap => exact taskReapDead_induct h.nodup h fun _ t h _ _ => h.reapOne t

theorem Placed.reaper_alive (h : Placed s) : ∀ t, s.reaperTask = some t → (s.mem t).state ≠ .dead :=
  fun t ht => (h.reaper t ht).2.2

theorem Placed.step {op : Op} {r : Sched × Int} (h : Placed s) (hs : s.Step op r) :
    Placed r.1 := by
  obtain ⟨s₁, h₁, he⟩ := hs.effect h.reaper_alive
  exact (h.same h₁).effect he

/-! ## Boot -/

theorem bootTable_idle {d : Nat} (h : ((bootTable b).cpus i).idleTask = some d) :
    i = 0 ∧ d = b.init ∨ i ≠ 0 ∧ i < b.cpuCount ∧ d = b.apIdle i := by
  simp only [bootTable] at h
  split at h
  · next h0 => exact .inl ⟨h0, (Option.some.inj h).symm⟩
  · next h0 =>
    split at h
    · next h1 => exact .inr ⟨h0, h1.1, (Option.some.inj h).symm⟩
    · cases h

/-- At boot a CPU runs its idle task, or nothing. -/
theorem bootTable_cpu (b : Boot) (i : Nat) :
    (∃ d, (bootTable b).cpus i = idleCpu d) ∨ (bootTable b).cpus i = {} := by
  simp only [bootTable]
  split
  · exact .inl ⟨_, rfl⟩
  · split
    · exact .inl ⟨_, rfl⟩
    · exact .inr rfl

theorem bootTable_placed (b : Boot) : Placed (bootTable b) where
  nodup := List.nodup_singleton _
  idle i d h := by
    have hlt : i < b.cpuCount := by
      rcases bootTable_idle h with ⟨h0, _⟩ | ⟨_, h1, _⟩
      · exact h0 ▸ b.positive
      · exact h1
    refine ⟨hlt, ?_⟩
    simp only [bootTable, taskInitPriority, taskAlloc]
    split
    · exact ⟨rfl, rfl, rfl, nofun⟩
    · exact ⟨rfl, rfl, rfl, nofun⟩
  idle_inj i j d hi hj := by
    rcases bootTable_idle hi with ⟨h1, h2⟩ | ⟨h1, _, h2⟩ <;>
      rcases bootTable_idle hj with ⟨h3, h4⟩ | ⟨h3, _, h4⟩
    · rw [h1, h3]
    · exact absurd (h4.symm.trans h2) (b.apIdle_ne j).1
    · exact absurd (h2.symm.trans h4) (b.apIdle_ne i).1
    · exact b.apIdle_inj i j (h2.symm.trans h4)
  cur i c h := by
    rcases bootTable_cpu b i with ⟨d, e⟩ | e <;> rw [e] at h ⊢
    · exact .inl h
    · cases h
  cur_idle i c h := by
    rcases bootTable_cpu b i with ⟨d, e⟩ | e <;> rw [e] at h ⊢
    · exact Option.some_ne_none d
    · cases h
  retire i r h := by
    rcases bootTable_cpu b i with ⟨d, e⟩ | e <;> rw [e] at h <;> cases h
  stack i := by
    rcases bootTable_cpu b i with ⟨d, e⟩ | e
    · rw [e]; exact .inl rfl
    · rw [e]; exact .inl rfl
  exec i _ := by
    rcases bootTable_cpu b i with ⟨d, e⟩ | e
    · rw [e]; rfl
    · rw [e]
  entered i _ := by
    rcases bootTable_cpu b i with ⟨d, e⟩ | e
    · rw [e]; rfl
    · rw [e]
  reaper := nofun

/-- The table with the reaper in it, before `task_init` makes it wait. -/
def withReaper (b : Boot) : Sched :=
  (bootTable b).taskPublish b.reaper { taskAlloc 0 b.ticks with entryPoint := b.reaperMain }

theorem taskInit_eq (b : Boot) : taskInit b =
    ({ withReaper b with reaperTask := some b.reaper }).setTask b.reaper
      { taskInitPriority ((withReaper b).mem b.reaper) 3 with state := .waiting } := by
  have hm : ¬ (b.reaperMain = 0 ∨ (bootTable b).list = []) :=
    not_or.mpr ⟨b.main_ne, List.cons_ne_nil _ _⟩
  have h0 : elapsed (bootTable b).ticks 0 = b.ticks := elapsed_zero b.ticks_lt
  simp only [taskInit, createTask, hm, ↓reduceIte, not_true_eq_false, h0]
  rfl

theorem reaper_fresh (b : Boot) : b.reaper ∉ (bootTable b).list ∧
    ∀ i < (bootTable b).cpuCount, ((bootTable b).cpus i).idleTask ≠ some b.reaper := by
  refine ⟨fun h => b.reaper_ne (List.mem_singleton.mp h), fun i _ h => ?_⟩
  rcases bootTable_idle h with ⟨_, e⟩ | ⟨_, _, e⟩
  · exact b.reaper_ne e
  · exact (b.apIdle_ne i).2 e.symm

/-! The state that `task_init` leaves. -/

theorem taskInit_list (b : Boot) : (taskInit b).list = [b.init, b.reaper] := by
  rw [taskInit_eq]
  rfl

theorem taskInit_cpus (b : Boot) : (taskInit b).cpus = (bootTable b).cpus := by
  rw [taskInit_eq]
  rfl

theorem taskInit_nextPid (b : Boot) : (taskInit b).nextPid = 2 := by
  rw [taskInit_eq]
  rfl

theorem taskInit_reaperTask (b : Boot) : (taskInit b).reaperTask = some b.reaper := by
  rw [taskInit_eq]
  rfl

theorem taskInit_mem_ne {t : Nat} (h : t ≠ b.reaper) :
    (taskInit b).mem t = (bootTable b).mem t := by
  rw [taskInit_eq, setTask_mem_ne h]
  exact taskPublish_mem_ne h

theorem taskInit_mem_reaper (b : Boot) : (taskInit b).mem b.reaper =
    { taskInitPriority { taskAlloc 0 b.ticks with
        entryPoint := b.reaperMain, pid := 1, tgid := 1 } 3 with state := .waiting } := by
  have hr : (withReaper b).mem b.reaper = { taskAlloc 0 b.ticks with
      entryPoint := b.reaperMain, pid := 1, tgid := 1 } := taskPublish_mem_self
  rw [taskInit_eq, setTask_mem_self]
  dsimp only
  rw [hr]

theorem taskInit_mem_init (b : Boot) : (taskInit b).mem b.init =
    taskInitPriority { taskAlloc 0 b.ticks with state := .running } 0 := by
  rw [taskInit_mem_ne b.reaper_ne.symm]
  simp only [bootTable, ↓reduceIte]

theorem taskInit_placed (b : Boot) : Placed (taskInit b) := by
  have h : Placed (withReaper b) := (bootTable_placed b).published (reaper_fresh b).1
    (reaper_fresh b).2 (taskPublish_published rfl)
  have hr : (withReaper b).mem b.reaper = { taskAlloc 0 b.ticks with
      entryPoint := b.reaperMain, pid := 1, tgid := 1 } := taskPublish_mem_self
  have h' : Placed { withReaper b with reaperTask := some b.reaper } :=
    { h with
      reaper := by
        intro r he
        cases he
        show _ ∧ ((withReaper b).mem b.reaper).pml4 = 0 ∧
          ((withReaper b).mem b.reaper).state ≠ .dead
        rw [hr]
        exact ⟨List.mem_append_right _ (List.mem_singleton_self _), rfl, nofun⟩ }
  rw [taskInit_eq]
  refine h'.same (same_setTask ⟨rfl, rfl, rfl, fun hd => ?_⟩ nofun (.inl ⟨rfl, fun _ => .inr rfl⟩))
  exact absurd hd (h'.reaper b.reaper rfl).2.2

theorem Reaches.placed (h : Reaches b s) : Placed s := by
  obtain ⟨ops, h⟩ := h
  exact h.invariant (taskInit_placed b) fun s _ t hs ⟨r, ha⟩ => hs.step ha

/-! ## Safety of one step -/

/-- No task is on two CPUs, and a CPU runs only its own tasks. -/
structure Safe (s : Sched) : Prop where
  one_cpu : ∀ i j c, (s.cpus i).current = some c → (s.cpus j).current = some c → i = j
  pinned : ∀ i c, (s.cpus i).current = some c → (s.cpus i).idleTask ≠ some c →
    (s.mem c).cpuId = i

/-- Dying is final, the dead are not selected, and nothing is freed that a CPU uses. -/
structure StepSafe (s : Sched) (op : Op) (s' : Sched) : Prop where
  dead_stays : ∀ t ∈ s.list, t ∈ s'.list → (s.mem t).state = .dead → (s'.mem t).state = .dead
  selected : ∀ i t, (s'.cpus i).current = some t → (s.cpus i).current ≠ some t →
    (s.mem t).state ≠ .dead
  scheduled : ∀ i t, op = .schedule i → (s'.cpus i).current = some t →
    (s'.mem t).state = .running
  reaped : ∀ t ∈ s.list, t ∉ s'.list → ∀ i,
    (s.cpus i).current ≠ some t ∧ (s.cpus i).stack ≠ some t ∧
    (s'.cpus i).current ≠ some t ∧ (s'.cpus i).stack ≠ some t

theorem Placed.safe (h : Placed s) : Safe s where
  one_cpu i j c hi hj := by
    rcases h.cur i c hi with h1 | ⟨_, h1, h2⟩ <;> rcases h.cur j c hj with h3 | ⟨_, h3, h4⟩
    · exact h.idle_inj i j c h1 h3
    · exact absurd (h.idle i c h1).2.1 h3
    · exact absurd (h.idle j c h3).2.1 h1
    · exact h2.symm.trans h4
  pinned i c hi hne := by
    rcases h.cur i c hi with h1 | ⟨_, _, h2⟩
    · exact absurd h1 hne
    · exact h2

/-- A CPU cannot be on the stack of an inactive task with an identifier. -/
theorem Placed.off_stack (h : Placed s) {t : Nat} (hp : (s.mem t).pid ≠ 0)
    (ha : s.taskActive t = false) (i : Nat) :
    (s.cpus i).current ≠ some t ∧ (s.cpus i).stack ≠ some t := by
  have hc : (s.cpus i).current ≠ some t := fun e => by
    rw [h.active (.inl e)] at ha
    cases ha
  have hr : (s.cpus i).retiring ≠ some t := fun e => by
    rw [h.active (.inr e)] at ha
    cases ha
  refine ⟨hc, fun e => ?_⟩
  rcases h.stack i with hs | hs | hs <;> rw [hs] at e
  · exact hc e
  · exact hr e
  · exact hp (h.idle i t e).2.1

/-- What a pass of the reaper leaves alone, and what it may take. -/
structure Reaped (s s' : Sched) : Prop where
  list : s'.list.Sublist s.list
  cpus : s'.cpus = s.cpus
  cpuCount : s'.cpuCount = s.cpuCount
  pid : ∀ t, (s'.mem t).pid = (s.mem t).pid
  dead : ∀ t, (s.mem t).state = .dead → (s'.mem t).state = .dead
  gone : ∀ t ∈ s.list, t ∉ s'.list → s.taskActive t = false ∧ (s.mem t).pid ≠ 0

theorem Reaped.refl (s : Sched) : Reaped s s :=
  ⟨List.Sublist.refl _, rfl, rfl, fun _ => rfl, fun _ => id, fun _ h hn => absurd h hn⟩

theorem Reaped.active (h : Reaped s s') (t : Nat) : s'.taskActive t = s.taskActive t := by
  unfold taskActive
  rw [h.cpus, h.cpuCount]

theorem Reaped.reapOne (h : Reaped s s') (t : Nat) : Reaped s (s'.reapOne t) := by
  rcases reapOne_cases s' t with ⟨hs, _⟩ | ⟨_, ha, hp, _, e⟩
  · exact
      { list := hs.list ▸ h.list
        cpus := hs.cpus.trans h.cpus
        cpuCount := hs.cpuCount.trans h.cpuCount
        pid := fun u => (hs.pid u).trans (h.pid u)
        dead := fun u hu => (hs.task u).dead (h.dead u hu)
        gone := fun u hu hn => h.gone u hu (hs.list ▸ hn) }
  · rw [e]
    have hr : Removed s' (s'.removeTask t) t := removeTask_removed
    exact
      { list := hr.list ▸ List.erase_sublist.trans h.list
        cpus := hr.cpus.trans h.cpus
        cpuCount := hr.cpuCount.trans h.cpuCount
        pid := fun u => by rw [hr.ident, h.pid]
        dead := fun u hu => (hr.dead_iff u).mpr (h.dead u hu)
        gone := fun u hu hn => by
          by_cases hut : u = t
          · subst hut
            exact ⟨h.active u ▸ ha, h.pid u ▸ hp⟩
          · rw [hr.list, List.mem_erase_of_ne hut] at hn
            exact h.gone u hu hn }

theorem taskReapDead_reaped (h : s.list.Nodup) : Reaped s s.taskReapDead :=
  taskReapDead_induct h (.refl s) fun _ t hr _ _ => hr.reapOne t

theorem Effect.dead_stays (h : Placed s) (he : Effect s s') {t : Nat} (ht : t ∈ s.list)
    (hd : (s.mem t).state = .dead) : (s'.mem t).state = .dead := by
  have hpub : ∀ {a}, a ∉ s.list → Published s s' a → (s'.mem t).state = .dead := by
    intro a hf hp
    obtain ⟨n, e⟩ := hp.others t (fun e => hf (e ▸ ht))
    rw [e]
    exact hd
  cases he with
  | none => exact hd
  | tick n => exact hd
  | cpu i hm => exact hd
  | switch hp hc hi hn => exact ((switch_same (h.next_alive hi hn)).task t).dead hd
  | kernel hf _ _ _ _ hs => exact hpub hf (taskPublish_published hs)
  | process hf _ _ _ _ _ _ hs => exact hpub hf (placed_published hs)
  | thread hf _ _ _ _ _ _ _ _ hs => exact hpub hf (joined_published hs)
  | discard root => exact hd
  | @setCpu u cpu ha =>
    rw [setTask_mem]
    split
    · next e => exact e ▸ hd
    · exact hd
  | reap => exact (taskReapDead_reaped h.nodup).dead t hd

theorem CpuMove.idleTask {p p' : Cpu} (h : CpuMove p p') : p'.idleTask = p.idleTask := by
  have ha : (ackRetiring p).idleTask = p.idleTask := by
    unfold ackRetiring
    split <;> rfl
  cases h with
  | entry => exact ha
  | enter _ _ => exact ha
  | leave _ => rfl
  | iret _ => rfl

theorem CpuMove.current {p p' : Cpu} (h : CpuMove p p') : p'.current = p.current := by
  have ha : (ackRetiring p).current = p.current := by
    unfold ackRetiring
    split <;> rfl
  cases h with
  | entry => exact ha
  | enter _ _ => exact ha
  | leave _ => rfl
  | iret _ => rfl

theorem Effect.selected (h : Placed s) (he : Effect s s') {t : Nat}
    (ht : (s'.cpus i).current = some t) (hne : (s.cpus i).current ≠ some t) :
    (s.mem t).state ≠ .dead := by
  cases he with
  | none => exact absurd ht hne
  | tick n => exact absurd ht hne
  | @cpu j p hm =>
    by_cases hj : i = j
    · subst hj
      rw [setCpu_cpus_self, hm.current] at ht
      exact absurd ht hne
    · rw [setCpu_cpus_ne hj] at ht
      exact absurd ht hne
  | @switch j c idle next hp hc hi hn =>
    unfold leave switchTo at ht
    dsimp only at ht
    rw [setCpu_setCpu, setCpu_cpus_self] at ht
    by_cases hj : i = j
    · subst hj
      rw [setCpu_cpus_self] at ht
      cases ht
      exact h.next_alive hi hn
    · rw [setCpu_cpus_ne hj] at ht
      exact absurd ht hne
  | kernel => exact absurd ht hne
  | process => exact absurd ht hne
  | thread => exact absurd ht hne
  | discard root => exact absurd ht hne
  | setCpu ha => exact absurd ht hne
  | reap =>
    rw [(taskReapDead_reaped h.nodup).cpus] at ht
    exact absurd ht hne

/-- Only the reaper takes a task off the list, and only an inactive one. -/
theorem Effect.gone (h : Placed s) (he : Effect s s') {t : Nat} (ht : t ∈ s.list)
    (hn : t ∉ s'.list) : s'.cpus = s.cpus ∧ s.taskActive t = false ∧ (s.mem t).pid ≠ 0 := by
  have hpub : ∀ a, s'.list = s.list ++ [a] → False := fun a e =>
    hn (e ▸ List.mem_append_left _ ht)
  cases he with
  | none => exact absurd ht hn
  | tick n => exact absurd ht hn
  | cpu i hm => exact absurd ht hn
  | switch => exact absurd ht hn
  | kernel => exact (hpub _ rfl).elim
  | process => exact (hpub _ rfl).elim
  | thread => exact (hpub _ rfl).elim
  | discard root => exact absurd ht hn
  | setCpu ha => exact absurd ht hn
  | reap =>
    have hr := taskReapDead_reaped h.nodup
    exact ⟨hr.cpus, hr.gone t ht hn⟩

/-- After a pass of the scheduler the CPU's current task is RUNNING. -/
theorem schedule_running {c : Nat} (hc : (s.cpus i).current = some c)
    (hi : (s.cpus i).idleTask ≠ none) {t : Nat} (ht : ((s.schedule i).cpus i).current = some t) :
    ((s.schedule i).mem t).state = .running := by
  obtain ⟨idle, hi⟩ := Option.ne_none_iff_exists'.mp hi
  unfold schedule at ht ⊢
  rw [hc, hi] at ht ⊢
  dsimp only at ht ⊢
  have hcur : ((s.wakeTasks.chargeQuantum i c).1.cpus i).current = some c := by
    rw [(wakeTasks_same.trans chargeQuantum_same).cpus, hc]
  have hgo : (s.wakeTasks.chargeQuantum i c).2 = true →
      ((s.wakeTasks.chargeQuantum i c).1.mem c).state = .running := by
    unfold chargeQuantum
    dsimp only
    split
    · next h => exact fun _ => by rw [setTask_mem_self]; exact h.2
    · exact nofun
  generalize s.wakeTasks.chargeQuantum i c = r at ht hcur hgo ⊢
  obtain ⟨s₁, go⟩ := r
  cases go with
  | true =>
    dsimp only at ht hcur hgo ⊢
    rw [hcur] at ht
    cases ht
    exact hgo rfl
  | false =>
    dsimp only [switchTo] at ht ⊢
    rw [setCpu_cpus_self] at ht
    cases ht
    rw [setCpu_mem, setTask_mem_self]

theorem Placed.stepSafe {op : Op} {r : Sched × Int} (h : Placed s) (hs : s.Step op r) :
    StepSafe s op r.1 := by
  obtain ⟨s₁, h₁, he⟩ := hs.effect h.reaper_alive
  have hp₁ := h.same h₁
  refine ⟨fun t ht _ hd => ?_, fun i t ht hne => ?_, fun i t hop ht => ?_, fun t ht hn => ?_⟩
  · exact he.dead_stays hp₁ (h₁.list ▸ ht) ((h₁.task t).dead hd)
  · exact fun hd => he.selected hp₁ ht (by rw [h₁.cpus]; exact hne) ((h₁.task t).dead hd)
  · subst hop
    cases hs with
    | schedule hph =>
      have hcur : ∀ s' : Sched, ((s'.leave i).cpus i).current = (s'.cpus i).current := by
        intro s'
        rw [leave, setCpu_cpus_self]
      rw [hcur] at ht
      cases hc : (s.cpus i).current with
      | none =>
        have e : s.schedule i = s := by simp only [schedule, hc]
        rw [e, hc] at ht
        cases ht
      | some c => exact schedule_running hc (h.cur_idle i c hc) ht
  · obtain ⟨e, ha, hpid⟩ := he.gone hp₁ (h₁.list ▸ ht) hn
    intro i
    have hoff := hp₁.off_stack hpid ha i
    rw [h₁.cpus] at hoff
    rw [e, h₁.cpus]
    exact ⟨hoff.1, hoff.2, hoff.1, hoff.2⟩

/-- **Scheduler safety.** From boot, with any number of CPUs taking steps in any order: no task is
the current task of two CPUs, a CPU's current task is its idle task or pinned to it, dying is final,
a dead task is not selected, and the reaper frees nothing that a CPU runs or stands on. -/
theorem scheduler_safe (h : Reaches b s) :
    Safe s ∧ ∀ op r, s.Step op r → StepSafe s op r.1 :=
  ⟨h.placed.safe, fun _ _ hs => h.placed.stepSafe hs⟩

/-- Two processors. -/
def smallBoot : Boot where
  cpuCount := 2
  active _ := true
  init := 0
  reaper := 1
  reaperMain := 4096
  apIdle i := i + 2
  ticks := 0
  positive := by decide
  reaper_ne := by decide
  main_ne := by decide
  apIdle_ne i := ⟨by omega, by omega⟩
  apIdle_inj _ _ h := Nat.add_right_cancel h
  ticks_lt := by decide

/-- A timer interrupt on CPU `i`, from `enter` to `iret`. -/
def interrupt (s : Sched) (i : Nat) : Sched :=
  let s := (s.taskContextEnter i).setCpu i
    { (s.taskContextEnter i).cpus i with phase := .entered }
  let s := (s.schedule i).leave i
  s.setCpu i { s.cpus i with stack := (s.cpus i).current, phase := .exec }

theorem interrupt_run {c : Nat} (h : s.Runs i c) :
    Run Next s [.enter i, .schedule i, .iret i] (s.interrupt i) := by
  have h₁ : Run Next s [.enter i] _ := .single ⟨0, .enter h⟩
  have h₂ := h₁.snoc ⟨0, .schedule (i := i) (by rw [setCpu_cpus_self])⟩
  refine h₂.snoc ⟨0, .iret (i := i) ?_⟩
  unfold leave
  rw [setCpu_cpus_self]

/-- A process with its address space at `root`. -/
def userOp (a root : Nat) : Op := .createUserTask 0 ⟨some a, true, some root, true, 0⟩

theorem userOp_next {a root : Nat} (ha : a ∉ s.list ∧ ∀ i < s.cpuCount,
    (s.cpus i).idleTask ≠ some a)
    (hr : root ≠ 0 ∧ ∀ a ∈ s.list, (s.mem a).pml4 ≠ root) :
    Next s (userOp a root) (s.createUserTask 0 ⟨some a, true, some root, true, 0⟩).1 :=
  ⟨0, .createUserTask 0 ⟨fun _ h => Option.some.inj h ▸ ha, fun _ h => Option.some.inj h ▸ hr⟩⟩

/-- A process of the first processor exits, and the processor leaves its stack. -/
def smallExit : Sched :=
  let s := ((taskInit smallBoot).createUserTask 0 ⟨some 10, true, some 4096, true, 0⟩).1
  (((s.interrupt 0).exitCurrentTask 10).interrupt 0).taskContextEnter 0

theorem smallExit_reaches : Reaches smallBoot smallExit := by
  have h₁ : Run Next (taskInit smallBoot) [userOp 10 4096] _ :=
    .single (userOp_next (by decide) (by decide))
  have h₂ := h₁.append (interrupt_run (i := 0) (c := 0) ⟨by decide, by decide, by decide⟩)
  have h₃ := h₂.snoc ⟨0, .exit (i := 0) (c := 10) ⟨by decide, by decide, by decide⟩
    (by decide) (by decide)⟩
  have h₄ := h₃.append (interrupt_run (i := 0) (c := 10) ⟨by decide, by decide, by decide⟩)
  exact ⟨_, h₄.snoc ⟨0, .entry 0⟩⟩

/-- The dead process is off its processor, and the reaper removes it. -/
theorem scheduler_safe_small : Safe smallExit ∧
    StepSafe smallExit .reap smallExit.taskReapDead ∧ 10 ∈ smallExit.list ∧
    (smallExit.mem 10).state = .dead ∧ smallExit.taskReapDead.list = [0, 1] :=
  ⟨(scheduler_safe smallExit_reaches).1, (scheduler_safe smallExit_reaches).2 .reap _ .reap,
    by decide, by decide, by decide⟩

end GenOS.Sched
