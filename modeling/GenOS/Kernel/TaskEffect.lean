import Mathlib.Data.List.Rotate
import GenOS.Kernel.TaskFrame

/-!
# The shapes of a step

Every step is a state change in the sense of `Same` followed by one `Effect`: a move of one CPU
through the interrupt path, a switch, the publication of a kernel task, a process or a thread, a
process discarded, a task moved to another CPU, or a pass of the reaper. The invariants below are
each proved for `Same` and for the effects.
-/

namespace GenOS.Sched

variable {s s' : Sched} {i : Nat}

/-- `task_context_enter` on the CPU's own data. -/
def ackRetiring (p : Cpu) : Cpu := if p.retiring = p.stack then p else { p with retiring := none }

/-- The moves of a CPU through the interrupt path. -/
inductive CpuMove (p : Cpu) : Cpu → Prop
  | entry : CpuMove p (ackRetiring p)
  | enter {c : Nat} (hp : p.phase = .exec) (hc : p.current = some c) :
    CpuMove p { ackRetiring p with phase := .entered }
  | leave (hp : p.phase = .entered) : CpuMove p { p with phase := .leaving }
  | iret (hp : p.phase = .leaving) : CpuMove p { p with stack := p.current, phase := .exec }

/-- What a step does, up to scheduling states. -/
inductive Effect (s : Sched) : Sched → Prop
  | none : Effect s s
  | tick (n : Nat) : Effect s { s with ticks := n }
  | cpu (i : Nat) {p : Cpu} (h : CpuMove (s.cpus i) p) : Effect s (s.setCpu i p)
  | switch {i c idle next : Nat} (hp : (s.cpus i).phase = .entered)
    (hc : (s.cpus i).current = some c) (hi : (s.cpus i).idleTask = some idle)
    (hn : next = idle ∨ next ∈ s.list ∧ s.eligible i next = true) :
    Effect s ((s.switchTo i c next).leave i)
  | kernel {a : Nat} {u : Task} (hf : a ∉ s.list)
    (hi : ∀ i < s.cpuCount, (s.cpus i).idleTask ≠ some a) (hp : u.pml4 = 0)
    (ht : u.isThread = false) (hn : u.threadCount = 1) (hs : u.state = .ready) :
    Effect s (s.taskPublish a u)
  | process {a root : Nat} {u : Task} (hf : a ∉ s.list)
    (hi : ∀ i < s.cpuCount, (s.cpus i).idleTask ≠ some a) (h0 : root ≠ 0)
    (hroot : ∀ b ∈ s.list, (s.mem b).pml4 ≠ root) (hp : u.pml4 = root) (ht : u.isThread = false)
    (hn : u.threadCount = 1) (hs : u.state = .ready) :
    Effect s ((s.placed root).taskPublish a u)
  | thread {i c leader a : Nat} {u : Task} (hf : a ∉ s.list)
    (hi : ∀ i < s.cpuCount, (s.cpus i).idleTask ≠ some a) (hcur : (s.cpus i).current = some c)
    (h4 : (s.mem c).pml4 ≠ 0) (hl : s.taskFindByPid (s.mem c).tgid = some leader)
    (hd : (s.mem leader).state ≠ .dead) (hp : u.pml4 = (s.mem c).pml4)
    (hg : u.tgid = (s.mem c).tgid) (ht : u.isThread = true) (hs : u.state = .ready) :
    Effect s ((s.joined leader).taskPublish a u)
  | discard (root : Nat) (h : root ≠ 0 → ∀ b ∈ s.list, (s.mem b).pml4 ≠ root) :
    Effect s (s.withLog (discardLog root s.log))
  | setCpu {t cpu : Nat} (ha : s.taskActive t = false) :
    Effect s (s.setTask t { s.mem t with cpuId := cpu })
  | reap : Effect s s.taskReapDead

/-! ## Kernel entry -/

theorem setCpu_self : s.setCpu i (s.cpus i) = s := by
  simp [setCpu]

theorem setCpu_setCpu {p q : Cpu} : (s.setCpu i p).setCpu i q = s.setCpu i q := by
  simp [setCpu]

theorem ackRetiring_none {p : Cpu} (h : p.retiring = none) : ackRetiring p = p := by
  have hp : { p with retiring := none } = p := by rw [← h]
  simp [ackRetiring, hp]

theorem taskContextEnter_eq : s.taskContextEnter i = s.setCpu i (ackRetiring (s.cpus i)) := by
  unfold taskContextEnter
  dsimp only
  split
  · next h => rw [ackRetiring_none h, setCpu_self]
  · next t h =>
    unfold ackRetiring
    rw [h]
    by_cases hs : (s.cpus i).stack = some t
    · rw [if_pos hs, if_pos hs.symm, setCpu_self]
    · rw [if_neg hs, if_neg (fun e => hs e.symm)]

/-! ## The selection -/

theorem pickBetter_cases (best : Option Nat × Int) (t : Nat) :
    s.pickBetter i best t = best ∨
    (s.eligible i t = true ∧ s.pickBetter i best t = (some t, s.effectivePriority t)) := by
  unfold pickBetter
  split
  · next h => exact .inr ⟨h.1, rfl⟩
  · exact .inl rfl

theorem mem_scanOrder {c t : Nat} : t ∈ s.scanOrder c ↔ t ∈ s.list := by
  unfold scanOrder
  split
  · exact List.mem_rotate
  · exact Iff.rfl

/-- The task that the scan finds is listed and eligible. -/
theorem pickBest_some {c t : Nat} (h : s.pickBest i c = some t) :
    t ∈ s.list ∧ s.eligible i t = true := by
  suffices ∀ (l : List Nat) (best : Option Nat × Int),
      (∀ x ∈ l, x ∈ s.list) → (∀ x, best.1 = some x → x ∈ s.list ∧ s.eligible i x = true) →
      ∀ x, (l.foldl (s.pickBetter i) best).1 = some x → x ∈ s.list ∧ s.eligible i x = true from
    this _ _ (fun x hx => mem_scanOrder.mp hx) (by simp) t h
  intro l
  induction l with
  | nil => exact fun _ _ h => h
  | cons y l ih =>
    intro best hl hb
    refine ih _ (fun x hx => hl x (List.mem_cons_of_mem _ hx)) fun x hx => ?_
    rcases pickBetter_cases (s := s) (i := i) best y with h | ⟨he, h⟩
    · exact hb x (h ▸ hx)
    · rw [h] at hx
      cases hx
      exact ⟨hl _ List.mem_cons_self, he⟩

/-- A pass of the scheduler: the current task goes on, or the CPU switches. -/
theorem schedule_cases (s : Sched) (i : Nat) :
    Same s (s.schedule i) ∨
    ∃ s₁ c idle next, Same s s₁ ∧ (s.cpus i).current = some c ∧ (s.cpus i).idleTask = some idle ∧
      (next = idle ∨ next ∈ s₁.list ∧ s₁.eligible i next = true) ∧
      s.schedule i = s₁.switchTo i c next := by
  unfold schedule
  cases hc : (s.cpus i).current with
  | none => exact .inl (.refl s)
  | some c =>
    cases hi : (s.cpus i).idleTask with
    | none => exact .inl (.refl s)
    | some idle =>
      dsimp only
      have h₁ : Same s (s.wakeTasks.chargeQuantum i c).1 := wakeTasks_same.trans chargeQuantum_same
      generalize s.wakeTasks.chargeQuantum i c = r at h₁
      obtain ⟨s₁, go⟩ := r
      cases go with
      | true => exact .inl h₁
      | false =>
        refine .inr ⟨s₁.preempt c, c, idle, _, h₁.trans preempt_same, rfl, rfl, ?_, rfl⟩
        cases hb : (s₁.preempt c).pickBest i c with
        | none => exact .inl rfl
        | some t => exact .inr (pickBest_some hb)

/-! ## The classification -/

theorem Alloc.Fresh.same {al : Alloc} (h : al.Fresh s) (hs : Same s s') : al.Fresh s' := by
  unfold Fresh at *
  rw [hs.list, hs.cpus, hs.cpuCount]
  simpa only [hs.pml4] using h

theorem Alloc.Fresh.space_ne {al : Alloc} (h : al.Fresh s) : al.space ≠ some 0 :=
  fun e => (h.2 0 e).1 rfl

/-- `create_task_on_cpu` publishes the task with the CPU it is meant for. -/
theorem taskPublish_setCpuId {a cpu : Nat} {u : Task} :
    (s.taskPublish a u).setTask a { (s.taskPublish a u).mem a with cpuId := cpu } =
      s.taskPublish a { u with cpuId := cpu } := by
  simp [taskPublish, setTask]

theorem createUserTask_effect {al : Alloc} (h : al.Fresh s) :
    Effect s (s.createUserTask i al).1 := by
  rcases createUserTask_cases (i := i) al h.space_ne with
    e | ⟨root, hr, e⟩ | ⟨a, root, u, ha, hr, _, e, hp, ht, hn, hs, -⟩ <;> rw [e]
  · exact .none
  · exact .discard root fun h0 => (h.2 root (hr h0)).2
  · exact .process (h.1 a ha).1 (h.1 a ha).2 (h.2 root hr).1 (h.2 root hr).2 hp ht hn hs

theorem dispatch_exec {c : Nat} {al : Alloc} :
    (s.dispatch i c (.exec al)).1 = (s.createUserTask i al).1 := by
  unfold dispatch
  dsimp only
  split
  · next e => rw [e]
  · next e => rw [e]

theorem dispatch_effect {c : Nat} {call : Call} (hf : s.Fresh call)
    (hd : (s.mem c).state ≠ .dead) (hm : s.Mortal c) :
    ∃ s₁, Same s s₁ ∧ Effect s₁ (s.dispatch i c call).1 := by
  cases call with
  | exec al =>
    refine ⟨s, .refl s, ?_⟩
    rw [dispatch_exec]
    exact createUserTask_effect hf
  | fork ok al =>
    refine ⟨s, .refl s, ?_⟩
    unfold dispatch
    dsimp only
    rcases taskFork_cases (i := i) ok al (Alloc.Fresh.space_ne hf) with
      e | ⟨root, hr, e⟩ | ⟨a, root, u, ha, hr, _, e, hp, ht, hn, hs, -⟩ <;> rw [e]
    · exact .none
    · exact .discard root fun h0 => (hf.2 root (hr h0)).2
    · exact .process (hf.1 a ha).1 (hf.1 a ha).2 (hf.2 root hr).1 (hf.2 root hr).2 hp ht hn hs
  | clone entry stackTop al =>
    refine ⟨s, .refl s, ?_⟩
    unfold dispatch
    dsimp only
    rcases taskClone_cases (i := i) entry stackTop al with
      e | ⟨c, leader, a, u, hc, h4, hl, hd, ha, _, e, hp, hg, ht, hs, -⟩ <;> rw [e]
    · exact .none
    · exact .thread (hf.1 a ha).1 (hf.1 a ha).2 hc h4 hl hd hp hg ht hs
  | sleep w => exact ⟨_, sleepCurrentTask_same hd, .none⟩
  | waitPid p => exact ⟨_, waitForPid_same hd hm, .none⟩
  | nice v => exact ⟨_, taskSetNice_same, .none⟩
  | other => exact ⟨s, .refl s, .none⟩

/-- Every step is a state change and one effect, if the reaper, which waits, is not dead. -/
theorem Step.effect {op : Op} {r : Sched × Int} (h : s.Step op r)
    (hr : ∀ t, s.reaperTask = some t → (s.mem t).state ≠ .dead) :
    ∃ s₁, Same s s₁ ∧ Effect s₁ r.1 := by
  cases h with
  | tick => exact ⟨s, .refl s, .tick _⟩
  | entry i => exact ⟨s, .refl s, taskContextEnter_eq ▸ .cpu i .entry⟩
  | @enter i c h =>
    refine ⟨s, .refl s, ?_⟩
    rw [taskContextEnter_eq, setCpu_setCpu, setCpu_cpus_self]
    exact .cpu i (.enter h.2.2 h.2.1)
  | @schedule i hp =>
    rcases schedule_cases s i with h | ⟨s₁, c, idle, next, h, hc, hi, hn, e⟩
    · exact ⟨_, h, .cpu i (.leave (by rw [h.cpus]; exact hp))⟩
    · rw [e]
      refine ⟨s₁, h, .switch ?_ ?_ ?_ hn⟩ <;> rw [h.cpus] <;> assumption
  | @skip i hp => exact ⟨s, .refl s, .cpu i (.leave hp)⟩
  | @iret i hp => exact ⟨s, .refl s, .cpu i (.iret hp)⟩
  | @createTask i entry al h =>
    refine ⟨s, .refl s, ?_⟩
    rcases createTask_cases (s := s) (i := i) entry al with e | ⟨a, ha, _, e⟩ <;> rw [e]
    · exact .none
    · exact .kernel (h.1 a ha).1 (h.1 a ha).2 rfl rfl rfl rfl
  | @createTaskOnCpu i entry cpu al h =>
    refine ⟨s, .refl s, ?_⟩
    rcases createTaskOnCpu_cases (s := s) (i := i) entry cpu al with
      e | ⟨a, ha, _, e⟩ <;> rw [e]
    · exact .none
    · rw [taskPublish_setCpuId]
      exact .kernel (h.1 a ha).1 (h.1 a ha).2 rfl rfl rfl rfl
  | @createUserTask i al h => exact ⟨s, .refl s, createUserTask_effect h⟩
  | setCpu pid cpu =>
    refine ⟨s, .refl s, ?_⟩
    unfold taskSetCpu
    split
    · exact .none
    · split
      · exact .none
      · next hn =>
        simp only [not_or, Bool.not_eq_true] at hn
        exact .setCpu hn.2.2.2.2.1
  | @syscall i c call h hu hd hf =>
    have hm : Same s (s.taskMarkRunning c) := taskMarkRunning_same
    have hf' : (s.taskMarkRunning c).Fresh call := by
      cases call <;> first | exact hf.same hm | trivial
    have hd' : ((s.taskMarkRunning c).mem c).state ≠ .dead := by
      simp [taskMarkRunning, hd]
    obtain ⟨s₁, h₁, he⟩ := dispatch_effect (i := i) hf' hd' ((hm.mortal c).mpr (.inl hu))
    exact ⟨s₁, hm.trans h₁, he⟩
  | @exit i c h hu hr => exact ⟨_, exitCurrentTask_same (hu.imp id fun he => ⟨he, hr⟩), .none⟩
  | @abort i c h => exact ⟨_, taskAbortCurrentGroup_same, .none⟩
  | reap => exact ⟨s, .refl s, .reap⟩
  | @reaperWait i c h hrt =>
    exact ⟨_, same_setTask (u := { s.mem c with state := .waiting })
      ⟨rfl, rfl, rfl, fun hd => absurd hd (hr c hrt)⟩ nofun (.inl ⟨rfl, fun _ => .inr hrt⟩), .none⟩

end GenOS.Sched
