import Mathlib.Data.List.Nodup
import Mathlib.Data.List.Perm.Subperm
import GenOS.Kernel.TaskPublish

/-!
# Thread groups

The tasks of a group share the leader's address space. While the process identifiers are unique the
leader stays listed until its last thread is gone, its `thread_count` is the size of the group, and
the log of address spaces has each root created and released in turn.
-/

namespace GenOS.Sched

open Machine

variable {b : Boot} {s s' : Sched} {i : Nat}

/-- The number of listed tasks in the group of the leader with identifier `p`. -/
def members (s : Sched) (p : Nat) : Nat := s.list.countP fun t => decide ((s.mem t).tgid = p)

/-- Some listed leader owns the address space `root`. -/
def Owned (s : Sched) (root : Nat) : Prop :=
  ∃ l ∈ s.list, (s.mem l).isThread = false ∧ (s.mem l).pml4 = root

/-- Each root has been released as often as it was created, but for the one a leader still owns. -/
structure Balanced (log : List SpaceEvent) (root : Nat) (owned : Prop) : Prop where
  destroy : owned ∧ log.count (.create root) = log.count (.destroy root) + 1 ∨
    ¬ owned ∧ log.count (.create root) = log.count (.destroy root)
  shm : log.count (.shmCleanup root) = log.count (.destroy root)
  memory : log.count (.memoryRelease root) = log.count (.destroy root)

/-- The invariant of the groups. -/
structure Grouped (s : Sched) : Prop where
  bound : s.nextPid < 4294967296
  pid_lt : ∀ t ∈ s.list, (s.mem t).pid < s.nextPid
  pid_inj : ∀ t ∈ s.list, ∀ u ∈ s.list, (s.mem t).pid = (s.mem u).pid → t = u
  leader : ∀ t ∈ s.list, (s.mem t).isThread = false → (s.mem t).tgid = (s.mem t).pid
  thread : ∀ t ∈ s.list, (s.mem t).isThread = true → (s.mem t).pml4 ≠ 0 ∧
    ∃ l ∈ s.list, (s.mem l).isThread = false ∧ (s.mem l).pid = (s.mem t).tgid ∧
      (s.mem l).pml4 = (s.mem t).pml4
  space_inj : ∀ t ∈ s.list, ∀ u ∈ s.list, (s.mem t).isThread = false →
    (s.mem u).isThread = false → (s.mem t).pml4 = (s.mem u).pml4 → (s.mem t).pml4 ≠ 0 → t = u
  count : ∀ l ∈ s.list, (s.mem l).isThread = false →
    (s.mem l).threadCount = s.members (s.mem l).pid
  /-- A CPU has loaded what its current task uses. -/
  cr3 : ∀ i, (s.cpus i).activeCr3 = 0 ∨
    ∃ c, (s.cpus i).current = some c ∧ (s.mem c).pml4 = (s.cpus i).activeCr3
  ledger : ∀ root, root ≠ 0 → Balanced s.log root (s.Owned root)

/-- Every listed task has a listed leader, with its address space. -/
theorem Grouped.leads (h : Grouped s) {t : Nat} (ht : t ∈ s.list) :
    ∃ l ∈ s.list, (s.mem l).isThread = false ∧ (s.mem l).pid = (s.mem t).tgid ∧
      (s.mem l).pml4 = (s.mem t).pml4 := by
  cases hth : (s.mem t).isThread with
  | true => exact (h.thread t ht hth).2
  | false => exact ⟨t, ht, hth, (h.leader t ht hth).symm, rfl⟩

theorem Grouped.find (h : Grouped s) {t : Nat} (ht : t ∈ s.list) :
    s.taskFindByPid (s.mem t).pid = some t := by
  cases hf : s.taskFindByPid (s.mem t).pid with
  | none => exact absurd rfl (taskFindByPid_none hf t ht)
  | some u =>
    obtain ⟨hu, hp⟩ := taskFindByPid_some hf
    rw [h.pid_inj u hu t ht hp]

theorem Grouped.owner (h : Grouped s) {t : Nat} (ht : t ∈ s.list) :
    ∃ l ∈ s.list, s.taskMemoryOwner t = some l ∧ (s.mem l).isThread = false ∧
      (s.mem l).pid = (s.mem t).tgid ∧ (s.mem l).pml4 = (s.mem t).pml4 := by
  obtain ⟨l, hl, hth, hp, h4⟩ := h.leads ht
  refine ⟨l, hl, ?_, hth, hp, h4⟩
  unfold taskMemoryOwner
  cases hit : (s.mem t).isThread with
  | false =>
    have e : t = l := h.pid_inj t ht l hl ((h.leader t ht hit).symm.trans hp.symm)
    simp [e]
  | true =>
    rw [← hp, h.find hl]
    simp [h4]

/-- Fewer tasks are listed than identifiers have been handed out. -/
theorem Grouped.length_le (h : Grouped s) (hn : s.list.Nodup) : s.list.length ≤ s.nextPid := by
  have hd : (s.list.map fun t => (s.mem t).pid).Nodup :=
    (List.nodup_map_iff_inj_on hn).mpr fun t ht u hu => h.pid_inj t ht u hu
  have hs : (s.list.map fun t => (s.mem t).pid) ⊆ List.range s.nextPid := by
    intro p hp
    obtain ⟨t, ht, rfl⟩ := List.mem_map.mp hp
    exact List.mem_range.mpr (h.pid_lt t ht)
  simpa using (List.Nodup.subperm hd hs).length_le

/-! ## Steps that keep the groups -/

/-- The invariant only reads what names the tasks, the counts, the loaded roots and the log. -/
theorem Grouped.congr (h : Grouped s) (hl : s'.list = s.list) (hn : s'.nextPid = s.nextPid)
    (hi : ∀ t, (s'.mem t).toIdent = (s.mem t).toIdent)
    (hc : ∀ t, (s'.mem t).threadCount = (s.mem t).threadCount) (hlog : s'.log = s.log)
    (hcr : ∀ i, (s'.cpus i).activeCr3 = 0 ∨
      ∃ c, (s'.cpus i).current = some c ∧ (s.mem c).pml4 = (s'.cpus i).activeCr3) :
    Grouped s' where
  bound := hn ▸ h.bound
  pid_lt t := by rw [hl, hn, hi]; exact h.pid_lt t
  pid_inj t ht u hu := by
    rw [hi, hi u]
    exact h.pid_inj t (hl ▸ ht) u (hl ▸ hu)
  leader t := by rw [hl, hi]; exact h.leader t
  thread t := by simp only [hl, hi]; exact h.thread t
  space_inj t ht u hu := by
    rw [hi, hi u]
    exact h.space_inj t (hl ▸ ht) u (hl ▸ hu)
  count l := by
    unfold members
    simp only [hl, hi, hc]
    exact h.count l
  cr3 i := by simp only [hi]; exact hcr i
  ledger root := by
    unfold Owned
    simp only [hl, hi, hlog]
    exact h.ledger root

theorem Grouped.same (h : Grouped s) (hs : Same s s') : Grouped s' :=
  h.congr hs.list hs.nextPid (fun t => (hs.task t).ident) (fun t => (hs.task t).threadCount) hs.log
    (by rw [hs.cpus]; exact h.cr3)

theorem CpuMove.activeCr3 {p p' : Cpu} (h : CpuMove p p') : p'.activeCr3 = p.activeCr3 := by
  have ha : (ackRetiring p).activeCr3 = p.activeCr3 := by
    unfold ackRetiring
    split <;> rfl
  cases h with
  | entry => exact ha
  | enter _ _ => exact ha
  | leave _ => rfl
  | iret _ => rfl

/-- One CPU may load the root of its current task. -/
theorem Grouped.setCpu (h : Grouped s) {p : Cpu} (hp : p.activeCr3 = 0 ∨
    ∃ c, p.current = some c ∧ (s.mem c).pml4 = p.activeCr3) : Grouped (s.setCpu i p) :=
  h.congr rfl rfl (fun _ => rfl) (fun _ => rfl) rfl fun j => by
    by_cases hj : j = i
    · subst hj; rw [setCpu_cpus_self]; exact hp
    · rw [setCpu_cpus_ne hj]; exact h.cr3 j

/-! ## The log -/

theorem Balanced.discard {log : List SpaceEvent} {root r : Nat} {p : Prop}
    (h : Balanced log root p) (h0 : root ≠ 0) : Balanced (discardLog r log) root p := by
  unfold discardLog
  by_cases hr : r = 0
  · have hne : 0 ≠ root := h0.symm
    constructor <;> simp [hr, hne] <;> first | exact h.destroy | exact h.shm | exact h.memory
  · by_cases hrr : r = root
    · subst hrr
      have := h.destroy
      constructor <;> simp [hr] <;> first | omega | exact h.shm | exact h.memory
    · constructor <;> simp [hr, hrr] <;> first | exact h.destroy | exact h.shm | exact h.memory

theorem Balanced.release {log : List SpaceEvent} {root : Nat} {p q : Prop}
    (h : Balanced log root p) (hp : p) (hq : ¬ q) :
    Balanced ([.destroy root] ++ [.memoryRelease root, .shmCleanup root] ++ log) root q := by
  constructor
  · rcases h.destroy with ⟨_, hd⟩ | ⟨hn, _⟩
    · exact .inr ⟨hq, by simpa using hd⟩
    · exact absurd hp hn
  · simpa using h.shm
  · simpa using h.memory

/-! ## Publication -/

theorem Published.ident {a t : Nat} (h : Published s s' a) (ht : t ≠ a) :
    (s'.mem t).toIdent = (s.mem t).toIdent := by
  obtain ⟨n, e⟩ := h.others t ht
  rw [e]

theorem Published.nextPid_lt {a : Nat} (h : Published s s' a) (hb : s.nextPid < 4294967296)
    (hw : s'.nextPid ≠ 0) : s.nextPid + 1 < 4294967296 ∧ s'.nextPid = s.nextPid + 1 := by
  have e := h.nextPid
  omega

theorem Published.mem_list {a t : Nat} (h : Published s s' a) (hf : a ∉ s.list)
    (ht : t ∈ s'.list) : t ≠ a ∧ t ∈ s.list ∨ t = a := by
  rw [h.list] at ht
  rcases List.mem_append.mp ht with ht | ht
  · exact .inl ⟨fun e => hf (e ▸ ht), ht⟩
  · exact .inr (List.mem_singleton.mp ht)

theorem Published.members {a : Nat} (h : Published s s' a) (hf : a ∉ s.list) (p : Nat) :
    s'.members p = s.members p + if (s'.mem a).tgid = p then 1 else 0 := by
  have hc : s.list.countP (fun t => decide ((s'.mem t).tgid = p)) = s.members p := by
    refine List.countP_congr fun t ht => ?_
    rw [h.ident fun e => hf (e ▸ ht)]
  unfold Sched.members
  rw [h.list, List.countP_append, hc, List.countP_singleton]
  simp only [decide_eq_true_eq]
  rfl

/-- A new task keeps the invariant if its place among the groups is right. -/
theorem Grouped.published (h : Grouped s) (hpl : Placed s) {a : Nat} (hf : a ∉ s.list)
    (hi : ∀ i < s.cpuCount, (s.cpus i).idleTask ≠ some a) (hp : Published s s' a)
    (hw : s'.nextPid ≠ 0)
    (hlead : (s'.mem a).isThread = false → (s'.mem a).tgid = (s'.mem a).pid ∧
      ((s'.mem a).pml4 ≠ 0 → ∀ t ∈ s.list, (s.mem t).pml4 ≠ (s'.mem a).pml4))
    (hthread : (s'.mem a).isThread = true → (s'.mem a).pml4 ≠ 0 ∧
      ∃ l ∈ s.list, (s.mem l).isThread = false ∧ (s.mem l).pid = (s'.mem a).tgid ∧
        (s.mem l).pml4 = (s'.mem a).pml4)
    (hcount : ∀ l ∈ s'.list, (s'.mem l).isThread = false →
      (s'.mem l).threadCount = s'.members (s'.mem l).pid)
    (hlog : ∀ root, root ≠ 0 → Balanced s'.log root (s'.Owned root)) : Grouped s' := by
  obtain ⟨hlt, hn⟩ := hp.nextPid_lt h.bound hw
  have hmem : ∀ t ∈ s'.list, t ≠ a ∧ t ∈ s.list ∨ t = a := fun t ht => hp.mem_list hf ht
  have hold : ∀ t ∈ s.list, (s'.mem t).toIdent = (s.mem t).toIdent := fun t ht =>
    hp.ident fun e => hf (e ▸ ht)
  have hup : ∀ t ∈ s.list, t ∈ s'.list := fun t ht => hp.list ▸ List.mem_append_left _ ht
  have hthr : ∀ t ∈ s'.list, (s'.mem t).isThread = true → (s'.mem t).pml4 ≠ 0 ∧
      ∃ l ∈ s.list, (s.mem l).isThread = false ∧ (s.mem l).pid = (s'.mem t).tgid ∧
        (s.mem l).pml4 = (s'.mem t).pml4 := by
    intro t ht hth
    rcases hmem t ht with ⟨hne, ht⟩ | rfl
    · rw [hp.ident hne] at hth ⊢
      exact h.thread t ht hth
    · exact hthread hth
  exact
    { bound := hn ▸ hlt
      pid_lt := fun t ht => by
        rcases hmem t ht with ⟨hne, ht⟩ | rfl
        · rw [hp.ident hne, hn]
          exact (h.pid_lt t ht).trans (Nat.lt_succ_self _)
        · rw [hp.pid, hn]
          exact Nat.lt_succ_self _
      pid_inj := fun t ht u hu e => by
        rcases hmem t ht with ⟨hnt, ht⟩ | rfl <;> rcases hmem u hu with ⟨hnu, hu⟩ | rfl
        · rw [hp.ident hnt, hp.ident hnu] at e
          exact h.pid_inj t ht u hu e
        · rw [hp.ident hnt, hp.pid] at e
          exact absurd (h.pid_lt t ht) (by rw [e]; exact Nat.lt_irrefl _)
        · rw [hp.ident hnu, hp.pid] at e
          exact absurd (h.pid_lt u hu) (by rw [← e]; exact Nat.lt_irrefl _)
        · rfl
      leader := fun t ht hth => by
        rcases hmem t ht with ⟨hne, ht⟩ | rfl
        · rw [hp.ident hne] at hth ⊢
          exact h.leader t ht hth
        · exact (hlead hth).1
      thread := fun t ht hth => by
        obtain ⟨h4, l, hl, h1, h2, h3⟩ := hthr t ht hth
        refine ⟨h4, l, hup l hl, ?_⟩
        rw [hold l hl]
        exact ⟨h1, h2, h3⟩
      space_inj := fun t ht u hu hth huh e h0 => by
        rcases hmem t ht with ⟨hnt, ht⟩ | rfl <;> rcases hmem u hu with ⟨hnu, hu⟩ | rfl
        · rw [hp.ident hnt] at hth e h0
          rw [hp.ident hnu] at huh e
          exact h.space_inj t ht u hu hth huh e h0
        · rw [hp.ident hnt] at e h0
          exact absurd e ((hlead huh).2 (e ▸ h0) t ht)
        · rw [hp.ident hnu] at e
          exact absurd e.symm ((hlead hth).2 h0 u hu)
        · rfl
      count := hcount
      cr3 := fun j => by
        rw [hp.cpus]
        refine (h.cr3 j).imp id fun ⟨c, hc, e⟩ => ⟨c, hc, ?_⟩
        have hne : c ≠ a := by
          rintro rfl
          rcases hpl.cur j c hc with hid | ⟨hl, _⟩
          · exact hi j (hpl.idle j c hid).1 hid
          · exact hf hl
        rw [hp.ident hne]
        exact e
      ledger := hlog }

/-- The count of a leader after a publication that counts the thread at its leader. -/
theorem Grouped.published_count (h : Grouped s) {a : Nat} (hf : a ∉ s.list)
    (hp : Published s s' a) (hc : ∀ l ∈ s.list, (s'.mem l).threadCount = (s.mem l).threadCount +
      if (s'.mem a).tgid = (s.mem l).pid then 1 else 0) {l : Nat} (hl : l ∈ s.list)
    (hth : (s'.mem l).isThread = false) :
    (s'.mem l).threadCount = s'.members (s'.mem l).pid := by
  have hne : l ≠ a := fun e => hf (e ▸ hl)
  rw [hp.ident hne] at hth ⊢
  rw [hp.members hf, hc l hl, h.count l hl hth]

/-- A new leader, whose address space, if it has one, is new. -/
theorem Grouped.new_leader (h : Grouped s) (hpl : Placed s) {a : Nat} (hf : a ∉ s.list)
    (hi : ∀ i < s.cpuCount, (s.cpus i).idleTask ≠ some a) (hp : Published s s' a)
    (hw : s'.nextPid ≠ 0) (hth : (s'.mem a).isThread = false)
    (htg : (s'.mem a).tgid = (s'.mem a).pid) (hone : (s'.mem a).threadCount = 1)
    (hothers : ∀ l, l ≠ a → (s'.mem l).threadCount = (s.mem l).threadCount)
    (h4 : (s'.mem a).pml4 ≠ 0 → ∀ t ∈ s.list, (s.mem t).pml4 ≠ (s'.mem a).pml4)
    (hlog : ∀ root, root ≠ 0 → Balanced s'.log root (s'.Owned root)) : Grouped s' := by
  refine h.published hpl hf hi hp hw (fun _ => ⟨htg, h4⟩) (fun e => by rw [hth] at e; cases e)
    (fun l hl hlt => ?_) hlog
  rw [hp.pid] at htg
  rcases hp.mem_list hf hl with ⟨hne, hl⟩ | rfl
  · refine h.published_count hf hp (fun l hl => ?_) hl hlt
    -- nobody has the new identifier yet
    rw [hothers l (fun e => hf (e ▸ hl)), htg, if_neg, Nat.add_zero]
    exact fun e => absurd (h.pid_lt l hl) (by rw [e]; exact Nat.lt_irrefl _)
  · have h0 : s.members s.nextPid = 0 := by
      refine List.countP_eq_zero.mpr fun t ht => ?_
      obtain ⟨l, hl, _, hpid, _⟩ := h.leads ht
      have := h.pid_lt l hl
      simp only [decide_eq_true_eq]
      omega
    rw [hone, hp.members hf, hp.pid, htg, h0, if_pos rfl]

theorem Published.owned {a : Nat} (h : Published s s' a) (hf : a ∉ s.list) (root : Nat) :
    s'.Owned root ↔
      s.Owned root ∨ (s'.mem a).isThread = false ∧ (s'.mem a).pml4 = root := by
  unfold Owned
  rw [h.list]
  constructor
  · rintro ⟨l, hl, h1, h2⟩
    rcases List.mem_append.mp hl with hl | hl
    · rw [h.ident fun e => hf (e ▸ hl)] at h1 h2
      exact .inl ⟨l, hl, h1, h2⟩
    · rw [List.mem_singleton.mp hl] at h1 h2
      exact .inr ⟨h1, h2⟩
  · rintro (⟨l, hl, h1, h2⟩ | h)
    · refine ⟨l, List.mem_append_left _ hl, ?_⟩
      rw [h.ident fun e => hf (e ▸ hl)]
      exact ⟨h1, h2⟩
    · exact ⟨a, List.mem_append_right _ (List.mem_singleton_self a), h⟩

theorem Balanced.congr {log : List SpaceEvent} {root : Nat} {p q : Prop} (h : Balanced log root p)
    (hpq : p ↔ q) : Balanced log root q := propext hpq ▸ h

theorem Balanced.create {log : List SpaceEvent} {root r : Nat} {p q : Prop}
    (h : Balanced log root p) (hp : r = root → ¬ p) (hq : q ↔ p ∨ r = root) :
    Balanced (.create r :: log) root q := by
  by_cases hr : r = root
  · subst hr
    rcases h.destroy with ⟨hn, _⟩ | ⟨_, hd⟩
    · exact absurd hn (hp rfl)
    · refine ⟨.inl ⟨hq.mpr (.inr rfl), by simpa using hd⟩, ?_, ?_⟩
      · simpa using h.shm
      · simpa using h.memory
  · have hqp : q ↔ p := hq.trans (or_iff_left hr)
    constructor <;> simp [hr, hqp] <;> first | exact h.destroy | exact h.shm | exact h.memory

/-- The group of the current task and its leader, as `task_clone` finds it. -/
theorem Grouped.cloned (h : Grouped s) (hpl : Placed s) {c leader : Nat}
    (hc : (s.cpus i).current = some c) (h4 : (s.mem c).pml4 ≠ 0)
    (hl : s.taskFindByPid (s.mem c).tgid = some leader) : leader ∈ s.list ∧
      (s.mem leader).isThread = false ∧ (s.mem leader).pid = (s.mem c).tgid ∧
      (s.mem leader).pml4 = (s.mem c).pml4 := by
  have hcl : c ∈ s.list := by
    rcases hpl.cur i c hc with hid | ⟨hl, _⟩
    · exact absurd (hpl.idle i c hid).2.2.1 h4
    · exact hl
  obtain ⟨l, hll, hth, hp, hl4⟩ := h.leads hcl
  rw [← hp, h.find hll] at hl
  cases hl
  exact ⟨hll, hth, hp, hl4⟩

theorem Grouped.effect_kernel (h : Grouped s) (hpl : Placed s) {a : Nat} {u : Task}
    (hf : a ∉ s.list) (hi : ∀ i < s.cpuCount, (s.cpus i).idleTask ≠ some a) (h4 : u.pml4 = 0)
    (ht : u.isThread = false) (hn : u.threadCount = 1) (hs : u.state = .ready)
    (hw : (s.taskPublish a u).nextPid ≠ 0) :
    Grouped (s.taskPublish a u) := by
  have hp : Published s (s.taskPublish a u) a := taskPublish_published hs
  have hm : (s.taskPublish a u).mem a = { u with pid := s.nextPid, tgid := s.nextPid } := by
    rw [taskPublish_mem_self, ht]
    rfl
  refine h.new_leader hpl hf hi hp hw ?_ ?_ ?_ (fun l hl => by rw [taskPublish_mem_ne hl]) ?_ ?_
  · rw [hm]; exact ht
  · rw [hm]
  · rw [hm]; exact hn
  · rw [hm]; exact fun h0 => absurd h4 h0
  · intro root h0
    refine (h.ledger root h0).congr ?_
    rw [hp.owned hf, hm, or_iff_left fun hx => h0 (hx.2.symm.trans h4)]

theorem Grouped.effect_process (h : Grouped s) (hpl : Placed s) {a root : Nat} {u : Task}
    (hf : a ∉ s.list) (hi : ∀ i < s.cpuCount, (s.cpus i).idleTask ≠ some a)
    (hroot : ∀ b ∈ s.list, (s.mem b).pml4 ≠ root) (h4 : u.pml4 = root) (ht : u.isThread = false)
    (hn : u.threadCount = 1) (hs : u.state = .ready)
    (hw : ((s.placed root).taskPublish a u).nextPid ≠ 0) :
    Grouped ((s.placed root).taskPublish a u) := by
  have hp : Published s ((s.placed root).taskPublish a u) a := placed_published hs
  have hm : ((s.placed root).taskPublish a u).mem a =
      { u with pid := s.nextPid, tgid := s.nextPid } := by
    rw [taskPublish_mem_self, ht]
    rfl
  refine h.new_leader hpl hf hi hp hw ?_ ?_ ?_ (fun l hl => by rw [taskPublish_mem_ne hl]; rfl)
    ?_ ?_
  · rw [hm]; exact ht
  · rw [hm]
  · rw [hm]; exact hn
  · rw [hm]; exact fun _ => h4 ▸ hroot
  · intro r hr0
    refine (h.ledger r hr0).create ?_ ?_
    · rintro rfl ⟨l, hl, _, hx⟩
      exact hroot l hl hx
    · rw [hp.owned hf, hm]
      exact or_congr Iff.rfl ⟨fun hx => h4.symm.trans hx.2, fun hx => ⟨ht, h4.trans hx⟩⟩

theorem Grouped.effect_thread (h : Grouped s) (hpl : Placed s) {c leader a : Nat} {u : Task}
    (hf : a ∉ s.list) (hi : ∀ i < s.cpuCount, (s.cpus i).idleTask ≠ some a)
    (hcur : (s.cpus i).current = some c) (h4 : (s.mem c).pml4 ≠ 0)
    (hl : s.taskFindByPid (s.mem c).tgid = some leader) (hp4 : u.pml4 = (s.mem c).pml4)
    (hg : u.tgid = (s.mem c).tgid) (ht : u.isThread = true) (hs : u.state = .ready)
    (hw : ((s.joined leader).taskPublish a u).nextPid ≠ 0) :
    Grouped ((s.joined leader).taskPublish a u) := by
  have hp : Published s ((s.joined leader).taskPublish a u) a := joined_published hs
  have hm : ((s.joined leader).taskPublish a u).mem a = { u with pid := s.nextPid } := by
    rw [taskPublish_mem_self, ht]
    rfl
  obtain ⟨hll, hlth, hlp, hl4⟩ := h.cloned hpl hcur h4 hl
  refine h.published hpl hf hi hp hw (fun e => ?_) (fun _ => ?_) (fun l hl' hth => ?_)
    fun root h0 => (h.ledger root h0).congr ?_
  · rw [hm, show ({ u with pid := s.nextPid } : Task).isThread = true from ht] at e
    cases e
  · rw [hm]
    exact ⟨hp4 ▸ h4, leader, hll, hlth, hlp.trans hg.symm, hl4.trans hp4.symm⟩
  · rcases hp.mem_list hf hl' with ⟨_, hl'⟩ | rfl
    · refine h.published_count hf hp (fun x hx => ?_) hl' hth
      have hxa : x ≠ a := fun e => hf (e ▸ hx)
      rw [taskPublish_mem_ne hxa, joined_mem, hm,
        show ({ u with pid := s.nextPid } : Task).tgid = (s.mem leader).pid from hg.trans hlp.symm]
      by_cases hxl : x = leader
      · -- the count does not wrap: there are fewer tasks than identifiers
        have hle : s.members (s.mem leader).pid ≤ s.list.length := List.countP_le_length
        have hlen := h.length_le hpl.nodup
        have hlt := (hp.nextPid_lt h.bound hw).1
        have hcount := h.count leader hll hlth
        rw [if_pos hxl, hxl, if_pos rfl]
        show ((s.mem leader).threadCount + 1) % 4294967296 = (s.mem leader).threadCount + 1
        exact Nat.mod_eq_of_lt (by omega)
      · rw [if_neg hxl, if_neg fun e => hxl (h.pid_inj x hx leader hll e.symm), Nat.add_zero]
    · rw [hm, show ({ u with pid := s.nextPid } : Task).isThread = true from ht] at hth
      cases hth
  · rw [hp.owned hf, or_iff_left fun hx => ?_]
    rw [hm, show ({ u with pid := s.nextPid } : Task).isThread = true from ht] at hx
    cases hx.1

/-! ## Removal -/

/-- Unlinking of `t`, with the waiters woken, before the thread count and the releases. -/
def unlinked (s : Sched) (t : Nat) : Sched :=
  ({ s with list := s.list.erase t }).forTasks fun _ => wakeWaiter (s.mem t).pid

theorem unlinked_mem (t x : Nat) : ((s.unlinked t).mem x).toIdent = (s.mem x).toIdent ∧
    ((s.unlinked t).mem x).threadCount = (s.mem x).threadCount := by
  unfold unlinked
  rw [forTasks_mem]
  split
  · exact ⟨(wakeWaiter_same _ _).1.ident, (wakeWaiter_same _ _).1.threadCount⟩
  · exact ⟨rfl, rfl⟩

theorem removeTask_process {t : Nat} (ht : (s.mem t).isThread = false) :
    s.removeTask t = (s.unlinked t).releaseSpace (s.mem t).pml4 := by
  have e := (unlinked_mem (s := s) t t).1
  unfold removeTask
  dsimp only
  rw [← unlinked, e, ht]
  rfl

/-- The removal of a thread is counted at its leader. -/
theorem Grouped.removeTask_thread (h : Grouped s) {t : Nat} (hl : t ∈ s.list)
    (ht : (s.mem t).isThread = true) : ∃ l ∈ s.list, l ≠ t ∧ (s.mem l).pid = (s.mem t).tgid ∧
      s.removeTask t = (s.unlinked t).setTask l { (s.unlinked t).mem l with
        threadCount := ((s.unlinked t).mem l).threadCount - 1 } := by
  obtain ⟨_, l, hll, hth, hp, h4⟩ := h.thread t hl ht
  have hne : l ≠ t := by
    rintro rfl
    rw [ht] at hth
    cases hth
  have hmem := unlinked_mem (s := s) t
  have hfind : (s.unlinked t).taskFindByPid (s.mem t).tgid = some l := by
    cases hf : (s.unlinked t).taskFindByPid (s.mem t).tgid with
    | none =>
      refine absurd ?_ (taskFindByPid_none hf l ((List.mem_erase_of_ne hne).mpr hll))
      rw [(hmem l).1, hp]
    | some u =>
      obtain ⟨hu, hup⟩ := taskFindByPid_some hf
      rw [(hmem u).1, ← hp] at hup
      rw [h.pid_inj u (List.mem_of_mem_erase hu) l hll hup]
  have hpos : ((s.unlinked t).mem l).threadCount ≠ 0 := by
    rw [(hmem l).2, h.count l hll hth, ← Nat.pos_iff_ne_zero]
    exact List.countP_pos_iff.mpr ⟨t, hl, by simp [hp]⟩
  refine ⟨l, hll, hne, hp, ?_⟩
  unfold removeTask
  dsimp only
  rw [← unlinked, (hmem t).1, ht, hfind]
  simp only [hpos, ↓reduceIte]

theorem Removed.members {t : Nat} (hr : Removed s s' t) (hl : t ∈ s.list) (p : Nat) :
    s'.members p = s.members p - if (s.mem t).tgid = p then 1 else 0 := by
  unfold Sched.members
  simp only [hr.list, hr.ident, (List.perm_cons_erase hl).countP_eq, List.countP_cons,
    decide_eq_true_eq, Nat.add_sub_cancel]

/-- What a removal does to the counts of the leaders that stay. -/
theorem Grouped.removed_count (h : Grouped s) {t : Nat} (hl : t ∈ s.list) {l : Nat}
    (hll : l ∈ s.list) (hne : l ≠ t) : ((s.removeTask t).mem l).threadCount =
      (s.mem l).threadCount - if (s.mem t).tgid = (s.mem l).pid then 1 else 0 := by
  have hmem := unlinked_mem (s := s) t
  cases hth : (s.mem t).isThread with
  | false =>
    rw [removeTask_process hth, h.leader t hl hth,
      if_neg fun e => hne (h.pid_inj l hll t hl e.symm)]
    exact (hmem l).2
  | true =>
    obtain ⟨x, hxl, _, hp, e⟩ := h.removeTask_thread hl hth
    rw [e, setTask_mem, ← hp]
    by_cases hx : l = x
    · rw [if_pos hx, if_pos (by rw [hx]), hx]
      exact congrArg (· - 1) (hmem x).2
    · rw [if_neg hx, if_neg fun e => hx (h.pid_inj x hxl l hll e).symm]
      exact (hmem l).2

theorem Grouped.removeTask (h : Grouped s) (hpl : Placed s) {t : Nat} (hl : t ∈ s.list)
    (hlast : (s.mem t).isThread = false → (s.mem t).pml4 ≠ 0 →
      ∀ th ∈ s.list, th ≠ t → (s.mem th).pml4 ≠ (s.mem t).pml4) : Grouped (s.removeTask t) := by
  have hr : Removed s (s.removeTask t) t := removeTask_removed
  generalize hs' : s.removeTask t = s' at hr
  have hmem : ∀ x ∈ s'.list, x ∈ s.list ∧ x ≠ t := by
    intro x hx
    rw [hr.list] at hx
    exact ⟨List.mem_of_mem_erase hx, (hpl.nodup.mem_erase_iff.mp hx).1⟩
  have hstay : ∀ x ∈ s.list, x ≠ t → x ∈ s'.list := fun x hx hne =>
    hr.list ▸ (List.mem_erase_of_ne hne).mpr hx
  refine
    { bound := hr.nextPid ▸ h.bound
      pid_lt := fun x hx => by rw [hr.ident, hr.nextPid]; exact h.pid_lt x (hmem x hx).1
      pid_inj := fun x hx y hy e => by
        rw [hr.ident, hr.ident y] at e
        exact h.pid_inj x (hmem x hx).1 y (hmem y hy).1 e
      leader := fun x hx => by rw [hr.ident]; exact h.leader x (hmem x hx).1
      thread := fun x hx hth => ?_
      space_inj := fun x hx y hy => by
        rw [hr.ident, hr.ident y]
        exact h.space_inj x (hmem x hx).1 y (hmem y hy).1
      count := fun x hx hth => ?_
      cr3 := fun j => by simp only [hr.cpus, hr.ident]; exact h.cr3 j
      ledger := fun root h0 => ?_ }
  · obtain ⟨hxl, hxt⟩ := hmem x hx
    simp only [hr.ident] at hth ⊢
    obtain ⟨h4, l, hll, h1, h2, h3⟩ := h.thread x hxl hth
    refine ⟨h4, l, hstay l hll ?_, h1, h2, h3⟩
    -- the leader of a listed thread is not removed
    rintro rfl
    exact hlast h1 (h3 ▸ h4) x hxl hxt h3.symm
  · obtain ⟨hxl, hxt⟩ := hmem x hx
    have hc := h.removed_count hl hxl hxt
    rw [hs'] at hc
    rw [hr.ident] at hth ⊢
    rw [hc, h.count x hxl hth, hr.members hl]
  · cases hth : (s.mem t).isThread with
    | true =>
      have hlog : s'.log = s.log := by
        obtain ⟨x, _, _, _, e⟩ := h.removeTask_thread hl hth
        rw [← hs', e]
        rfl
      rw [hlog]
      refine (h.ledger root h0).congr ⟨fun ⟨l, hll, h1, h2⟩ => ?_, fun ⟨l, hll, h1, h2⟩ => ?_⟩
      · have hlt : l ≠ t := by
          rintro rfl
          rw [hth] at h1
          cases h1
        exact ⟨l, hstay l hll hlt, by rw [hr.ident]; exact ⟨h1, h2⟩⟩
      · rw [hr.ident] at h1 h2
        exact ⟨l, (hmem l hll).1, h1, h2⟩
    | false =>
      have hlog : s'.log = (s.releaseSpace (s.mem t).pml4).log := by
        rw [← hs', removeTask_process hth]
        rfl
      rw [hlog]
      by_cases hroot : (s.mem t).pml4 = root
      · -- the last owner of the root goes
        subst hroot
        have hrel := (h.ledger _ h0).release ⟨t, hl, hth, rfl⟩ (q := s'.Owned (s.mem t).pml4) ?_
        · unfold releaseSpace
          rw [if_neg h0]
          exact hrel
        · rintro ⟨l, hll, h1, h2⟩
          rw [hr.ident] at h1 h2
          obtain ⟨hll, hlt⟩ := hmem l hll
          exact hlt (h.space_inj l hll t hl h1 hth h2 (h2 ▸ h0))
      · have howned : s.Owned root ↔ s'.Owned root := by
          constructor
          · rintro ⟨l, hll, h1, h2⟩
            refine ⟨l, hstay l hll fun e => hroot (e ▸ h2), ?_⟩
            rw [hr.ident]
            exact ⟨h1, h2⟩
          · rintro ⟨l, hll, h1, h2⟩
            rw [hr.ident] at h1 h2
            exact ⟨l, (hmem l hll).1, h1, h2⟩
        have hb := (h.ledger root h0).congr howned
        unfold releaseSpace
        split
        · next e =>
          have hne : 0 ≠ root := h0.symm
          constructor <;> simp [e, hne] <;> first | exact hb.destroy | exact hb.shm |
            exact hb.memory
        · constructor <;> simp [hroot] <;>
            first | exact hb.destroy | exact hb.shm | exact hb.memory

theorem Grouped.reapOne (h : Grouped s) (hpl : Placed s) {t : Nat} (hl : t ∈ s.list) :
    Grouped (s.reapOne t) := by
  rcases reapOne_cases s t with ⟨hs, _⟩ | ⟨_, _, _, hlast, e⟩
  · exact h.same hs
  · rw [e]
    exact h.removeTask hpl hl hlast

/-! ## Every step -/

theorem Grouped.switch (h : Grouped s) (hpl : Placed s) {c idle next : Nat}
    (hi : (s.cpus i).idleTask = some idle)
    (hn : next = idle ∨ next ∈ s.list ∧ s.eligible i next = true) :
    Grouped ((s.switchTo i c next).leave i) := by
  have hs := switch_same (hpl.next_alive hi hn)
  unfold leave switchTo
  dsimp only
  rw [setCpu_setCpu, setCpu_cpus_self]
  exact (h.same hs).setCpu (.inr ⟨next, rfl, hs.pml4 next⟩)

theorem Grouped.effect (h : Grouped s) (hpl : Placed s) (he : Effect s s')
    (hw : s'.nextPid ≠ 0) : Grouped s' := by
  cases he with
  | none => exact h
  | tick n => exact h.congr rfl rfl (fun _ => rfl) (fun _ => rfl) rfl h.cr3
  | @cpu i p hm => exact h.setCpu (by rw [hm.activeCr3, hm.current]; exact h.cr3 i)
  | switch _ _ hi hn => exact h.switch hpl hi hn
  | kernel hf hi h4 ht hn hs => exact h.effect_kernel hpl hf hi h4 ht hn hs hw
  | process hf hi _ hroot h4 ht hn hs =>
    exact h.effect_process hpl hf hi hroot h4 ht hn hs hw
  | thread hf hi hcur h4 hl _ hp4 hg ht hs =>
    exact h.effect_thread hpl hf hi hcur h4 hl hp4 hg ht hs hw
  | discard root _ =>
    exact { h with ledger := fun r h0 => (h.ledger r h0).discard h0 }
  | @setCpu t cpu _ =>
    refine h.congr rfl rfl (fun u => ?_) (fun u => ?_) rfl h.cr3
    all_goals
      rw [setTask_mem]
      split
      · next e => rw [e]
      · rfl
  | reap =>
    refine (taskReapDead_induct (P := fun s => Grouped s ∧ Placed s) hpl.nodup ⟨h, hpl⟩ ?_).1
    intro s t ⟨h, hpl⟩ _ ht
    exact ⟨h.reapOne hpl ht, hpl.reapOne t⟩

theorem Grouped.step {op : Op} {r : Sched × Int} (h : Grouped s) (hpl : Placed s)
    (hs : s.Step op r) (hw : r.1.nextPid ≠ 0) : Grouped r.1 := by
  obtain ⟨s₁, h₁, he⟩ := hs.effect hpl.reaper_alive
  exact (h.same h₁).effect (hpl.same h₁) he hw

theorem taskInit_grouped (b : Boot) : Grouped (taskInit b) := by
  have hi := taskInit_mem_init b
  have hr := taskInit_mem_reaper b
  have hl := taskInit_list b
  have hlog : (taskInit b).log = [] := by rw [taskInit_eq]; rfl
  have hcpu : ∀ i, ((taskInit b).cpus i).activeCr3 = 0 := by
    intro i
    rw [taskInit_cpus]
    rcases bootTable_cpu b i with ⟨d, e⟩ | e <;> rw [e]
    rfl
  -- the boot task and the reaper are their own leaders
  have hth : ∀ t ∈ (taskInit b).list, ((taskInit b).mem t).isThread = false ∧
      ((taskInit b).mem t).pml4 = 0 ∧ ((taskInit b).mem t).threadCount = 1 ∧
      ((taskInit b).mem t).tgid = ((taskInit b).mem t).pid := by
    intro t ht
    rw [hl] at ht
    rcases List.mem_pair.mp ht with rfl | rfl
    · rw [hi]; exact ⟨rfl, rfl, rfl, rfl⟩
    · rw [hr]; exact ⟨rfl, rfl, rfl, rfl⟩
  have hpi : ((taskInit b).mem b.init).pid = 0 := by rw [hi]; rfl
  have hpr : ((taskInit b).mem b.reaper).pid = 1 := by rw [hr]; rfl
  have hgi : ((taskInit b).mem b.init).tgid = 0 := by rw [hi]; rfl
  have hgr : ((taskInit b).mem b.reaper).tgid = 1 := by rw [hr]; rfl
  have hpid : ∀ t ∈ (taskInit b).list, t = b.init ∧ ((taskInit b).mem t).pid = 0 ∨
      t = b.reaper ∧ ((taskInit b).mem t).pid = 1 := by
    intro t ht
    rw [hl] at ht
    rcases List.mem_pair.mp ht with rfl | rfl
    · exact .inl ⟨rfl, hpi⟩
    · exact .inr ⟨rfl, hpr⟩
  constructor
  · rw [taskInit_nextPid]
    decide
  · intro t ht
    rw [taskInit_nextPid]
    rcases hpid t ht with ⟨_, e⟩ | ⟨_, e⟩ <;> rw [e] <;> decide
  · intro t ht u hu e
    rcases hpid t ht with ⟨h1, h2⟩ | ⟨h1, h2⟩ <;> rcases hpid u hu with ⟨h3, h4⟩ | ⟨h3, h4⟩
    · rw [h1, h3]
    · omega
    · omega
    · rw [h1, h3]
  · exact fun t ht _ => (hth t ht).2.2.2
  · intro t ht h
    rw [(hth t ht).1] at h
    cases h
  · exact fun t ht _ _ _ _ _ h0 => absurd (hth t ht).2.1 h0
  · intro l hll _
    rw [(hth l hll).2.2.1]
    unfold members
    rw [hl]
    rcases hpid l hll with ⟨_, e⟩ | ⟨_, e⟩ <;> rw [e] <;> simp [hgi, hgr]
  · exact fun i => .inl (hcpu i)
  · intro root h0
    rw [hlog]
    refine ⟨.inr ⟨?_, rfl⟩, rfl, rfl⟩
    rintro ⟨t, ht, _, h4⟩
    exact h0 (h4.symm.trans (hth t ht).2.1)

/-! ## The moment of release -/

/-- Between the two logs, something of the address space `root` is released. -/
def Releases (root : Nat) (log log' : List SpaceEvent) : Prop :=
  ∃ e ∈ [SpaceEvent.shmCleanup root, .memoryRelease root, .destroy root], log.count e < log'.count e

/-- No listed task but `t` uses `root`, and no CPU has it loaded. -/
structure LastUse (s : Sched) (root : Nat) (t : Option Nat) : Prop where
  listed : ∀ u ∈ s.list, some u ≠ t → (s.mem u).pml4 ≠ root
  loaded : ∀ i, (s.cpus i).activeCr3 ≠ root

theorem Releases.of_release {root r : Nat} (h : Releases root s.log (s.releaseSpace r).log) :
    r = root := by
  obtain ⟨e, he, hlt⟩ := h
  by_contra hne
  unfold releaseSpace at hlt
  simp only [List.mem_cons, List.not_mem_nil, or_false] at he
  split at hlt <;> rcases he with rfl | rfl | rfl <;> simp [hne] at hlt

/-- A turn of the reaper releases the address space of its task, the last that uses it. -/
theorem Grouped.turn_releases (h : Grouped s) (hpl : Placed s) {t root : Nat} (ht : t ∈ s.list)
    (h0 : root ≠ 0) (hr : Releases root s.log (s.reapOne t).log) :
    (s.mem t).pml4 = root ∧ LastUse s root (some t) := by
  have hno : ∀ {log : List SpaceEvent}, log = s.log → Releases root s.log log → False := by
    rintro _ rfl ⟨_, _, hlt⟩
    exact Nat.lt_irrefl _ hlt
  rcases reapOne_cases s t with ⟨hs, _⟩ | ⟨_, ha, _, hlast, e⟩
  · exact (hno hs.log hr).elim
  · rw [e] at hr
    cases hth : (s.mem t).isThread with
    | true =>
      obtain ⟨x, _, _, _, e⟩ := h.removeTask_thread ht hth
      rw [e] at hr
      exact (hno rfl hr).elim
    | false =>
      rw [removeTask_process hth] at hr
      have h4 : (s.mem t).pml4 = root := Releases.of_release (s := s) hr
      have hothers : ∀ u ∈ s.list, u ≠ t → (s.mem u).pml4 ≠ root := fun u hu hne =>
        h4 ▸ hlast hth (h4 ▸ h0) u hu hne
      refine ⟨h4, fun u hu hne => hothers u hu fun e => hne (by rw [e]), fun i hcr => ?_⟩
      -- a CPU that has the root loaded runs a listed task of the group
      rcases h.cr3 i with hz | ⟨c, hc, hc4⟩
      · exact h0 (hcr.symm.trans hz)
      · rcases hpl.cur i c hc with hid | ⟨hcl, _⟩
        · exact h0 ((hcr.symm.trans hc4.symm).trans (hpl.idle i c hid).2.2.1)
        · refine hothers c hcl (fun e => ?_) (hc4.trans hcr)
          rw [hpl.active (.inl (e ▸ hc))] at ha
          cases ha

/-- The steps other than a pass of the reaper release only address spaces that never had a task. -/
theorem Step.log_cases {op : Op} {r : Sched × Int} (hs : s.Step op r) (hop : op ≠ .reap) :
    (r.1.log = s.log ∨ ∃ root, r.1.log = .create root :: s.log) ∨
    ∃ root, (root ≠ 0 → ∀ t ∈ s.list, (s.mem t).pml4 ≠ root) ∧ r.1.log = discardLog root s.log := by
  have hexec : ∀ {s₁ : Sched} {i : Nat} {al : Alloc}, Same s s₁ → al.Fresh s →
      ((s₁.createUserTask i al).1.log = s.log ∨
        ∃ root, (s₁.createUserTask i al).1.log = .create root :: s.log) ∨
      ∃ root, (root ≠ 0 → ∀ t ∈ s.list, (s.mem t).pml4 ≠ root) ∧
        (s₁.createUserTask i al).1.log = discardLog root s.log := by
    intro s₁ i al hm hf
    rw [← hm.log]
    rcases createUserTask_cases (s := s₁) (i := i) al hf.space_ne with
      e | ⟨root, hroot, e⟩ | ⟨_, root, _, _, _, _, e, _⟩ <;> rw [e]
    · exact .inl (.inl rfl)
    · exact .inr ⟨root, fun h0 => (hf.2 root (hroot h0)).2, rfl⟩
    · exact .inl (.inr ⟨root, rfl⟩)
  cases hs with
  | tick => exact .inl (.inl rfl)
  | entry i => exact .inl (.inl (by rw [taskContextEnter_eq]; rfl))
  | @enter i c h => exact .inl (.inl (by rw [taskContextEnter_eq]; rfl))
  | @schedule i hp =>
    refine .inl (.inl ?_)
    rcases schedule_cases s i with h | ⟨s₁, c, idle, next, h, _, _, _, e⟩
    · exact h.log
    · show ((s.schedule i).leave i).log = s.log
      rw [e]
      exact h.log
  | skip hp => exact .inl (.inl rfl)
  | iret hp => exact .inl (.inl rfl)
  | @createTask i entry al hf =>
    rcases createTask_cases (s := s) (i := i) entry al with e | ⟨a, _, _, e⟩ <;> rw [e]
    · exact .inl (.inl rfl)
    · exact .inl (.inl rfl)
  | @createTaskOnCpu i entry cpu al hf =>
    rcases createTaskOnCpu_cases (s := s) (i := i) entry cpu al with e | ⟨a, _, _, e⟩ <;> rw [e]
    · exact .inl (.inl rfl)
    · exact .inl (.inl rfl)
  | createUserTask i hf => exact hexec (.refl s) hf
  | setCpu pid cpu =>
    refine .inl (.inl ?_)
    unfold taskSetCpu
    split
    · rfl
    · split <;> rfl
  | @syscall i c call h hu hd hf =>
    have hm : Same s (s.taskMarkRunning c) := taskMarkRunning_same
    have hd' : ((s.taskMarkRunning c).mem c).state ≠ .dead := by simp [taskMarkRunning, hd]
    have hmo : (s.taskMarkRunning c).Mortal c := (hm.mortal c).mpr (.inl hu)
    cases call with
    | exec al =>
      rw [dispatch_exec]
      exact hexec hm hf
    | fork ok al =>
      dsimp only [dispatch]
      rw [← hm.log]
      rcases taskFork_cases (s := s.taskMarkRunning c) (i := i) ok al (Alloc.Fresh.space_ne hf) with
        e | ⟨root, hroot, e⟩ | ⟨_, root, _, _, _, _, e, _⟩ <;> rw [e]
      · exact .inl (.inl rfl)
      · exact .inr ⟨root, fun h0 => (hf.2 root (hroot h0)).2, rfl⟩
      · exact .inl (.inr ⟨root, rfl⟩)
    | clone entry stackTop al =>
      dsimp only [dispatch]
      rw [← hm.log]
      rcases taskClone_cases (s := s.taskMarkRunning c) (i := i) entry stackTop al with
        e | ⟨_, _, _, _, _, _, _, _, _, _, e, _⟩ <;> rw [e]
      · exact .inl (.inl rfl)
      · exact .inl (.inl rfl)
    | sleep w => exact .inl (.inl hm.log)
    | waitPid p => exact .inl (.inl ((waitForPid_same hd' hmo).log.trans hm.log))
    | nice v => exact .inl (.inl hm.log)
    | other => exact .inl (.inl hm.log)
  | exit h hu hr => exact .inl (.inl rfl)
  | abort h => exact .inl (.inl taskAbortCurrentGroup_same.log)
  | reap => exact absurd rfl hop
  | reaperWait h hr => exact .inl (.inl rfl)

theorem Grouped.step_releases (h : Grouped s) (hpl : Placed s) {op : Op} {r : Sched × Int}
    (hs : s.Step op r) (hop : op ≠ .reap) {root : Nat} (h0 : root ≠ 0)
    (hr : Releases root s.log r.1.log) : LastUse s root none := by
  obtain ⟨e, he, hlt⟩ := hr
  simp only [List.mem_cons, List.not_mem_nil, or_false] at he
  rcases hs.log_cases hop with (hlog | ⟨x, hlog⟩) | ⟨x, hfree, hlog⟩ <;> rw [hlog] at hlt
  · exact absurd hlt (Nat.lt_irrefl _)
  · rcases he with rfl | rfl | rfl <;> simp at hlt
  · have hx : x = root := by
      by_contra hne
      unfold discardLog at hlt
      split at hlt <;> rcases he with rfl | rfl | rfl <;> simp [hne] at hlt
    subst hx
    refine ⟨fun u hu _ => hfree h0 u hu, fun i hcr => ?_⟩
    rcases h.cr3 i with hz | ⟨c, hc, hc4⟩
    · exact h0 (hcr.symm.trans hz)
    · rcases hpl.cur i c hc with hid | ⟨hcl, _⟩
      · exact h0 ((hcr.symm.trans hc4.symm).trans (hpl.idle i c hid).2.2.1)
      · exact hfree h0 c hcl (hc4.trans hcr)

/-! ## Runs -/

/-- A step at which `next_pid` does not wrap. -/
def NextUnwrapped (s : Sched) (op : Op) (s' : Sched) : Prop := Next s op s' ∧ s'.nextPid ≠ 0

/-- The lifetime of the groups, as a state shows it. -/
structure GroupsOk (s : Sched) : Prop where
  /-- Every thread's memory owner is its listed leader. -/
  owner : ∀ t ∈ s.list, ∃ l ∈ s.list, s.taskMemoryOwner t = some l ∧
    (s.mem l).isThread = false ∧ (s.mem l).pid = (s.mem t).tgid ∧ (s.mem l).pml4 = (s.mem t).pml4
  count : ∀ l ∈ s.list, (s.mem l).isThread = false →
    (s.mem l).threadCount = s.members (s.mem l).pid
  ledger : ∀ root, root ≠ 0 → Balanced s.log root (s.Owned root)

/-- Every release finds its address space unused. -/
structure ReleasesOk (s : Sched) : Prop where
  /-- At the turn of `t` in a pass of the reaper. -/
  turn : ∀ l t l', s.list = l ++ t :: l' → ∀ root, root ≠ 0 →
    Releases root (l.foldl reapOne s).log ((l.foldl reapOne s).reapOne t).log →
    ((l.foldl reapOne s).mem t).pml4 = root ∧ LastUse (l.foldl reapOne s) root (some t)
  /-- In a constructor that fails. -/
  discard : ∀ op r, s.Step op r → op ≠ .reap → ∀ root, root ≠ 0 →
    Releases root s.log r.1.log → LastUse s root none

/-- **Thread groups.** While `next_pid` has not wrapped, every thread has its leader, the leader
counts its group, and an address space is released once, when it is used no more. -/
theorem thread_groups {ops : List Op} (h : Run NextUnwrapped (taskInit b) ops s) :
    GroupsOk s ∧ ReleasesOk s := by
  obtain ⟨hg, hpl⟩ := h.invariant (I := fun s => Grouped s ∧ Placed s)
    ⟨taskInit_grouped b, taskInit_placed b⟩ fun _ _ _ ⟨hg, hpl⟩ ⟨⟨_, hs⟩, hw⟩ =>
      ⟨hg.step hpl hs hw, hpl.step hs⟩
  refine ⟨⟨fun t ht => hg.owner ht, hg.count, hg.ledger⟩, ?_, fun op r hs hop root h0 hr =>
    hg.step_releases hpl hs hop h0 hr⟩
  intro l t l' hl root h0 hr
  have hnd : (l ++ t :: l').Nodup := hl ▸ hpl.nodup
  have htl : t ∉ l := fun ht => (List.nodup_append.mp hnd).2.2 t ht t List.mem_cons_self rfl
  obtain ⟨hg', hpl', ht⟩ := reapOnes_induct
    (P := fun s => Grouped s ∧ Placed s ∧ t ∈ s.list) (List.nodup_append.mp hnd).1
    (fun x hx => hl ▸ List.mem_append_left _ hx) hpl.nodup
    ⟨hg, hpl, hl ▸ List.mem_append_right _ List.mem_cons_self⟩ fun s u ⟨hg, hpl, ht⟩ _ hu hul => by
      refine ⟨hg.reapOne hpl hu, hpl.reapOne u, ?_⟩
      rcases reapOne_list (s := s) (t := u) with e | e <;> rw [e]
      · exact ht
      · exact (List.mem_erase_of_ne fun e : t = u => htl (e ▸ hul)).mpr ht
  exact hg'.turn_releases hpl' ht h0 hr

/-! ## A group dies -/

/-- A run in which the constructors are called less than `2^32 - 2` times does not wrap. -/
theorem run_unwrapped {ops : List Op} (h : Run Next (taskInit b) ops s)
    (hlt : 2 + constructs ops < 4294967296) : Run NextUnwrapped (taskInit b) ops s := by
  induction h with
  | nil => exact .nil
  | @snoc l t u op hr ha ih =>
    have e : constructs l ≤ constructs (l ++ [op]) := by
      rw [constructs, constructs, List.countP_append]
      exact Nat.le_add_right ..
    have := (run_nextPid (hr.snoc ha) hlt).1
    exact (ih (by omega)).snoc ⟨ha, by omega⟩

/-- A process starts a thread and exits, and the processor leaves its stack. -/
def smallGroup : Sched :=
  let s := ((taskInit smallBoot).createUserTask 0 ⟨some 10, true, some 4096, true, 0⟩).1
  let s := (((s.interrupt 0).taskMarkRunning 10).taskClone 0 4096 8192
    ⟨some 11, true, none, true, 0⟩).1
  ((s.exitCurrentTask 10).interrupt 0).taskContextEnter 0

theorem smallGroup_reaches :
    ∃ ops, Run Next (taskInit smallBoot) ops smallGroup ∧ constructs ops = 2 := by
  have h₁ : Run Next (taskInit smallBoot) [userOp 10 4096] _ :=
    .single (userOp_next (by decide) (by decide))
  have h₂ := h₁.append (interrupt_run (i := 0) (c := 0) ⟨by decide, by decide, by decide⟩)
  have h₃ := h₂.snoc ⟨_, @Step.syscall _ 0 10 (.clone 4096 8192 ⟨some 11, true, none, true, 0⟩)
    ⟨by decide, by decide, by decide⟩ (by decide) (by decide)
    ⟨fun _ h => Option.some.inj h ▸ by decide, nofun⟩⟩
  have h₄ := h₃.snoc ⟨0, .exit (i := 0) (c := 10) ⟨by decide, by decide, by decide⟩
    (by decide) (by decide)⟩
  have h₅ := h₄.append (interrupt_run (i := 0) (c := 10) ⟨by decide, by decide, by decide⟩)
  exact ⟨_, h₅.snoc ⟨0, .entry 0⟩, rfl⟩

/-- The first pass of the reaper takes the thread, the second the leader with the address space. -/
theorem thread_groups_small :
    GroupsOk smallGroup ∧ (smallGroup.mem 10).threadCount = 2 ∧
    GroupsOk smallGroup.taskReapDead ∧ ReleasesOk smallGroup.taskReapDead ∧
    smallGroup.taskReapDead.list = [0, 1, 10] ∧
    GroupsOk smallGroup.taskReapDead.taskReapDead ∧
    smallGroup.taskReapDead.taskReapDead.log =
      [.destroy 4096, .memoryRelease 4096, .shmCleanup 4096, .create 4096] := by
  obtain ⟨ops, h₁, he⟩ := smallGroup_reaches
  have h₂ := h₁.snoc (a := .reap) ⟨0, .reap⟩
  have h₃ := h₂.snoc (a := .reap) ⟨0, .reap⟩
  have hlt : ∀ l, constructs (ops ++ l) = 2 + constructs l := fun l => by
    rw [← he, constructs, List.countP_append]
    rfl
  have h₁ := thread_groups (run_unwrapped h₁ (by omega))
  have h₂ := thread_groups (run_unwrapped h₂ (by rw [hlt]; decide))
  have h₃ := thread_groups (run_unwrapped h₃ (by rw [List.append_assoc, hlt]; decide))
  exact ⟨h₁.1, by decide, h₂.1, h₂.2, by decide, h₃.1, by decide⟩

end GenOS.Sched
