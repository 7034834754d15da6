import Mathlib.Data.List.Basic
import GenOS.Lib.Machine
import GenOS.Drivers.IoRequest

/-!
# Admission to a device

The request object of one device, under its device lock: each call of `io_request.c` on it is one
step, by any task and with any ticket. Other devices draw ids from the same counter.
`AdmissionHistory` records what the calls handed out; `AdmissionInv` ties it to the queue and to the
holder.
-/

namespace GenOS

open Machine

/-! ## Calls -/

/-- The request object of a device, and `next_id`. -/
structure Admission where
  request : IoRequest := {}
  nextId : Nat := 0

/-- The calls on the request object, with what they read. -/
inductive AdmissionOp where
  /-- `io_request_begin_owned`; `io_request_begin` has no owner and no ticket. -/
  | beginOwned (owner : Nat) (admission : Option Nat) (deadline now₁ now₂ now₃ : Nat)
  | cancelWaiter (admission : Nat)
  | expireWaiters (now : Nat)
  | cancelWaiters
  | complete (result : Int)
  | abort (error : Int)
  | release
  /-- Another device allocates an id. -/
  | allocate

/-- What a call hands out. -/
structure AdmissionOut where
  ticket : Option Nat := none
  token : Option Nat := none

/-- The ticket that a call brings. -/
def AdmissionOp.reserved : AdmissionOp → Nat
  | .beginOwned _ admission _ _ _ _ => admission.getD 0
  | _ => 0

def Admission.step (s : Admission) : AdmissionOp → Admission × AdmissionOut
  | .beginOwned owner admission deadline now₁ now₂ now₃ =>
    let b := s.request.beginOwned s.nextId owner admission deadline now₁ now₂ now₃
    (⟨b.request, b.nextId⟩,
      ⟨if b.result = driverBusy ∧ b.admission ≠ admission then b.admission else none, b.token⟩)
  | .cancelWaiter admission => ({ s with request := s.request.cancelWaiter admission }, {})
  | .expireWaiters now => ({ s with request := s.request.expireWaiters now }, {})
  | .cancelWaiters => ({ s with request := s.request.cancelWaiters }, {})
  | .complete result => ({ s with request := s.request.complete result }, {})
  | .abort error => ({ s with request := s.request.abort error }, {})
  | .release => ({ s with request := s.request.release }, {})
  | .allocate => ({ s with nextId := (allocateId s.nextId).1 }, {})

/-! ## Histories -/

/-- What the calls did. -/
structure AdmissionHistory where
  /-- The ids handed out, as tickets or as tokens without one. -/
  handed : List Nat := []
  tickets : List Nat := []
  tokens : List Nat := []
  /-- The tickets that were cancelled or expired. -/
  gone : List Nat := []
  released : List Nat := []

/-- The tickets in the queue. -/
def IoRequest.queue (r : IoRequest) : List Nat := r.waiters.map IoAdmission.id

/-- The token that holds the device. -/
def IoRequest.holder (r : IoRequest) : List Nat := if r.id = 0 then [] else [r.id]

/-- The tickets that a call takes from the queue without a grant. -/
def droppedTickets (r r' : IoRequest) (token : Option Nat) : List Nat :=
  r.queue.filter fun k => k ∉ r'.queue ∧ token ≠ some k

def AdmissionHistory.record (g : AdmissionHistory) (s : Admission) (a : AdmissionOp) :
    AdmissionHistory :=
  let (s', out) := s.step a
  { handed := g.handed ++ out.ticket.toList ++ if a.reserved = 0 then out.token.toList else []
    tickets := g.tickets ++ out.ticket.toList
    tokens := g.tokens ++ out.token.toList
    gone := g.gone ++ droppedTickets s.request s'.request out.token
    released := g.released ++ match a with
      | .release => s.request.holder
      | _ => [] }

/-- A call, with the history of the calls before it. -/
inductive AdmissionStep :
    Admission × AdmissionHistory → AdmissionOp → Admission × AdmissionHistory → Prop
  | call (s : Admission) (g : AdmissionHistory) (a : AdmissionOp) :
    AdmissionStep (s, g) a ((s.step a).1, g.record s a)

/-! ## What a call does to the queue -/

section Queue

variable {r : IoRequest}

theorem IoRequest.cancelWaiter_queue (r : IoRequest) (admission : Nat) :
    (r.cancelWaiter admission).queue.Sublist r.queue := by
  unfold cancelWaiter queue
  exact List.eraseP_sublist.map _

/-- An expiry only shortens the queue. -/
theorem IoRequest.expireWaiters_eq (r : IoRequest) (now : Nat) :
    (r.expireWaiters now).id = r.id ∧ (r.expireWaiters now).queue.Sublist r.queue := by
  unfold expireWaiters
  have h : ∀ fuel i (r' : IoRequest), (expireLoop now fuel i r').id = r'.id ∧
      (expireLoop now fuel i r').queue.Sublist r'.queue := by
    intro fuel
    induction fuel with
    | zero => exact fun i r' => ⟨rfl, List.Sublist.refl _⟩
    | succ fuel ih =>
      intro i r'
      unfold expireLoop
      split
      · exact ⟨rfl, List.Sublist.refl _⟩
      · next w hw =>
        split
        · exact ⟨(ih i _).1, (ih i _).2.trans (cancelWaiter_queue _ _)⟩
        · exact ih (i + 1) r'
  exact h _ _ _

/-- What `io_request_begin_owned` may do; `q` is the queue after its expiry. -/
inductive BeginOutcome (r : IoRequest) (q : List Nat) (nextId : Nat) (admission : Option Nat) :
    IoRequest.Begin → Prop
  /-- No id is handed out, and the device is not granted. -/
  | refused (r' : IoRequest) (result : Int) (hid : r'.id = r.id)
    (hq : r'.queue.Sublist r.queue) :
    BeginOutcome r q nextId admission ⟨r', nextId, admission, none, result⟩
  /-- The caller joins the queue. -/
  | queued (r' : IoRequest) (deadline : Nat) (ha : admission = some 0) (hid : r'.id = r.id)
    (hq : r'.queue.Sublist r.queue) (hroom : r'.waiters.length < ioWaitersMax)
    (hn : nextId < 18446744073709551615) :
    BeginOutcome r q nextId admission
      ⟨{ r' with waiters := r'.waiters ++ [⟨nextId + 1, deadline⟩] }, nextId + 1,
        some (nextId + 1), none, driverBusy⟩
  /-- The queue is empty, and the caller has no ticket. -/
  | granted (r' : IoRequest) (ha : admission.getD 0 = 0) (hfree : r.id = 0) (hempty : q = [])
    (hid : r'.id = nextId + 1) (hq : r'.queue = []) (hn : nextId < 18446744073709551615) :
    BeginOutcome r q nextId admission ⟨r', nextId + 1, admission, some (nextId + 1), driverOk⟩
  /-- The ticket of the caller is at the head of the queue. -/
  | admitted (r' : IoRequest) (k : Nat) (ha : admission = some k) (hk : k ≠ 0) (hfree : r.id = 0)
    (hid : r'.id = k) (hq : q = k :: r'.queue) :
    BeginOutcome r q nextId admission ⟨r', nextId, some 0, some k, driverOk⟩

theorem allocateId_cases {n : Nat} (h : n ≤ 18446744073709551615) :
    allocateId n = (n, 0) ∨ n < 18446744073709551615 ∧ allocateId n = (n + 1, n + 1) := by
  unfold allocateId
  split
  · exact .inl rfl
  · exact .inr ⟨by omega, rfl⟩

/-- The head of the queue is taken by its ticket. -/
theorem IoRequest.cancelWaiter_head {w : IoAdmission} {ws : List IoAdmission}
    (h : r.waiters = w :: ws) : (r.cancelWaiter w.id).waiters = ws := by
  unfold cancelWaiter
  change r.waiters.eraseP _ = ws
  rw [h, List.eraseP_cons_of_pos (by simp)]

theorem IoRequest.beginOwned_outcome (r : IoRequest) {nextId : Nat}
    (hn : nextId ≤ 18446744073709551615) (h0 : 0 ∉ r.queue) (owner : Nat) (admission : Option Nat)
    (deadline now₁ now₂ now₃ : Nat) : BeginOutcome r (r.expireWaiters now₁).queue nextId admission
      (r.beginOwned nextId owner admission deadline now₁ now₂ now₃) := by
  obtain ⟨hid, hq⟩ := r.expireWaiters_eq now₁
  unfold beginOwned
  split
  · exact .refused _ _ rfl (List.Sublist.refl _)
  · dsimp only
    generalize r.expireWaiters now₁ = r₁ at hid hq
    split
    · exact .refused _ _ hid ((cancelWaiter_queue _ _).trans hq)
    · split
      · exact .refused _ _ hid hq
      · next hfound =>
        split
        · split
          · next hjoin =>
            obtain ⟨hsome, hzero, hroom⟩ := hjoin
            obtain ⟨k, rfl⟩ := Option.isSome_iff_exists.mp hsome
            obtain rfl : k = 0 := hzero
            rcases allocateId_cases hn with ha | ⟨hlt, ha⟩
            · rw [ha]
              exact .refused _ _ hid hq
            · rw [ha]
              exact .queued r₁ deadline rfl hid hq hroom hlt
          · exact .refused _ _ hid hq
        · next hgrant =>
          rw [not_or, not_not] at hgrant
          obtain ⟨hfree, hhead⟩ := hgrant
          have hfree' : r.id = 0 := by rw [← hid, hfree]
          by_cases hres : admission.getD 0 = 0
          · have hempty : r₁.waiters = [] := by
              cases hw : r₁.waiters with
              | nil => rfl
              | cons w ws =>
                have hw0 : w.id = 0 := by
                  by_contra hne
                  exact hhead ⟨w, by rw [hw]; rfl, by rw [hres]; exact hne⟩
                have hmem : w.id ∈ r₁.queue := by
                  unfold queue
                  rw [hw]
                  exact List.mem_cons_self
                exact absurd (hq.subset (hw0 ▸ hmem)) h0
            rw [if_neg (not_not.mpr hres)]
            rcases allocateId_cases hn with ha | ⟨hlt, ha⟩
            · rw [ha]
              exact .refused _ _ hid hq
            · rw [ha]
              simp only [hres, ne_eq, not_true_eq_false, if_false]
              have hempty' := congrArg (List.map IoAdmission.id) hempty
              exact .granted _ hres hfree' hempty' rfl hempty' hlt
          · obtain ⟨k, rfl, hk⟩ : ∃ k, admission = some k ∧ k ≠ 0 := by
              cases admission with
              | none => exact absurd rfl hres
              | some k => exact ⟨k, rfl, hres⟩
            -- the ticket is in the queue, so the queue is not empty and the ticket is its head
            obtain ⟨w, ws, hw⟩ : ∃ w ws, r₁.waiters = w :: ws := by
              cases hw : r₁.waiters with
              | nil =>
                refine absurd ⟨hk, fun w hmem => ?_⟩ hfound
                rw [hw] at hmem
                cases hmem
              | cons w ws => exact ⟨w, ws, rfl⟩
            have hwk : w.id = k := by
              by_contra hne
              exact hhead ⟨w, by rw [hw]; rfl, hne⟩
            have hrest := cancelWaiter_head hw
            rw [hwk] at hrest
            have hqueue : r₁.queue = k :: ws.map IoAdmission.id := by
              unfold queue
              rw [hw, List.map_cons, hwk]
            obtain ⟨j, rfl⟩ := Nat.exists_eq_succ_of_ne_zero hk
            simp only [Option.getD_some, ne_eq, hk, not_false_eq_true, if_true]
            refine .admitted _ (j + 1) rfl hk hfree' rfl ?_
            have hrest' : ((r₁.cancelWaiter (j + 1)).waiters.map IoAdmission.id) =
                ws.map IoAdmission.id := congrArg _ hrest
            change _ = (j + 1) :: (r₁.cancelWaiter (j + 1)).waiters.map IoAdmission.id
            rw [hrest']
            exact hqueue

end Queue

/-! ## The invariant -/

/-- The tickets of `g` that are neither granted nor gone. -/
def AdmissionHistory.waiting (g : AdmissionHistory) : List Nat :=
  g.tickets.filter fun k => k ∉ g.tokens ∧ k ∉ g.gone

structure AdmissionInv (g : AdmissionHistory) (s : Admission) : Prop where
  counter : s.nextId ≤ 18446744073709551615
  ordered : g.handed.Pairwise (· < ·)
  bound : ∀ k ∈ g.handed, 0 < k ∧ k ≤ s.nextId
  tickets : g.tickets.Sublist g.handed
  tokens : ∀ k ∈ g.tokens, k ∈ g.handed
  tokensNodup : g.tokens.Nodup
  gone : ∀ k ∈ g.gone, k ∈ g.tickets ∧ k ∉ g.tokens
  queue : s.request.queue = g.waiting
  holder : g.tokens = g.released ++ s.request.holder
  room : s.request.queue.length ≤ ioWaitersMax

/-- A part of a list without repetitions, in order, is a filter of it. -/
theorem filter_mem_of_sublist {l l' : List Nat} (h : l'.Sublist l) (hn : l.Nodup) :
    (l.filter fun k => k ∈ l') = l' := by
  induction h with
  | slnil => rfl
  | @cons l' l a h ih =>
    rw [List.nodup_cons] at hn
    have ha : a ∉ l' := fun hm => hn.1 (h.subset hm)
    rw [List.filter_cons_of_neg (by simpa using ha), ih hn.2]
  | @cons_cons l' l a h ih =>
    rw [List.nodup_cons] at hn
    rw [List.filter_cons_of_pos (by simp)]
    have hl : (l.filter fun k => k ∈ a :: l') = l.filter fun k => k ∈ l' := by
      apply List.filter_congr
      intro k hk
      have hne : k ≠ a := fun he => hn.1 (he ▸ hk)
      simp [hne]
    rw [hl, ih hn.2]

section Inv

variable {g : AdmissionHistory} {s : Admission}

theorem AdmissionInv.nodup (h : AdmissionInv g s) : s.request.queue.Nodup := by
  have hh : g.handed.Nodup := h.ordered.imp Nat.ne_of_lt
  rw [h.queue]
  exact (hh.sublist h.tickets).filter _

theorem AdmissionInv.mem_queue (h : AdmissionInv g s) {k : Nat} (hk : k ∈ s.request.queue) :
    k ∈ g.tickets ∧ k ∉ g.tokens ∧ k ∉ g.gone := by
  rw [h.queue] at hk
  have hm := List.mem_filter.mp hk
  exact ⟨hm.1, of_decide_eq_true hm.2⟩

theorem AdmissionInv.zero_notMem (h : AdmissionInv g s) : 0 ∉ s.request.queue := by
  intro h0
  have hb := h.bound 0 (h.tickets.subset (h.mem_queue h0).1)
  omega

/-- A call that shortens the queue, with or without a grant. -/
theorem AdmissionInv.waiting_eq (h : AdmissionInv g s) {r' : IoRequest} {token : Option Nat}
    (hq : r'.queue.Sublist s.request.queue) (ht : ∀ k ∈ token, k ∉ r'.queue) :
    (g.tickets.filter fun k => k ∉ g.tokens ++ token.toList ∧
      k ∉ g.gone ++ droppedTickets s.request r' token) = r'.queue := by
  have hsplit : (g.tickets.filter fun k => k ∉ g.tokens ++ token.toList ∧
      k ∉ g.gone ++ droppedTickets s.request r' token) =
      g.waiting.filter fun k => k ∈ r'.queue := by
    unfold AdmissionHistory.waiting
    rw [List.filter_filter]
    apply List.filter_congr
    intro k hk
    rw [← Bool.decide_and, decide_eq_decide]
    unfold droppedTickets
    simp only [List.mem_append, List.mem_filter, Option.mem_toList, not_or, decide_eq_true_eq,
      not_and, not_not]
    constructor
    · rintro ⟨⟨h1, h2⟩, h3, h4⟩
      have hkq : k ∈ s.request.queue := by
        rw [h.queue]
        exact List.mem_filter.mpr ⟨hk, decide_eq_true ⟨h1, h3⟩⟩
      by_contra hn
      exact hn ⟨by_contra fun hkn => h2 (h4 hkq hkn), h1, h3⟩
    · rintro ⟨h1, h2, h3⟩
      exact ⟨⟨h2, fun hk' => ht k hk' h1⟩, h3, fun _ hkn => absurd h1 hkn⟩
  rw [hsplit, ← h.queue, filter_mem_of_sublist hq h.nodup]

/-- A call that shortens the queue and hands out `fresh`, if it grants a token. -/
theorem AdmissionInv.advance (h : AdmissionInv g s) (r' : IoRequest) (token : Option Nat)
    (nextId : Nat) (fresh released : List Nat) (hq : r'.queue.Sublist s.request.queue)
    (hn : s.nextId ≤ nextId) (hmax : nextId ≤ 18446744073709551615)
    (hfresh : fresh = [] ∨ fresh = [s.nextId + 1] ∧ nextId = s.nextId + 1)
    (ht : ∀ k ∈ token, k ∉ r'.queue ∧ k ∉ g.gone ∧ k ∉ g.tokens ∧ k ∈ g.handed ++ fresh)
    (hhold : g.tokens ++ token.toList = g.released ++ released ++ r'.holder) :
    AdmissionInv
      { handed := g.handed ++ fresh, tickets := g.tickets, tokens := g.tokens ++ token.toList
        gone := g.gone ++ droppedTickets s.request r' token, released := g.released ++ released }
      ⟨r', nextId⟩ where
  counter := hmax
  ordered := by
    rcases hfresh with rfl | ⟨rfl, -⟩
    · rw [List.append_nil]
      exact h.ordered
    · rw [List.pairwise_append]
      refine ⟨h.ordered, List.pairwise_singleton _ _, ?_⟩
      intro k hk k' hk'
      rw [List.mem_singleton.mp hk']
      exact Nat.lt_succ_of_le (h.bound k hk).2
  bound := by
    intro k hk
    rcases List.mem_append.mp hk with hk | hk
    · exact ⟨(h.bound k hk).1, Nat.le_trans (h.bound k hk).2 hn⟩
    · rcases hfresh with rfl | ⟨rfl, rfl⟩
      · cases hk
      · rw [List.mem_singleton.mp hk]
        exact ⟨Nat.succ_pos _, Nat.le_refl _⟩
  tickets := h.tickets.trans (List.sublist_append_left _ _)
  tokens := by
    intro k hk
    rcases List.mem_append.mp hk with hk | hk
    · exact List.mem_append_left _ (h.tokens k hk)
    · exact (ht k (Option.mem_toList.mp hk)).2.2.2
  tokensNodup := by
    rw [List.nodup_append]
    refine ⟨h.tokensNodup, by cases token <;> simp, ?_⟩
    rintro k hk k' hk' rfl
    exact (ht k (Option.mem_toList.mp hk')).2.2.1 hk
  gone := by
    intro k hk
    change k ∈ g.tickets ∧ k ∉ g.tokens ++ token.toList
    rw [List.mem_append, Option.mem_toList, not_or]
    rcases List.mem_append.mp hk with hk | hk
    · exact ⟨(h.gone k hk).1, (h.gone k hk).2, fun hkt => (ht k hkt).2.1 hk⟩
    · obtain ⟨hkq, hd⟩ := List.mem_filter.mp hk
      obtain ⟨h1, h2, -⟩ := h.mem_queue hkq
      exact ⟨h1, h2, (of_decide_eq_true hd).2⟩
  queue := (h.waiting_eq hq fun k hk => (ht k hk).1).symm
  holder := hhold
  room := Nat.le_trans hq.length_le h.room

/-- A ticket joins the queue. -/
theorem AdmissionInv.enqueue (h : AdmissionInv g s) (deadline : Nat)
    (hroom : s.request.waiters.length < ioWaitersMax) (hmax : s.nextId < 18446744073709551615) :
    AdmissionInv
      { g with handed := g.handed ++ [s.nextId + 1], tickets := g.tickets ++ [s.nextId + 1] }
      ⟨{ s.request with waiters := s.request.waiters ++ [⟨s.nextId + 1, deadline⟩] },
        s.nextId + 1⟩ := by
  have hnew : s.nextId + 1 ∉ g.handed := by
    intro hk
    have := (h.bound _ hk).2
    omega
  refine { counter := hmax, ordered := ?_, bound := ?_,
           tickets := h.tickets.append (List.Sublist.refl _),
           tokens := fun k hk => List.mem_append_left _ (h.tokens k hk),
           tokensNodup := h.tokensNodup, gone := ?_, queue := ?_, holder := h.holder, room := ?_ }
  · rw [List.pairwise_append]
    refine ⟨h.ordered, List.pairwise_singleton _ _, ?_⟩
    intro k hk k' hk'
    rw [List.mem_singleton.mp hk']
    exact Nat.lt_succ_of_le (h.bound k hk).2
  · intro k hk
    rcases List.mem_append.mp hk with hk | hk
    · exact ⟨(h.bound k hk).1, Nat.le_succ_of_le (h.bound k hk).2⟩
    · rw [List.mem_singleton.mp hk]
      exact ⟨Nat.succ_pos _, Nat.le_refl _⟩
  · intro k hk
    exact ⟨List.mem_append_left _ (h.gone k hk).1, (h.gone k hk).2⟩
  · unfold AdmissionHistory.waiting IoRequest.queue
    have hkeep : s.nextId + 1 ∉ g.tokens ∧ s.nextId + 1 ∉ g.gone :=
      ⟨fun hk => hnew (h.tokens _ hk), fun hk => hnew (h.tickets.subset (h.gone _ hk).1)⟩
    dsimp only
    rw [List.map_append, List.filter_append, List.filter_singleton, decide_eq_true hkeep]
    exact congrArg (· ++ [s.nextId + 1]) h.queue
  · unfold IoRequest.queue
    rw [List.length_map, List.length_append]
    exact hroom

/-- A call that hands out nothing and leaves the holder. -/
theorem AdmissionInv.shrink (h : AdmissionInv g s) (r' : IoRequest) {nextId : Nat}
    (hid : r'.id = s.request.id) (hq : r'.queue.Sublist s.request.queue)
    (hn : s.nextId ≤ nextId) (hmax : nextId ≤ 18446744073709551615) :
    AdmissionInv { g with gone := g.gone ++ droppedTickets s.request r' none } ⟨r', nextId⟩ := by
  have hholder : r'.holder = s.request.holder := by
    unfold IoRequest.holder
    rw [hid]
  have ha := h.advance r' none nextId [] [] hq hn hmax (.inl rfl) (fun k hk => by cases hk) (by
    rw [hholder, List.append_nil, Option.toList_none, List.append_nil]
    exact h.holder)
  simpa only [List.append_nil, Option.toList_none] using ha

/-- What a call of `io_request_begin_owned` records. -/
def AdmissionHistory.begun (g : AdmissionHistory) (s : Admission) (admission : Option Nat)
    (b : IoRequest.Begin) : AdmissionHistory :=
  let ticket := if b.result = driverBusy ∧ b.admission ≠ admission then b.admission else none
  { handed := g.handed ++ ticket.toList ++ if admission.getD 0 = 0 then b.token.toList else []
    tickets := g.tickets ++ ticket.toList
    tokens := g.tokens ++ b.token.toList
    gone := g.gone ++ droppedTickets s.request b.request b.token
    released := g.released ++ [] }

theorem AdmissionInv.begin (h : AdmissionInv g s) {q : List Nat} {admission : Option Nat}
    {b : IoRequest.Begin} (hsub : q.Sublist s.request.queue)
    (hb : BeginOutcome s.request q s.nextId admission b) :
    AdmissionInv (g.begun s admission b) ⟨b.request, b.nextId⟩ := by
  have hc := h.counter
  cases hb with
  | refused r' result hid hq =>
    have ha := h.shrink _ hid hq (Nat.le_refl _) hc
    simpa [AdmissionHistory.begun] using ha
  | queued r' deadline ha hid hq hroom hn =>
    have hs := h.shrink _ hid hq (Nat.le_refl _) hc
    have he := hs.enqueue deadline hroom hn
    have hdrop : droppedTickets s.request
        { r' with waiters := r'.waiters ++ [⟨s.nextId + 1, deadline⟩] } none =
        droppedTickets s.request r' none := by
      unfold droppedTickets
      apply List.filter_congr
      intro k hk
      have hne : k ≠ s.nextId + 1 := by
        rintro rfl
        have := (h.bound _ (h.tickets.subset (h.mem_queue hk).1)).2
        omega
      simp [IoRequest.queue, hne]
    subst ha
    simpa [AdmissionHistory.begun, hdrop] using he
  | granted r' ha hfree _ hid hq hn =>
    have hnew : s.nextId + 1 ∉ g.handed := by
      intro hk
      have := (h.bound _ hk).2
      omega
    have hempty : r'.queue.Sublist s.request.queue := by
      rw [hq]
      exact List.nil_sublist _
    have hav := h.advance r' (some (s.nextId + 1)) (s.nextId + 1) [s.nextId + 1] [] hempty
      (Nat.le_succ _) hn (.inr ⟨rfl, rfl⟩) ?_ ?_
    · simpa [AdmissionHistory.begun, ha] using hav
    · rintro k hk
      obtain rfl : s.nextId + 1 = k := Option.some.inj hk
      refine ⟨by rw [hq]; exact List.not_mem_nil, fun hg => ?_, fun ht => hnew (h.tokens _ ht),
        List.mem_append_right _ (List.mem_singleton.mpr rfl)⟩
      exact hnew (h.tickets.subset (h.gone _ hg).1)
    · have hhold := h.holder
      unfold IoRequest.holder at hhold ⊢
      rw [if_pos hfree, List.append_nil] at hhold
      rw [hid, if_neg (Nat.succ_ne_zero _), hhold, List.append_nil]
      rfl
  | admitted r' k ha hk hfree hid hq =>
    rw [hq] at hsub
    have hmem := h.mem_queue (hsub.subset List.mem_cons_self)
    have hkq : k ∉ r'.queue := (List.nodup_cons.mp (h.nodup.sublist hsub)).1
    have hav := h.advance r' (some k) s.nextId [] [] ((List.sublist_cons_self _ _).trans hsub)
      (Nat.le_refl _) hc (.inl rfl) ?_ ?_
    · have hne : driverOk ≠ driverBusy := by decide
      subst ha
      simpa [AdmissionHistory.begun, hk, hne] using hav
    · rintro k' hk'
      obtain rfl : k = k' := Option.some.inj hk'
      rw [List.append_nil]
      exact ⟨hkq, hmem.2.2, hmem.2.1, h.tickets.subset hmem.1⟩
    · have hhold := h.holder
      unfold IoRequest.holder at hhold ⊢
      rw [if_pos hfree, List.append_nil] at hhold
      rw [hid, if_neg hk, hhold, List.append_nil]
      rfl

/-- Every call keeps the invariant. -/
theorem AdmissionInv.step (h : AdmissionInv g s) (a : AdmissionOp) :
    AdmissionInv (g.record s a) (s.step a).1 := by
  have hc := h.counter
  have hself : s.request.queue.Sublist s.request.queue := List.Sublist.refl _
  cases a with
  | beginOwned owner admission deadline n1 n2 n3 =>
    exact h.begin (s.request.expireWaiters_eq n1).2
      (s.request.beginOwned_outcome hc h.zero_notMem owner admission deadline n1 n2 n3)
  | cancelWaiter admission =>
    have ha := h.shrink (s.request.cancelWaiter admission) rfl
      (s.request.cancelWaiter_queue admission) (Nat.le_refl _) hc
    simpa [AdmissionHistory.record, Admission.step] using ha
  | expireWaiters now =>
    obtain ⟨hid, hq⟩ := s.request.expireWaiters_eq now
    have ha := h.shrink _ hid hq (Nat.le_refl _) hc
    simpa [AdmissionHistory.record, Admission.step] using ha
  | cancelWaiters =>
    have ha := h.shrink s.request.cancelWaiters rfl (List.nil_sublist _) (Nat.le_refl _) hc
    simpa [AdmissionHistory.record, Admission.step] using ha
  | complete result =>
    have hr : (s.request.complete result).id = s.request.id ∧
        (s.request.complete result).queue = s.request.queue := by
      unfold IoRequest.complete
      split <;> exact ⟨rfl, rfl⟩
    have ha := h.shrink _ hr.1 (hr.2 ▸ hself) (Nat.le_refl _) hc
    simpa [AdmissionHistory.record, Admission.step] using ha
  | abort error =>
    have hr : (s.request.abort error).id = s.request.id ∧
        (s.request.abort error).queue = s.request.queue := by
      unfold IoRequest.abort
      split <;> exact ⟨rfl, rfl⟩
    have ha := h.shrink _ hr.1 (hr.2 ▸ hself) (Nat.le_refl _) hc
    simpa [AdmissionHistory.record, Admission.step] using ha
  | release =>
    have ha := h.advance s.request.release none s.nextId [] s.request.holder hself (Nat.le_refl _)
      hc (.inl rfl) (fun k hk => by cases hk) (by
        rw [Option.toList_none, List.append_nil, h.holder]
        exact (List.append_nil _).symm)
    simpa [AdmissionHistory.record, Admission.step] using ha
  | allocate =>
    have hn : s.nextId ≤ (allocateId s.nextId).1 ∧
        (allocateId s.nextId).1 ≤ 18446744073709551615 := by
      rcases allocateId_cases hc with ha | ⟨hlt, ha⟩ <;> rw [ha]
      · exact ⟨Nat.le_refl _, hc⟩
      · exact ⟨Nat.le_succ _, hlt⟩
    have ha := h.shrink _ rfl hself hn.1 hn.2
    simpa [AdmissionHistory.record, Admission.step] using ha

end Inv

/-! ## Runs -/

theorem AdmissionInv.init : AdmissionInv {} {} where
  counter := by decide
  ordered := List.Pairwise.nil
  bound := fun k hk => by cases hk
  tickets := List.Sublist.refl _
  tokens := fun k hk => by cases hk
  tokensNodup := List.nodup_nil
  gone := fun k hk => by cases hk
  queue := rfl
  holder := rfl
  room := by decide

theorem AdmissionInv.of_run {l : List AdmissionOp} {s : Admission × AdmissionHistory}
    (h : Run AdmissionStep ({}, {}) l s) : AdmissionInv s.2 s.1 := by
  refine h.invariant (I := fun s => AdmissionInv s.2 s.1) .init ?_
  rintro _ a _ hi ⟨s, g, _⟩
  exact hi.step a

section Grant

variable {g : AdmissionHistory} {s : Admission}

/-- Nothing is handed out when the ids are exhausted. -/
theorem AdmissionInv.exhausted (h : AdmissionInv g s) (hn : s.nextId = 18446744073709551615)
    (a : AdmissionOp) : (g.record s a).handed = g.handed := by
  cases a with
  | beginOwned owner admission deadline n1 n2 n3 =>
    have hb := s.request.beginOwned_outcome h.counter h.zero_notMem owner admission deadline
      n1 n2 n3
    change (g.begun s admission
      (s.request.beginOwned s.nextId owner admission deadline n1 n2 n3)).handed = g.handed
    generalize s.request.beginOwned s.nextId owner admission deadline n1 n2 n3 = b at hb ⊢
    cases hb with
    | refused r' result hid hq => simp [AdmissionHistory.begun]
    | queued r' d ha hid hq hroom hlt => omega
    | granted r' ha hfree hempty hid hq hlt => omega
    | admitted r' k ha hk hfree hid hq =>
      have hne : driverOk ≠ driverBusy := by decide
      subst ha
      simp [AdmissionHistory.begun, hk, hne]
  | cancelWaiter | expireWaiters | cancelWaiters | complete | abort | release | allocate =>
    simp [AdmissionHistory.record, Admission.step]

/-- A grant finds the device free. It goes to the head of the queue, or to the caller when the queue
is empty. -/
theorem AdmissionInv.grant (h : AdmissionInv g s) {a : AdmissionOp} {t : Nat}
    (ht : (s.step a).2.token = some t) : s.request.id = 0 ∧
      ∃ owner admission deadline n1 n2 n3, a = .beginOwned owner admission deadline n1 n2 n3 ∧
        ((s.request.expireWaiters n1).queue = [] ∧ admission.getD 0 = 0 ∨
          (s.request.expireWaiters n1).queue.head? = some t ∧ admission = some t) := by
  cases a with
  | beginOwned owner admission deadline n1 n2 n3 =>
    have hb := s.request.beginOwned_outcome h.counter h.zero_notMem owner admission deadline
      n1 n2 n3
    change (s.request.beginOwned s.nextId owner admission deadline n1 n2 n3).token = some t at ht
    generalize s.request.beginOwned s.nextId owner admission deadline n1 n2 n3 = b at hb ht
    cases hb with
    | refused r' result hid hq => cases ht
    | queued r' d ha hid hq hroom hlt => cases ht
    | granted r' ha hfree hempty hid hq hlt =>
      exact ⟨hfree, _, _, _, _, _, _, rfl, .inl ⟨hempty, ha⟩⟩
    | admitted r' k ha hk hfree hid hq =>
      obtain rfl : k = t := Option.some.inj ht
      exact ⟨hfree, _, _, _, _, _, _, rfl, .inr ⟨by rw [hq]; rfl, ha⟩⟩
  | cancelWaiter | expireWaiters | cancelWaiters | complete | abort | release | allocate =>
    cases ht

/-- The queue stands in the order of the tickets. -/
theorem AdmissionInv.queue_ordered (h : AdmissionInv g s) :
    s.request.queue.Pairwise (· < ·) := by
  rw [h.queue]
  exact (h.ordered.sublist h.tickets).sublist List.filter_sublist

/-- No waiter is older than the token that a call grants. -/
theorem AdmissionInv.grant_oldest (h : AdmissionInv g s) {a : AdmissionOp} {t : Nat}
    (ht : (s.step a).2.token = some t) : ∀ k ∈ (s.step a).1.request.queue, t < k := by
  cases a with
  | beginOwned owner admission deadline n1 n2 n3 =>
    have hb := s.request.beginOwned_outcome h.counter h.zero_notMem owner admission deadline
      n1 n2 n3
    have hsub := (s.request.expireWaiters_eq n1).2
    change (s.request.beginOwned s.nextId owner admission deadline n1 n2 n3).token = some t at ht
    change ∀ k ∈ (s.request.beginOwned s.nextId owner admission deadline n1 n2 n3).request.queue,
      t < k
    generalize s.request.beginOwned s.nextId owner admission deadline n1 n2 n3 = b at hb ht ⊢
    cases hb with
    | refused r' result hid hq => cases ht
    | queued r' d ha hid hq hroom hlt => cases ht
    | granted r' ha hfree hempty hid hq hlt =>
      intro k hk
      rw [hq] at hk
      cases hk
    | admitted r' k ha hk hfree hid hq =>
      obtain rfl : k = t := Option.some.inj ht
      rw [hq] at hsub
      exact (List.pairwise_cons.mp (h.queue_ordered.sublist hsub)).1
  | cancelWaiter | expireWaiters | cancelWaiters | complete | abort | release | allocate =>
    cases ht

/-- Whoever was queued before a token is granted or gone. -/
theorem AdmissionInv.fair (h : AdmissionInv g s) {a : AdmissionOp} {t : Nat}
    (ht : (s.step a).2.token = some t) : ∀ k ∈ (g.record s a).tickets, k < t →
      k ∈ (g.record s a).tokens ∨ k ∈ (g.record s a).gone := by
  intro k hk hlt
  by_contra hn
  rw [not_or] at hn
  have hw : k ∈ (s.step a).1.request.queue := by
    rw [(h.step a).queue]
    exact List.mem_filter.mpr ⟨hk, decide_eq_true hn⟩
  exact Nat.lt_asymm hlt (h.grant_oldest ht k hw)

end Grant

/-! ## The protocol -/

/-- What the admission of requests keeps, after the calls that `g` records. -/
structure AdmissionSafe (g : AdmissionHistory) (s : Admission) : Prop where
  /-- A token that was not released holds the device, and no two do. -/
  holds : ∀ t ∈ g.tokens, t ∉ g.released → s.request.isFor t
  single : ∀ t ∈ g.tokens, ∀ t' ∈ g.tokens, t ∉ g.released → t' ∉ g.released → t = t'
  /-- Ids grow, so none is handed out twice. A ticket is a new id, and a token is a new id or a
  ticket, once. -/
  handed : g.handed.Pairwise (· < ·)
  tickets : g.tickets.Sublist g.handed
  tokens : (∀ t ∈ g.tokens, t ∈ g.handed) ∧ g.tokens.Nodup
  exhausted : s.nextId = 18446744073709551615 → ∀ a, (g.record s a).handed = g.handed
  /-- The queue has the tickets that are neither granted nor gone, in order. -/
  queue : s.request.queue = g.waiting
  distinct : s.request.queue.Nodup
  room : s.request.queue.length ≤ ioWaitersMax
  /-- The next grant finds the device free, and goes to the head of the queue or, if the queue is
  empty, to the caller. -/
  grant : ∀ a, ∀ t ∈ (s.step a).2.token, s.request.id = 0 ∧
    ∃ owner admission deadline n1 n2 n3, a = .beginOwned owner admission deadline n1 n2 n3 ∧
      ((s.request.expireWaiters n1).queue = [] ∧ admission.getD 0 = 0 ∨
        (s.request.expireWaiters n1).queue.head? = some t ∧ admission = some t)
  fair : ∀ a, ∀ t ∈ (s.step a).2.token, ∀ k ∈ (g.record s a).tickets, k < t →
    k ∈ (g.record s a).tokens ∨ k ∈ (g.record s a).gone
  /-- A ticket that is gone was never granted and holds nothing. -/
  gone : ∀ k ∈ g.gone, k ∉ g.tokens ∧ s.request.isFor k = false
  released : ∀ t ∈ g.released, s.request.isFor t = false

theorem IoRequest.mem_holder {r : IoRequest} {k : Nat} : k ∈ r.holder ↔ r.isFor k := by
  unfold holder isFor
  rw [decide_eq_true_iff]
  by_cases h : r.id = 0
  · rw [if_pos h, h]
    exact ⟨fun hk => absurd hk List.not_mem_nil, fun hk => absurd hk.2.symm hk.1⟩
  · rw [if_neg h, List.mem_singleton]
    exact ⟨fun hk => ⟨hk ▸ h, hk.symm⟩, fun hk => hk.2.symm⟩

theorem IoRequest.holder_unique {r : IoRequest} {t t' : Nat} (h : r.isFor t) (h' : r.isFor t') :
    t = t' :=
  (of_decide_eq_true h).2.symm.trans (of_decide_eq_true h').2

/-- The admission of requests is safe in every run of calls. -/
theorem admission_protocol {l : List AdmissionOp} {g : AdmissionHistory} {s : Admission}
    (h : Run AdmissionStep ({}, {}) l (s, g)) : AdmissionSafe g s := by
  have hi : AdmissionInv g s := AdmissionInv.of_run h
  have hholds : ∀ t ∈ g.tokens, t ∉ g.released → s.request.isFor t := by
    intro t ht hr
    rw [hi.holder, List.mem_append] at ht
    exact IoRequest.mem_holder.mp (ht.resolve_left hr)
  have hreleased : ∀ t ∈ g.released, s.request.isFor t = false := by
    intro t ht
    by_contra hb
    have hm := IoRequest.mem_holder.mpr (Bool.not_eq_false _ ▸ hb)
    have hn := hi.tokensNodup
    rw [hi.holder] at hn
    exact (List.nodup_append.mp hn).2.2 t ht t hm rfl
  have hgone : ∀ k ∈ g.gone, k ∉ g.tokens ∧ s.request.isFor k = false := by
    intro k hk
    refine ⟨(hi.gone k hk).2, ?_⟩
    by_contra hb
    apply (hi.gone k hk).2
    rw [hi.holder]
    exact List.mem_append_right _ (IoRequest.mem_holder.mpr (Bool.not_eq_false _ ▸ hb))
  exact {
    holds := hholds
    single := fun t ht t' ht' hr hr' =>
      IoRequest.holder_unique (hholds t ht hr) (hholds t' ht' hr')
    handed := hi.ordered
    tickets := hi.tickets
    tokens := ⟨hi.tokens, hi.tokensNodup⟩
    exhausted := hi.exhausted
    queue := hi.queue
    distinct := hi.nodup
    room := hi.room
    grant := fun a t ht => hi.grant ht
    fair := fun a t ht => hi.fair ht
    gone := hgone
    released := hreleased }

/-- A task holds the device and two wait for it; the first of them gives up, and the second gets the
device when it is released. -/
def waitingCalls : List AdmissionOp :=
  [.beginOwned 0 none 0 0 0 0, .beginOwned 7 (some 0) 100 1 1 1, .beginOwned 8 (some 0) 100 1 1 1,
    .cancelWaiter 2, .complete driverOk, .release, .beginOwned 8 (some 3) 100 5 5 5]

/-- The state and the history after some calls. -/
def afterCalls (x : Admission × AdmissionHistory) (ops : List AdmissionOp) :
    Admission × AdmissionHistory :=
  ops.foldl (fun x a => ((x.1.step a).1, x.2.record x.1 a)) x

theorem afterCalls_run (x : Admission × AdmissionHistory) (ops : List AdmissionOp) :
    Run AdmissionStep x ops (afterCalls x ops) := by
  induction ops generalizing x with
  | nil => exact .nil
  | cons a ops ih => exact (Run.single (.call x.1 x.2 a)).append (ih _)

theorem admission_protocol_waiters :
    AdmissionSafe (afterCalls ({}, {}) waitingCalls).2 (afterCalls ({}, {}) waitingCalls).1 ∧
    (afterCalls ({}, {}) waitingCalls).2.tickets = [2, 3] ∧
    (afterCalls ({}, {}) waitingCalls).2.tokens = [1, 3] ∧
    (afterCalls ({}, {}) waitingCalls).2.gone = [2] ∧
    (afterCalls ({}, {}) waitingCalls).2.released = [1] ∧
    (afterCalls ({}, {}) waitingCalls).1.request.isFor 3 = true :=
  ⟨admission_protocol (afterCalls_run _ waitingCalls), by decide, by decide, by decide, by decide,
    by decide⟩

end GenOS
