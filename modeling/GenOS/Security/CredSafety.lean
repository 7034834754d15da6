import GenOS.Security.Cred

/-!
# Runs of the credential table

A creation stores the first 31 characters of the name, while the search for a duplicate and the
login compare the whole of it. On runs whose new names fit, the names of the active accounts are
distinct and every account created can log in; where a name does not fit, the account created for it
cannot.
-/

namespace GenOS

/-- The active accounts by name, and by uid. -/
def namedAccounts : Slots UserAccount CString := ⟨(·.active), (·.username)⟩
def uidAccounts : Slots UserAccount Nat := ⟨(·.active), (·.uid)⟩

/-! ## One call -/

theorem findIdx_username (l : List UserAccount) (username : CString) :
    (l.findIdx? fun u => u.active && strEq u.username username) =
      namedAccounts.find l username := by
  unfold Slots.find namedAccounts
  congr 1
  funext u
  rw [Bool.eq_iff_iff, Bool.and_eq_true, Bool.and_eq_true, strEq_iff, decide_eq_true_eq]

/-- A creation fails and changes nothing, or writes a free slot. -/
theorem credCreateUser_cases (c : CredTable) (username password : CString) (gid : Nat)
    (salt : List (BitVec 8)) :
    (credCreateUser c username password gid salt = (-1, c) ∧
      ((∃ i u, namedAccounts.At c.users i username u) ∨ ∀ u ∈ c.users, u.active = true)) ∨
    ∃ i u₀, c.users[i]? = some u₀ ∧ u₀.active = false ∧
      (∀ j u, ¬ namedAccounts.At c.users j username u) ∧
      credCreateUser c username password gid salt = (toInt32 c.nextUid,
        ⟨c.users.set i (newAccount username password c.nextUid gid salt),
          (c.nextUid + 1) % 4294967296⟩) := by
  unfold credCreateUser
  rw [findIdx_username]
  cases hf : namedAccounts.find c.users username with
  | some i =>
    obtain ⟨u, hu⟩ := Slots.find_some hf
    exact .inl ⟨rfl, .inl ⟨i, u, hu⟩⟩
  | none =>
    cases hs : c.users.findIdx? fun u => !u.active with
    | none => exact .inl ⟨rfl, .inr (namedAccounts.free_eq_none_iff.mp hs)⟩
    | some i =>
      obtain ⟨u₀, h0, hl⟩ := namedAccounts.free_some hs
      exact .inr ⟨i, u₀, h0, hl, Slots.find_none hf, rfl⟩

/-- A change of password fails and changes nothing, or writes salt and hash of the account. -/
theorem credChangePassword_cases (c : CredTable) (uid : Nat) (newPassword : CString)
    (salt : List (BitVec 8)) :
    credChangePassword c uid newPassword salt = (-1, c) ∨
    ∃ i u, uidAccounts.At c.users i uid u ∧ credChangePassword c uid newPassword salt =
      (0, ⟨c.users.set i { u with salt := salt, passwordHash := hashPassword newPassword salt },
        c.nextUid⟩) := by
  have hfind : (c.users.findIdx? fun u => u.active && u.uid == uid) =
      uidAccounts.find c.users uid := rfl
  unfold credChangePassword
  rw [hfind]
  cases hf : uidAccounts.find c.users uid with
  | none => exact .inl rfl
  | some i =>
    obtain ⟨u, hu⟩ := Slots.find_some hf
    refine .inr ⟨i, u, hu, ?_⟩
    simp only [List.modify_eq_set_getElem?, hu.slot]
    rfl

theorem secureCompare_self (a : List (BitVec 8)) (len : Nat) : secureCompare a a len = true := by
  unfold secureCompare
  rw [List.foldl_fixed' fun i => by rw [BitVec.xor_self, BitVec.or_zero], beq_self_eq_true]

/-- The login looks at the only account of the name. -/
theorem authLoop_of_at {username : CString} (password : CString)
    {users : List UserAccount} {i : Nat}
    {u : UserAccount} (hd : namedAccounts.Distinct users)
    (h : namedAccounts.At users i username u) :
    authLoop username password users =
      if secureCompare (hashPassword password u.salt) u.passwordHash 32 then toInt32 u.uid
      else -1 := by
  induction users generalizing i with
  | nil => exact absurd h.lt (Nat.not_lt_zero _)
  | cons v users ih =>
    unfold authLoop
    cases i with
    | zero =>
      obtain rfl : v = u := by simpa using h.slot
      have hl : v.active = true := h.live
      have hk : strEq v.username username = true := strEq_iff.mpr h.key
      simp [hl, hk]
    | succ i =>
      have ht : namedAccounts.At users i username u := ⟨by simpa using h.slot, h.live, h.key⟩
      have hdt : namedAccounts.Distinct users := fun i j k s s' h1 h2 =>
        Nat.succ_injective (hd (i := i + 1) (j := j + 1) ⟨h1.slot, h1.live, h1.key⟩
          ⟨h2.slot, h2.live, h2.key⟩)
      rw [ih hdt ht]
      by_cases hl : v.active = true
      · have hk : ¬ strEq v.username username = true := fun hk =>
          absurd (hd ⟨rfl, hl, strEq_iff.mp hk⟩ h) (Nat.succ_ne_zero i).symm
        simp [hl, hk]
      · simp [hl]

/-- No account has the name. -/
theorem authLoop_of_none {username : CString} (password : CString) {users : List UserAccount}
    (h : ∀ i u, ¬ namedAccounts.At users i username u) :
    authLoop username password users = -1 := by
  induction users with
  | nil => rfl
  | cons v users ih =>
    unfold authLoop
    rw [ih fun i u ha => h (i + 1) u ⟨ha.slot, ha.live, ha.key⟩]
    by_cases hl : v.active = true
    · have hk : ¬ strEq v.username username = true := fun hk => h 0 v ⟨rfl, hl, strEq_iff.mp hk⟩
      simp [hl, hk]
    · simp [hl]

/-! ## Every run -/

/-- The names fit their slots, uids are not used twice, and there is a uid for every free slot. -/
structure CredInv (c : CredTable) : Prop where
  short : ∀ {i username u}, namedAccounts.At c.users i username u → username.length ≤ 31
  uids : uidAccounts.Distinct c.users
  fresh : ∀ {i uid u}, uidAccounts.At c.users i uid u → uid < c.nextUid
  room : c.nextUid + c.users.countP (!·.active) = 1007

theorem CredInv.nextUid_le {c : CredTable} (h : CredInv c) : c.nextUid ≤ 1007 := by
  have := h.room
  omega

/-- There is an active account under `username` that opens with `password`. -/
def Account (c : CredTable) (uid : Nat) (username password : CString) : Prop :=
  ∃ i u, namedAccounts.At c.users i username u ∧ u.uid = uid ∧
    u.passwordHash = hashPassword password u.salt

/-- The two accounts of `cred_init` are the only ones. -/
theorem credInit_active {salt₀ salt₁ : List (BitVec 8)} {i : Nat} {u : UserAccount}
    (h : (credInit credZero salt₀ salt₁).users[i]? = some u) (hl : u.active = true) :
    (i = 0 ∧ u = newAccount rootName rootName 0 0 salt₀) ∨
      (i = 1 ∧ u = newAccount mandorName mandorPassword 1000 1000 salt₁) := by
  have husers : (credInit credZero salt₀ salt₁).users =
      newAccount rootName rootName 0 0 salt₀ ::
      newAccount mandorName mandorPassword 1000 1000 salt₁ ::
      List.replicate 6 ⟨[], 0, 0, [], [], false⟩ := rfl
  rw [husers] at h
  match i, h with
  | 0, h => exact .inl ⟨rfl, (Option.some.inj h).symm⟩
  | 1, h => exact .inr ⟨rfl, (Option.some.inj h).symm⟩
  | i + 2, h =>
    obtain ⟨-, rfl⟩ := List.mem_replicate.mp (List.mem_of_getElem? h)
    cases hl

theorem credInv_init (salt₀ salt₁ : List (BitVec 8)) : CredInv (credInit credZero salt₀ salt₁) := by
  refine ⟨fun {i username u} h => ?_, fun i j uid s s' h1 h2 => ?_, fun {i uid u} h => ?_, rfl⟩
  · rw [← h.key]
    rcases credInit_active h.slot h.live with ⟨-, rfl⟩ |
      ⟨-, rfl⟩ <;> exact length_copyString_le 31 _
  · have h12 : s.uid = s'.uid := h1.key.trans h2.key.symm
    rcases credInit_active h1.slot h1.live with ⟨rfl, rfl⟩ | ⟨rfl, rfl⟩ <;>
      rcases credInit_active h2.slot h2.live with ⟨rfl, rfl⟩ | ⟨rfl, rfl⟩
    · rfl
    · cases h12
    · cases h12
    · rfl
  · rw [← h.key]
    rcases credInit_active h.slot h.live with ⟨-, rfl⟩ | ⟨-, rfl⟩
    · exact (by decide : 0 < 1001)
    · exact (by decide : 1000 < 1001)

theorem namedAccounts_init (salt₀ salt₁ : List (BitVec 8)) :
    namedAccounts.Distinct (credInit credZero salt₀ salt₁).users := by
  intro i j name s s' h1 h2
  have h12 : s.username = s'.username := h1.key.trans h2.key.symm
  rcases credInit_active h1.slot h1.live with ⟨rfl, rfl⟩ | ⟨rfl, rfl⟩ <;>
    rcases credInit_active h2.slot h2.live with ⟨rfl, rfl⟩ | ⟨rfl, rfl⟩
  · rfl
  · exact absurd h12 (by decide : copyString 31 rootName ≠ copyString 31 mandorName)
  · exact absurd h12 (by decide : copyString 31 mandorName ≠ copyString 31 rootName)
  · rfl

theorem CredInv.create {c : CredTable} (h : CredInv c) {i : Nat} {u₀ : UserAccount}
    (h0 : c.users[i]? = some u₀) (hl : u₀.active = false) (username password : CString)
    (gid : Nat) (salt : List (BitVec 8)) :
    CredInv ⟨c.users.set i (newAccount username password c.nextUid gid salt),
      (c.nextUid + 1) % 4294967296⟩ := by
  have hle := h.nextUid_le
  rw [Nat.mod_eq_of_lt (by omega : c.nextUid + 1 < 4294967296)]
  refine ⟨fun {j name u} ha => ?_, h.uids.set fun _ j u ha => ?_,
    fun {j uid u} ha => ?_, ?_⟩
  · rcases Slots.at_set.mp ha with ⟨-, -, -, -, rfl⟩ | ⟨-, ha'⟩
    · exact length_copyString_le 31 username
    · exact h.short ha'
  · exact absurd (h.fresh ha) (Nat.lt_irrefl _)
  · rcases Slots.at_set.mp ha with ⟨-, -, -, -, rfl⟩ | ⟨-, ha'⟩
    · exact Nat.lt_succ_self _
    · exact Nat.lt_succ_of_lt (h.fresh ha')
  · have hroom := h.room
    have hcount : _ + (!u₀.active).toNat = _ + Bool.toNat false := Slots.countP_set (!·.active)
      (newAccount username password c.nextUid gid salt) h0
    rw [hl] at hcount
    simp only [Bool.not_false, Bool.toNat_true, Bool.toNat_false] at hcount ⊢
    omega

theorem CredInv.password {c : CredTable} (h : CredInv c) {i : Nat} {u : UserAccount}
    (hu : c.users[i]? = some u) (salt hash : List (BitVec 8)) :
    CredInv ⟨c.users.set i { u with salt := salt, passwordHash := hash }, c.nextUid⟩ := by
  refine ⟨fun {j name v} ha => ?_, h.uids.set_same hu (by rfl) (by rfl), fun {j k v} ha => ?_, ?_⟩
  · obtain ⟨v', hv⟩ := Slots.At.of_set_same hu (by rfl) (by rfl) ha
    exact h.short hv
  · obtain ⟨v', hv⟩ := Slots.At.of_set_same hu (by rfl) (by rfl) ha
    exact h.fresh hv
  · show c.nextUid + (c.users.set i _).countP (!·.active) = 1007
    have hcount := Slots.countP_set (!·.active)
      { u with salt := salt, passwordHash := hash } hu
    rw [Nat.add_right_cancel hcount, h.room]

theorem CredInv.call {c : CredTable} (h : CredInv c) (op : CredOp) : CredInv (credCall c op).2 := by
  cases op with
  | createUser username password gid salt =>
    show CredInv (credCreateUser c username password gid salt).2
    rcases credCreateUser_cases c username password gid salt with
      ⟨he, -⟩ | ⟨i, u₀, h0, hl, -, he⟩ <;> rw [he]
    · exact h
    · exact h.create h0 hl username password gid salt
  | changePassword uid newPassword salt =>
    show CredInv (credChangePassword c uid newPassword salt).2
    rcases credChangePassword_cases c uid newPassword salt with he | ⟨i, u, hu, he⟩ <;> rw [he]
    · exact h
    · exact h.password hu.slot salt _

/-! ## The exact condition -/

/-- The call does not store a name that is too long. -/
def CredFits (c : CredTable) : CredOp → Prop
  | .createUser username _ _ _ => username.length ≤ 31 ∨ ∀ u ∈ c.users, u.active = true
  | .changePassword _ _ _ => True

/-- What holds after the calls `ops`. -/
structure CredExact (start : CredTable) (ops : List CredOp) : Prop where
  /-- The names of the active accounts are distinct. -/
  distinct : namedAccounts.Distinct (credRun start ops).users
  /-- Who was created, and whose password is the same, can log in. -/
  login : ∀ {before username password gid salt after},
    ops = before ++ .createUser username password gid salt :: after →
    let r := (credCreateUser (credRun start before) username password gid salt).1
    0 ≤ r → (∀ p s, .changePassword r.toNat p s ∉ after) →
    credAuthenticate (credRun start ops) username password = r
  /-- A creation that fails changes no account. -/
  failed : ∀ {before username password gid salt},
    ops = before ++ [.createUser username password gid salt] →
    (credCreateUser (credRun start before) username password gid salt).1 < 0 →
    credRun start ops = credRun start before

theorem credRun_append (c : CredTable) (before after : List CredOp) :
    credRun c (before ++ after) = credRun (credRun c before) after :=
  List.foldl_append

theorem credRun_concat (c : CredTable) (ops : List CredOp) (op : CredOp) :
    credRun c (ops ++ [op]) = (credCall (credRun c ops) op).2 :=
  credRun_append c ops [op]

theorem CredInv.run {c : CredTable} (h : CredInv c) (ops : List CredOp) :
    CredInv (credRun c ops) := by
  induction ops generalizing c with
  | nil => exact h
  | cons op ops ih => exact ih (h.call op)

/-- A name that fits is stored in full, and the search has seen that it is new. -/
theorem namedAccounts_call {c : CredTable} (hd : namedAccounts.Distinct c.users) {op : CredOp}
    (hf : CredFits c op) : namedAccounts.Distinct (credCall c op).2.users := by
  cases op with
  | createUser username password gid salt =>
    show namedAccounts.Distinct (credCreateUser c username password gid salt).2.users
    rcases credCreateUser_cases c username password gid salt with
      ⟨he, -⟩ | ⟨i, u₀, h0, hl, hno, he⟩ <;> rw [he]
    · exact hd
    · have hshort : username.length ≤ 31 := by
        rcases hf with hf | hf
        · exact hf
        · exact absurd (hf u₀ (List.mem_of_getElem? h0)) (by simp [hl])
      refine hd.set fun _ j u ha => absurd ha ?_
      show ¬ namedAccounts.At c.users j (copyString 31 username) u
      rw [copyString_of_le hshort]
      exact hno j u
  | changePassword uid newPassword salt =>
    show namedAccounts.Distinct (credChangePassword c uid newPassword salt).2.users
    rcases credChangePassword_cases c uid newPassword salt with he | ⟨i, u, hu, he⟩ <;> rw [he]
    · exact hd
    · exact hd.set_same hu.slot (by rfl) (by rfl)

theorem Account.call {c : CredTable} {uid : Nat} {username password : CString}
    (h : Account c uid username password) {op : CredOp}
    (hop : ∀ p s, op ≠ .changePassword uid p s) :
      Account (credCall c op).2 uid username password := by
  obtain ⟨i, u, hu, hid, hhash⟩ := h
  cases op with
  | createUser name pw gid salt =>
    show Account (credCreateUser c name pw gid salt).2 uid username password
    rcases credCreateUser_cases c name pw gid salt with
      ⟨he, -⟩ | ⟨j, u₀, h0, hl, -, he⟩ <;> rw [he]
    · exact ⟨i, u, hu, hid, hhash⟩
    -- the slot written is not the account's
    · refine ⟨i, u, Slots.at_set.mpr (.inr ⟨?_, hu⟩), hid, hhash⟩
      rintro rfl
      have hlive : u.active = true := hu.live
      rw [Option.some.inj (hu.slot.symm.trans h0), hl] at hlive
      cases hlive
  | changePassword uid' pw salt =>
    show Account (credChangePassword c uid' pw salt).2 uid username password
    rcases credChangePassword_cases c uid' pw salt with he | ⟨j, v, hv, he⟩ <;> rw [he]
    · exact ⟨i, u, hu, hid, hhash⟩
    · refine ⟨i, u, Slots.at_set.mpr (.inr ⟨?_, hu⟩), hid, hhash⟩
      rintro rfl
      have huv := Option.some.inj (hu.slot.symm.trans hv.slot)
      have hkey : v.uid = uid' := hv.key
      exact hop pw salt (by rw [← hid, ← hkey, huv])

theorem Account.run {c : CredTable} {uid : Nat} {username password : CString}
    (h : Account c uid username password) {ops : List CredOp}
    (hops : ∀ p s, .changePassword uid p s ∉ ops) :
      Account (credRun c ops) uid username password := by
  induction ops generalizing c with
  | nil => exact h
  | cons op ops ih =>
    refine ih (h.call fun p s he => hops p s ?_) fun p s hm => hops p s (List.mem_cons_of_mem _ hm)
    rw [he]
    exact List.mem_cons_self

theorem Account.login {c : CredTable} {uid : Nat} {username password : CString}
    (h : Account c uid username password) (hd : namedAccounts.Distinct c.users) :
    credAuthenticate c username password = toInt32 uid := by
  obtain ⟨i, u, hu, hid, hhash⟩ := h
  unfold credAuthenticate
  rw [authLoop_of_at password hd hu, hhash, secureCompare_self, if_pos rfl, hid]

/-- Who is created under a name that fits has an account. -/
theorem credCreateUser_account {c : CredTable} (hc : CredInv c) {username password : CString}
    {gid : Nat} {salt : List (BitVec 8)}
    (hf : CredFits c (.createUser username password gid salt))
    (h : 0 ≤ (credCreateUser c username password gid salt).1) :
    (credCreateUser c username password gid salt).1 = c.nextUid ∧
      Account (credCreateUser c username password gid salt).2 c.nextUid username password := by
  rcases credCreateUser_cases c username password gid salt with
    ⟨he, -⟩ | ⟨i, u₀, h0, hl, -, he⟩ <;> rw [he] at h ⊢
  · exact absurd h (by simp)
  have hle := hc.nextUid_le
  have hshort : username.length ≤ 31 := by
    rcases hf with hf | hf
    · exact hf
    · exact absurd (hf u₀ (List.mem_of_getElem? h0)) (by simp [hl])
  have hi : i < c.users.length := (List.getElem?_eq_some_iff.mp h0).1
  exact ⟨toInt32_of_lt (by omega), i, _,
    ⟨List.getElem?_set_self hi, rfl, copyString_of_le hshort⟩, rfl, rfl⟩

/-- A name that does not fit gets an account that nobody can log in to. -/
theorem login_of_not_fits {c : CredTable} (hc : CredInv c) {username password : CString}
    {gid : Nat} {salt : List (BitVec 8)}
    (hf : ¬ CredFits c (.createUser username password gid salt)) :
    (credCreateUser c username password gid salt).1 = c.nextUid ∧
      credAuthenticate (credCreateUser c username password gid salt).2 username password = -1 := by
  obtain ⟨hlong, hfree⟩ := not_or.mp hf
  have hlong : 31 < username.length := not_le.mp hlong
  have hle := hc.nextUid_le
  have hafter := hc.call (.createUser username password gid salt)
  rcases credCreateUser_cases c username password gid salt with
    ⟨-, ⟨i, u, hu⟩ | hfull⟩ | ⟨i, u₀, h0, hl, -, he⟩
  · exact absurd (hc.short hu) (by omega)
  · exact absurd hfull hfree
  · refine ⟨by rw [he]; exact toInt32_of_lt (by omega), ?_⟩
    exact authLoop_of_none password fun j v hv => absurd (hafter.short hv) (by omega)

/-- In every run from `cred_init`: each state reached has distinct names, logs in every account
created whose password is as it was, and is unchanged by a creation that failed, exactly if no call
stores a name of more than 31 characters. -/
theorem cred_exact_iff (salt₀ salt₁ : List (BitVec 8)) (ops : List CredOp) :
    (∀ before after, ops = before ++ after →
      CredExact (credInit credZero salt₀ salt₁) before) ↔
    ∀ before op after, ops = before ++ op :: after →
      CredFits (credRun (credInit credZero salt₀ salt₁) before) op := by
  have hinv := fun l => (credInv_init salt₀ salt₁).run l
  set start := credInit credZero salt₀ salt₁
  constructor
  · intro h before op after he
    cases op with
    | changePassword uid newPassword salt => trivial
    | createUser username password gid salt =>
      by_contra hf
      obtain ⟨hr, hauth⟩ := login_of_not_fits (hinv before) hf
      have hlogin := (h (before ++ [.createUser username password gid salt]) after
        (by rw [he, List.append_assoc]; rfl)).login rfl
      simp only [credRun_concat, credCall, hr, hauth] at hlogin
      have := hlogin (Int.natCast_nonneg _) fun _ _ => List.not_mem_nil
      omega
  · intro h
    have hdist : ∀ before after, ops = before ++ after →
        namedAccounts.Distinct (credRun start before).users := by
      intro before
      induction before using List.reverseRecOn with
      | nil => exact fun _ _ => namedAccounts_init salt₀ salt₁
      | append_singleton before op ih =>
        intro after he
        rw [List.append_assoc] at he
        rw [credRun_concat]
        exact namedAccounts_call (ih _ he) (h before op after he)
    intro before after he
    refine ⟨hdist before after he, ?_, ?_⟩
    · intro first username password gid salt rest hb r hr hkeep
      have hfit := h first (.createUser username password gid salt) (rest ++ after)
        (by rw [he, hb, List.append_assoc]; rfl)
      obtain ⟨hr', hacc⟩ := credCreateUser_account (hinv first) hfit hr
      have hnat : r.toNat = (credRun start first).nextUid := by
        rw [show r = (credRun start first).nextUid from hr', Int.toNat_natCast]
      have hrun : credRun start before = credRun
          (credCreateUser (credRun start first) username password gid salt).2 rest := by
        rw [hb, credRun_append]
        rfl
      have hle := (hinv first).nextUid_le
      rw [hnat] at hkeep
      rw [(hrun ▸ hacc.run hkeep : Account (credRun start before) _ _ _).login
        (hdist before after he), toInt32_of_lt (by omega), ← hr']
    · intro first username password gid salt hb hneg
      rw [hb, credRun_concat]
      rcases credCreateUser_cases (credRun start first) username password gid salt with
        ⟨hc, -⟩ | ⟨i, u₀, -, -, -, hc⟩
      · exact congrArg Prod.snd hc
      · have hle := (hinv first).nextUid_le
        rw [hc, toInt32_of_lt (by omega)] at hneg
        exact absurd hneg (by omega)

/-- A name of 32 characters is created twice; both accounts are stored under its first 31
characters, and neither can log in. -/
theorem credCreateUser_long :
    let name : CString := List.replicate 32 0x61
    let salt : List (BitVec 8) := List.replicate 16 0
    let c₀ := credInit credZero salt salt
    let r₁ := credCreateUser c₀ name [0x70] 0 salt
    let r₂ := credCreateUser r₁.2 name [0x71] 0 salt
    r₁.1 = 1001 ∧ r₂.1 = 1002 ∧
      (r₂.2.users[2]?.map fun u => (u.active, u.username)) = some (true, List.replicate 31 0x61) ∧
      (r₂.2.users[3]?.map fun u => (u.active, u.username)) = some (true, List.replicate 31 0x61) ∧
      credAuthenticate r₂.2 name [0x70] = -1 ∧ credAuthenticate r₂.2 name [0x71] = -1 :=
  ⟨rfl, rfl, rfl, rfl, rfl, rfl⟩

end GenOS
