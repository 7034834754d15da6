import GenOS.Drivers.LockRules

/-!
# Lock order of the drivers

The frames of a driver come from `pmm.c`, whose functions take the mutation guard, and the drivers
call them under a device lock. `preempt_disable` traps there, and neither it nor `local_lock_enter`
traps anywhere else (`driver_traps`). From boot nothing traps as long as no start of a driver comes
to its first allocation (`driver_lock_order`).
-/

namespace GenOS

open Machine Locking Prog Drv

/-! ## Operations -/

/-- What a thread calls. -/
inductive DriverOp where
  /-- With the PCI devices in order and what they answer. -/
  | blockInit (found : List (PciDevice × Probe))
  | netInit (found : List (PciDevice × Probe))
  | blockGetInfo (i : Nat) (out : Bool)
  | netGetInfo (i : Nat) (out : Bool)
  | blockSubmit (i type sector count : Nat) (buffer token : Bool) (owner : Nat)
      (admission : Option Nat) (deadline : Nat)
  | netSubmit (i : Nat) (frame : Bool) (length : Nat) (token : Bool) (owner : Nat)
      (admission : Option Nat) (deadline : Nat)
  | blockCancelWaiter (i admission : Nat)
  | netCancelWaiter (i admission : Nat)
  | blockCollect (i id : Nat) (buffer : Bool) (capacity : Nat)
  | netCollect (i id : Nat)
  | blockCancel (i id : Nat)
  | netCancel (i id : Nat)
  | blockService
  | netService
  | netReceive (i : Nat) (frame : Bool) (capacity : Nat)
  | rxEpoch (i : Nat)
  | receiveTurn (i epoch capacity : Nat)
  | ioCanBlock
  | blockShutdown
  | netShutdown
  /-- Not a call: the device writes the used ring of a queue. -/
  | device (d : Dev) (q usedIdx cell id length : Nat)

/-- `p` without its result. -/
def Drv.drop {α : Type} (p : Drv α) : Drv Unit := do
  let _ ← p
  return ()

def DriverOp.body : DriverOp → Drv Unit
  | blockInit found => Block.blockInit found
  | netInit found => Net.netInit found
  | blockGetInfo i out => drop (Block.blockGetInfo i out)
  | netGetInfo i out => drop (Net.netGetInfo i out)
  | blockSubmit i type sector count buffer token owner admission deadline =>
    drop (Block.submitOwned i type sector count buffer token owner admission deadline)
  | netSubmit i frame length token owner admission deadline =>
    drop (Net.submitOwned i frame length token owner admission deadline)
  | blockCancelWaiter i admission => Block.cancelWaiter i admission
  | netCancelWaiter i admission => Net.cancelWaiter i admission
  | blockCollect i id buffer capacity => drop (Block.blockCollect i id buffer capacity)
  | netCollect i id => drop (Net.netCollect i id)
  | blockCancel i id => drop (Block.blockCancel i id)
  | netCancel i id => drop (Net.netCancel i id)
  | blockService => Block.blockService
  | netService => Net.netService
  | netReceive i frame capacity => drop (Net.netReceive i frame capacity)
  | rxEpoch i => drop (Net.rxEpoch i)
  | receiveTurn i epoch capacity => drop (Net.receiveTurn i epoch capacity)
  | ioCanBlock => drop Drv.ioCanBlock
  | blockShutdown => drop Block.blockShutdown
  | netShutdown => drop Net.netShutdown
  | device d q usedIdx cell id length => virtioDevice d q usedIdx cell id length

variable {P : Prop} {g : Nat} {i : Nat}

/-! ## The disk driver -/

namespace Block

theorem keeps_stop : (stop i).Keeps (rules P) g 1 := by
  apply keeps_ioRequestCancelWaiters.bind
  intro _
  apply keeps_get
  intro s _
  apply Keeps.bind
  · split
    · exact keeps_ioRequestAbort (by decide)
    · exact keeps_ioRequestComplete _
  intro _
  apply Keeps.bind
  · exact keeps_setDisk fun _ h => ⟨h.1, rfl⟩
  intro _
  apply keeps_virtioStop.bind
  intro stopped
  split
  · exact keeps_pure false
  apply keeps_get
  intro s hs
  apply (keeps_virtioDmaFree (fun hP => ((hs hP).disk i).1) 2).bind
  intro _
  apply Keeps.bind
  · exact keeps_setDisk fun _ h => ⟨rfl, h.2⟩
  · exact fun _ => keeps_pure true

theorem keeps_checkConfiguration : (checkConfiguration i).Keeps (rules P) g 1 := by
  apply keeps_get
  intro s _
  split
  · exact keeps_pure ()
  apply keeps_virtioConfigChanged.bind
  intro changed
  split
  · exact keeps_pure ()
  apply (keeps_input 64).bind
  intro sectors
  apply keeps_get
  intro s _
  split
  · exact keeps_pure ()
  apply (keeps_ioRequestAbort (by decide)).bind
  exact fun _ => keeps_stop.bind fun _ => keeps_pure ()

theorem keeps_submitLocked (type sector count : Nat) (buffer : Bool) (owner : Nat)
    (admission : Option Nat) (deadline : Nat) :
    (submitLocked i type sector count buffer owner admission deadline).Keeps (rules P) g 1 := by
  apply keeps_get
  intro s _
  split
  · exact keeps_pure _
  apply keeps_checkConfiguration.bind
  intro _
  apply keeps_get
  intro s hs
  dsimp only
  apply keeps_inputFlag.bind
  intro ready
  split
  · exact keeps_pure _
  -- from here on the disk is online
  rename_i honline
  have hP : ¬P := fun hP => honline (.inl ((hs hP).disk i).2)
  split
  · exact keeps_pure _
  split
  · exact keeps_pure _
  split
  · exact keeps_pure _
  split
  · exact keeps_pure _
  apply (keeps_ioRequestBeginOwned hP owner admission deadline).bind
  intro b
  split
  · exact keeps_pure _
  apply Keeps.bind
  · exact keeps_setRequest fun _ h => h
  intro _
  apply (keeps_virtioSubmit hP 0 0).bind
  intro _
  apply Keeps.bind
  · exact keeps_setDisk fun _ h => h
  · exact fun _ => keeps_pure _

theorem keeps_submitOwned (type sector count : Nat) (buffer token : Bool) (owner : Nat)
    (admission : Option Nat) (deadline : Nat) :
    (submitOwned i type sector count buffer token owner admission deadline).Keeps
      (rules P) g 0 := by
  apply keeps_inputFlag.bind
  intro enabled
  split
  · exact keeps_pure _
  split
  · exact keeps_pure _
  · exact keeps_withLock
      (keeps_submitLocked type sector count buffer owner admission deadline)

theorem keeps_countError {l : Nat} : (countError i).Keeps (rules P) g l :=
  keeps_setDisk fun _ h => h

theorem keeps_pollRequest : (pollRequest i).Keeps (rules P) g 1 := by
  apply keeps_get
  intro s _
  dsimp only
  split
  · exact keeps_pure ()
  apply (keeps_virtioPop 0).bind
  rintro ⟨result, id, length⟩
  apply (keeps_input 64).bind
  intro now
  split
  · exact keeps_pure ()
  apply (keeps_input 8).bind
  intro status
  split
  · exact keeps_countError.bind fun _ => (keeps_ioRequestComplete _).bind fun _ =>
      keeps_stop.bind fun _ => keeps_pure ()
  split
  · exact keeps_countError.bind fun _ => (keeps_ioRequestComplete _).bind fun _ => keeps_pure ()
  · exact keeps_ioRequestComplete _

theorem keeps_serviceDisk : (serviceDisk i).Keeps (rules P) g 1 :=
  keeps_ioRequestExpireWaiters.bind fun _ => keeps_checkConfiguration.bind fun _ =>
    keeps_pollRequest

theorem keeps_stopPending : (stopPending i).Keeps (rules P) g 1 := by
  apply keeps_get
  intro s _
  split
  · exact keeps_pure ()
  · exact keeps_stop.bind fun _ => keeps_pure ()

theorem keeps_releaseDead (id owner : Nat) (dead : Bool) :
    (releaseDead i id owner dead).Keeps (rules P) g 1 := by
  apply keeps_get
  intro s _
  dsimp only
  split
  · exact keeps_pure ()
  · exact keeps_stopPending.bind fun _ => keeps_ioRequestRelease

theorem keeps_serviceSnapshot : (serviceSnapshot i).Keeps (rules P) g 0 := by
  apply keeps_withTryLock
  apply keeps_get
  intro s _
  dsimp only
  split
  · exact keeps_pure _
  · exact keeps_serviceDisk.bind fun _ => keeps_pure _

theorem keeps_serviceTurn : (serviceTurn i).Keeps (rules P) g 0 := by
  apply keeps_serviceSnapshot.bind
  rintro (_ | ⟨id, owner⟩)
  · exact keeps_pure ()
  apply (keeps_withGuard keeps_inputFlag).bind
  intro dead
  apply keeps_withTryLock
  exact (keeps_releaseDead id owner dead).bind fun _ => keeps_serviceDisk

theorem keeps_blockService : blockService.Keeps (rules P) g 0 :=
  keeps_get fun _ _ => keeps_forLoop (fun _ => keeps_serviceTurn) _ _

theorem keeps_collectLocked (id : Nat) (buffer : Bool) (capacity : Nat) :
    (collectLocked i id buffer capacity).Keeps (rules P) g 1 := by
  apply keeps_get
  intro s _
  split
  · exact keeps_pure _
  apply keeps_serviceDisk.bind
  intro _
  apply keeps_get
  intro s _
  dsimp only
  split
  · exact keeps_pure _
  split
  · exact keeps_pure _
  split
  · exact keeps_pure _
  · exact keeps_ioRequestRelease.bind fun _ => keeps_pure _

theorem keeps_blockCollect (id : Nat) (buffer : Bool) (capacity : Nat) :
    (blockCollect i id buffer capacity).Keeps (rules P) g 0 := by
  unfold blockCollect
  split
  · exact keeps_pure _
  · exact keeps_withLock (keeps_collectLocked id buffer capacity)

theorem keeps_blockCancel (id : Nat) : (blockCancel i id).Keeps (rules P) g 0 := by
  unfold blockCancel
  split
  · exact keeps_pure _
  apply keeps_withLock
  apply keeps_get
  intro s _
  split
  · exact keeps_pure _
  · exact keeps_stopPending.bind fun _ => keeps_ioRequestRelease.bind fun _ => keeps_pure _

theorem keeps_blockGetInfo (out : Bool) : (blockGetInfo i out).Keeps (rules P) g 0 := by
  unfold blockGetInfo
  split
  · exact keeps_pure _
  apply keeps_withLock
  apply keeps_get
  intro s _
  split
  · exact keeps_pure _
  · exact keeps_pure _

theorem keeps_shutdownLoop (n i : Nat) : (shutdownLoop n i).Keeps (rules P) g 0 := by
  induction n generalizing i with
  | zero => exact keeps_pure true
  | succ n ih =>
    apply Keeps.bind
    · apply keeps_withLock
      exact keeps_stop.bind fun _ => keeps_ioRequestRelease.bind fun _ => keeps_pure _
    · exact fun _ => (ih (i + 1)).bind fun _ => keeps_pure _

theorem balanced_blockShutdown : Balanced (rules P) (drop blockShutdown) := by
  intro v
  unfold Drv.drop blockShutdown
  rw [wp_bind]
  refine ⟨fun h => absurd rfl h, fun _ s₀ _ _ _ => ?_⟩
  rw [wp_bind]
  apply wp_get
  intro s _ _
  apply (keeps_shutdownLoop _ 0).wp_bind_self Nat.one_ne_zero
  intro stopped
  split
  · exact ⟨Nat.one_ne_zero, rfl, rfl⟩
  refine fun s hs _ => ⟨fun h => absurd h Nat.one_ne_zero, fun hP => ?_, ?_⟩
  · exact { hs hP with disks := fun _ => rfl }
  · exact ⟨Nat.one_ne_zero, rfl, rfl⟩

/-! ### Start -/

/-- The start of a disk fails, or traps at its first allocation. -/
theorem wp_setUp {pci : PciDevice} {hw : Probe} (h : P → FailsEarly (pci, hw)) {v : Guarded} :
    (setUp i pci hw).wp (rules P) v (g + 1) 1 fun a v' g' l' =>
      a = false ∧ v.Same v' ∧ g' = g + 1 ∧ l' = 1 := by
  refine Keeps.wp_bind_self (keeps_setDisk fun _ _ => ⟨rfl, rfl⟩) (Nat.succ_ne_zero g) fun _ => ?_
  rw [wp_bind]
  apply wp_mono (wp_setTransport 0 (fun _ _ _ => rfl) fun _ => rfl)
  rintro _ v₁ g' l' ⟨-, hv₁, rfl, rfl⟩
  rw [wp_bind]
  apply wp_mono (wp_virtioOpen pci hw (blkRo ||| blkFlush))
  rintro opened v₂ g' l' ⟨hopened, hv₂, rfl, rfl⟩
  have hv : v.Same v₂ := ⟨hv₂.1.trans hv₁.1, hv₂.2.trans hv₁.2⟩
  split
  · exact ⟨rfl, hv, rfl, rfl⟩
  rename_i ho
  obtain ⟨hpci, hreset, -⟩ := hopened (Bool.of_not_eq_false ho)
  rw [wp_bind]
  apply wp_mono (wp_virtioQueueInit fun hP => h hP hpci hreset)
  rintro queued v₃ g' l' ⟨rfl, rfl, rfl, rfl⟩
  exact ⟨rfl, hv, rfl, rfl⟩

theorem wp_addDisk {pci : PciDevice} {hw : Probe} (h : P → FailsEarly (pci, hw)) {v : Guarded}
    (hv : v.disks.initialized = true) :
    (addDisk i pci hw).wp (rules P) v (g + 1) 0 fun _ v' g' l' =>
      v'.disks = { v.disks with count := i + 1 } ∧ g' = g + 1 ∧ l' = 0 := by
  refine ⟨rfl, ?_⟩
  rw [wp_bind, wp_bind]
  apply wp_mono (wp_setUp h)
  rintro ok v₁ g' l' ⟨rfl, hv₁, rfl, rfl⟩
  apply keeps_stop.wp_bind_self (Nat.succ_ne_zero g)
  intro _ s hs hs₁
  have hs₂ : s.disks = v.disks :=
    (congrArg Guarded.disks (hs₁ (Nat.succ_ne_zero g))).trans hv₁.1
  refine ⟨fun h => absurd h (Nat.succ_ne_zero g), fun hP => ?_, Nat.one_ne_zero, ?_, rfl, rfl⟩
  · refine { hs hP with disks := fun h => ?_ }
    exact absurd ((congrArg Lifecycle.initialized hs₂).trans hv) (ne_true_of_eq_false h)
  · show { s.disks with count := i + 1 } = _
    rw [hs₂]

theorem wp_initLoop (found : List (PciDevice × Probe)) {v : Guarded}
    (hv : v.disks.initialized = true)
    (h : P → ∀ x ∈ (found.filter fun x => isDisk x.1).take (2 - v.disks.count), FailsEarly x) :
    (initLoop found).wp (rules P) v (g + 1) 0 fun _ _ g' l' => g' = g + 1 ∧ l' = 0 := by
  induction found generalizing v with
  | nil => exact ⟨rfl, rfl⟩
  | cons x found ih =>
    obtain ⟨pci, hw⟩ := x
    apply wp_get
    intro s _ hs
    have hs : s.disks = v.disks := congrArg Guarded.disks hs
    rw [hs]
    split
    · exact ⟨rfl, rfl⟩
    rename_i hcount
    rw [wp_bind]
    split
    · rename_i hpci
      rw [List.filter_cons_of_pos (by exact hpci),
        show 2 - v.disks.count = (2 - (v.disks.count + 1)) + 1 by omega, List.take_succ_cons] at h
      apply wp_mono (wp_addDisk (fun hP => h hP _ List.mem_cons_self) hv)
      rintro _ v₁ g' l' ⟨hv₁, rfl, rfl⟩
      apply ih
      · rw [hv₁]
        exact hv
      · rw [hv₁]
        exact fun hP x hx => h hP x (List.mem_cons_of_mem _ hx)
    · rename_i hpci
      rw [List.filter_cons_of_neg (by exact hpci)] at h
      exact ih hv h

theorem balanced_blockInit (found : List (PciDevice × Probe)) :
    Balanced (rules P) (blockInit found) := by
  refine fun v => ⟨fun h => absurd rfl h, fun _ s₀ hs₀ _ hsite => ?_⟩
  rw [wp_bind]
  apply wp_get
  intro s _ hs
  have hs : s.disks = s₀.disks := congrArg Guarded.disks hs
  rw [hs]
  split
  · exact ⟨Nat.one_ne_zero, rfl, rfl⟩
  rename_i hinit
  have hinit := Bool.of_not_eq_true hinit
  rw [wp_bind]
  intro s' hs' hv
  refine ⟨fun h => absurd h Nat.one_ne_zero, fun hP => { hs' hP with disks := nofun }, ?_⟩
  have hs' : s'.disks = s₀.disks := congrArg Guarded.disks (hv Nat.one_ne_zero)
  apply wp_mono (wp_initLoop found rfl fun hP x hx => ?_)
  · rintro _ v' g' l' ⟨rfl, rfl⟩
    exact ⟨Nat.one_ne_zero, rfl, rfl⟩
  · exact hsite hP hinit x (List.take_subset_take_left _ (Nat.sub_le 2 _) hx)

end Block

/-! ## The network driver -/

namespace Net

theorem keeps_stop : (stop i).Keeps (rules P) g 1 := by
  apply keeps_ioRequestCancelWaiters.bind
  intro _
  apply (keeps_ioRequestComplete _).bind
  intro _
  apply Keeps.bind
  · exact keeps_modify (fun _ => rfl) fun _ hs => { hs with }
  intro _
  apply Keeps.bind
  · exact keeps_setNic fun _ h => ⟨h.1, h.2.1, rfl⟩
  intro _
  apply keeps_virtioStop.bind
  intro stopped
  split
  · exact keeps_pure false
  apply keeps_get
  intro s hs
  apply (keeps_virtioDmaFree (fun hP => ((hs hP).nic i).1) rxPages).bind
  intro _
  apply (keeps_virtioDmaFree (fun hP => ((hs hP).nic i).2.1) 1).bind
  intro _
  apply Keeps.bind
  · exact keeps_setNic fun _ h => ⟨rfl, rfl, h.2.2⟩
  · exact fun _ => keeps_pure true

theorem keeps_linkStatus {l : Nat} : (linkStatus i).Keeps (rules P) g l := by
  apply keeps_inputFlag.bind
  intro up
  exact keeps_modify (fun _ => rfl) fun _ hs => hs.setNic (hs.nic i)

theorem keeps_submitLocked (owner : Nat) (admission : Option Nat) (deadline : Nat) :
    (submitLocked i owner admission deadline).Keeps (rules P) g 1 := by
  apply keeps_get
  intro s _
  split
  · exact keeps_pure _
  apply keeps_linkStatus.bind
  intro _
  apply keeps_get
  intro s hs
  dsimp only
  apply keeps_inputFlag.bind
  intro ready
  split
  · exact keeps_pure _
  -- from here on the interface is online
  rename_i honline
  have hP : ¬P := fun hP => honline (.inl ((hs hP).nic i).2.2)
  apply (keeps_ioRequestBeginOwned hP owner admission deadline).bind
  intro b
  split
  · exact keeps_pure _
  · exact (keeps_virtioSubmit hP 1 0).bind fun _ => keeps_pure _

theorem keeps_submitOwned (frame : Bool) (length : Nat) (token : Bool) (owner : Nat)
    (admission : Option Nat) (deadline : Nat) :
    (submitOwned i frame length token owner admission deadline).Keeps (rules P) g 0 := by
  apply keeps_inputFlag.bind
  intro enabled
  split
  · exact keeps_pure _
  split
  · exact keeps_pure _
  · exact keeps_withLock (keeps_submitLocked owner admission deadline)

theorem keeps_countError {l : Nat} : (countError i).Keeps (rules P) g l :=
  keeps_setNic fun _ h => h

theorem keeps_pollRequest : (pollRequest i).Keeps (rules P) g 1 := by
  apply keeps_get
  intro s _
  dsimp only
  split
  · exact keeps_pure ()
  apply (keeps_virtioPop 1).bind
  rintro ⟨result, id, length⟩
  apply (keeps_input 64).bind
  intro now
  split
  · exact keeps_pure ()
  split
  · exact keeps_countError.bind fun _ => (keeps_ioRequestComplete _).bind fun _ =>
      keeps_stop.bind fun _ => keeps_pure ()
  apply Keeps.bind
  · exact keeps_setNic fun _ h => h
  · exact fun _ => keeps_ioRequestComplete _

theorem keeps_stopPending : (stopPending i).Keeps (rules P) g 1 := by
  apply keeps_get
  intro s _
  split
  · exact keeps_pure ()
  · exact keeps_stop.bind fun _ => keeps_pure ()

theorem keeps_releaseDead (id owner : Nat) (dead : Bool) :
    (releaseDead i id owner dead).Keeps (rules P) g 1 := by
  apply keeps_get
  intro s _
  dsimp only
  split
  · exact keeps_pure ()
  · exact keeps_stopPending.bind fun _ => keeps_ioRequestRelease

theorem keeps_setRxSeen {f : Drivers → Nat → Nat} {l : Nat} :
    (Drv.modify fun s => { s with rxSeen := f s }).Keeps (rules P) g l :=
  keeps_modify (fun _ => rfl) fun _ hs => { hs with }

theorem keeps_pollReceived : (pollReceived i).Keeps (rules P) g 1 := by
  apply keeps_get
  intro s _
  split
  · exact keeps_pure ()
  apply keeps_virtioConfigChanged.bind
  intro changed
  apply Keeps.bind
  · split
    · exact keeps_linkStatus
    · exact keeps_pure ()
  exact fun _ => keeps_get fun _ _ => keeps_setRxSeen

theorem keeps_serviceSnapshot : (serviceSnapshot i).Keeps (rules P) g 0 :=
  keeps_withTryLock (keeps_ioRequestExpireWaiters.bind fun _ =>
    keeps_get fun _ _ => keeps_pure _)

theorem keeps_serviceTurn : (serviceTurn i).Keeps (rules P) g 0 := by
  apply keeps_serviceSnapshot.bind
  rintro (_ | ⟨id, owner⟩)
  · exact keeps_pure ()
  apply Keeps.bind
  · split
    · exact keeps_pure _
    · exact keeps_withGuard keeps_inputFlag
  intro dead
  apply keeps_withTryLock
  exact (keeps_releaseDead id owner dead).bind fun _ => keeps_pollRequest.bind fun _ =>
    keeps_pollReceived

theorem keeps_netService : netService.Keeps (rules P) g 0 :=
  keeps_get fun _ _ => keeps_forLoop (fun _ => keeps_serviceTurn) _ _

theorem keeps_collectLocked (id : Nat) : (collectLocked i id).Keeps (rules P) g 1 := by
  apply keeps_get
  intro s _
  split
  · exact keeps_pure _
  apply keeps_pollRequest.bind
  intro _
  apply keeps_get
  intro s _
  dsimp only
  split
  · exact keeps_pure _
  split
  · exact keeps_pure _
  · exact keeps_ioRequestRelease.bind fun _ => keeps_pure _

theorem keeps_netCollect (id : Nat) : (netCollect i id).Keeps (rules P) g 0 := by
  unfold netCollect
  split
  · exact keeps_pure _
  · exact keeps_withLock (keeps_collectLocked id)

theorem keeps_netCancel (id : Nat) : (netCancel i id).Keeps (rules P) g 0 := by
  unfold netCancel
  split
  · exact keeps_pure _
  apply keeps_withLock
  apply keeps_get
  intro s _
  split
  · exact keeps_pure _
  · exact keeps_stopPending.bind fun _ => keeps_ioRequestRelease.bind fun _ => keeps_pure _

theorem keeps_netGetInfo (out : Bool) : (netGetInfo i out).Keeps (rules P) g 0 := by
  unfold netGetInfo
  split
  · exact keeps_pure _
  apply keeps_withLock
  apply keeps_get
  intro s _
  split
  · exact keeps_pure _
  · exact keeps_linkStatus.bind fun _ => keeps_get fun _ _ => keeps_pure _

theorem keeps_receiveLocked (capacity : Nat) :
    (receiveLocked i capacity).Keeps (rules P) g 1 := by
  apply keeps_get
  intro s _
  split
  · exact keeps_pure _
  apply keeps_get
  intro s hs
  split
  · exact keeps_pure _
  -- from here on the interface is online
  rename_i honline
  have hP : ¬P := fun hP => honline ((hs hP).nic i).2.2
  apply (keeps_virtioPop 0).bind
  rintro ⟨result, id, length⟩
  dsimp only
  split
  · exact keeps_pure _
  apply keeps_get
  intro s _
  split
  · exact keeps_countError.bind fun _ => keeps_stop.bind fun _ => keeps_pure _
  apply keeps_inputFlag.bind
  intro plain
  apply Keeps.bind
  · exact keeps_setNic fun _ h => h
  · exact fun _ => (keeps_virtioSubmit hP 0 id).bind fun _ => keeps_pure _

theorem keeps_netReceive (frame : Bool) (capacity : Nat) :
    (netReceive i frame capacity).Keeps (rules P) g 0 := by
  apply keeps_inputFlag.bind
  intro enabled
  split
  · exact keeps_pure _
  · exact keeps_withLock (keeps_receiveLocked capacity)

theorem keeps_rxEpoch : (rxEpoch i).Keeps (rules P) g 0 :=
  keeps_withLock (keeps_get fun _ _ => keeps_pure _)

theorem keeps_receiveTurn (epoch capacity : Nat) :
    (receiveTurn i epoch capacity).Keeps (rules P) g 0 := by
  apply keeps_withLock
  apply keeps_get
  intro s _
  split
  · exact keeps_pure _
  apply (keeps_receiveLocked capacity).bind
  intro received
  split
  · exact keeps_pure _
  apply keeps_linkStatus.bind
  intro _
  apply keeps_get
  intro s _
  split
  · exact keeps_pure _
  · exact keeps_pure _

theorem keeps_shutdownLoop (n i : Nat) : (shutdownLoop n i).Keeps (rules P) g 0 := by
  induction n generalizing i with
  | zero => exact keeps_pure true
  | succ n ih =>
    apply Keeps.bind
    · apply keeps_withLock
      exact keeps_stop.bind fun _ => keeps_ioRequestRelease.bind fun _ => keeps_pure _
    · exact fun _ => (ih (i + 1)).bind fun _ => keeps_pure _

theorem balanced_netShutdown : Balanced (rules P) (drop netShutdown) := by
  intro v
  unfold Drv.drop netShutdown
  rw [wp_bind]
  refine ⟨fun h => absurd rfl h, fun _ s₀ _ _ _ => ?_⟩
  rw [wp_bind]
  apply wp_get
  intro s _ _
  apply (keeps_shutdownLoop _ 0).wp_bind_self Nat.one_ne_zero
  intro stopped
  split
  · exact ⟨Nat.one_ne_zero, rfl, rfl⟩
  refine fun s hs _ => ⟨fun h => absurd h Nat.one_ne_zero, fun hP => ?_, ?_⟩
  · exact { hs hP with interfaces := fun _ => rfl }
  · exact ⟨Nat.one_ne_zero, rfl, rfl⟩

/-! ### Start -/

/-- Of the features that `net_init` accepts, `NET_MAC` is what the device has. -/
theorem and_netMac (features : BitVec 32) :
    features &&& (netMac ||| netStatus) &&& netMac = features &&& netMac := by
  rw [BitVec.and_assoc, show (netMac ||| netStatus) &&& netMac = netMac by decide]

/-- The start of an interface fails, or traps at its first allocation. -/
theorem wp_setUp {pci : PciDevice} {hw : Probe} (h : P → FailsEarly (pci, hw)) {v : Guarded} :
    (setUp i pci hw).wp (rules P) v (g + 1) 1 fun a v' g' l' =>
      a = false ∧ v.Same v' ∧ g' = g + 1 ∧ l' = 1 := by
  refine Keeps.wp_bind_self (keeps_setNic fun _ _ => ⟨rfl, rfl, rfl⟩) (Nat.succ_ne_zero g)
    fun _ => ?_
  rw [wp_bind]
  apply wp_mono (wp_setTransport 0 (fun _ _ _ => rfl) fun _ => rfl)
  rintro _ v₁ g' l' ⟨-, hv₁, rfl, rfl⟩
  rw [wp_bind]
  apply wp_mono (wp_virtioOpen pci hw (netMac ||| netStatus))
  rintro opened v₂ g' l' ⟨hopened, hv₂, rfl, rfl⟩
  have hv : v.Same v₂ := ⟨hv₂.1.trans hv₁.1, hv₂.2.trans hv₁.2⟩
  split
  · exact ⟨rfl, hv, rfl, rfl⟩
  rename_i ho
  obtain ⟨hpci, hreset, hfeat⟩ := hopened (Bool.of_not_eq_false ho)
  apply wp_get
  intro s _ hs
  have hs : (s.transport (.nic i)).features = v₂.features (.nic i) := by
    rw [← hs]
    rfl
  split
  · exact ⟨rfl, hv, rfl, rfl⟩
  rename_i hmac
  rw [hs, hfeat, and_netMac] at hmac
  rw [wp_bind]
  apply wp_mono (wp_virtioQueueInit fun hP => h hP hpci hreset hmac)
  rintro queued v₃ g' l' ⟨rfl, rfl, rfl, rfl⟩
  exact ⟨rfl, hv, rfl, rfl⟩

theorem wp_addNic {pci : PciDevice} {hw : Probe} (h : P → FailsEarly (pci, hw)) {v : Guarded}
    (hv : v.interfaces.initialized = true) :
    (addNic i pci hw).wp (rules P) v (g + 1) 0 fun _ v' g' l' =>
      v'.interfaces = { v.interfaces with count := i + 1 } ∧ g' = g + 1 ∧ l' = 0 := by
  refine ⟨rfl, ?_⟩
  rw [wp_bind, wp_bind]
  apply wp_mono (wp_setUp h)
  rintro ok v₁ g' l' ⟨rfl, hv₁, rfl, rfl⟩
  apply keeps_stop.wp_bind_self (Nat.succ_ne_zero g)
  intro _ s hs hs₁
  have hs₂ : s.interfaces = v.interfaces :=
    (congrArg Guarded.interfaces (hs₁ (Nat.succ_ne_zero g))).trans hv₁.2
  refine ⟨fun h => absurd h (Nat.succ_ne_zero g), fun hP => ?_, Nat.one_ne_zero, ?_, rfl, rfl⟩
  · refine { hs hP with interfaces := fun h => ?_ }
    exact absurd ((congrArg Lifecycle.initialized hs₂).trans hv) (ne_true_of_eq_false h)
  · show { s.interfaces with count := i + 1 } = _
    rw [hs₂]

theorem wp_initLoop (found : List (PciDevice × Probe)) {v : Guarded}
    (hv : v.interfaces.initialized = true)
    (h : P → ∀ x ∈ (found.filter fun x => isNic x.1).take (2 - v.interfaces.count),
      FailsEarly x) :
    (initLoop found).wp (rules P) v (g + 1) 0 fun _ _ g' l' => g' = g + 1 ∧ l' = 0 := by
  induction found generalizing v with
  | nil => exact ⟨rfl, rfl⟩
  | cons x found ih =>
    obtain ⟨pci, hw⟩ := x
    apply wp_get
    intro s _ hs
    have hs : s.interfaces = v.interfaces := congrArg Guarded.interfaces hs
    rw [hs]
    split
    · exact ⟨rfl, rfl⟩
    rename_i hcount
    rw [wp_bind]
    split
    · rename_i hpci
      rw [List.filter_cons_of_pos (by exact hpci),
        show 2 - v.interfaces.count = (2 - (v.interfaces.count + 1)) + 1 by omega,
        List.take_succ_cons] at h
      apply wp_mono (wp_addNic (fun hP => h hP _ List.mem_cons_self) hv)
      rintro _ v₁ g' l' ⟨hv₁, rfl, rfl⟩
      apply ih
      · rw [hv₁]
        exact hv
      · rw [hv₁]
        exact fun hP x hx => h hP x (List.mem_cons_of_mem _ hx)
    · rename_i hpci
      rw [List.filter_cons_of_neg (by exact hpci)] at h
      exact ih hv h

theorem balanced_netInit (found : List (PciDevice × Probe)) :
    Balanced (rules P) (netInit found) := by
  refine fun v => ⟨fun h => absurd rfl h, fun _ s₀ hs₀ _ hsite => ?_⟩
  rw [wp_bind]
  apply wp_get
  intro s _ hs
  have hs : s.interfaces = s₀.interfaces := congrArg Guarded.interfaces hs
  rw [hs]
  split
  · exact ⟨Nat.one_ne_zero, rfl, rfl⟩
  rename_i hinit
  have hinit := Bool.of_not_eq_true hinit
  rw [wp_bind]
  intro s' hs' hv
  refine ⟨fun h => absurd h Nat.one_ne_zero, fun hP => { hs' hP with interfaces := nofun }, ?_⟩
  apply wp_mono (wp_initLoop found rfl fun hP x hx => ?_)
  · rintro _ v' g' l' ⟨rfl, rfl⟩
    exact ⟨Nat.one_ne_zero, rfl, rfl⟩
  · exact hsite hP hinit x (List.take_subset_take_left _ (Nat.sub_le 2 _) hx)

end Net

/-! ## All operations -/

theorem balanced_drop {α : Type} {p : Drv α} (h : p.Keeps (rules P) 0 0) :
    Balanced (rules P) (drop p) :=
  (h.bind fun _ => keeps_pure ()).balanced

theorem keeps_ioCanBlock : Drv.ioCanBlock.Keeps (rules P) 0 0 := by
  apply keeps_inputFlag.bind
  intro enabled
  apply Keeps.depths
  split
  · exact keeps_pure false
  · exact keeps_withGuard keeps_inputFlag

/-- Every operation begins and ends with no locks. -/
theorem DriverOp.balanced (op : DriverOp) : Balanced (rules P) op.body := by
  cases op with
  | blockInit found => exact Block.balanced_blockInit found
  | netInit found => exact Net.balanced_netInit found
  | blockGetInfo i out => exact balanced_drop (Block.keeps_blockGetInfo out)
  | netGetInfo i out => exact balanced_drop (Net.keeps_netGetInfo out)
  | blockSubmit i type sector count buffer token owner admission deadline =>
    exact balanced_drop
      (Block.keeps_submitOwned type sector count buffer token owner admission deadline)
  | netSubmit i frame length token owner admission deadline =>
    exact balanced_drop (Net.keeps_submitOwned frame length token owner admission deadline)
  | blockCancelWaiter i admission =>
    exact (keeps_withLock (keeps_ioRequestCancelWaiter admission)).balanced
  | netCancelWaiter i admission =>
    exact (keeps_withLock (keeps_ioRequestCancelWaiter admission)).balanced
  | blockCollect i id buffer capacity =>
    exact balanced_drop (Block.keeps_blockCollect id buffer capacity)
  | netCollect i id => exact balanced_drop (Net.keeps_netCollect id)
  | blockCancel i id => exact balanced_drop (Block.keeps_blockCancel id)
  | netCancel i id => exact balanced_drop (Net.keeps_netCancel id)
  | blockService => exact Block.keeps_blockService.balanced
  | netService => exact Net.keeps_netService.balanced
  | netReceive i frame capacity => exact balanced_drop (Net.keeps_netReceive frame capacity)
  | rxEpoch i => exact balanced_drop Net.keeps_rxEpoch
  | receiveTurn i epoch capacity => exact balanced_drop (Net.keeps_receiveTurn epoch capacity)
  | ioCanBlock => exact balanced_drop keeps_ioCanBlock
  | blockShutdown => exact Block.balanced_blockShutdown
  | netShutdown => exact Net.balanced_netShutdown
  | device d q usedIdx cell id length =>
    exact (keeps_virtioDevice q usedIdx cell id length).balanced

section

variable {τ : Type} [DecidableEq τ] {w w' : World τ Drivers Dev DriverSite}
  {r : List (τ × Event DriverOp)}

/-- In every run from any state, only frame allocation and release trap on the lock order. -/
theorem driver_traps (h₀ : w.Idle) (hr : Run (Step DriverOp.body) w r w') {t : τ}
    {a : Trap DriverSite} (ha : (w'.threads t).Traps a) : FrameTrap a := by
  have hr' : Run (Restrict (Step DriverOp.body) (World.Meets (rules False).allow)) w r w' :=
    hr.mono fun _ _ _ hs => ⟨hs, fun _ _ _ h => h.elim⟩
  exact ((no_trap h₀ (fun h => h.elim) hr' DriverOp.balanced).2 t a ha).2

theorem Drivers.down_init : Drivers.init.Down where
  transport _ _ := rfl
  request _ := ⟨rfl, rfl⟩
  disk _ := ⟨rfl, rfl⟩
  nic _ := ⟨rfl, rfl, rfl⟩
  disks _ := rfl
  interfaces _ := rfl

/-- From boot, in every run in which no start of a driver comes to an allocation, no thread takes
the mutation guard under a device lock, takes a second device lock, or traps on another check. -/
theorem driver_lock_order (h₀ : w.Idle) (hs : w.shared = Drivers.init)
    (hr : Run (Restrict (Step DriverOp.body) (World.Meets NoFrames)) w r w') (t : τ)
    (a : Trap DriverSite) : ¬(w'.threads t).Traps a := by
  have hr' : Run (Restrict (Step DriverOp.body) (World.Meets (rules True).allow)) w r w' :=
    hr.mono fun _ _ _ hs => ⟨hs.1, fun site k hk _ => hs.2 site k hk⟩
  have hI : (rules True).inv w.shared := by
    rw [hs]
    exact fun _ => Drivers.down_init
  exact fun ha => ((no_trap h₀ hI hr' DriverOp.balanced).2 t a ha).1 trivial

end

/-- One thread after boot. -/
def bootWorld : World Unit Drivers Dev DriverSite where
  shared := .init
  guardOwner := none
  lockOwner _ := none
  threads _ := ⟨0, 0, .ret ()⟩

/-- A transitional virtio disk, as it should answer. -/
def virtioDisk : PciDevice × Probe :=
  (⟨0x1af4, 0x1001, 11, 0, 0xc001⟩, ⟨true, 0x200, fun _ => 256, fun _ => 0⟩)

/-- The start of a disk that works traps in its first allocation. -/
theorem driver_lock_order_fails : ∃ r w', Run (Step DriverOp.body) bootWorld r w' ∧
    (w'.threads ()).Traps (.guard .pmmAllocContiguousPages) := by
  apply Run.exists_cons (a := ((), .start (.blockInit [virtioDisk]))) (.start (t := ()) rfl)
  apply Run.exists_cons (.guard (t := ()) rfl (.inl rfl))
  apply Run.exists_cons (.access (t := ()) rfl)
  apply Run.exists_cons (.access (t := ()) rfl)
  apply Run.exists_cons (.access (t := ()) rfl)
  apply Run.exists_cons (.lock (t := ()) rfl rfl)
  apply Run.exists_cons (.access (t := ()) rfl)
  apply Run.exists_cons (.access (t := ()) rfl)
  apply Run.exists_cons (.depths (t := ()) rfl)
  apply Run.exists_cons (.access (t := ()) rfl)
  apply Run.exists_cons (.access (t := ()) rfl)
  apply Run.exists_cons (.access (t := ()) rfl)
  apply Run.exists_cons (.access (t := ()) rfl)
  apply Run.exists_cons (.access (t := ()) rfl)
  exact ⟨_, _, .nil, Nat.one_ne_zero, rfl⟩

/-- A disk that does not acknowledge a reset. -/
def stuckDisk : PciDevice × Probe := (virtioDisk.1, { virtioDisk.2 with resetAck := false })

theorem driver_lock_order_stuck : ∃ w',
    Run (Restrict (Step DriverOp.body) (World.Meets NoFrames)) bootWorld
      [((), .start (.blockInit [stuckDisk])), ((), .step)] w' ∧
    ∀ a, ¬(w'.threads ()).Traps a := by
  have hstart : Restrict (Step DriverOp.body) (World.Meets NoFrames) bootWorld
      ((), .start (.blockInit [stuckDisk]))
      (bootWorld.set () ⟨0, 0, Block.blockInit [stuckDisk]⟩) :=
    ⟨.start (t := ()) rfl, fun _ _ h => nomatch h⟩
  obtain ⟨w', hguard⟩ : ∃ w', Restrict (Step DriverOp.body) (World.Meets NoFrames)
      (bootWorld.set () ⟨0, 0, Block.blockInit [stuckDisk]⟩) ((), .step) w' := by
    refine ⟨_, .guard (t := ()) rfl (.inl rfl), fun site k h => ?_⟩
    obtain rfl : DriverSite.blockInit [stuckDisk] = site := by injection h
    intro _ x hx
    obtain rfl := List.mem_singleton.mp hx
    exact fun _ h => absurd h nofun
  have hr := (Run.single hstart).snoc hguard
  exact ⟨w', hr, fun a => driver_lock_order (fun _ => rfl) rfl hr () a⟩

end GenOS
