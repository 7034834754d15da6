import GenOS.Mm.UserMemory

/-!
# Copy-on-write

`mm/cow.c`. The owner of the current address space is an argument, `none` where the code finds no
task. Shootdowns and the preemption guard change no memory and are left out.
-/

namespace GenOS.Phys

/-- `private_index`. -/
def privateIndex (t : Owner) (va phys : Nat) : Option Nat :=
  t.userPages.findIdx? fun p => p.vaddr == va && p.phys == phys

/-- `owner->user_pages[index] = phys`. -/
def setPage (t : Owner) (index phys : Nat) : Owner :=
  { t with userPages := t.userPages.modify index fun p => { p with phys := phys } }

/-- What `cow_resolve` does with the leaf in `slot` of `table`. -/
def resolveLeaf (s : Phys) (t : Owner) (va table slot : Nat) : Bool × Phys × Owner :=
  let pte := s.mem table slot
  if pte &&& (pteUser ||| pteWrite) = pteUser ||| pteWrite then (true, s, t)
  else if pte &&& (pteUser ||| pteCow ||| pteWrite) ≠ pteUser ||| pteCow then (false, s, t)
  else
    let oldPhys := vmmPteAddress pte
    let refs := s.pmm.pmmGetRefcount oldPhys.toNat
    match privateIndex t va oldPhys.toNat with
    | none => (false, s, t)
    | some index =>
      if refs = 0 then (false, s, t)
      else
        let flags := pte &&& pteFlagMask &&& ~~~pteCow ||| pteWrite
        if refs = 1 then (true, s.store table slot (oldPhys ||| flags), t)
        else
          let (phys, s) := s.allocFrame
          if phys = 0 then (false, s, t)
          else
            -- the `memcpy`
            let s := { s with mem := Cells.set s.mem phys (s.mem oldPhys.toNat) }
            let s := s.store table slot (BitVec.ofNat 64 phys ||| flags)
            (true, s.freeFrame oldPhys.toNat, setPage t index phys)

/-- `cow_resolve`. -/
def cowResolve (s : Phys) (owner : Option Owner) (faultAddr : Nat) (errorCode : Word) :
    Bool × Phys × Option Owner :=
  if errorCode &&& ~~~4#64 ≠ 3#64 ∨ 0x800000000000 ≤ faultAddr then (false, s, owner)
  else
    match owner with
    | none => (false, s, none)
    | some t =>
      if t.pml4 = 0 then (false, s, some t)
      else
        let va := faultAddr / 4096 * 4096
        match s.vmmPteIn t.pml4 va with
        | none => (false, s, some t)
        | some (table, slot) =>
          let (handled, s, t) := s.resolveLeaf t va table slot
          (handled, s, some t)

end GenOS.Phys
