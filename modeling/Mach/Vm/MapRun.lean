import Mach.Vm.MapCopyInvariant
import Mach.Vm.MapCopyLocks

/-!
# Every operation keeps the invariant

The operations on a map are one type here.  Each of them keeps the invariant of the map and of the
share maps (`MapOp.apply_valid`).  Ranges can be out of the bounds of the map, reversed or empty.
An operation that enters memory needs a size, and a mask for which rounding does not wrap around.
-/

universe u

namespace Mach

/-- The operations on a map. -/
inductive MapOp where
  | remove (start stop : Nat)
  | protect (start stop newProt : Nat) (setMax : Bool)
  | inherit (start stop newInheritance : Nat)
  | simplify (start : Nat)
  /-- `vm_map_enter` with `anywhere`. -/
  | enter (coalesce : Bool) (address size mask : Nat) (a : VmMap.Entering)
  | findEntry (address size mask object offset : Nat)
  | copyin (a : CopyinArgs) (fuel : Nat)
  | copyout (pageMask : Nat) (coalesce : Bool) (copy : VmMapCopy)

namespace MapOp

variable {σ : Type u} {ops : ObjectOps σ} {op : MapOp} {s s' : VmSystem σ}

/-- The system after a call that returns. -/
def apply (ops : ObjectOps σ) (op : MapOp) (s : VmSystem σ) : Option (VmSystem σ) :=
  match op with
  | .remove start stop => some { s with map := s.map.remove start stop }
  | .protect start stop newProt setMax =>
    some { s with map := (s.map.protect start stop newProt setMax).2 }
  | .inherit start stop newInheritance =>
    some { s with map := (s.map.inherit start stop newInheritance).2 }
  | .simplify start => some { s with map := s.map.simplify start }
  | .enter coalesce address size mask a =>
    some { s with map := (s.map.enter coalesce address size mask true a).2.2 }
  | .findEntry address size mask object offset =>
    some { s with map := (s.map.findEntry address size mask true object offset).2.2.2 }
  | .copyin a fuel =>
    match s.copyin ops a fuel with
    | .returned _ _ s => some s
    | _ => none
  | .copyout pageMask coalesce copy =>
    some { s with map := (s.map.copyout pageMask coalesce copy).2.2 }

/-- A copy that `vm_map_copyin` has made of a region at page boundaries. -/
def MadeByCopyin (σ : Type u) (pageMask : Nat) (copy : VmMapHeader) : Prop :=
  ∃ (ops : ObjectOps σ) (a : CopyinArgs) (s s' : VmSystem σ) (fuel : Nat) (kr : VmReturn),
    ops.Keeps ∧ a.Aligned ∧ a.pageMask = pageMask ∧ MapsValid s.map s.shareMaps ∧
      s.copyin ops a fuel = .returned kr (some copy) s'

/-- The arguments of a search for a place: 32 bits, not empty, and rounding does not wrap around. -/
structure Enters (address size mask : Nat) (m : VmMap) : Prop where
  address_lt : address < 2 ^ 32
  size_lt : size < 2 ^ 32
  mask_lt : mask < 2 ^ 32
  pos : 0 < size
  rounds : m.RoundsUp address size mask

/-- The arguments with which an operation is called. -/
def Allowed (op : MapOp) (s : VmSystem σ) : Prop :=
  match op with
  | .enter _ address size mask _ => Enters address size mask s.map
  | .findEntry address size mask _ _ => Enters address size mask s.map
  | .copyin a _ => a.Aligned
  | .copyout _ _ .null => True
  | .copyout _ _ (.object _ _ size) => Enters 0 size 0 s.map
  | .copyout pageMask _ (.entryList copy) => MadeByCopyin σ pageMask copy
  | _ => True

theorem mapsValid_of_map {m m' : VmMap} {shareMaps : Nat → VmMap} (hv : MapsValid m shareMaps)
    (h : ∃ l, m'.Valid l) : MapsValid m' shareMaps :=
  ⟨h, hv.share, hv.bounds⟩

/-- Every operation keeps the invariant of the map and of the share maps. -/
theorem apply_valid (hops : ops.Keeps) (hv : MapsValid s.map s.shareMaps)
    (hop : op.Allowed s) (h : op.apply ops s = some s') : MapsValid s'.map s'.shareMaps := by
  obtain ⟨l, hl⟩ := hv.map
  cases op with
  | remove start stop =>
    cases h
    exact mapsValid_of_map hv (VmMap.delete_valid hl ..)
  | protect start stop newProt setMax =>
    cases h
    obtain ⟨l', hkept⟩ := (VmMap.protect_spec hl.toWf start stop newProt setMax).1
    exact mapsValid_of_map hv ⟨l', hkept.valid hl⟩
  | inherit start stop newInheritance =>
    cases h
    obtain ⟨l', hkept⟩ := (VmMap.inherit_spec hl.toWf start stop newInheritance).1
    exact mapsValid_of_map hv ⟨l', hkept.valid hl⟩
  | simplify start =>
    cases h
    obtain ⟨l', hsimplified⟩ := VmMap.simplify_spec hl.toWf start
    exact mapsValid_of_map hv ⟨l', hsimplified.valid hl⟩
  | enter coalesce address size mask a =>
    cases h
    exact mapsValid_of_map hv
      (VmMap.enter_valid hl hop.address_lt hop.size_lt hop.mask_lt hop.pos hop.rounds)
  | findEntry address size mask object offset =>
    cases h
    exact mapsValid_of_map hv
      (VmMap.findEntry_valid hl hop.address_lt hop.size_lt hop.mask_lt hop.pos hop.rounds)
  | copyin a fuel =>
    simp only [apply] at h
    cases hcopyin : s.copyin ops a fuel with
    | returned =>
      rw [hcopyin] at h
      cases h
      exact (VmSystem.copyin_spec hops hop.checked hv hcopyin).valid
    | panicked | running => rw [hcopyin] at h; cases h
  | copyout pageMask coalesce copy =>
    cases h
    cases copy with
    | null => exact hv
    | object =>
      exact mapsValid_of_map hv
        (VmMap.enter_valid hl hop.address_lt hop.size_lt hop.mask_lt hop.pos hop.rounds)
    | entryList copy =>
      obtain ⟨ops', a, s₀, s₁, fuel, kr, hkeeps, ha, rfl, hv₀, hcopyin⟩ := hop
      obtain ⟨hlt, lc, hchain⟩ := (VmSystem.copyin_spec hkeeps ha.checked hv₀ hcopyin).chain copy
          rfl
      exact mapsValid_of_map hv (VmMap.copyout_valid hl coalesce hlt hchain)

/-- A map with one page, and empty share maps. -/
def onePageSystem : VmSystem Unit := ⟨VmMap.onePage, fun _ => VmMap.create 0 65536, (), []⟩

theorem onePageSystem_valid : MapsValid onePageSystem.map onePageSystem.shareMaps where
  map := ⟨[1], VmMap.onePage_wf, fun _ => by decide⟩
  share _ := ⟨[], VmMap.create_wf (by decide) (by decide), fun _ => rfl⟩
  bounds _ := (by decide : (0 : Nat) < 65536)

theorem temporaryOps_keeps : VmSystem.temporaryOps.Keeps :=
  ObjectOps.Alone.keeps fun _ _ _ => rfl

/-- A copy that destroys the source. -/
def destroyPage : CopyinArgs := ⟨4095, 0, 4096, true, false⟩

/-- The page is copied, and destroyed in the source. -/
theorem apply_valid_onePage :
    ∃ s', (copyin destroyPage 2).apply VmSystem.temporaryOps onePageSystem = some s' ∧
      MapsValid s'.map s'.shareMaps :=
  ⟨_, rfl, apply_valid temporaryOps_keeps onePageSystem_valid
    (show (copyin destroyPage 2).Allowed onePageSystem from
      ⟨by decide, by decide, by decide, by decide, by decide⟩) rfl⟩

end MapOp

end Mach
