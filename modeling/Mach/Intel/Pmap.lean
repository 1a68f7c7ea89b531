import Mach.Lib.Headed
import Mach.Lib.Simulation
import Mathlib.Order.Interval.Finset.Nat

/-!
# Physical maps

`intel/pmap.c`: page tables, the lists of the mappings of each physical page, and the modify bits.

A VM page is a power of two of hardware pages, and so has several page-table entries.  Addresses are
numbers of hardware pages here, and the arguments of the calls are numbers of VM pages, which makes
them page-aligned.  A page directory entry stands for 1024 page-table entries.

A page table is named by the map that it was allocated for, and the entries of a map are numbered
through all of its tables (`Pmaps.pte`).  A page directory says for each slot whose table it points
to (`Pmaps.dir`).  `pmap_create` copies the page directory of the kernel, so that all maps share the
tables of the kernel.  Map 0 is `kernel_pmap`.

The lists of mappings are the `pv` lists.  Their heads are in `pv_head_table`, one for each managed
physical page (`Mach.Lib.Headed`).  The free list is a number of entries.

The calls run one after another, as with the locks of the pmap system.  What they do about
translation buffers is not in here.  `INTEL_PTE_USER` and the reference bits are left out.
-/

namespace Mach

open Function

/-! ## Page-table entries -/

/-- A page-table entry.  The physical address is the number of a hardware page. -/
structure Pte where
  frame : Nat
  valid : Bool
  write : Bool
  mod : Bool
  wired : Bool
deriving DecidableEq

/-- An entry that maps nothing. -/
def Pte.zero : Pte := ⟨0, false, false, false, false⟩

/-- `vm_prot_t`. -/
structure Protection where
  read : Bool
  write : Bool
  execute : Bool
deriving DecidableEq

/-- `VM_PROT_READ` and `VM_PROT_READ|VM_PROT_EXECUTE`. -/
def Protection.ReadOnly (prot : Protection) : Prop := prot.read = true ∧ prot.write = false

instance (prot : Protection) : Decidable prot.ReadOnly :=
  inferInstanceAs (Decidable (prot.read = true ∧ prot.write = false))

/-- `VM_PROT_ALL`. -/
def Protection.all : Protection := ⟨true, true, true⟩

/-- `pdenum(VM_MIN_KERNEL_ADDRESS)`. -/
def kernelDir : Nat := 768

/-- `NPTES`. -/
def nptes : Nat := 1024

/-- The machine, as `pmap_bootstrap`, `pmap_map` and `pmap_init` leave it. -/
structure PmapConfig where
  /-- A VM page is `2 ^ shift` hardware pages, and its size has 32 bits. -/
  shift : Nat
  shift_le : shift ≤ 19
  /-- `valid_page`, of the number of a physical VM page. -/
  managed : Nat → Bool
  /-- The slots of the kernel's page directory that have a table. -/
  kernelTable : Nat → Bool
  kernelDir_le : ∀ d, kernelTable d = true → kernelDir ≤ d
  /-- The VM pages of the kernel map that are mapped from the start, without `pv` entries. -/
  reserved : Nat → Bool
  /-- The page-table entries of these. -/
  reservedPte : Nat → Pte
  /-- What `resident_count` and `wired_count` of the kernel map are at the start. -/
  kernelResident : Int
  kernelWired : Int

/-- `ptes_per_vm_page`. -/
def PmapConfig.ptes (c : PmapConfig) : Nat := 2 ^ c.shift

/-- `resident_count` at the start. -/
def PmapConfig.residentAtStart (c : PmapConfig) (p : Nat) : Int :=
  if p = 0 then c.kernelResident else 0

/-- `wired_count` at the start. -/
def PmapConfig.wiredAtStart (c : PmapConfig) (p : Nat) : Int :=
  if p = 0 then c.kernelWired else 0

/-- An element of a `pv` list: the map, and the address. -/
abbrev PvEntry := Nat × Nat

/-- The state of the pmap system. -/
structure Pmaps where
  /-- The page directories. -/
  dir : Nat → Nat → Option Nat
  pte : Nat → Nat → Pte
  /-- `stats.resident_count`. -/
  resident : Nat → Int
  /-- `stats.wired_count`. -/
  wired : Nat → Int
  /-- `pv_head_table`, by physical VM page. -/
  pv : Nat → Headed PvEntry
  /-- `PHYS_MODIFIED` in `pmap_phys_attributes`. -/
  modified : Nat → Bool
  /-- The length of `pv_free_list`. -/
  pvFree : Nat

/-- The panics. -/
inductive PmapPanic where
  /-- `pmap_remove: null pv_list!` -/
  | nullPvList
  /-- `pmap-remove: mapping not in pv_list!` -/
  | notInPvList
  /-- `pmap_remove_all removing a wired page` -/
  | removingWired
  /-- `pmap_change_wiring: pte missing`, and the other uses of a pointer that is null then. -/
  | pteMissing
  /-- `You lose: system page table too small` -/
  | systemPageTable
deriving DecidableEq

namespace Pmaps

variable (c : PmapConfig) (s : Pmaps)

/-- After `pmap_init`, with maps from `pmap_create`.  The kernel map has what `pmap_bootstrap` and
`pmap_map` have mapped, which is all of the memory that was available. -/
def init (pvFree : Nat) : Pmaps where
  dir := fun _ d => if c.kernelTable d then some 0 else none
  pte := fun p h => if p = 0 ∧ c.reserved (h / c.ptes) then c.reservedPte h else Pte.zero
  resident := c.residentAtStart
  wired := c.wiredAtStart
  pv := fun _ => Headed.empty
  modified := fun _ => false
  pvFree := pvFree

/-! ## Parts of the calls -/

/-- `pmap_pte`: the map that the table was allocated for. -/
def pmapPte (p h : Nat) : Option Nat := s.dir p (h / nptes)

/-- Changes `n` entries of a table from `h` on.  The function has the position among them. -/
def setEntries (o h n : Nat) (f : Nat → Pte → Pte) : Pmaps :=
  { s with
    pte := fun q g => if q = o ∧ h ≤ g ∧ g < h + n then f (g - h) (s.pte q g) else s.pte q g }

/-- Changes `n` slots of a page directory from `d` on. -/
def setDir (p d n : Nat) (x : Option Nat) : Pmaps :=
  { s with dir := fun q y => if q = p ∧ d ≤ y ∧ y < d + n then x else s.dir q y }

/-- Changes the counts of a map. -/
def count (p : Nat) (resident wired : Int) : Pmaps :=
  { s with
    resident := update s.resident p (s.resident p + resident)
    wired := update s.wired p (s.wired p + wired) }

/-- Whether one of `n` entries has its modify bit set. -/
def anyModified (o h n : Nat) : Bool := (List.range n).any fun i => (s.pte o (h + i)).mod

/-- Takes a mapping from its page-table entries, with the modify bits. -/
def clearMapping (o h f : Nat) : Pmaps :=
  { s.setEntries o h c.ptes fun _ _ => Pte.zero with
    modified := update s.modified f (s.modified f || s.anyModified o h c.ptes) }

/-- Unlinks a mapping from the list of a page. -/
def pvRemove (p h f : Nat) : Except PmapPanic Pmaps :=
  if (s.pv f).head = none then .error .nullPvList
  else
    match (s.pv f).remove (p, h) with
    | none => .error .notInPvList
    | some (l, freed) =>
      .ok { s with pv := update s.pv f l, pvFree := s.pvFree + freed }

/-- One turn of `pmap_remove_range`.  The counts are changed at once and not at the end. -/
def removePage (p o h : Nat) : Except PmapPanic Pmaps :=
  if (s.pte o h).frame = 0 then .ok s
  else
    let counted := s.count p (-1) (if (s.pte o h).wired then -1 else 0)
    let f := (s.pte o h).frame / c.ptes
    if c.managed f then (counted.clearMapping c o h f).pvRemove p h f
    else .ok (counted.setEntries o h c.ptes fun _ _ => Pte.zero)

/-- `pmap_remove_range`, by the number of its turns. -/
def removeRange (p o : Nat) : Nat → Nat → Pmaps → Except PmapPanic Pmaps
  | 0, _, s => .ok s
  | k + 1, h, s => do
      let s₁ ← s.removePage c p o h
      removeRange p o k (h + c.ptes) s₁

/-- The end of the part of a range that a slot of the page directory stands for. -/
def sliceEnd (e h : Nat) : Nat := min ((h / nptes + 1) * nptes) e

/-- One turn of the loop of `pmap_remove` and `pmap_protect` over the slots of the page directory.
`body` has the table and the part of the range. -/
def pdeSlice (body : Nat → Nat → Nat → Pmaps → Except PmapPanic Pmaps) (p e h : Nat) :
    Except PmapPanic Pmaps :=
  match s.pmapPte p h with
  | none => .ok s
  | some o => body o h (sliceEnd e h) s

/-- The loop of `pmap_remove` and `pmap_protect`. -/
def pdeLoop (body : Nat → Nat → Nat → Pmaps → Except PmapPanic Pmaps) (p e : Nat) :
    Nat → Nat → Pmaps → Except PmapPanic Pmaps
  | 0, _, s => .ok s
  | fuel + 1, h, s =>
    if h < e then do
      let s₁ ← s.pdeSlice body p e h
      pdeLoop body p e fuel (sliceEnd e h) s₁
    else .ok s

/-! ## The calls -/

/-- `pmap_remove`. -/
def pmapRemove (p first last : Nat) : Except PmapPanic Pmaps :=
  pdeLoop (fun o h l s => s.removeRange c p o ((l - h + c.ptes - 1) / c.ptes) h) p (last * c.ptes)
    (last * c.ptes - first * c.ptes) (first * c.ptes) s

/-- Takes the right to write from the entries that are valid. -/
def writeProtect (_ : Nat) (e : Pte) : Pte := if e.valid then { e with write := false } else e

/-- `pmap_protect`. -/
def pmapProtect (p first last : Nat) (prot : Protection) : Except PmapPanic Pmaps :=
  if prot.ReadOnly then
    -- the i386 does not look at the write bit in kernel mode
    if p = 0 then s.pmapRemove c p first last
    else
      pdeLoop (fun o h l s => .ok (s.setEntries o h (l - h) writeProtect)) p (last * c.ptes)
        (last * c.ptes - first * c.ptes) (first * c.ptes) s
  else if prot.read ∧ prot.write then .ok s
  else s.pmapRemove c p first last

/-- One turn of `pmap_page_protect`, and whether it removed the mapping. -/
def protectEntry (remove : Bool) (f : Nat) (x : PvEntry) : Except PmapPanic (Pmaps × Bool) :=
  match s.pmapPte x.1 x.2 with
  | none => .error .pteMissing
  | some o =>
    if remove ∨ x.1 = 0 then
      if (s.pte o x.2).wired then .error .removingWired
      else .ok ((s.count x.1 (-1) 0).clearMapping c o x.2 f, true)
    else .ok (s.setEntries o x.2 c.ptes fun _ e => { e with write := false }, false)

/-- The turns after the first, and the elements that stay. -/
def protectChain (remove : Bool) (f : Nat) :
    List PvEntry → Pmaps → Except PmapPanic (Pmaps × List PvEntry)
  | [], s => .ok (s, [])
  | x :: xs, s => do
      let (s₁, gone) ← s.protectEntry c remove f x
      if gone then protectChain remove f xs { s₁ with pvFree := s₁.pvFree + 1 }
      else
        let (s₂, kept) ← protectChain remove f xs s₁
        .ok (s₂, x :: kept)

/-- The walk of `pmap_page_protect`.  If the head goes it is repaired after the walk. -/
def protectMappings (remove : Bool) (f : Nat) : Except PmapPanic Pmaps :=
  match (s.pv f).head with
  | none => .ok s
  | some x => do
      let (s₁, gone) ← s.protectEntry c remove f x
      let (s₂, kept) ← protectChain c remove f (s.pv f).next s₁
      if gone then
        .ok { s₂ with
          pv := update s₂.pv f (Headed.pop kept).1
          pvFree := s₂.pvFree + (Headed.pop kept).2 }
      else .ok { s₂ with pv := update s₂.pv f ⟨some x, kept⟩ }

/-- `pmap_page_protect`. -/
def pmapPageProtect (f : Nat) (prot : Protection) : Except PmapPanic Pmaps :=
  if c.managed f then
    if prot.ReadOnly then s.protectMappings c false f
    else if prot = Protection.all then .ok s
    else s.protectMappings c true f
  else .ok s

/-- `pmap_expand`: a VM page of new tables. -/
def pmapExpand (p h : Nat) : Except PmapPanic Pmaps :=
  if p = 0 then .error .systemPageTable
  else
    let d := h / nptes / c.ptes * c.ptes
    let zeroed := s.setEntries p (d * nptes) (c.ptes * nptes) fun _ _ => Pte.zero
    .ok (zeroed.setDir p d c.ptes (some p))

/-- An entry of a new mapping. -/
def enterPte (f : Nat) (prot : Protection) (wired : Bool) (i : Nat) : Pte where
  frame := f * c.ptes + i
  valid := true
  write := prot.write
  mod := false
  wired := wired

/-- The page is already mapped at this address.  The modify bits of the entries before stay in the
template. -/
def reenter (p o h f : Nat) (prot : Protection) (wired : Bool) : Pmaps :=
  let counted := s.count p 0
    (if wired ∧ ¬ (s.pte o h).wired then 1 else if ¬ wired ∧ (s.pte o h).wired then -1 else 0)
  counted.setEntries o h c.ptes fun i _ =>
    { enterPte c f prot wired i with mod := s.anyModified o h (i + 1) }

/-- The page is counted and its entries are written. -/
def enterEntries (p o h f : Nat) (prot : Protection) (wired : Bool) : Pmaps :=
  (s.count p 1 (if wired then 1 else 0)).setEntries o h c.ptes fun i _ => enterPte c f prot wired i

/-- Links a mapping into the list of a managed page.  Without an entry for it there is no result.
An entry that is at hand and not needed is freed. -/
def pvEnter (p h f : Nat) (atHand : Bool) : Option Pmaps :=
  match (s.pv f).head with
  | none =>
    some { s with
      pv := update s.pv f ⟨some (p, h), []⟩
      pvFree := s.pvFree + atHand.toNat }
  | some x =>
    let linked := update s.pv f ⟨some x, (p, h) :: (s.pv f).next⟩
    if atHand then some { s with pv := linked }
    else if s.pvFree = 0 then none
    else some { s with pv := linked, pvFree := s.pvFree - 1 }

/-- The loop of `pmap_enter` that expands the map until it has a table for the address. -/
def expandTo (p h : Nat) : Except PmapPanic Pmaps :=
  match s.pmapPte p h with
  | none => s.pmapExpand c p h
  | some _ => .ok s

/-- `pmap_enter` removes what was mapped at the address. -/
def removeOld (p o h : Nat) : Except PmapPanic Pmaps :=
  if (s.pte o h).frame = 0 then .ok s else s.removeRange c p o 1 h

/-- Enters a mapping where there is none. -/
def enterNew (p o h f : Nat) (prot : Protection) (wired atHand : Bool) : Pmaps × Bool :=
  if c.managed f then
    match s.pvEnter p h f atHand with
    | none => (s, false)
    | some s₁ => (s₁.enterEntries c p o h f prot wired, true)
  else
    let s₁ := s.enterEntries c p o h f prot wired
    ({ s₁ with pvFree := s₁.pvFree + atHand.toNat }, true)

/-- `pmap_enter` from `Retry` on.  The flag of the result says that it is done.  If not, it goes on
at `Retry` with an entry from the zone, and the old mapping is gone already. -/
def tryEnter (p h f : Nat) (prot : Protection) (wired atHand : Bool) :
    Except PmapPanic (Pmaps × Bool) := do
  let s₀ ← s.expandTo c p h
  match s₀.pmapPte p h with
  | none => .error .pteMissing
  | some o =>
    if (s₀.pte o h).frame = f * c.ptes then
      let s₁ := s₀.reenter c p o h f prot wired
      .ok ({ s₁ with pvFree := s₁.pvFree + atHand.toNat }, true)
    else do
      let s₁ ← s₀.removeOld c p o h
      .ok (s₁.enterNew c p o h f prot wired atHand)

/-- `pmap_enter`. -/
def pmapEnter (p v f : Nat) (prot : Protection) (wired : Bool) : Except PmapPanic Pmaps :=
  let h := v * c.ptes
  if p = 0 ∧ prot.write = false ∧ wired = false then
    -- the kernel has no mappings that are read-only
    match s.pmapPte p h with
    | none => .ok s
    | some o => s.removeOld c p o h
  else do
    let (s₁, done) ← s.tryEnter c p h f prot wired false
    if done then .ok s₁
    else
      let (s₂, _) ← s₁.tryEnter c p h f prot wired true
      .ok s₂

/-- `pmap_change_wiring`.  The loop that takes the wiring away stays at the first entry. -/
def pmapChangeWiring (p v : Nat) (wired : Bool) : Except PmapPanic Pmaps :=
  let h := v * c.ptes
  match s.pmapPte p h with
  | none => .error .pteMissing
  | some o =>
    if wired ∧ ¬ (s.pte o h).wired then
      .ok ((s.count p 0 1).setEntries o h c.ptes fun _ e => { e with wired := true })
    else if ¬ wired ∧ (s.pte o h).wired then
      .ok ((s.count p 0 (-1)).setEntries o h 1 fun _ e => { e with wired := false })
    else .ok s

/-- `pmap_extract`, of a hardware page. -/
def pmapExtract (p h : Nat) : Nat :=
  match s.pmapPte p h with
  | none => 0
  | some o => if (s.pte o h).valid then (s.pte o h).frame else 0

/-- The loop of `pmap_collect`, by the number of its turns.  It gives the groups of tables that it
freed. -/
def collectLoop (p : Nat) : Nat → Nat → Pmaps → Except PmapPanic (Pmaps × List Nat)
  | 0, _, s => .ok (s, [])
  | k + 1, g, s =>
    let d := g * c.ptes
    match s.dir p d with
    | none => collectLoop p k (g + 1) s
    | some o =>
      if (List.range (nptes * c.ptes)).any fun i => (s.pte o (d * nptes + i)).wired then
        collectLoop p k (g + 1) s
      else do
        let s₁ ← s.removeRange c p o nptes (d * nptes)
        let (s₂, freed) ← collectLoop p k (g + 1) (s₁.setDir p d c.ptes none)
        .ok (s₂, g :: freed)

/-- `pmap_collect`. -/
def pmapCollect (p : Nat) : Except PmapPanic (Pmaps × List Nat) :=
  if p = 0 then .ok (s, []) else collectLoop c p ((kernelDir + c.ptes - 1) / c.ptes) 0 s

/-- The walk of `phys_attribute_clear`.  Its inner loop stays at the first entry. -/
def clearModified : List PvEntry → Pmaps → Except PmapPanic Pmaps
  | [], s => .ok s
  | x :: xs, s =>
    match s.pmapPte x.1 x.2 with
    | none => .error .pteMissing
    | some o => clearModified xs (s.setEntries o x.2 1 fun _ e => { e with mod := false })

/-- `pmap_clear_modify`. -/
def pmapClearModify (f : Nat) : Except PmapPanic Pmaps :=
  if c.managed f then do
    let s₁ ← clearModified (s.pv f).toList s
    .ok { s₁ with modified := update s₁.modified f false }
  else .ok s

/-- The walk of `phys_attribute_test`.  Its inner loop stays at the first entry. -/
def testModified : List PvEntry → Except PmapPanic Bool
  | [] => .ok false
  | x :: xs =>
    match s.pmapPte x.1 x.2 with
    | none => .error .pteMissing
    | some o => if (s.pte o x.2).mod then .ok true else testModified xs

/-- `pmap_is_modified`. -/
def pmapIsModified (f : Nat) : Except PmapPanic Bool :=
  if c.managed f then
    if s.modified f then .ok true else s.testModified (s.pv f).toList
  else .ok false

/-- The processor writes through a mapping, and sets its bits. -/
def hardwareWrite (p h : Nat) : Pmaps :=
  match s.pmapPte p h with
  | none => s
  | some o =>
    if (s.pte o h).valid ∧ (s.pte o h).write then
      s.setEntries o h 1 fun _ e => { e with mod := true }
    else s

end Pmaps

/-! ## The machine -/

/-- The calls, with VM pages, and the writes of the hardware. -/
inductive PmapOp where
  | enter (p v f : Nat) (prot : Protection) (wired : Bool)
  | remove (p first last : Nat)
  | protect (p first last : Nat) (prot : Protection)
  | pageProtect (f : Nat) (prot : Protection)
  | changeWiring (p v : Nat) (wired : Bool)
  | collect (p : Nat)
  | extract (p h : Nat)
  | clearModify (f : Nat)
  | isModified (f : Nat)
  | hardwareWrite (p h : Nat)

/-- What a call gives. -/
inductive PmapResult where
  | none
  /-- `pmap_extract`. -/
  | frame (x : Nat)
  /-- The groups of tables that `pmap_collect` freed. -/
  | freed (gs : List Nat)
  /-- `pmap_is_modified`. -/
  | flag (b : Bool)

/-- A call, with its result. -/
def pmapStep (c : PmapConfig) (s : Pmaps) : PmapOp → Except PmapPanic (Pmaps × PmapResult)
  | .enter p v f prot wired => (s.pmapEnter c p v f prot wired).map (·, .none)
  | .remove p first last => (s.pmapRemove c p first last).map (·, .none)
  | .protect p first last prot => (s.pmapProtect c p first last prot).map (·, .none)
  | .pageProtect f prot => (s.pmapPageProtect c f prot).map (·, .none)
  | .changeWiring p v wired => (s.pmapChangeWiring c p v wired).map (·, .none)
  | .collect p => (s.pmapCollect c p).map fun x => (x.1, .freed x.2)
  | .extract p h => .ok (s, .frame (s.pmapExtract p h))
  | .clearModify f => (s.pmapClearModify c f).map (·, .none)
  | .isModified f => (s.pmapIsModified c f).map fun b => (s, .flag b)
  | .hardwareWrite p h => .ok (s.hardwareWrite p h, .none)

/-- The machine of the calls.  A panic is no result. -/
def pmapMachine (c : PmapConfig) : Machine PmapOp PmapResult Pmaps :=
  fun op s => (pmapStep c s op).toOption

end Mach
