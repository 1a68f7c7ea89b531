import Mach.Lib.Ring
import Mathlib.Data.Nat.Bitwise

/-!
# Address maps

A map relates the regions of a task's address space to memory objects.  Its entries are in a
doubly linked list, in the order of their addresses, that is closed through the header of the
map.  The header has the bounds of the map where an entry has its addresses.  Two more pointers
go to entries: `hint`, where the next lookup starts, and `first_free`, below which no memory is
supposed to be free.

An entry is a number, which stands for its address in memory, and the header is `vmMapToEntry`.
The fields of the entries are functions of it.  The entries of a map come from a zone that does not
give one out twice, so that a pointer to an entry that was disposed of goes to no entry of the
list.

Addresses and sizes have 32 bits.  What happens to the physical maps, to objects and to their
reference counts is left out.  Whether `vm_object_coalesce` succeeds is an argument.
-/

namespace Mach

open Ring

/-- The results of calls on maps. -/
inductive VmReturn where
  | success
  | noSpace
  | invalidAddress
  | invalidArgument
  | protectionFailure
  | memoryError
  /-- `MACH_SEND_INTERRUPTED`. -/
  | sendInterrupted
  /-- The caller waits for space, and starts again. -/
  | wait
deriving Repr, DecidableEq

/-! ## Machine arithmetic -/

/-- `~x`. -/
def not32 (x : Nat) : Nat := 2 ^ 32 - 1 - x

/-- `(x + mask) & ~mask`. -/
def roundMask (mask x : Nat) : Nat := (x + mask) % 2 ^ 32 &&& not32 mask

/-- `a - b`. -/
def sub32 (a b : Nat) : Nat := (a + (2 ^ 32 - b % 2 ^ 32)) % 2 ^ 32

/-- `trunc_page`. -/
def truncPage (pageMask x : Nat) : Nat := x &&& not32 pageMask

/-- `round_page`. -/
def roundPage (pageMask x : Nat) : Nat := roundMask pageMask x

/-! ## Entries and headers -/

/-- `VM_PROT_DEFAULT`. -/
def vmProtDefault : Nat := 3

/-- `VM_PROT_ALL`. -/
def vmProtAll : Nat := 7

/-- `VM_INHERIT_DEFAULT`. -/
def vmInheritDefault : Nat := 1

/-- `VM_OBJECT_NULL`. -/
def vmObjectNull : Nat := 0

/-- `struct vm_map_entry`, without the links.  The object is one of the three kinds of the union
`vm_map_object`. -/
structure VmMapEntry where
  vmeStart : Nat
  vmeEnd : Nat
  object : Nat
  offset : Nat
  isAMap : Bool
  isSubMap : Bool
  needsCopy : Bool
  protection : Nat
  maxProtection : Nat
  inheritance : Nat
  wiredCount : Nat
  userWiredCount : Nat
deriving Repr, DecidableEq

/-- `struct vm_map_header`, with the entries that it is the header of. -/
structure VmMapHeader where
  /-- `vme_next`. -/
  next : Nat → Nat
  /-- `vme_prev`. -/
  prev : Nat → Nat
  entry : Nat → VmMapEntry
  nentries : Nat
  /-- The next entry that the zone gives out. -/
  zone : Nat

/-- `vm_map_to_entry`. -/
def vmMapToEntry : Nat := 0

namespace VmMapHeader

/-- `min_offset`, the start address of the header. -/
def minOffset (h : VmMapHeader) : Nat := (h.entry vmMapToEntry).vmeStart

/-- `max_offset`, the end address of the header. -/
def maxOffset (h : VmMapHeader) : Nat := (h.entry vmMapToEntry).vmeEnd

/-- Store the fields of an entry. -/
def setEntry (e : Nat) (v : VmMapEntry) (h : VmMapHeader) : VmMapHeader :=
  { h with entry := Function.update h.entry e v }

/-- `vm_map_entry_create`, and the fields of the new entry. -/
def entryCreate (v : VmMapEntry) (h : VmMapHeader) : VmMapHeader :=
  { h.setEntry h.zone v with zone := h.zone + 1 }

/-- `vm_map_entry_link`. -/
def entryLink (afterWhere e : Nat) (h : VmMapHeader) : VmMapHeader :=
  { h with
      nentries := h.nentries + 1
      next := linkNext h.next afterWhere e
      prev := linkPrev h.next h.prev afterWhere e }

/-- `vm_map_entry_unlink`. -/
def entryUnlink (e : Nat) (h : VmMapHeader) : VmMapHeader :=
  { h with
      nentries := h.nentries - 1
      next := unlinkNext h.next h.prev e
      prev := unlinkPrev h.next h.prev e }

/-- `_vm_map_clip_start`: the front portion becomes a new entry. -/
def splitStart (e start : Nat) (h : VmMapHeader) : VmMapHeader :=
  let v := h.entry e
  let new := h.zone
  ((h.entryCreate { v with vmeEnd := start }).setEntry e
    { v with
        offset := (v.offset + (start - v.vmeStart)) % 2 ^ 32
        vmeStart := start }).entryLink (h.prev e) new

/-- `vm_map_clip_start`. -/
def clipStart (e startaddr : Nat) (h : VmMapHeader) : VmMapHeader :=
  if (h.entry e).vmeStart < startaddr then h.splitStart e startaddr else h

/-- `_vm_map_clip_end`: the rear portion becomes a new entry. -/
def splitEnd (e endaddr : Nat) (h : VmMapHeader) : VmMapHeader :=
  let v := h.entry e
  let new := h.zone
  ((h.entryCreate
      { v with
          vmeStart := endaddr
          offset := (v.offset + (endaddr - v.vmeStart)) % 2 ^ 32 }).setEntry e
    { v with vmeEnd := endaddr }).entryLink e new

/-- `vm_map_clip_end`. -/
def clipEnd (e endaddr : Nat) (h : VmMapHeader) : VmMapHeader :=
  if endaddr < (h.entry e).vmeEnd then h.splitEnd e endaddr else h

end VmMapHeader

/-- `struct vm_map`. -/
structure VmMap where
  hdr : VmMapHeader
  size : Nat
  isMainMap : Bool
  hint : Nat
  firstFree : Nat
  waitForSpace : Bool

namespace VmMap

/-- `vm_map_min`. -/
def minOffset (m : VmMap) : Nat := m.hdr.minOffset

/-- `vm_map_max`. -/
def maxOffset (m : VmMap) : Nat := m.hdr.maxOffset

/-- `vm_map_create`. -/
def create (min max : Nat) : VmMap where
  hdr :=
    { next := fun _ => vmMapToEntry
      prev := fun _ => vmMapToEntry
      entry := fun _ => ⟨min, max, vmObjectNull, 0, false, false, false, 0, 0, 0, 0, 0⟩
      nentries := 0
      zone := 1 }
  size := 0
  isMainMap := true
  hint := vmMapToEntry
  firstFree := vmMapToEntry
  waitForSpace := false

/-- `SAVE_HINT`. -/
def saveHint (value : Nat) (m : VmMap) : VmMap := { m with hint := value }

/-- The linear search of `vm_map_lookup_entry`, from `cur` up to `last`. -/
def lookupSearch (h : VmMapHeader) (address last : Nat) : Nat → Nat → Bool × Nat
  | 0, cur => (false, h.prev cur)
  | fuel + 1, cur =>
    if cur = last then (false, h.prev cur)
    else if address < (h.entry cur).vmeEnd then
      if (h.entry cur).vmeStart ≤ address then (true, cur) else (false, h.prev cur)
    else lookupSearch h address last fuel (h.next cur)

/-- `vm_map_lookup_entry`: whether the address is in the map, and the entry that contains it or
precedes it. -/
def lookupEntry (address : Nat) (m : VmMap) : Bool × Nat × VmMap :=
  let cur := if m.hint = vmMapToEntry then m.hdr.next m.hint else m.hint
  if (m.hdr.entry cur).vmeStart ≤ address then
    if cur ≠ vmMapToEntry ∧ address < (m.hdr.entry cur).vmeEnd then (true, cur, m)
    else
      match lookupSearch m.hdr address vmMapToEntry (m.hdr.nentries + 1) cur with
      | (found, entry) => (found, entry, m.saveHint entry)
  else
    match lookupSearch m.hdr address (m.hdr.next cur) (m.hdr.nentries + 1)
        (m.hdr.next vmMapToEntry) with
    | (found, entry) => (found, entry, m.saveHint entry)

/-! ## Entering memory -/

/-- The loop that looks for a place: the entry before it, its start and its end. -/
def placeLoop (h : VmMapHeader) (size mask : Nat) : Nat → Nat → Nat → Option (Nat × Nat × Nat)
  | 0, _, _ => none
  | fuel + 1, entry, start =>
    let start := roundMask mask start
    let stop := (start + size) % 2 ^ 32
    if h.maxOffset < stop ∨ stop < start then none
    else
      let next := h.next entry
      if next = vmMapToEntry then some (entry, start, stop)
      else if stop ≤ (h.entry next).vmeStart then some (entry, start, stop)
      else placeLoop h size mask fuel next (h.entry next).vmeEnd

/-- Where the loop starts: the entry before the first possible address, and that address. -/
def placeStart (address : Nat) (m : VmMap) : Option (Nat × Nat) × VmMap :=
  let start := if address < m.minOffset then m.minOffset else address
  if m.maxOffset < start then (none, m)
  else if start = m.minOffset then
    let entry := m.firstFree
    (some (entry, if entry ≠ vmMapToEntry then (m.hdr.entry entry).vmeEnd else start), m)
  else
    match m.lookupEntry start with
    | (true, entry, m) => (some (entry, (m.hdr.entry entry).vmeEnd), m)
    | (false, entry, m) => (some (entry, start), m)

/-- The search of `vm_map_enter`. -/
def placeAnywhere (address size mask : Nat) (wait : Bool) (m : VmMap) :
    Except VmReturn (Nat × Nat × Nat) × VmMap :=
  match m.placeStart address with
  | (none, m) => (.error .noSpace, m)
  | (some (entry, start), m) =>
    match placeLoop m.hdr size mask (m.hdr.nentries + 1) entry start with
    | some place => (.ok place, m)
    | none =>
      if wait ∧ m.waitForSpace ∧ size ≤ m.maxOffset - m.minOffset then (.error .wait, m)
      else (.error .noSpace, m)

/-- Verify that an address is a place. -/
def placeFixed (start size mask : Nat) (m : VmMap) : Except VmReturn (Nat × Nat × Nat) × VmMap :=
  if start &&& mask ≠ 0 then (.error .noSpace, m)
  else
    let stop := (start + size) % 2 ^ 32
    if start < m.minOffset ∨ m.maxOffset < stop ∨ stop ≤ start then (.error .invalidAddress, m)
    else
      match m.lookupEntry start with
      | (true, _, m) => (.error .noSpace, m)
      | (false, entry, m) =>
        let next := m.hdr.next entry
        if next ≠ vmMapToEntry ∧ (m.hdr.entry next).vmeStart < stop then (.error .noSpace, m)
        else (.ok (entry, start, stop), m)

/-- The part of `vm_map_enter` and `vm_map_find_entry` that finds the place. -/
def findPlace (address size mask : Nat) (anywhere wait : Bool) (m : VmMap) :
    Except VmReturn (Nat × Nat × Nat) × VmMap :=
  if anywhere then m.placeAnywhere address size mask wait else m.placeFixed address size mask

/-- A new entry after `entry`, and the hints for it. -/
def insertEntry (entry size : Nat) (v : VmMapEntry) (m : VmMap) : VmMap :=
  let new := m.hdr.zone
  { m with
      hdr := (m.hdr.entryCreate v).entryLink entry new
      size := (m.size + size) % 2 ^ 32
      firstFree :=
        if m.firstFree = entry ∧ v.vmeStart ≤ (m.hdr.entry entry).vmeEnd then new
        else m.firstFree
      hint := new }

/-- `vm_map_find_entry`: the address, and the new entry. -/
def findEntry (address size mask : Nat) (anywhere : Bool) (object offset : Nat) (m : VmMap) :
    VmReturn × Nat × Option Nat × VmMap :=
  match m.findPlace address size mask anywhere false with
  | (.error kr, m) => (kr, address, none, m)
  | (.ok (entry, start, stop), m) =>
    (.success, start, some m.hdr.zone,
      m.insertEntry entry size
        ⟨start, stop, object, offset, false, false, false, vmProtDefault, vmProtAll,
          vmInheritDefault, 0, 0⟩)

/-- The arguments of `vm_map_enter` for the memory that is entered. -/
structure Entering where
  object : Nat
  offset : Nat
  needsCopy : Bool
  curProtection : Nat
  maxProtection : Nat
  inheritance : Nat
deriving Repr, DecidableEq

/-- The entry at the end of which memory without object starts can be extended, up to what
`vm_object_coalesce` says. -/
def canExtend (a : Entering) (entry start : Nat) (m : VmMap) : Bool :=
  let v := m.hdr.entry entry
  a.object = vmObjectNull && entry ≠ vmMapToEntry && v.vmeEnd = start && !v.isAMap &&
    !v.isSubMap && v.inheritance = a.inheritance && v.protection = a.curProtection &&
    v.maxProtection = a.maxProtection && v.wiredCount = 0

/-- The previous entry is extended to include a new range. -/
def extendEntry (entry stop : Nat) (m : VmMap) : VmMap :=
  let v := m.hdr.entry entry
  { m with
      size := (m.size + (stop - v.vmeEnd)) % 2 ^ 32
      hdr := m.hdr.setEntry entry { v with vmeEnd := stop } }

/-- `vm_map_enter`: the result, the address and the map. -/
def enter (coalesce : Bool) (address size mask : Nat) (anywhere : Bool) (a : Entering)
    (m : VmMap) : VmReturn × Nat × VmMap :=
  match m.findPlace address size mask anywhere true with
  | (.error kr, m) => (kr, address, m)
  | (.ok (entry, start, stop), m) =>
    if m.canExtend a entry start && coalesce then (.success, start, m.extendEntry entry stop)
    else
      (.success, start,
        m.insertEntry entry size
          ⟨start, stop, a.object, a.offset, false, false, a.needsCopy, a.curProtection,
            a.maxProtection, a.inheritance, 0, 0⟩)

/-- `vm_map`, for a memory object that has been entered or copied. -/
def map (pageMask : Nat) (coalesce : Bool) (address size mask : Nat) (anywhere : Bool)
    (a : Entering) (m : VmMap) : VmReturn × Nat × VmMap :=
  m.enter coalesce (truncPage pageMask address) (roundPage pageMask size) mask anywhere a

/-! ## Changing regions -/

/-- `VM_MAP_RANGE_CHECK`. -/
def rangeCheck (start stop : Nat) (m : VmMap) : Nat × Nat :=
  let start := if start < m.minOffset then m.minOffset else start
  let stop := if m.maxOffset < stop then m.maxOffset else stop
  (if stop < start then stop else start, stop)

/-- `vm_map_clip_start`. -/
def clipStart (e startaddr : Nat) (m : VmMap) : VmMap :=
  { m with hdr := m.hdr.clipStart e startaddr }

/-- `vm_map_clip_end`. -/
def clipEnd (e endaddr : Nat) (m : VmMap) : VmMap := { m with hdr := m.hdr.clipEnd e endaddr }

/-- The first entry of a region, clipped to its start. -/
def regionStart (start : Nat) (m : VmMap) : Nat × VmMap :=
  match m.lookupEntry start with
  | (true, entry, m) => (entry, m.clipStart entry start)
  | (false, entry, m) => (m.hdr.next entry, m)

/-- The first pass of `vm_map_protect`. -/
def protectCheck (h : VmMapHeader) (stop newProt : Nat) : Nat → Nat → VmReturn
  | 0, _ => .success
  | fuel + 1, current =>
    if current ≠ vmMapToEntry ∧ (h.entry current).vmeStart < stop then
      if (h.entry current).isSubMap then .invalidArgument
      else if newProt &&& (h.entry current).maxProtection ≠ newProt then .protectionFailure
      else protectCheck h stop newProt fuel (h.next current)
    else .success

/-- The loop over a region that clips each entry to its end and changes it. -/
def changeLoop (stop : Nat) (f : VmMapEntry → VmMapEntry) : Nat → Nat → VmMap → VmMap
  | 0, _, m => m
  | fuel + 1, current, m =>
    if current ≠ vmMapToEntry ∧ (m.hdr.entry current).vmeStart < stop then
      let m := m.clipEnd current stop
      let m := { m with hdr := m.hdr.setEntry current (f (m.hdr.entry current)) }
      changeLoop stop f fuel (m.hdr.next current) m
    else m

/-- What `vm_map_protect` does to an entry. -/
def protectEntry (newProt : Nat) (setMax : Bool) (v : VmMapEntry) : VmMapEntry :=
  if setMax then { v with maxProtection := newProt, protection := newProt &&& v.protection }
  else { v with protection := newProt }

/-- `vm_map_protect`. -/
def protect (start stop newProt : Nat) (setMax : Bool) (m : VmMap) : VmReturn × VmMap :=
  match m.rangeCheck start stop with
  | (start, stop) =>
    match m.regionStart start with
    | (entry, m) =>
      match protectCheck m.hdr stop newProt (m.hdr.nentries + 1) entry with
      | .success =>
        (.success,
          changeLoop stop (protectEntry newProt setMax) (m.hdr.nentries + 1) entry m)
      | kr => (kr, m)

/-- `vm_map_inherit`. -/
def inherit (start stop newInheritance : Nat) (m : VmMap) : VmReturn × VmMap :=
  if 2 < newInheritance then (.invalidArgument, m)
  else
    match m.rangeCheck start stop with
    | (start, stop) =>
      match m.regionStart start with
      | (entry, m) =>
        (.success,
          changeLoop stop (fun v => { v with inheritance := newInheritance })
            (m.hdr.nentries + 1) entry m)

/-- `vm_map_entry_delete`. -/
def entryDelete (entry : Nat) (m : VmMap) : VmMap :=
  let v := m.hdr.entry entry
  { m with
      hdr := m.hdr.entryUnlink entry
      size := sub32 m.size (v.vmeEnd - v.vmeStart) }

/-- The loop of `vm_map_delete`. -/
def deleteLoop (stop : Nat) : Nat → Nat → VmMap → VmMap
  | 0, _, m => m
  | fuel + 1, entry, m =>
    if entry ≠ vmMapToEntry ∧ (m.hdr.entry entry).vmeStart < stop then
      let m := m.clipEnd entry stop
      let next := m.hdr.next entry
      deleteLoop stop fuel next (m.entryDelete entry)
    else m

/-- The start of `vm_map_delete`: the first entry of the region, with both hints before it. -/
def deleteStart (start : Nat) (m : VmMap) : Nat × VmMap :=
  let r :=
    match m.lookupEntry start with
    | (false, entry, m) => (m.hdr.next entry, m)
    | (true, entry, m) =>
      let m := m.clipStart entry start
      (entry, m.saveHint (m.hdr.prev entry))
  match r with
  | (entry, m) =>
    (entry,
      if start ≤ (m.hdr.entry m.firstFree).vmeStart then
        { m with firstFree := m.hdr.prev entry }
      else m)

/-- `vm_map_delete`. -/
def delete (start stop : Nat) (m : VmMap) : VmMap :=
  match m.deleteStart start with
  | (entry, m) => deleteLoop stop (m.hdr.nentries + 1) entry m

/-- `vm_map_remove`. -/
def remove (start stop : Nat) (m : VmMap) : VmMap :=
  match m.rangeCheck start stop with
  | (start, stop) => m.delete start stop

/-- The test of `vm_map_simplify`. -/
def canSimplify (start this prev : Nat) (m : VmMap) : Bool :=
  let v := m.hdr.entry this
  let u := m.hdr.entry prev
  prev ≠ vmMapToEntry && u.vmeEnd = start && m.isMainMap && !u.isAMap && !u.isSubMap &&
    !v.isAMap && !v.isSubMap && u.inheritance = v.inheritance && u.protection = v.protection &&
    u.maxProtection = v.maxProtection && u.wiredCount = v.wiredCount &&
    u.userWiredCount = v.userWiredCount && u.needsCopy = v.needsCopy && u.object = v.object &&
    (u.offset + (u.vmeEnd - u.vmeStart)) % 2 ^ 32 = v.offset

/-- `vm_map_simplify`. -/
def simplify (start : Nat) (m : VmMap) : VmMap :=
  match m.lookupEntry start with
  | (false, _, m) => m
  | (true, this, m) =>
    let prev := m.hdr.prev this
    if m.canSimplify start this prev then
      let stop := (m.hdr.entry this).vmeEnd
      let h := m.hdr.entryUnlink this
      { m with
          firstFree := if m.firstFree = this then prev else m.firstFree
          hint := prev
          hdr := h.setEntry prev { h.entry prev with vmeEnd := stop } }
    else m

end VmMap

end Mach
