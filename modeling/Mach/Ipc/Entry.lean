import Mach.Lib.Chain
import Mach.Ipc.EntryBits
import Mach.Ipc.Table
import Mach.Ipc.SplayTraverse

/-!
# Translation entries of an IPC space

The operations of `ipc/ipc_entry.c`.  A space translates names to entries through a table
and a splay tree.  A name whose index is below the size of the table belongs in the table,
but two names can have one index and different generations, so all but one of them are in
the tree and the slot of the table has its collision bit set.

Pointers to entries are references here: a slot of the table, or a name of the tree.
Memory that may be short is an argument: `mem i` says whether a table of the size of
element `i` can be had, `ite` whether a tree entry can.  A loop of the source has fuel, and
`none` is running out of it or dereferencing a null or uninitialized pointer.  The union of
`ie_next` and `ie_request` is one field.

The calls that these operations make into the reverse hash table are returned, in order, and
executed elsewhere.

The space stays locked between the steps of one operation except while memory is allocated.  Nobody
slips in then, so the tests that a space is still active and its table was not grown meanwhile come
out the same way.
-/

namespace Mach

open Function

/-! ## Spaces -/

/-- `kern_return_t`, the codes other than `KERN_SUCCESS`. -/
inductive KernReturn where
  | noSpace
  | invalidTask
  | resourceShortage
  | invalidName
  | invalidRight
  | invalidCapability
  | invalidValue
  | urefsOverflow
  | rightExists
  | nameExists
  | invalidArgument
deriving Repr, DecidableEq

/-- `IO_NULL`. -/
def ioNull : Nat := 0

/-- `struct ipc_entry`, without the field of the reverse hash table. -/
structure IpcEntry where
  ieBits : IeBits
  /-- The address of the object. -/
  ieObject : Nat
  /-- `ie_request`, or `ie_next` while the entry is free. -/
  ieRequest : Nat
deriving Repr, DecidableEq

namespace IpcEntry

/-- An entry that `bzero` has cleared. -/
def zero : IpcEntry := ⟨.zero, ioNull, 0⟩

/-- `ie_next`. -/
abbrev ieNext (e : IpcEntry) : Nat := e.ieRequest

/-- Put a right into an entry: everything but the collision bit and the generation
number. -/
def withRight (e v : IpcEntry) : IpcEntry :=
  { v with
      ieBits := { v.ieBits with collision := e.ieBits.collision, gen := e.ieBits.gen } }

end IpcEntry

/-- A pointer to an entry. -/
inductive EntryRef where
  | table (index : Nat)
  | tree (name : Nat)
deriving Repr, DecidableEq

/-- A call into the reverse hash table. -/
inductive HashCall where
  /-- Zero the `ie_index` fields of a new table. -/
  | clear (size : Nat)
  /-- `ipc_hash_global_delete`. -/
  | globalDelete (obj name : Nat)
  /-- `ipc_hash_local_insert`. -/
  | localInsert (size obj index : Nat)
deriving Repr, DecidableEq

/-- `struct ipc_space`, the fields of the translation. -/
structure IpcSpace where
  isActive : Bool
  isTable : Nat → IpcEntry
  isTableSize : Nat
  /-- The position of `is_table_next` in `ipc_table_entries`. -/
  isTableNext : Nat
  isTree : IpcSplayTree IpcEntry
  isTreeTotal : Nat
  isTreeSmall : Nat

/-- A local `struct ipc_splay_tree`, before it is initialized. -/
def istLocal {β : Type} : IpcSplayTree β := ⟨0, .nil, [], []⟩

/-- The names in the tree, in order. -/
abbrev IpcSpace.treeList (s : IpcSpace) : List (Nat × IpcEntry) := s.isTree.contents

/-- The entry a pointer leads to, unless it has been freed. -/
def IpcSpace.deref (s : IpcSpace) : EntryRef → Option IpcEntry
  | .table index => some (s.isTable index)
  | .tree name => s.treeList.lookup name

/-- Store through a pointer. -/
def IpcSpace.store (s : IpcSpace) (e : IpcEntry) : EntryRef → IpcSpace
  | .table index => { s with isTable := update s.isTable index e }
  | .tree name => { s with isTree := s.isTree.modify name fun _ => e }

/-- What a caller does with an entry: store a right in it. -/
def IpcSpace.write (s : IpcSpace) (ref : EntryRef) (v : IpcEntry) : IpcSpace :=
  match s.deref ref with
  | some e => s.store (e.withRight v) ref
  | none => s

/-- `ipc_space_create`: the free list is all of the table, and every generation number is
-1. -/
def ipcSpaceCreate (its : IpcTableSizes) (initial : Nat) : IpcSpace where
  isActive := true
  isTable index :=
    ⟨.ofGen 255, ioNull, if index = its.itsSize initial - 1 then 0 else index + 1⟩
  isTableSize := its.itsSize initial
  isTableNext := initial + 1
  isTree := ipcSplayTreeInit istLocal
  isTreeTotal := 0
  isTreeSmall := 0

/-! ## Lookup -/

/-- `ipc_entry_tree_collision`. -/
def ipcEntryTreeCollision (s : IpcSpace) (name : Nat) : Bool × IpcSpace :=
  match ipcSplayTreeBounds s.isTree name with
  | ((lower, upper), tree) =>
    ((lower ≠ machPortDead && machPortIndex lower = machPortIndex name) ||
      (upper ≠ 0 && machPortIndex upper = machPortIndex name),
      { s with isTree := tree })

/-- The label `tree_lookup`. -/
def IpcSpace.treeLookup (s : IpcSpace) (name : Nat) : Option EntryRef × IpcSpace :=
  match ipcSplayTreeLookup s.isTree name with
  | (found, tree) => (found.map fun _ => .tree name, { s with isTree := tree })

/-- `ipc_entry_lookup`. -/
def ipcEntryLookup (s : IpcSpace) (name : Nat) : Option EntryRef × IpcSpace :=
  if machPortIndex name < s.isTableSize then
    if (s.isTable (machPortIndex name)).ieBits.gen ≠ machPortGen name then
      if (s.isTable (machPortIndex name)).ieBits.collision then s.treeLookup name
      else (none, s)
    else if (s.isTable (machPortIndex name)).ieBits.type = machPortTypeNone then (none, s)
    else (some (.table (machPortIndex name)), s)
  else if s.isTreeTotal = 0 then (none, s)
  else s.treeLookup name

/-! ## Growing the table -/

/-- What the first loop over the tree changes: the new table, `is_tree_total` and the
calls into the reverse hash table. -/
structure GrowState where
  table : Nat → IpcEntry
  isTreeTotal : Nat
  calls : List HashCall

/-- The body of that loop, for a table of the given size.  The entry moves into the table
unless another one with the same index has. -/
def growMove (size : Nat) (g : GrowState) (name : Nat) (tentry : IpcEntry) :
    GrowState × Bool :=
  let index := machPortIndex name
  let entry := g.table index
  if entry.ieBits ≠ .zero then
    ({ g with
        table := update g.table index
          { entry with ieBits := { entry.ieBits with collision := true } } }, false)
  else
    ({ table := update g.table index
        ⟨tentry.ieBits.orGen (machPortGen name), tentry.ieObject, tentry.ieRequest⟩
       isTreeTotal := g.isTreeTotal - 1
       calls := g.calls ++
        if tentry.ieBits.type = machPortTypeSend then
          [.globalDelete tentry.ieObject name, .localInsert size tentry.ieObject index]
        else [] }, true)

/-- The body of the second loop, which counts the indices that occur: `nosmall` and the
last index. -/
def growCount (c : Nat × Nat) (name : Nat) (_ : IpcEntry) : (Nat × Nat) × Bool :=
  if machPortIndex name ≠ c.2 then ((c.1 + 1, machPortIndex name), false) else (c, false)

/-- The loop that puts the unused entries of the new part on the free list, the last one
first: `n` entries from `osize` on are still to be looked at. -/
def growFree (osize : Nat) : Nat → (Nat → IpcEntry) → Nat → (Nat → IpcEntry) × Nat
  | 0, table, freeIndex => (table, freeIndex)
  | n + 1, table, freeIndex =>
    if (table (osize + n)).ieBits = .zero then
      growFree osize n
        (update table (osize + n)
          { table (osize + n) with ieBits := .ofGen 255, ieRequest := freeIndex })
        (osize + n)
    else growFree osize n table freeIndex

/-- The calls that put the entries of the old table into the reverse hash table. -/
def growRehash (size osize : Nat) (table : Nat → IpcEntry) : List HashCall :=
  (List.range osize).filterMap fun i =>
    if (table i).ieBits.type = machPortTypeSend then
      some (.localInsert size (table i).ieObject i)
    else none

/-- The work on the splay tree: move entries into the table, count the others for
`is_tree_small`, and put the tree back together. -/
def growTree (s : IpcSpace) (osize size nsize : Nat) (g : GrowState) :
    Option (IpcSpace × List HashCall) :=
  if 0 < s.isTreeTotal then
    match ipcSplayTreeSplit s.isTree (machPortMake nsize 0) istLocal with
    | (tree, small) =>
    match ipcSplayTreeSplit small (machPortMake size 0) istLocal with
    | (small, move) =>
    match ipcSplayTreeSplit move (machPortMake osize 0) istLocal with
    | (move, ignore) =>
    (ipcSplayTraverse (growMove size) move g).bind fun (g, move) =>
    (ipcSplayTraverse growCount small (0, 0)).map fun (c, small) =>
      ({ s with
          isTable := g.table
          isTree :=
            (ipcSplayTreeJoin (ipcSplayTreeJoin (ipcSplayTreeJoin tree small).1 move).1 ignore).1
          isTreeTotal := g.isTreeTotal
          isTreeSmall := c.1 }, g.calls)
  else some ({ s with isTable := g.table }, g.calls)

/-- One round of `ipc_entry_grow_table`, once there is memory for the new table. -/
def growRound (its : IpcTableSizes) (s : IpcSpace) : Option (IpcSpace × List HashCall) :=
  let osize := its.itsSize (s.isTableNext - 1)
  let size := its.itsSize s.isTableNext
  let nsize := its.itsSize (s.isTableNext + 1)
  let table := fun i => if i < osize then s.isTable i else .zero
  (growTree s osize size nsize
    ⟨table, s.isTreeTotal, .clear size :: growRehash size osize table⟩).map fun (s, calls) =>
    match growFree osize (size - osize) s.isTable (s.isTable 0).ieNext with
    | (table, freeIndex) =>
      ({ s with
          isTable := update table 0 { table 0 with ieRequest := freeIndex }
          isTableSize := size
          isTableNext := s.isTableNext + 1 }, calls)

/-- `ipc_entry_grow_table`. -/
def ipcEntryGrowTable (its : IpcTableSizes) (mem : Nat → Bool) :
    Nat → IpcSpace → Option (Except KernReturn Unit × IpcSpace × List HashCall)
  | 0, _ => none
  | fuel + 1, s =>
    let size := its.itsSize s.isTableNext
    let nsize := its.itsSize (s.isTableNext + 1)
    if its.itsSize (s.isTableNext - 1) = size then some (.error .noSpace, s, [])
    else if mem s.isTableNext then
      (growRound its s).bind fun (s, calls) =>
        if 0 < s.isTreeSmall ∧
            (nsize - size) * sizeofIpcEntry < s.isTreeSmall * sizeofIpcTreeEntry then
          (ipcEntryGrowTable its mem fuel s).map fun (kr, s, calls') => (kr, s, calls ++ calls')
        else some (.ok (), s, calls)
    else some (.error .resourceShortage, s, [])

/-! ## Allocation -/

/-- `ipc_entry_get`. -/
def ipcEntryGet (s : IpcSpace) : Except KernReturn (Nat × EntryRef) × IpcSpace :=
  let firstFree := (s.isTable 0).ieNext
  if firstFree = 0 then (.error .noSpace, s)
  else
    let table := update s.isTable 0
      { s.isTable 0 with ieRequest := (s.isTable firstFree).ieNext }
    let bits := (table firstFree).ieBits
    let gen := (bits.gen + 1) % 256
    (.ok (machPortMake firstFree gen, .table firstFree),
      { s with
          isTable := update table firstFree
            { table firstFree with ieBits := { bits with gen := gen }, ieRequest := 0 } })

/-- `ipc_entry_alloc`. -/
def ipcEntryAlloc (its : IpcTableSizes) (mem : Nat → Bool) :
    Nat → IpcSpace → Option (Except KernReturn (Nat × EntryRef) × IpcSpace × List HashCall)
  | 0, _ => none
  | fuel + 1, s =>
    if s.isActive then
      match ipcEntryGet s with
      | (.ok r, s) => some (.ok r, s, [])
      | (.error _, s) =>
        (ipcEntryGrowTable its mem its.num s).bind fun
          | (.ok (), s, calls) =>
            (ipcEntryAlloc its mem fuel s).map fun (r, s, calls') => (r, s, calls ++ calls')
          | (.error kr, s, calls) => some (.error kr, s, calls)
    else some (.error .invalidTask, s, [])

/-- Rip an entry out of the free list, for a new generation number. -/
def IpcSpace.ripOut (s : IpcSpace) (index gen : Nat) : Option IpcSpace :=
  (Chain.pred (fun i => (s.isTable i).ieNext) index s.isTableSize 0).map fun freeIndex =>
    let table := update s.isTable freeIndex
      { s.isTable freeIndex with ieRequest := (s.isTable index).ieNext }
    { s with
        isTable := update table index
          { table index with ieBits := .ofGen gen, ieRequest := 0 } }

/-- The end of `ipc_entry_alloc_name`, for the tree. -/
def IpcSpace.insertTree (its : IpcTableSizes) (s : IpcSpace) (name : Nat) : IpcSpace :=
  let index := machPortIndex name
  let s := { s with isTreeTotal := s.isTreeTotal + 1 }
  let s :=
    if index < s.isTableSize then
      { s with
          isTable := update s.isTable index
            { s.isTable index with
                ieBits := { (s.isTable index).ieBits with collision := true } } }
    else if index < its.itsSize s.isTableNext then
      match ipcEntryTreeCollision s name with
      | (true, s) => s
      | (false, s) => { s with isTreeSmall := s.isTreeSmall + 1 }
    else s
  { s with isTree := ipcSplayTreeInsert s.isTree name .zero }

/-- `ipc_entry_alloc_name`.  `tree_entry` says whether a tree entry was allocated in an
earlier round. -/
def ipcEntryAllocName (its : IpcTableSizes) (mem : Nat → Bool) (ite : Bool) (name : Nat) :
    Nat → Bool → IpcSpace → Option (Except KernReturn EntryRef × IpcSpace × List HashCall)
  | 0, _, _ => none
  | fuel + 1, treeEntry, s =>
    let index := machPortIndex name
    if ¬ s.isActive then some (.error .invalidTask, s, [])
    else if 0 < index ∧ index < s.isTableSize ∧
        (s.isTable index).ieBits.type = machPortTypeNone then
      (s.ripOut index (machPortGen name)).map fun s => (.ok (.table index), s, [])
    else if 0 < index ∧ index < s.isTableSize ∧
        (s.isTable index).ieBits.gen = machPortGen name then
      some (.ok (.table index), s, [])
    else
      match if 0 < s.isTreeTotal then s.treeLookup name else (none, s) with
      | (some ref, s) => some (.ok ref, s, [])
      | (none, s) =>
        let size := its.itsSize s.isTableNext
        if s.isTableSize ≤ index ∧ index < size ∧
            (size - s.isTableSize) * sizeofIpcEntry <
              (s.isTreeSmall + 1) * sizeofIpcTreeEntry then
          (ipcEntryGrowTable its mem its.num s).bind fun
            | (.ok (), s, calls) =>
              (ipcEntryAllocName its mem ite name fuel treeEntry s).map
                fun (r, s, calls') => (r, s, calls ++ calls')
            | (.error kr, s, calls) => some (.error kr, s, calls)
        else if treeEntry then some (.ok (.tree name), s.insertTree its name, [])
        else if ite then ipcEntryAllocName its mem ite name fuel true s
        else some (.error .resourceShortage, s, [])

/-! ## Deallocation -/

/-- Split the names with an index off the tree: the names above them, the names
themselves, and the names below. -/
def IpcSpace.splitIndex (s : IpcSpace) (index : Nat) :
    IpcSplayTree IpcEntry × IpcSplayTree IpcEntry × IpcSplayTree IpcEntry :=
  match ipcSplayTreeSplit s.isTree (machPortMake (index + 1) 0) istLocal with
  | (tree, collisions) => (tree, ipcSplayTreeSplit collisions (machPortMake index 0) istLocal)

/-- Move an entry from the tree to a slot of the table that is given up. -/
def IpcSpace.migrate (s : IpcSpace) (index : Nat) : Option (IpcSpace × List HashCall) :=
  match s.splitIndex index with
  | (tree, collisions, small) =>
  (ipcSplayTreePick collisions).bind fun (tname, tentry) =>
  (ipcSplayTreeDelete collisions tname).map fun collisions =>
    let entry : IpcEntry :=
      ⟨tentry.ieBits.orGen (machPortGen tname), tentry.ieObject, tentry.ieRequest⟩
    let (entry, tree) :=
      match ipcSplayTreePick collisions with
      | some _ =>
        ({ entry with ieBits := { entry.ieBits with collision := true } },
          (ipcSplayTreeJoin tree collisions).1)
      | none => (entry, tree)
    ({ s with
        isTable := update s.isTable index entry
        isTree := (ipcSplayTreeJoin tree small).1
        isTreeTotal := s.isTreeTotal - 1 },
      if tentry.ieBits.type = machPortTypeSend then
        [.globalDelete tentry.ieObject tname,
          .localInsert s.isTableSize tentry.ieObject index]
      else [])

/-- Put a slot of the table on the free list. -/
def IpcSpace.freeSlot (s : IpcSpace) (index : Nat) : IpcSpace :=
  let table := update s.isTable index
    { s.isTable index with
        ieBits := .ofGen (s.isTable index).ieBits.gen
        ieRequest := (s.isTable 0).ieNext }
  { s with isTable := update table 0 { table 0 with ieRequest := index } }

/-- `ipc_entry_dealloc`, for the tree. -/
def IpcSpace.deleteTree (its : IpcTableSizes) (s : IpcSpace) (name : Nat) : Option IpcSpace :=
  let index := machPortIndex name
  (ipcSplayTreeDelete s.isTree name).map fun tree =>
    let s := { s with isTree := tree, isTreeTotal := s.isTreeTotal - 1 }
    if index < s.isTableSize then
      match ipcEntryTreeCollision s name with
      | (true, s) => s
      | (false, s) =>
        { s with
            isTable := update s.isTable index
              { s.isTable index with
                  ieBits := { (s.isTable index).ieBits with collision := false } } }
    else if index < its.itsSize s.isTableNext then
      match ipcEntryTreeCollision s name with
      | (true, s) => s
      | (false, s) => { s with isTreeSmall := s.isTreeSmall - 1 }
    else s

/-- `ipc_entry_dealloc`. -/
def ipcEntryDealloc (its : IpcTableSizes) (s : IpcSpace) (name : Nat) (entry : EntryRef) :
    Option (IpcSpace × List HashCall) :=
  let index := machPortIndex name
  if index < s.isTableSize ∧ entry = .table index then
    if (s.isTable index).ieBits.collision then s.migrate index
    else some (s.freeSlot index, [])
  else (s.deleteTree its name).map fun s => (s, [])

end Mach
