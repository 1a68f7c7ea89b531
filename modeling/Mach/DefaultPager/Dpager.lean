import Mach.DefaultPager.Partition

/-!
# Block maps

A paging object has a map from its pages to blocks of the paging partitions.  Up to 64 pages it is
one array.  Beyond that it is an array of pointers to arrays of 64 entries, which are null until a
page of theirs is written.  The size of the object says which of the two it is.  When a page beyond
the size is asked for, the map is copied to a larger one.

An index outside of the array, or a map of the other kind, is a fault, and so is the copy of a map
into a smaller one.  `kalloc` is taken to succeed, except in `pager_write_offset`, which tests for
its failure.
-/

namespace Mach

/-- `union dp_map` as a block. -/
structure Block where
  offset : BitVec 24
  index : BitVec 8
deriving Repr, DecidableEq

/-- `NO_BLOCK`. -/
def noBlock : Block := ⟨BitVec.allOnes 24, BitVec.allOnes 8⟩

/-- The partition and the number of a block in it. -/
def Block.slot (b : Block) : Option (Nat × Nat) :=
  if b = noBlock then none else some (b.index.toNat, b.offset.toNat)

/-- `PAGEMAP_ENTRIES`. -/
def pagemapEntries : Nat := 64

/-- `INDIRECT_PAGEMAP_ENTRIES`. -/
def indirectPagemapEntries (n : Nat) : Nat := (n - 1) / pagemapEntries + 1

/-- `INDIRECT_PAGEMAP`. -/
def indirectPagemap (size : Nat) : Bool := pagemapEntries < size

/-- `ROUNDUP_TO_PAGEMAP`. -/
def roundupToPagemap (n : Nat) : Nat := (n + pagemapEntries - 1) / pagemapEntries * pagemapEntries

/-- Both kinds of maps. -/
inductive BlockMap where
  | direct (blocks : List Block)
  | indirect (maps : List (Option (List Block)))
deriving Repr, DecidableEq

/-- `struct dpager`. -/
structure Dpager where
  map : BlockMap
  size : Nat
  currentPartition : Option Nat
deriving Repr, DecidableEq

/-- `while (i < n) i <<= 1`, which does not end for `i = 0`. -/
def doubleUntil : Nat → Nat → Nat → Nat
  | 0, i, _ => i
  | fuel + 1, i, n => if i < n then doubleUntil fuel (2 * i) n else i

/-- `pager_alloc`. -/
def pagerAlloc (c : PagerConfig) (part : Option Nat) (size : BitVec 32) : Dpager :=
  let n := c.atop size
  let n := if n ≤ c.maxDoubledPages then doubleUntil n 1 n else roundupToPagemap n
  { map :=
      if indirectPagemap n then .indirect (List.replicate (indirectPagemapEntries n) none)
      else .direct (List.replicate n noBlock)
    size := n
    currentPartition := part }

/-- The loop that copies an array into a longer one, and fills up the rest. -/
def copyEntries {α : Type} (old : List α) (oldLength newLength : Nat) (fill : α) :
    Except PagerFault (List α) :=
  if oldLength ≤ old.length ∧ oldLength ≤ newLength then
    .ok (old.take oldLength ++ List.replicate (newLength - oldLength) fill)
  else .error .wild

namespace Dpager

/-- The new size of `pager_extend`. -/
def extendedSize (c : PagerConfig) (oldSize newSize : Nat) : Nat :=
  if newSize ≤ c.maxDoubledPages then doubleUntil newSize oldSize newSize
  else roundupToPagemap newSize

/-- A second-level map with one entry that points to the old map. -/
def indirectOf (n : Nat) (blocks : List Block) : BlockMap :=
  .indirect (some blocks :: List.replicate (indirectPagemapEntries n - 1) none)

/-- The map of `pager_extend`. -/
def extendMap (n : Nat) (d : Dpager) : Except PagerFault BlockMap :=
  match d.map, indirectPagemap d.size with
  | .indirect maps, true =>
    (copyEntries maps (indirectPagemapEntries d.size) (indirectPagemapEntries n) none).map .indirect
  | .direct blocks, false =>
    if indirectPagemap n then
      (copyEntries blocks d.size pagemapEntries noBlock).map (indirectOf n)
    else (copyEntries blocks d.size n noBlock).map .direct
  | _, _ => .error .wild

/-- `pager_extend`. -/
def pagerExtend (c : PagerConfig) (newSize : Nat) (d : Dpager) : Except PagerFault Dpager :=
  let n := extendedSize c d.size newSize
  (d.extendMap n).map fun map => { d with map := map, size := n }

/-- `while (f_page >= pager->size) pager_extend(pager, f_page + 1)`. -/
def extendTo (c : PagerConfig) : Nat → Nat → Dpager → Except PagerFault Dpager
  | 0, _, _ => .error .loops
  | fuel + 1, page, d =>
    if d.size ≤ page then (d.pagerExtend c (page + 1)).bind (extendTo c fuel page) else .ok d

/-- Read an array. -/
def entryOf (blocks : List Block) (i : Nat) : Except PagerFault Block :=
  match blocks[i]? with
  | none => .error .wild
  | some b => .ok b

/-- The map entry of a page, at the end of `pager_read_offset`. -/
def entry (page : Nat) (d : Dpager) : Except PagerFault Block :=
  match d.map, indirectPagemap d.size with
  | .indirect maps, true =>
    match maps[page / pagemapEntries]? with
    | none => .error .wild
    | some none => .ok noBlock
    | some (some blocks) => entryOf blocks (page % pagemapEntries)
  | .direct blocks, false => entryOf blocks page
  | _, _ => .error .wild

/-- Store an entry of an array. -/
def storeIn (blocks : List Block) (i : Nat) (b : Block) : Except PagerFault (List Block) :=
  if i < blocks.length then .ok (blocks.set i b) else .error .wild

/-- Store the entry for a page, in a second-level map that is there. -/
def store (page : Nat) (b : Block) (d : Dpager) : Except PagerFault Dpager :=
  match d.map, indirectPagemap d.size with
  | .indirect maps, true =>
    match maps[page / pagemapEntries]? with
    | some (some blocks) =>
      (storeIn blocks (page % pagemapEntries) b).map fun blocks =>
        { d with map := .indirect (maps.set (page / pagemapEntries) (some blocks)) }
    | _ => .error .wild
  | .direct blocks, false =>
    (storeIn blocks page b).map fun blocks => { d with map := .direct blocks }
  | _, _ => .error .wild

/-- `pager_read_offset`. -/
def pagerReadOffset (c : PagerConfig) (offset : BitVec 32) (d : Dpager) :
    Except PagerFault (Dpager × Block) := do
  let d ← d.extendTo c 2 (c.atop offset)
  let b ← d.entry (c.atop offset)
  .ok (d, b)

/-- `pager_release_offset`. -/
def pagerReleaseOffset (c : PagerConfig) (offset : BitVec 32) (d : Dpager)
    (partitions : PartitionList) : Except PagerFault (Dpager × PartitionList) := do
  let b ← d.entry (c.atop offset)
  let d ← d.store (c.atop offset) noBlock
  let partitions ← pagerDeallocPage b.index.toNat b.offset.toNat partitions
  .ok (d, partitions)

/-- A partition for an object that has none. -/
def attach (c : PagerConfig) (page : Nat) (partitions : PartitionList) (d : Dpager) : Dpager :=
  match d.currentPartition with
  | some _ => d
  | none =>
    let size := if d.size < page then page else d.size
    { d with
      currentPartition :=
        (choosePartition c (c.ptoa size) none partitions).or
          (choosePartition c (c.ptoa 1) none partitions) }

/-- The second-level map for a page is allocated if there is none.  There is no result if `kalloc`
fails. -/
def ensureMap (kalloc : Bool) (page : Nat) (d : Dpager) : Except PagerFault (Option Dpager) :=
  match d.map, indirectPagemap d.size with
  | .indirect maps, true =>
    match maps[page / pagemapEntries]? with
    | none => .error .wild
    | some none =>
      if kalloc then
        .ok (some { d with
          map := .indirect (maps.set (page / pagemapEntries)
            (some (List.replicate pagemapEntries noBlock))) })
      else .ok none
    | some (some _) => .ok (some d)
  | .direct _, false => .ok (some d)
  | _, _ => .error .wild

/-- The second try of `pager_write_offset`, in another partition. -/
def retryAlloc (c : PagerConfig) (partitions : PartitionList) (d : Dpager) :
    Except PagerFault (Dpager × PartitionList × Option Nat) :=
  match choosePartition c (c.ptoa 1) d.currentPartition partitions with
  | none => .ok (d, partitions, none)
  | some i =>
    (pagerAllocPage (some i) partitions).map fun x => ({ d with currentPartition := some i }, x)

/-- A block in the current partition, or else in another one. -/
def allocBlock (c : PagerConfig) (partitions : PartitionList) (d : Dpager) :
    Except PagerFault (Dpager × PartitionList × Option Nat) := do
  let (partitions, off) ← pagerAllocPage d.currentPartition partitions
  match off with
  | some off => .ok (d, partitions, some off)
  | none => d.retryAlloc c partitions

/-- A new block for a page. -/
def assign (c : PagerConfig) (page : Nat) (partitions : PartitionList) (d : Dpager) :
    Except PagerFault (Dpager × PartitionList × Block) := do
  let (d, partitions, off) ← d.allocBlock c partitions
  match off, d.currentPartition with
  | some off, some i =>
    let b : Block := ⟨BitVec.ofNat 24 off, BitVec.ofNat 8 i⟩
    let d ← d.store page b
    .ok (d, partitions, b)
  | _, _ => .ok (d, partitions, noBlock)

/-- `pager_write_offset`, after the map is large enough. -/
def writeEntry (c : PagerConfig) (kalloc : Bool) (page : Nat) (partitions : PartitionList)
    (d : Dpager) : Except PagerFault (Dpager × PartitionList × Block) := do
  match ← d.ensureMap kalloc page with
  | none => .ok (d, partitions, noBlock)
  | some d =>
    let b ← d.entry page
    if b = noBlock then d.assign c page partitions else .ok (d, partitions, b)

/-- `pager_write_offset`.  Without memory for a map, or without a free block, `no_paging_space`
panics.  The result is what the code would go on to return. -/
def pagerWriteOffset (c : PagerConfig) (kalloc : Bool) (offset : BitVec 32) (d : Dpager)
    (partitions : PartitionList) : Except PagerFault (Dpager × PartitionList × Block) := do
  let d := d.attach c (c.atop offset) partitions
  if d.currentPartition = none then .ok (d, partitions, noBlock)
  else
    let d ← d.extendTo c 2 (c.atop offset)
    d.writeEntry c kalloc (c.atop offset) partitions

/-- The blocks of an object, in the order of `pager_dealloc`. -/
def blocks (d : Dpager) : Except PagerFault (List Block) :=
  match d.map, indirectPagemap d.size with
  | .indirect maps, true =>
    if indirectPagemapEntries d.size ≤ maps.length then
      .ok ((maps.take (indirectPagemapEntries d.size)).reverse.flatMap fun m => m.getD [])
    else .error .wild
  | .direct blocks, false =>
    if d.size ≤ blocks.length then .ok (blocks.take d.size) else .error .wild
  | _, _ => .error .wild

/-- Give back blocks. -/
def deallocBlocks : List Block → PartitionList → Except PagerFault PartitionList
  | [], partitions => .ok partitions
  | b :: bs, partitions =>
    if b = noBlock then deallocBlocks bs partitions
    else (pagerDeallocPage b.index.toNat b.offset.toNat partitions).bind (deallocBlocks bs)

/-- `pager_dealloc`. -/
def pagerDealloc (d : Dpager) (partitions : PartitionList) : Except PagerFault PartitionList := do
  let bs ← d.blocks
  deallocBlocks bs partitions

end Dpager

end Mach
