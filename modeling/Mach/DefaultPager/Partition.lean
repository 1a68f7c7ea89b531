import Mach.Lib.Bitmap
import Mathlib.Data.Set.Card

/-!
# Paging partitions

The default pager keeps the pages of all its objects in paging partitions.  A partition has a bitmap
of its blocks and a count of the free ones.  The last word of the bitmap has bits beyond the end of
the partition.  They are never set, and the search for a free block does not reach them as long as
the count is right (`Partition.Ok`).

The partitions are in a list whose length is doubled when it is full.  The entries at its end are
null.  `P_INDEX_INVALID` is `none`.

The locks of the partitions are left out.
-/

namespace Mach

open List Bitmap

/-- `vm_page_size`, and what depends on it. -/
structure PagerConfig where
  shift : Nat
  shift_ge : 12 ≤ shift
  shift_lt : shift < 32

namespace PagerConfig

/-- `vm_page_size`. -/
def pageSize (c : PagerConfig) : Nat := 2 ^ c.shift

/-- `atop`. -/
def atop (c : PagerConfig) (a : BitVec 32) : Nat := a.toNat / c.pageSize

/-- In 32 bits. -/
def ptoa (c : PagerConfig) (n : Nat) : Nat := n * c.pageSize % 2 ^ 32

/-- `atop(max_doubled_size)`. -/
def maxDoubledPages (c : PagerConfig) : Nat := 4 * 1024 * 1024 / c.pageSize

end PagerConfig

/-- What ends the default pager. -/
inductive PagerFault where
  /-- An access outside of a map or a list. -/
  | wild
  | panic
  /-- A loop that does not end. -/
  | loops
deriving Repr, DecidableEq

/-- `NB_BM`. -/
def bitsPerEntry : Nat := 32

/-- `howmany`. -/
def howmany (a b : Nat) : Nat := (a + b - 1) / b

/-- `struct part`. -/
structure Partition where
  totalSize : Nat
  free : Nat
  bitmap : Bitmap bitsPerEntry
  goingAway : Bool
deriving Repr, DecidableEq

/-- `all_partitions`. -/
abbrev PartitionList := List (Option Partition)

/-- A partition of this number of blocks. -/
def Partition.create (size : Nat) : Partition :=
  ⟨size, size, List.replicate (howmany size bitsPerEntry) 0, false⟩

/-- `create_paging_partition`. -/
def createPagingPartition (c : PagerConfig) (partitions : PartitionList) (size : BitVec 32) :
    PartitionList :=
  let part := Partition.create (c.atop size)
  let i := partitions.findIdx Option.isNone
  if i = partitions.length then
    let n := if i ≠ 0 then 2 * i else 2
    (partitions ++ List.replicate (n - i) none).set i (some part)
  else partitions.set i (some part)

/-- The test of `choose_partition` on a partition. -/
def Partition.suits (c : PagerConfig) (size : Nat) : Option Partition → Bool
  | none => false
  | some part => !part.goingAway && decide (size ≤ c.ptoa part.free)

/-- `choose_partition`. -/
def choosePartition (c : PagerConfig) (size : Nat) (current : Option Nat)
    (partitions : PartitionList) : Option Nat :=
  (List.range partitions.length).find? fun i =>
    decide (some i ≠ current) && Partition.suits c size (partitions.getD i none)

/-- The search of `pager_alloc_page` in a partition with a free block. -/
def Partition.takeBlock (part : Partition) : Except PagerFault (Partition × Nat) :=
  let entry := part.bitmap.openWord
  match part.bitmap[entry]? with
  | none => .error .panic
  | some word =>
    match Bitmap.clearBit word with
    | none => .error .panic
    | some bit =>
      let block := entry * bitsPerEntry + bit
      .ok ({ part with bitmap := part.bitmap.set block, free := part.free - 1 }, block)

/-- `pager_alloc_page`.  It is wild if the list has no such entry. -/
def pagerAllocPage (index : Option Nat) (partitions : PartitionList) :
    Except PagerFault (PartitionList × Option Nat) :=
  match index with
  | none => .ok (partitions, none)
  | some i =>
    match partitions[i]? with
    | none => .error .wild
    | some none => .ok (partitions, none)
    | some (some part) =>
      if part.goingAway || part.free = 0 then .ok (partitions, none)
      else part.takeBlock.map fun x => (partitions.set i (some x.1), some x.2)

/-- `pager_dealloc_page`. -/
def pagerDeallocPage (i page : Nat) (partitions : PartitionList) :
    Except PagerFault PartitionList :=
  match partitions[i]? with
  | none => .error .wild
  | some none => .error .wild
  | some (some part) =>
    if part.totalSize ≤ page then .error .panic
    else
      .ok (partitions.set i
        (some { part with bitmap := part.bitmap.clear page, free := part.free + 1 }))

/-! ### The blocks in use -/

theorem bitsPerEntry_pos : 0 < bitsPerEntry := by decide

/-- A bitmap has the blocks that are in use, and the count is right. -/
structure Partition.Ok (c : PagerConfig) (part : Partition) (used : Nat → Prop) : Prop where
  length : part.bitmap.length = howmany part.totalSize bitsPerEntry
  test : ∀ b, part.bitmap.test b = true ↔ used b
  lt : ∀ b, used b → b < part.totalSize
  free : part.free = (part.bitmap.clearBits part.totalSize).card
  stays : part.goingAway = false
  /-- The size in bytes is a 32-bit number. -/
  bound : part.totalSize * c.pageSize < 2 ^ 32

namespace Partition.Ok

variable {c : PagerConfig} {part : Partition} {used used' : Nat → Prop} {b : Nat}

variable (h : part.Ok c used)

include h

theorem congr (hused : ∀ b, used' b ↔ used b) : part.Ok c used' := by
  rwa [show used' = used from funext fun b => propext (hused b)]

theorem entry_lt (hb : b < part.totalSize) : b / bitsPerEntry < part.bitmap.length := by
  rw [h.length, howmany, Nat.div_lt_iff_lt_mul bitsPerEntry_pos]
  have hle := Nat.div_add_mod (part.totalSize + bitsPerEntry - 1) bitsPerEntry
  have hlt := Nat.mod_lt (part.totalSize + bitsPerEntry - 1) bitsPerEntry_pos
  rw [mul_comm] at hle
  omega

theorem free_eq : part.free = {b | b < part.totalSize ∧ ¬ used b}.ncard := by
  rw [h.free, ← Set.ncard_coe_finset]
  congr 1
  ext b
  rw [Finset.mem_coe, mem_clearBits, Set.mem_ofPred_eq, ← h.test, Bool.not_eq_true]

theorem free_eq_zero_iff : part.free = 0 ↔ ∀ b, b < part.totalSize → used b := by
  rw [h.free, Finset.card_eq_zero, Finset.eq_empty_iff_forall_notMem]
  refine forall_congr' fun b => ?_
  rw [mem_clearBits, ← h.test, not_and, Bool.not_eq_false]

theorem free_le : part.free ≤ part.totalSize := by
  rw [h.free]
  exact (Finset.card_le_card (Finset.filter_subset ..)).trans (Finset.card_range _).le

theorem takeBlock (hfree : part.free ≠ 0) :
    ∃ part' b, part.takeBlock = .ok (part', b) ∧ part'.totalSize = part.totalSize ∧
      b < part.totalSize ∧ ¬ used b ∧ part'.Ok c fun b' => used b' ∨ b' = b := by
  obtain ⟨i, hi, hclear⟩ : ∃ i, i < part.totalSize ∧ part.bitmap.test i = false := by
    have hpos : 0 < (part.bitmap.clearBits part.totalSize).card := by
      rw [← h.free]
      exact pos_of_ne_zero hfree
    obtain ⟨i, hmem⟩ := Finset.card_pos.mp hpos
    exact ⟨i, mem_clearBits.mp hmem⟩
  obtain ⟨word, bit, hword, hbit, -, hfound, hle⟩ :=
    firstClear_spec bitsPerEntry_pos (h.entry_lt hi) hclear
  have hb : part.bitmap.openWord * bitsPerEntry + bit < part.totalSize := hle.trans_lt hi
  have hentry := h.entry_lt hb
  have htake : part.takeBlock = .ok ({ part with
          bitmap := part.bitmap.set (part.bitmap.openWord * bitsPerEntry + bit)
          free := part.free - 1 }, part.bitmap.openWord * bitsPerEntry + bit) := by
    simp only [Partition.takeBlock, hword, hbit]
  refine ⟨_, _, htake, rfl, hb, ?_, ?_⟩
  · rw [← h.test, hfound]
    exact Bool.false_ne_true
  · constructor
    case length => exact (Bitmap.length_set).trans h.length
    case test =>
      intro b
      simp only [test_set bitsPerEntry_pos hentry, Bool.or_eq_true, decide_eq_true_eq, h.test]
      exact or_congr_right eq_comm
    case lt =>
      rintro b (hused | rfl)
      · exact h.lt b hused
      · exact hb
    case free =>
      have hcard := card_clearBits_set bitsPerEntry_pos hentry hb hfound
      have hcount := h.free
      dsimp only
      omega
    case stays => exact h.stays
    case bound => exact h.bound

theorem giveBlock (hused : used b) :
    { part with bitmap := part.bitmap.clear b, free := part.free + 1 }.Ok c
      fun b' => used b' ∧ b' ≠ b := by
  have hb := h.lt b hused
  have hentry := h.entry_lt hb
  constructor
  case length => exact (length_clear).trans h.length
  case test =>
    intro b'
    simp only [test_clear bitsPerEntry_pos hentry, Bool.and_eq_true, decide_eq_true_eq, h.test]
    exact and_congr_right fun _ => ne_comm
  case lt => exact fun b' hb' => h.lt b' hb'.1
  case free =>
    have hcard := card_clearBits_clear bitsPerEntry_pos hentry hb ((h.test b).mpr hused)
    have hcount := h.free
    dsimp only
    omega
  case stays => exact h.stays
  case bound => exact h.bound

end Partition.Ok

/-- The blocks in use of all partitions. -/
structure PartitionList.Ok (c : PagerConfig) (l : PartitionList) (used : Nat → Nat → Prop) :
    Prop where
  ok : ∀ (i : Nat) (part : Partition), l[i]? = some (some part) → part.Ok c (used i)
  present : ∀ i b, used i b → ∃ part : Partition, l[i]? = some (some part)
  /-- Indices fit in 8 bits, and none is the one of `NO_BLOCK`. -/
  index : ∀ (i : Nat) (part : Partition), l[i]? = some (some part) → i < 255

namespace PartitionList

variable {c : PagerConfig} {l l' : PartitionList} {used : Nat → Nat → Prop} {i b : Nat}
  {part : Partition}

/-- The number of blocks of a partition. -/
def total (l : PartitionList) (i : Nat) : Nat := ((l.getD i none).map Partition.totalSize).getD 0

/-- The bit of a block is set. -/
def inUse (l : PartitionList) (i b : Nat) : Bool :=
  ((l.getD i none).map fun part => part.bitmap.test b).getD false

theorem total_eq (h : l[i]? = some (some part)) : l.total i = part.totalSize := by
  rw [total, getD_eq_getElem?_getD, h]
  rfl

theorem total_of_null (h : l[i]? = some none) : l.total i = 0 := by
  rw [total, getD_eq_getElem?_getD, h]
  rfl

/-- Blocks are taken and given back, but the partitions stay. -/
structure Keeps (l l' : PartitionList) : Prop where
  length : l'.length = l.length
  total : l'.total = l.total

namespace Keeps

theorem refl (l : PartitionList) : l.Keeps l := ⟨rfl, rfl⟩

theorem trans {l'' : PartitionList} (h : l.Keeps l') (h' : l'.Keeps l'') : l.Keeps l'' :=
  ⟨h'.length.trans h.length, h'.total.trans h.total⟩

theorem set {part' : Partition} (h : l[i]? = some (some part))
    (htotal : part'.totalSize = part.totalSize) : l.Keeps (l.set i (some part')) := by
  refine ⟨length_set, funext fun j => ?_⟩
  have hi : i < l.length := (List.getElem?_eq_some_iff.mp h).1
  rcases eq_or_ne i j with rfl | hne
  · rw [total_eq h, total_eq (getElem?_set_self hi), htotal]
  · rw [PartitionList.total, PartitionList.total, getD_eq_getElem?_getD,
      getD_eq_getElem?_getD, getElem?_set_ne hne]

end Keeps

/-- A block that was not in use is taken. -/
structure Takes (c : PagerConfig) (l : PartitionList) (used : Nat → Nat → Prop) (l' : PartitionList)
    (i b : Nat) : Prop where
  keeps : l.Keeps l'
  lt : b < l.total i
  fresh : ¬ used i b
  ok : Ok c l' fun j b' => used j b' ∨ (j = i ∧ b' = b)

namespace Ok

section

variable (h : Ok c l used)
include h

theorem congr {used' : Nat → Nat → Prop} (hused : ∀ i b, used' i b ↔ used i b) : Ok c l used' := by
  rwa [show used' = used from funext₂ fun i b => propext (hused i b)]

theorem set {used' : Nat → Nat → Prop} {part' : Partition}
    (hi : l[i]? = some (some part)) (hpart : part'.Ok c (used' i))
    (hothers : ∀ j, j ≠ i → ∀ b, used' j b ↔ used j b) : Ok c (l.set i (some part')) used' := by
  have hlt : i < l.length := (List.getElem?_eq_some_iff.mp hi).1
  constructor
  case ok =>
    intro j p hj
    rcases eq_or_ne i j with rfl | hne
    · rw [getElem?_set_self hlt] at hj
      cases hj
      exact hpart
    · rw [getElem?_set_ne hne] at hj
      exact (h.ok j p hj).congr (hothers j hne.symm)
  case present =>
    intro j b hused
    rcases eq_or_ne i j with rfl | hne
    · exact ⟨part', getElem?_set_self hlt⟩
    · rw [getElem?_set_ne hne]
      exact h.present j b ((hothers j hne.symm b).mp hused)
  case index =>
    intro j p hj
    rcases eq_or_ne i j with rfl | hne
    · exact h.index i part hi
    · rw [getElem?_set_ne hne] at hj
      exact h.index j p hj

theorem inUse_iff : l.inUse i b = true ↔ used i b := by
  rw [inUse, getD_eq_getElem?_getD]
  cases hi : l[i]?.getD none with
  | none =>
    refine iff_of_false Bool.false_ne_true fun hused => ?_
    obtain ⟨part, hpart⟩ := h.present i b hused
    rw [hpart] at hi
    cases hi
  | some part =>
    have hpart : l[i]? = some (some part) := by
      cases hget : l[i]? with
      | none => rw [hget] at hi; cases hi
      | some => rw [hget] at hi; exact congrArg some hi
    exact (h.ok i part hpart).test b

theorem alloc (hi : i < l.length) :
    (pagerAllocPage (some i) l = .ok (l, none) ∧ ∀ b, b < l.total i → used i b) ∨
    ∃ l' b, pagerAllocPage (some i) l = .ok (l', some b) ∧ l.Takes c used l' i b := by
  cases hpart : l[i] with
  | none =>
    have hi : l[i]? = some none := (getElem?_eq_getElem hi).trans (congrArg some hpart)
    left
    rw [total_of_null hi]
    refine ⟨?_, fun b hb => absurd hb (Nat.not_lt_zero b)⟩
    simp only [pagerAllocPage, hi]
  | some part =>
    have hi : l[i]? = some (some part) := (getElem?_eq_getElem hi).trans (congrArg some hpart)
    have hok := h.ok i part hi
    rcases eq_or_ne part.free 0 with hfull | hfree
    · left
      rw [total_eq hi]
      refine ⟨?_, hok.free_eq_zero_iff.mp hfull⟩
      simp [pagerAllocPage, hi, hfull, Bool.or_true]
    right
    obtain ⟨part', b, htake, htotal, hb, hnot, hok'⟩ := hok.takeBlock hfree
    refine ⟨l.set i (some part'), b, ?_, .set hi htotal, hb.trans_eq (total_eq hi).symm, hnot, ?_⟩
    · simp only [pagerAllocPage, hi, hok.stays, hfree, htake]
      rfl
    · apply h.set hi
      · exact hok'.congr fun b' => by simp
      · intro j hj b'
        simp [hj]

theorem dealloc (hused : used i b) : ∃ l', pagerDeallocPage i b l = .ok l' ∧ l.Keeps l' ∧
      Ok c l' fun j b' => used j b' ∧ ¬ (j = i ∧ b' = b) := by
  obtain ⟨part, hi⟩ := h.present i b hused
  have hok := h.ok i part hi
  have hb := hok.lt b hused
  have hdealloc : pagerDeallocPage i b l = .ok (l.set i
      (some { part with bitmap := part.bitmap.clear b, free := part.free + 1 })) := by
    simp [pagerDeallocPage, hi, not_le.mpr hb]
  refine ⟨_, hdealloc, .set hi rfl, h.set hi ?_ ?_⟩
  · exact (hok.giveBlock hused).congr fun b' => by simp
  · intro j hj b'
    simp [hj]

end

end Ok

end PartitionList

/-! ### The choice of a partition -/

namespace PagerConfig

variable (c : PagerConfig)

theorem ptoa_one : c.ptoa 1 = c.pageSize := by
  rw [ptoa, one_mul]
  exact Nat.mod_eq_of_lt (Nat.pow_lt_pow_right one_lt_two c.shift_lt)

end PagerConfig

section Choose

variable {c : PagerConfig} {l : PartitionList} {used : Nat → Nat → Prop} {size i : Nat}
  {current : Option Nat}

theorem choosePartition_lt (hsome : choosePartition c size current l = some i) : i < l.length :=
  mem_range.mp (find?_range_eq_some.mp hsome).2.1

theorem choosePartition_some (hsome : choosePartition c size current l = some i) :
    ∃ part : Partition, l[i]? = some (some part) ∧ size ≤ c.ptoa part.free := by
  have hlt := choosePartition_lt hsome
  have hsuits := ((Bool.and_eq_true ..).mp (find?_range_eq_some.mp hsome).1).2
  rw [getD_eq_getElem?_getD, getElem?_eq_getElem hlt, Option.getD_some] at hsuits
  rw [getElem?_eq_getElem hlt]
  cases hpart : l[i] with
  | none => simp [hpart, Partition.suits] at hsuits
  | some part =>
    simp only [hpart, Partition.suits, Bool.and_eq_true, decide_eq_true_eq] at hsuits
    exact ⟨part, rfl, hsuits.2⟩

/-- `choose_partition` finds a partition with a free block, if another one has a free block. -/
theorem choosePartition_none (h : PartitionList.Ok c l used)
    (hnone : choosePartition c (c.ptoa 1) current l = none) (hi : some i ≠ current) :
    ∀ b, b < l.total i → used i b := by
  intro b hb
  cases hpart : l[i]? with
  | none => simp [PartitionList.total, hpart] at hb
  | some x =>
    cases x with
    | none => simp [PartitionList.total, hpart] at hb
    | some part =>
      have hok := h.ok i part hpart
      have hlt : i < l.length := (List.getElem?_eq_some_iff.mp hpart).1
      have hsuits := find?_range_eq_none.mp hnone i hlt
      rw [PartitionList.total_eq hpart] at hb
      refine hok.free_eq_zero_iff.mp ?_ b hb
      by_contra hfree
      have hbytes : c.ptoa part.free = part.free * c.pageSize :=
        Nat.mod_eq_of_lt ((Nat.mul_le_mul_right _ hok.free_le).trans_lt hok.bound)
      have hle : c.pageSize ≤ part.free * c.pageSize :=
        Nat.le_mul_of_pos_left _ (pos_of_ne_zero hfree)
      simp [hi, hpart, Partition.suits, hok.stays, hbytes, c.ptoa_one, hle] at hsuits

theorem choosePartition_alloc (h : PartitionList.Ok c l used)
    (hsome : choosePartition c (c.ptoa 1) current l = some i) :
    ∃ l' b, pagerAllocPage (some i) l = .ok (l', some b) ∧ l.Takes c used l' i b := by
  obtain ⟨part, hpart, hsize⟩ := choosePartition_some hsome
  rcases h.alloc (choosePartition_lt hsome) with ⟨-, hfull⟩ | htakes
  · rw [PartitionList.total_eq hpart] at hfull
    have hzero := (h.ok i part hpart).free_eq_zero_iff.mpr hfull
    rw [hzero, c.ptoa_one, PagerConfig.ptoa, zero_mul, Nat.zero_mod] at hsize
    exact absurd hsize (not_le.mpr (Nat.two_pow_pos _))
  · exact htakes

end Choose

/-! ### The partitions at the start -/

/-- The partitions after they were created in turn. -/
def initPartitions (c : PagerConfig) (sizes : List (BitVec 32)) : PartitionList :=
  sizes.foldl (createPagingPartition c) []

section Init

variable {c : PagerConfig}

variable (parts : List Partition)

theorem findIdx_isNone (r : Nat) :
    (parts.map some ++ List.replicate r none).findIdx Option.isNone = parts.length := by
  induction parts with
  | nil =>
    cases r with
    | zero => rfl
    | succ => simp [replicate_succ, findIdx_cons]
  | cons part parts ih => simp [findIdx_cons, ih]

theorem set_append_replicate (r : Nat) (part : Partition) :
    (parts.map some ++ List.replicate (r + 1) none).set parts.length (some part) =
      (parts ++ [part]).map some ++ List.replicate r none := by
  induction parts with
  | nil => rfl
  | cons p parts ih => simpa using ih

/-- A new partition comes after the others, before the null entries. -/
theorem createPagingPartition_append (r : Nat) (size : BitVec 32) :
    ∃ r', createPagingPartition c (parts.map some ++ List.replicate r none) size =
      (parts ++ [Partition.create (c.atop size)]).map some ++ List.replicate r' none := by
  simp only [createPagingPartition, findIdx_isNone]
  cases r with
  | zero =>
    obtain ⟨k, hk⟩ : ∃ k, (if parts.length ≠ 0 then 2 * parts.length else 2) -
        parts.length = k + 1 := by
      refine Nat.exists_eq_add_one.mpr ?_
      split <;> omega
    refine ⟨k, ?_⟩
    simp only [replicate_zero, append_nil, length_map, hk]
    exact set_append_replicate parts k _
  | succ r =>
    refine ⟨r, ?_⟩
    rw [if_neg (by simp)]
    exact set_append_replicate parts r _

theorem initPartitions_eq (sizes : List (BitVec 32)) : ∃ r, initPartitions c sizes =
      (sizes.map fun size => Partition.create (c.atop size)).map some ++ List.replicate r none := by
  induction sizes using reverseRecOn with
  | nil => exact ⟨0, rfl⟩
  | append_singleton sizes size ih =>
    obtain ⟨r, hr⟩ := ih
    obtain ⟨r', hr'⟩ := createPagingPartition_append
      (sizes.map fun size => .create (c.atop size)) r size
    refine ⟨r', ?_⟩
    rw [initPartitions] at hr ⊢
    rw [foldl_append, hr, foldl_cons, foldl_nil, hr']
    simp

theorem partition_create_ok (size : BitVec 32) :
    (Partition.create (c.atop size)).Ok c fun _ => False := by
  have htest : ∀ b, (Partition.create (c.atop size)).bitmap.test b = false := by
    intro b
    rw [test, Partition.create, getD_eq_getElem?_getD, getElem?_replicate]
    split <;> simp
  constructor
  case length => exact length_replicate
  case test => exact fun b => by simp [htest b]
  case lt => exact fun b hfalse => hfalse.elim
  case free =>
    have hall : (Partition.create (c.atop size)).bitmap.clearBits (c.atop size) =
        .range (c.atop size) := by
      ext b
      simp [mem_clearBits, htest b]
    exact ((congrArg Finset.card hall).trans (Finset.card_range _)).symm
  case stays => rfl
  case bound => exact (Nat.div_mul_le_self ..).trans_lt size.isLt

/-- No block is in use at the start. -/
theorem initPartitions_ok {sizes : List (BitVec 32)} (h : sizes.length < 255) :
    PartitionList.Ok c (initPartitions c sizes) fun _ _ => False := by
  obtain ⟨r, hr⟩ := initPartitions_eq sizes
  have hmem : ∀ (i : Nat) (part : Partition), (initPartitions c sizes)[i]? = some (some part) →
      i < sizes.length ∧ ∃ size, part = .create (c.atop size) := by
    intro i part hi
    rw [hr, getElem?_append] at hi
    split at hi
    next =>
      simp only [getElem?_map, Option.map_eq_some_iff, Option.some.injEq] at hi
      obtain ⟨_, ⟨size, hsize, rfl⟩, rfl⟩ := hi
      exact ⟨(List.getElem?_eq_some_iff.mp hsize).1, size, rfl⟩
    next =>
      rw [getElem?_replicate] at hi
      split at hi <;> cases hi
  constructor
  case ok =>
    intro i part hi
    obtain ⟨-, size, rfl⟩ := hmem i part hi
    exact partition_create_ok size
  case present => exact fun i b hfalse => hfalse.elim
  case index => exact fun i part hi => (hmem i part hi).1.trans h

end Init

end Mach
