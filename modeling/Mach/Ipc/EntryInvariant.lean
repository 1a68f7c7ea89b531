import Mathlib.Data.Finset.Card
import Mach.Ipc.Entry

/-!
# The representation invariant of a space

`IpcSpace.Core s free` says that the table and the tree of `s` fit together, `free` being
the free list: where the free list runs, when a collision bit is set, which names may be
in the tree, what the counters count.  It is indifferent to what is in an entry that is
not free.  Right after an allocation, and between giving up a right and deallocating its
entry, an entry in use has type `MACH_PORT_TYPE_NONE`, so that part is a predicate of its own
(`Typed`).

`IpcSpace.Maps` reads the space as a map from names to rights, and `IpcSpace.Rep` says
that it represents a given map.  Each operation of `ipc/ipc_entry.c` has one lemma that
says what it does to the free list and to the map.
-/

namespace Mach

/-! ## Indices that occur in the tree -/

section Occurs

variable {β : Type}

/-- A name has the index. -/
def Occurs (l : List (Nat × β)) (index : Nat) : Prop := ∃ e ∈ l, machPortIndex e.1 = index

/-- The indices from `lo` up to `hi` that occur. -/
def indicesIn (l : List (Nat × β)) (lo hi : Nat) : Finset Nat :=
  (l.map fun e => machPortIndex e.1).toFinset.filter fun i => lo ≤ i ∧ i < hi

variable {lo hi : Nat}

theorem mem_indicesIn {l : List (Nat × β)} {i : Nat} :
    i ∈ indicesIn l lo hi ↔ Occurs l i ∧ lo ≤ i ∧ i < hi := by
  simp [indicesIn, Occurs]

variable {l l' : List (Nat × β)} {x : Nat × β} {k : Nat}

theorem indicesIn_congr (h : ∀ i, lo ≤ i → i < hi → (Occurs l i ↔ Occurs l' i)) :
    indicesIn l lo hi = indicesIn l' lo hi := by
  ext i
  rw [mem_indicesIn, mem_indicesIn]
  exact and_congr_left fun hi => h i hi.1 hi.2

theorem occurs_insert (hmem : ∀ e, e ∈ l' ↔ e = x ∨ e ∈ l) (i : Nat) :
    Occurs l' i ↔ Occurs l i ∨ i = machPortIndex x.1 := by
  constructor
  · rintro ⟨e, he, hidx⟩
    rcases (hmem e).mp he with rfl | he
    · exact .inr hidx.symm
    · exact .inl ⟨e, he, hidx⟩
  · rintro (⟨e, he, hidx⟩ | rfl)
    · exact ⟨e, (hmem e).mpr (.inr he), hidx⟩
    · exact ⟨x, (hmem x).mpr (.inl rfl), rfl⟩

theorem occurs_delete (hmem : ∀ e, e ∈ l' ↔ e ∈ l ∧ e.1 ≠ x.1) (hx : x ∈ l) (i : Nat) :
    Occurs l i ↔ Occurs l' i ∨ i = machPortIndex x.1 := by
  constructor
  · rintro ⟨e, he, rfl⟩
    by_cases hex : e.1 = x.1
    · exact .inr (by rw [hex])
    · exact .inl ⟨e, (hmem e).mpr ⟨he, hex⟩, rfl⟩
  · rintro (⟨e, he, hidx⟩ | rfl)
    · exact ⟨e, ((hmem e).mp he).1, hidx⟩
    · exact ⟨x, hx, rfl⟩

theorem indicesIn_of_occurs
    (h : ∀ i, Occurs l' i ↔ Occurs l i ∨ i = k) (hk : lo ≤ k → k < hi → Occurs l k) :
    indicesIn l' lo hi = indicesIn l lo hi := by
  refine indicesIn_congr fun i hlo hhi => ?_
  rw [h, or_iff_left_of_imp]
  rintro rfl
  exact hk hlo hhi

theorem card_indicesIn_succ (hlo : lo ≤ k)
    (hhi : k < hi) (hk : ¬ Occurs l k) (h : ∀ i, Occurs l' i ↔ Occurs l i ∨ i = k) :
    (indicesIn l' lo hi).card = (indicesIn l lo hi).card + 1 := by
  have hins : indicesIn l' lo hi = insert k (indicesIn l lo hi) := by
    ext i
    rw [mem_indicesIn, Finset.mem_insert, mem_indicesIn, h]
    rcases eq_or_ne i k with rfl | hne
    · simp [hlo, hhi]
    · simp [hne]
  rw [hins, Finset.card_insert_of_notMem]
  rw [mem_indicesIn]
  exact fun hmem => hk hmem.1

end Occurs

/-! ## The invariant -/

namespace IpcEntry

/-- The part of an entry that belongs to the right: what `IE_BITS_RIGHT_MASK` masks, the
object and the request. -/
def right (e : IpcEntry) : IpcEntry :=
  { e with ieBits := { e.ieBits with collision := false, gen := 0 } }

/-- The entry holds a right and nothing else, as the entries of the tree do. -/
def Bare (e : IpcEntry) : Prop := e.ieBits.collision = false ∧ e.ieBits.gen = 0

variable {e : IpcEntry}

theorem right_of_bare (h : e.Bare) : e.right = e := by
  obtain ⟨⟨u, t, m, c, col, g⟩, o, r⟩ := e
  obtain ⟨hc, hg⟩ := h
  cases hc
  cases hg
  rfl

@[simp] theorem right_type (e : IpcEntry) : e.right.ieBits.type = e.ieBits.type := rfl

@[simp] theorem right_withRight (e v : IpcEntry) : (e.withRight v).right = v.right := rfl

/-- Set the collision bit. -/
def setCollision (e : IpcEntry) (c : Bool) : IpcEntry :=
  { e with ieBits := { e.ieBits with collision := c } }

@[simp] theorem setCollision_self (e : IpcEntry) : e.setCollision e.ieBits.collision = e := rfl

/-- The entry as it is in a slot of the table. -/
def inSlot (e : IpcEntry) (gen : Nat) (c : Bool) : IpcEntry :=
  { e with ieBits := { e.ieBits with collision := c, gen := gen } }

@[simp] theorem right_inSlot (e : IpcEntry) (gen : Nat) (c : Bool) :
    (e.inSlot gen c).right = e.right := rfl

theorem update_setCollision (table : Nat → IpcEntry) (k : Nat) (c : Bool) :
    Function.update table k ((table k).setCollision c) = fun i =>
      (table i).setCollision (if i = k then c else (table i).ieBits.collision) := by
  funext i
  by_cases hi : i = k
  · subst hi
    rw [Function.update_self, if_pos rfl]
  · rw [Function.update_of_ne hi, if_neg hi, setCollision_self]

theorem right_bare (e : IpcEntry) : e.right.Bare := ⟨rfl, rfl⟩

end IpcEntry

/-- The table and the tree of a space fit together, with this free list. -/
structure IpcSpace.Core (its : IpcTableSizes) (s : IpcSpace) (free : List Nat) : Prop where
  active : s.isActive = true
  next_pos : 0 < s.isTableNext
  next_lt : s.isTableNext < its.num
  size : s.isTableSize = its.itsSize (s.isTableNext - 1)
  tree : s.isTree.Valid
  /-- The entries of the tree have no generation number of their own. -/
  bare : ∀ e ∈ s.treeList, e.2.Bare
  /-- No name of the tree is null. -/
  name_pos : ∀ e ∈ s.treeList, 0 < e.1
  /-- The free list starts at slot 0. -/
  chain : Chain (fun i => (s.isTable i).ieNext) (s.isTable 0).ieNext free
  free_lt : ∀ i ∈ free, i < s.isTableSize
  /-- A free entry has a generation number and nothing else. -/
  free_bits : ∀ i ∈ free, (s.isTable i).ieBits = .ofGen (s.isTable i).ieBits.gen
  free_object : ∀ i ∈ free, (s.isTable i).ieObject = ioNull
  /-- Slot 0 keeps the generation number it was created with. -/
  head_gen : (s.isTable 0).ieBits.gen = 255
  head_type : (s.isTable 0).ieBits.type = machPortTypeNone
  gen_lt : ∀ i, i < s.isTableSize → (s.isTable i).ieBits.gen < 256
  /-- A slot has its collision bit on iff the tree has a name with its index. -/
  collision : ∀ i, i < s.isTableSize →
    ((s.isTable i).ieBits.collision = true ↔ Occurs s.treeList i)
  /-- A name that could be in the table is in the tree only while another name has its
  slot. -/
  shadow : ∀ e ∈ s.treeList, 0 < machPortIndex e.1 → machPortIndex e.1 < s.isTableSize →
    machPortIndex e.1 ∉ free ∧
      (s.isTable (machPortIndex e.1)).ieBits.gen ≠ machPortGen e.1
  total : s.isTreeTotal = s.treeList.length
  small : s.isTreeSmall =
    (indicesIn s.treeList s.isTableSize (its.itsSize s.isTableNext)).card

/-- The name has its slot in the table. -/
def IpcSpace.InSlot (s : IpcSpace) (free : List Nat) (name : Nat) : Prop :=
  0 < machPortIndex name ∧ machPortIndex name < s.isTableSize ∧ machPortIndex name ∉ free ∧
    (s.isTable (machPortIndex name)).ieBits.gen = machPortGen name

/-- The name is in the table or in the tree. -/
def IpcSpace.Maps (s : IpcSpace) (free : List Nat) (name : Nat) (v : IpcEntry) : Prop :=
  (s.InSlot free name ∧ (s.isTable (machPortIndex name)).right = v) ∨ (name, v) ∈ s.treeList

/-- The space represents a map from names to rights. -/
structure IpcSpace.Rep (its : IpcTableSizes) (s : IpcSpace) (free : List Nat)
    (m : Nat → Option IpcEntry) : Prop extends s.Core its free where
  maps : ∀ name v, s.Maps free name v ↔ m name = some v

/-- Every entry in use has a type. -/
def Typed (m : Nat → Option IpcEntry) : Prop :=
  ∀ name v, m name = some v → v.ieBits.type ≠ machPortTypeNone

/-- The entry is that of the name. -/
def IpcSpace.Refers (s : IpcSpace) (free : List Nat) (name : Nat) : EntryRef → Prop
  | .table index => index = machPortIndex name ∧ s.InSlot free name
  | .tree tname => tname = name ∧ ∃ v, (name, v) ∈ s.treeList

namespace IpcSpace

variable {its : IpcTableSizes} {s : IpcSpace} {free : List Nat}

namespace Core

variable (h : s.Core its free) {i : Nat}

include h

theorem size_pos : 0 < s.isTableSize := by
  rw [h.size]
  exact its.pos_of_lt _ ((Nat.sub_le ..).trans_lt h.next_lt)

theorem size_le : s.isTableSize ≤ 2 ^ 24 - 1 := by
  rw [h.size]
  exact its.bound _ ((Nat.sub_le ..).trans_lt h.next_lt)

theorem congr_tree {tree : IpcSplayTree IpcEntry} (hv : tree.Valid)
    (hc : tree.contents = s.treeList) : ({ s with isTree := tree } : IpcSpace).Core its free :=
  have hl : ({ s with isTree := tree } : IpcSpace).treeList = s.treeList := hc
  { h with
    tree := hv
    bare := by rw [hl]; exact h.bare
    name_pos := by rw [hl]; exact h.name_pos
    collision := by rw [hl]; exact h.collision
    shadow := by rw [hl]; exact h.shadow
    total := by rw [hl]; exact h.total
    small := by rw [hl]; exact h.small }

theorem not_mem_tree {name : Nat} (hn : s.InSlot free name)
    (v : IpcEntry) : (name, v) ∉ s.treeList := by
  intro hmem
  exact (h.shadow _ hmem hn.1 hn.2.1).2 hn.2.2.2

theorem inSlot_make (hpos : 0 < i) (hi : i < s.isTableSize)
    (hfree : i ∉ free) : s.InSlot free (machPortMake i (s.isTable i).ieBits.gen) := by
  have hle := h.size_le
  have hidx : machPortIndex (machPortMake i (s.isTable i).ieBits.gen) = i :=
    machPortIndex_make (by omega) (h.gen_lt i hi)
  rw [InSlot, hidx, machPortGen_make (by omega) (h.gen_lt i hi)]
  exact ⟨hpos, hi, hfree, rfl⟩

/-- No name of the tree has the index of a free slot. -/
theorem not_occurs_of_free (hi : i ∈ free) : ¬ Occurs s.treeList i := by
  rintro ⟨e, he, rfl⟩
  exact (h.shadow e he (Nat.pos_of_ne_zero (h.chain.ne_zero _ hi)) (h.free_lt _ hi)).1 hi

end Core

/-! ## Lookup -/

/-- Splaying changes nothing but the shape of the tree. -/
theorem treeLookup_eq (htree : s.isTree.Valid) (name : Nat) :
    ∃ tree, tree.Valid ∧ tree.contents = s.treeList ∧ s.treeLookup name =
        ((s.treeList.lookup name).map fun _ => .tree name, { s with isTree := tree }) := by
  obtain ⟨hres, hv, hc⟩ := htree.lookup name
  refine ⟨(ipcSplayTreeLookup s.isTree name).2, hv, hc, ?_⟩
  rw [treeLookup, ← hres]

theorem lookup_tree_cases (htree : s.isTree.Valid) (name : Nat) :
    ((s.treeList.lookup name).map fun _ => EntryRef.tree name) = none ∧
        (∀ v, (name, v) ∉ s.treeList) ∨
      ((s.treeList.lookup name).map fun _ => EntryRef.tree name) = some (.tree name) ∧
        ∃ v, (name, v) ∈ s.treeList := by
  cases hlook : s.treeList.lookup name with
  | none =>
    refine .inl ⟨rfl, fun v hv => ?_⟩
    rw [htree.ascending.lookup_of_mem hv] at hlook
    cases hlook
  | some v => exact .inr ⟨rfl, v, mem_of_lookup hlook⟩

namespace Rep

variable {m : Nat → Option IpcEntry}

variable (h : s.Rep its free m)

include h

theorem congr_tree {tree : IpcSplayTree IpcEntry} (hv : tree.Valid)
    (hc : tree.contents = s.treeList) :
    ({ s with isTree := tree } : IpcSpace).Rep its free m := by
  refine ⟨h.toCore.congr_tree hv hc, fun name v => ?_⟩
  rw [← h.maps name v]
  show _ ∨ (name, v) ∈ tree.contents ↔ _
  rw [hc]
  rfl

variable {name : Nat}

theorem mapped {ref : EntryRef} (href : s.Refers free name ref) : ∃ v, m name = some v := by
  cases ref with
  | table => exact ⟨_, (h.maps name _).mp (.inl ⟨href.2, rfl⟩)⟩
  | tree =>
    obtain ⟨-, v, hv⟩ := href
    exact ⟨v, (h.maps name v).mp (.inr hv)⟩

theorem free_of_type_none (ht : Typed m) {i : Nat} (hpos : 0 < i)
    (hi : i < s.isTableSize) (hnone : (s.isTable i).ieBits.type = machPortTypeNone) :
    i ∈ free := by
  by_contra hfree
  have hle := h.size_le
  have hslot := h.inSlot_make hpos hi hfree
  refine ht _ _ ((h.maps ..).mp (.inl ⟨hslot, rfl⟩)) ?_
  rw [machPortIndex_make (by omega) (h.gen_lt i hi)]
  exact hnone

theorem none_of_absent (hslot : ¬ s.InSlot free name)
    (htree : ∀ v, (name, v) ∉ s.treeList) : m name = none := by
  cases hm : m name with
  | none => rfl
  | some v =>
    rcases (h.maps name v).mpr hm with ⟨hin, -⟩ | hin
    · exact absurd hin hslot
    · exact absurd hin (htree v)

theorem none_of_free (hi : machPortIndex name ∈ free) : m name = none :=
  h.none_of_absent (fun hslot => hslot.2.2.1 hi) fun _ hin => h.not_occurs_of_free hi ⟨_, hin, rfl⟩

/-- `ipc_entry_lookup` finds the entry of every name but one: the name with the index and
the generation number of slot 0 is taken for a free entry. -/
theorem lookup (ht : Typed m) (name : Nat) :
    ∃ r tree, ipcEntryLookup s name = (r, { s with isTree := tree }) ∧ tree.Valid ∧
      tree.contents = s.treeList ∧
      ((r = none ∧ (m name = none ∨ name = 255)) ∨
        ∃ ref, r = some ref ∧ s.Refers free name ref) := by
  have htree : (¬ s.InSlot free name) → ∃ r tree, s.treeLookup name =
      (r, { s with isTree := tree }) ∧ tree.Valid ∧ tree.contents = s.treeList ∧
      ((r = none ∧ (m name = none ∨ name = 255)) ∨
        ∃ ref, r = some ref ∧ s.Refers free name ref) := by
    intro hslot
    obtain ⟨tree, hv, hc, heq⟩ := treeLookup_eq h.tree name
    refine ⟨_, tree, heq, hv, hc, ?_⟩
    rcases lookup_tree_cases h.tree name with ⟨hnone, habs⟩ | ⟨hsome, hpres⟩
    · exact .inl ⟨hnone, .inl (h.none_of_absent hslot habs)⟩
    · exact .inr ⟨.tree name, hsome, rfl, hpres⟩
  by_cases hsize : machPortIndex name < s.isTableSize
  · simp only [ipcEntryLookup, if_pos hsize]
    by_cases hgen : (s.isTable (machPortIndex name)).ieBits.gen = machPortGen name
    · rw [if_neg (not_not.mpr hgen)]
      by_cases htype : (s.isTable (machPortIndex name)).ieBits.type = machPortTypeNone
      · rw [if_pos htype]
        refine ⟨none, s.isTree, rfl, h.tree, rfl, .inl ⟨rfl, ?_⟩⟩
        rcases Nat.eq_zero_or_pos (machPortIndex name) with hzero | hpos
        · right
          rw [hzero, h.head_gen] at hgen
          unfold machPortIndex at hzero
          unfold machPortGen at hgen
          omega
        · exact .inl (h.none_of_free (h.free_of_type_none ht hpos hsize htype))
      · rw [if_neg htype]
        refine ⟨_, s.isTree, rfl, h.tree, rfl, .inr ⟨_, rfl, rfl, ?_, hsize, ?_, hgen⟩⟩
        · refine Nat.pos_of_ne_zero fun hzero => htype ?_
          rw [hzero]
          exact h.head_type
        · intro hfree
          refine htype ?_
          rw [h.free_bits _ hfree]
          rfl
    · rw [if_pos hgen]
      have hslot : ¬ s.InSlot free name := fun hslot => hgen hslot.2.2.2
      by_cases hcol : (s.isTable (machPortIndex name)).ieBits.collision = true
      · rw [if_pos hcol]
        exact htree hslot
      rw [if_neg hcol]
      refine ⟨none, s.isTree, rfl, h.tree, rfl, .inl ⟨rfl, .inl (h.none_of_absent hslot ?_)⟩⟩
      intro v hv
      exact hcol ((h.collision _ hsize).mpr ⟨_, hv, rfl⟩)
  · simp only [ipcEntryLookup, if_neg hsize]
    have hslot : ¬ s.InSlot free name := fun hslot => hsize hslot.2.1
    by_cases htotal : s.isTreeTotal = 0
    · rw [if_pos htotal]
      refine ⟨none, s.isTree, rfl, h.tree, rfl, .inl ⟨rfl, .inl (h.none_of_absent hslot ?_)⟩⟩
      intro v hv
      rw [h.total, List.length_eq_zero_iff] at htotal
      rw [htotal] at hv
      cases hv
    · rw [if_neg htotal]
      exact htree hslot

end Rep

end IpcSpace

end Mach
