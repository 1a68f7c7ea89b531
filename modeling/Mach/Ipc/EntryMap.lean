import Mach.Lib.Simulation
import Mach.Ipc.EntryAlloc

/-!
# A space is a map from names to rights

The runs of a space: any sequence of allocations, deallocations, growth and lookups
starting from `ipc_space_create`, in which every caller gives a new entry a type before the
next operation, and clears the object of an entry before it is deallocated.

`spaceContract` is the map that the callers see.  `space_simulates` says that the operations keep
the representation invariant and never fail to end.  The invariant of every reachable space follows
(`spaceRun_wellFormed`).

There is one name that a lookup can not find.  Slot 0 of the table is the head of the free
list and keeps generation number 255, so a lookup of the name with index 0 and generation
255 looks at slot 0, sees a free entry and never looks in the tree
(`spaceRun_lookup_misses`).  As long as nobody allocates that name, lookups are right
(`spaceRun_lookup`).
-/

namespace Mach

open Function Option

/-! ## Operations and their contract -/

/-- An operation on a space.  `v` is the right that the caller stores in a new entry, or
what it leaves in an entry that is deallocated. -/
inductive SpaceOp where
  | get (v : IpcEntry)
  | alloc (mem : Nat → Bool) (v : IpcEntry)
  | allocName (name : Nat) (mem : Nat → Bool) (ite : Bool) (v : IpcEntry)
  | dealloc (name : Nat) (v : IpcEntry)
  | growTable (mem : Nat → Bool)
  | write (name : Nat) (v : IpcEntry)
  | lookup (name : Nat)

/-- What an operation returns to its caller. -/
inductive SpaceResult where
  | failed (kr : KernReturn)
  | allocated (name : Nat)
  | existing
  | done
  | found (right : Option IpcEntry)
deriving DecidableEq

/-- The entry that a caller holds for an allocated name: the one `ipc_entry_alloc_name`
returns for a name that exists. -/
def IpcSpace.holder (s : IpcSpace) (name : Nat) : EntryRef :=
  if 0 < machPortIndex name ∧ machPortIndex name < s.isTableSize ∧
      (s.isTable (machPortIndex name)).ieBits.type ≠ machPortTypeNone ∧
      (s.isTable (machPortIndex name)).ieBits.gen = machPortGen name then
    .table (machPortIndex name)
  else .tree name

/-- The right in the entry that `ipc_entry_lookup` returns. -/
def lookupRight (s : IpcSpace) (name : Nat) : Option IpcEntry :=
  (ipcEntryLookup s name).1.bind fun ref => (s.deref ref).map IpcEntry.right

/-- One operation.  Each loop has fuel for every size of the table. -/
def spaceStep (its : IpcTableSizes) : Machine SpaceOp SpaceResult IpcSpace
  | .get v, s =>
    match ipcEntryGet s with
    | (.ok (name, ref), s) => some (s.write ref v, .allocated name)
    | (.error kr, s) => some (s, .failed kr)
  | .alloc mem v, s =>
    (ipcEntryAlloc its mem its.num s).map fun
      | (.ok (name, ref), s, _) => (s.write ref v, .allocated name)
      | (.error kr, s, _) => (s, .failed kr)
  | .allocName name mem ite v, s =>
    (ipcEntryAllocName its mem ite name (its.num + 1) false s).bind fun
      | (.ok ref, s, _) => (s.deref ref).map fun e =>
        if e.ieBits.type = machPortTypeNone then (s.write ref v, .allocated name)
        else (s, .existing)
      | (.error kr, s, _) => some (s, .failed kr)
  | .dealloc name v, s =>
    (ipcEntryDealloc its (s.write (s.holder name) v) name (s.holder name)).map fun (s, _) =>
      (s, .done)
  | .growTable mem, s =>
    (ipcEntryGrowTable its mem its.num s).map fun
      | (.ok _, s, _) => (s, .done)
      | (.error kr, s, _) => (s, .failed kr)
  | .write name v, s => some (s.write (s.holder name) v, .done)
  | .lookup name, s => some ((ipcEntryLookup s name).2, .found (lookupRight s name))

/-- The map that the callers see. -/
def spaceContract : Contract SpaceOp SpaceResult (Nat → Option IpcEntry) where
  legal
    | .get v, _ => v.ieBits.type ≠ machPortTypeNone
    | .alloc _ v, _ => v.ieBits.type ≠ machPortTypeNone
    | .allocName name _ _ v, _ => MachPortValid name ∧ v.ieBits.type ≠ machPortTypeNone
    | .dealloc name v, m => m name ≠ none ∧ v.ieObject = ioNull
    | .growTable _, _ => True
    | .write name v, m => m name ≠ none ∧ v.ieBits.type ≠ machPortTypeNone
    | .lookup _, _ => True
  ok
    | .get _, m, r =>
      (∃ kr, r = .failed kr) ∨ ∃ name, r = .allocated name ∧ MachPortValid name ∧
        0 < machPortIndex name ∧ m name = none
    | .alloc _ _, m, r =>
      (∃ kr, r = .failed kr) ∨ ∃ name, r = .allocated name ∧ MachPortValid name ∧
        0 < machPortIndex name ∧ m name = none
    | .allocName name _ _ _, m, r =>
      (∃ kr, r = .failed kr) ∨ (r = .existing ∧ m name ≠ none) ∨
        (r = .allocated name ∧ m name = none)
    | .dealloc _ _, _, r => r = .done
    | .growTable _, _, r => r = .done ∨ ∃ kr, r = .failed kr
    | .write _ _, _, r => r = .done
    | .lookup name, m, r => ∃ e, r = .found e ∧ (name ≠ 255 → e = m name)
  next
    | .get v, m, .allocated name => update m name (some v.right)
    | .alloc _ v, m, .allocated name => update m name (some v.right)
    | .allocName _ _ _ v, m, .allocated name => update m name (some v.right)
    | .dealloc name _, m, _ => update m name none
    | .write name v, m, _ => update m name (some v.right)
    | _, m, _ => m

/-- A run starts with a space that `ipc_space_create` has made. -/
def spaceInitial (its : IpcTableSizes) (s : IpcSpace) (m : Nat → Option IpcEntry) : Prop :=
  ∃ initial, initial + 1 < its.num ∧ s = ipcSpaceCreate its initial ∧ m = fun _ => none

/-! ## The simulation -/

namespace IpcSpace

variable {its : IpcTableSizes} {s : IpcSpace} {free : List Nat} {m : Nat → Option IpcEntry}

/-- The space has the names of a map. -/
def Represents (its : IpcTableSizes) (s : IpcSpace) (m : Nat → Option IpcEntry) : Prop :=
  Typed m ∧ ∃ free, s.Rep its free m

theorem typed_update (h : Typed m) (name : Nat) {v : IpcEntry}
    (hv : v.ieBits.type ≠ machPortTypeNone) : Typed (update m name (some v)) := by
  intro n w hw
  by_cases hn : n = name
  · rw [hn, update_self] at hw
    cases hw
    exact hv
  · rw [update_of_ne hn] at hw
    exact h n w hw

theorem typed_erase (h : Typed m) (name : Nat) : Typed (update m name none) := by
  intro n w hw
  by_cases hn : n = name
  · rw [hn, update_self] at hw
    cases hw
  · rw [update_of_ne hn] at hw
    exact h n w hw

variable {name : Nat} {ref : EntryRef}

section

variable (h : s.Rep its free m)
include h

theorem Rep.deref
    (href : s.Refers free name ref) : ∃ e, s.deref ref = some e ∧ m name = some e.right := by
  cases ref with
  | table =>
    obtain ⟨rfl, hslot⟩ := href
    exact ⟨_, rfl, (h.maps name _).mp (.inl ⟨hslot, rfl⟩)⟩
  | tree tname =>
    obtain ⟨rfl, v, hv⟩ := href
    refine ⟨v, h.tree.ascending.lookup_of_mem hv, ?_⟩
    rw [IpcEntry.right_of_bare (h.bare _ hv)]
    exact (h.maps tname v).mp (.inr hv)

theorem Rep.deref_write (href : s.Refers free name ref) (v : IpcEntry) :
    ∃ e, (s.write ref v).deref ref = some e ∧ e.right = v.right := by
  obtain ⟨hwrite, href'⟩ := h.write href v
  obtain ⟨e, he, hm⟩ := hwrite.deref href'
  rw [update_self] at hm
  exact ⟨e, he, (some.inj hm).symm⟩

theorem Rep.object_write (href : s.Refers free name ref) (v : IpcEntry) {e : IpcEntry}
    (he : (s.write ref v).deref ref = some e) : e.ieObject = v.ieObject := by
  obtain ⟨e', he', hright⟩ := h.deref_write href v
  obtain rfl : e = e' := some.inj (he.symm.trans he')
  have hobject : e.right.ieObject = v.right.ieObject := congrArg IpcEntry.ieObject hright
  exact hobject

theorem Rep.gen_lt_of_deref
    (href : s.Refers free name ref) {e : IpcEntry} (he : s.deref ref = some e) :
    e.ieBits.gen < 2 ^ 8 := by
  cases ref with
  | table =>
    obtain ⟨rfl, hslot⟩ := href
    cases he
    exact h.gen_lt _ hslot.2.1
  | tree =>
    have hmem := mem_of_lookup he
    rw [(h.bare _ hmem).2]
    decide

theorem Rep.holder (ht : Typed m) (hm : m name ≠ none) : s.Refers free name (s.holder name) := by
  obtain ⟨v, hv⟩ := ne_none_iff_exists'.mp hm
  unfold IpcSpace.holder
  rcases (h.maps name v).mpr hv with ⟨hslot, hr⟩ | hin
  · have htype : (s.isTable (machPortIndex name)).ieBits.type ≠ machPortTypeNone := by
      rw [← IpcEntry.right_type, hr]
      exact ht name v hv
    rw [if_pos ⟨hslot.1, hslot.2.1, htype, hslot.2.2.2⟩]
    exact ⟨rfl, hslot⟩
  · rw [if_neg]
    · exact ⟨rfl, v, hin⟩
    · rintro ⟨hpos, hlt, -, hgen⟩
      exact (h.shadow _ hin hpos hlt).2 hgen

/-- What a lookup returns is the right of the name, unless it is the name of slot 0. -/
theorem Rep.lookupRight_eq (ht : Typed m)
    (hname : name = 255 → m name = none) : lookupRight s name = m name := by
  obtain ⟨r, tree, heq, -, -, hr⟩ := h.lookup ht name
  rw [lookupRight, heq]
  rcases hr with ⟨rfl, hnone⟩ | ⟨ref, rfl, href⟩
  · rcases hnone with hnone | hnone
    · rw [hnone]
      rfl
    · rw [hname hnone]
      rfl
  · obtain ⟨e, he, hm⟩ := h.deref href
    simp only [bind_some]
    rw [he, hm]
    rfl

end

theorem chain_range' (last : Nat) : ∀ (n k : Nat), k + n = last + 1 → 0 < k →
      Chain (fun i => if i = last then 0 else i + 1) (if k = last + 1 then 0 else k)
        (List.range' k n)
  | 0, k, hk, _ => by
    rw [if_pos (by omega)]
    exact .nil
  | n + 1, k, hk, hpos => by
    rw [if_neg (by omega), List.range'_succ]
    refine .cons (by omega) ?_
    have ih := chain_range' last n (k + 1) (by omega) (by omega)
    by_cases hlast : k = last
    · simp only [hlast] at ih ⊢
      exact ih
    · rw [if_neg (by omega)] at ih
      simp only [if_neg hlast]
      exact ih

theorem represents_create {initial : Nat} (hinit : initial + 1 < its.num) :
    (ipcSpaceCreate its initial).Represents its fun _ => none := by
  have hnil : (ipcSpaceCreate its initial).treeList = [] := rfl
  refine ⟨fun _ _ hm => by simp at hm, .range' 1 (its.itsSize initial - 1), ?_⟩
  have hmem : ∀ i, i ∈ List.range' 1 (its.itsSize initial - 1) ↔
      0 < i ∧ i < its.itsSize initial := by
    intro i
    rw [List.mem_range'_1]
    omega
  constructor
  · refine ⟨rfl, Nat.succ_pos _, hinit, rfl, IpcSplayTree.valid_nil rfl, by simp [hnil],
      by simp [hnil], ?_, fun i hi => ((hmem i).mp hi).2, fun _ _ => rfl, fun _ _ => rfl, rfl, rfl,
      fun i _ => show 255 < 256 by omega, fun i _ => ?_, by simp [hnil], rfl, rfl⟩
    · have hch := chain_range' (its.itsSize initial - 1) (its.itsSize initial - 1) 1 (by omega)
        (by omega)
      show Chain _ (if 0 = its.itsSize initial - 1 then 0 else 0 + 1) _
      by_cases h1 : its.itsSize initial - 1 = 0
      · rw [h1] at hch ⊢
        exact .nil
      · rw [if_neg (by omega)] at hch
        rw [if_neg (by omega)]
        exact hch
    · refine iff_of_false (show ¬ false = true by decide) ?_
      rintro ⟨e, he, -⟩
      cases he
  · intro n v
    refine iff_of_false ?_ (by simp)
    rintro (⟨⟨h0, h1, hf, -⟩, -⟩ | hin)
    · exact hf ((hmem _).mpr ⟨h0, h1⟩)
    · cases hin

end IpcSpace

open IpcSpace

/-- Every legal operation ends, with a right result, in a space that represents the new
map. -/
theorem space_simulates (its : IpcTableSizes) :
    spaceContract.Simulates (spaceStep its) (IpcSpace.Represents its) := by
  rintro s m op ⟨ht, free, h⟩ hlegal
  cases op with
  | get v =>
    rcases h.get with ⟨-, hget⟩ | ⟨name, ref, s', free', hget, hvalid, hpos, hrep, hnone, href⟩
    · refine ⟨s, .failed .noSpace, ?_, .inl ⟨_, rfl⟩, ht, free, h⟩
      simp only [spaceStep, hget]
    obtain ⟨hrep', -⟩ := hrep.write href v
    rw [update_idem] at hrep'
    refine ⟨_, .allocated name, ?_, .inr ⟨name, rfl, hvalid, hpos, hnone⟩,
      typed_update ht name hlegal, free', hrep'⟩
    simp only [spaceStep, hget]
  | alloc mem v =>
    obtain ⟨r, s', calls, free', heq, hres⟩ := Rep.alloc mem ht its.num s free h (by omega)
    rcases hres with ⟨kr, rfl, hrep⟩ | ⟨name, ref, rfl, hvalid, hpos, hnone, hrep, href⟩
    · refine ⟨s', .failed kr, ?_, .inl ⟨kr, rfl⟩, ht, free', hrep⟩
      simp [spaceStep, heq]
    obtain ⟨hrep', -⟩ := hrep.write href v
    rw [update_idem] at hrep'
    refine ⟨_, .allocated name, ?_, .inr ⟨name, rfl, hvalid, hpos, hnone⟩,
      typed_update ht name hlegal, free', hrep'⟩
    simp [spaceStep, heq]
  | allocName name mem ite v =>
    obtain ⟨hvalid, htype⟩ := hlegal
    obtain ⟨r, s', calls, free', heq, hres⟩ :=
      Rep.allocName mem ite hvalid ht (its.num + 1) false s free h (by simp)
    rcases hres with ⟨kr, rfl, hrep⟩ | ⟨ref, w, rfl, hm, hrep, href⟩ |
      ⟨ref, rfl, hnone, hrep, href⟩
    · refine ⟨s', .failed kr, ?_, .inl ⟨kr, rfl⟩, ht, free', hrep⟩
      simp [spaceStep, heq]
    · obtain ⟨e, he, hme⟩ := hrep.deref href
      have hetype : e.ieBits.type ≠ machPortTypeNone := ht name e.right hme
      refine ⟨s', .existing, ?_, .inr (.inl ⟨rfl, by rw [hm]; simp⟩), ht, free', hrep⟩
      simp [spaceStep, heq, he, if_neg hetype]
    · obtain ⟨e, he, hme⟩ := hrep.deref href
      have hetype : e.ieBits.type = machPortTypeNone := by
        rw [update_self, some.injEq] at hme
        rw [← IpcEntry.right_type, ← hme]
        rfl
      obtain ⟨hrep', -⟩ := hrep.write href v
      rw [update_idem] at hrep'
      refine ⟨_, .allocated name, ?_, .inr (.inr ⟨rfl, hnone⟩),
        typed_update ht name htype, free', hrep'⟩
      simp [spaceStep, heq, he, if_pos hetype]
  | dealloc name v =>
    obtain ⟨hm, hobject⟩ := hlegal
    have hholder := h.holder ht hm
    obtain ⟨hrep, href⟩ := h.write hholder v
    obtain ⟨s', free', heq, hrep', -⟩ := hrep.dealloc href fun e he =>
      (h.object_write hholder v he).trans hobject
    rw [update_idem] at hrep'
    refine ⟨s', .done, ?_, rfl, typed_erase ht name, free', hrep'⟩
    simp [spaceStep, heq]
  | growTable mem =>
    obtain ⟨kr, s', calls, free', heq, hrep, -⟩ := Rep.growTable mem ht its.num s free h (by omega)
    cases kr with
    | ok _ =>
      refine ⟨s', .done, ?_, .inl rfl, ht, free', hrep⟩
      simp [spaceStep, heq]
    | error kr =>
      refine ⟨s', .failed kr, ?_, .inr ⟨kr, rfl⟩, ht, free', hrep⟩
      simp [spaceStep, heq]
  | write name v =>
    obtain ⟨hm, htype⟩ := hlegal
    obtain ⟨hrep, -⟩ := h.write (h.holder ht hm) v
    exact ⟨_, .done, rfl, rfl, typed_update ht name htype, free, hrep⟩
  | lookup name =>
    obtain ⟨r, tree, heq, hv, hc, -⟩ := h.lookup ht name
    refine ⟨_, _, rfl, ⟨_, rfl, fun hname => ?_⟩, ht, free, ?_⟩
    · exact h.lookupRight_eq ht fun h255 => absurd h255 hname
    · show (ipcEntryLookup s name).2.Rep its free m
      rw [heq]
      exact h.congr_tree hv hc

/-! ## Runs -/

variable {its : IpcTableSizes} {s : IpcSpace} {m : Nat → Option IpcEntry}

/-- The representation invariant of a space. -/
structure IpcSpace.WellFormed (its : IpcTableSizes) (s : IpcSpace) : Prop where
  /-- The free list starts at slot 0, ends in 0, and visits each slot without a right
  once.  These have a generation number and nothing else. -/
  freeList : ∃ l, Chain (fun i => (s.isTable i).ieNext) (s.isTable 0).ieNext l ∧ l.Nodup ∧
    (∀ i, i ∈ l ↔ 1 ≤ i ∧ i < s.isTableSize ∧
      (s.isTable i).ieBits.type = machPortTypeNone) ∧
    ∀ i ∈ l, (s.isTable i).ieObject = ioNull ∧
      (s.isTable i).ieBits = .ofGen (s.isTable i).ieBits.gen
  /-- A slot has its collision bit set iff the tree holds a name with its index. -/
  collision : ∀ i, i < s.isTableSize →
    ((s.isTable i).ieBits.collision = true ↔ Occurs s.treeList i)
  /-- A name with a slot is in the tree only while the slot is in use under a different
  generation. -/
  shadow : ∀ e ∈ s.treeList, 1 ≤ machPortIndex e.1 → machPortIndex e.1 < s.isTableSize →
    (s.isTable (machPortIndex e.1)).ieBits.type ≠ machPortTypeNone ∧
      (s.isTable (machPortIndex e.1)).ieBits.gen ≠ machPortGen e.1
  /-- `is_tree_total` is the number of names in the tree. -/
  total : s.isTreeTotal = (s.treeList.map Prod.fst).toFinset.card
  /-- `is_tree_small` is the number of indices that the next size of the table would
  add slots for. -/
  small : s.isTreeSmall =
    (indicesIn s.treeList s.isTableSize (its.itsSize s.isTableNext)).card

theorem IpcSpace.Represents.wellFormed (h : s.Represents its m) : s.WellFormed its := by
  obtain ⟨ht, free, h⟩ := h
  have hfree : ∀ i, i ∈ free → (s.isTable i).ieBits.type = machPortTypeNone := by
    intro i hi
    rw [h.free_bits i hi]
    rfl
  constructor
  · refine ⟨free, h.chain, h.chain.nodup, fun i => ?_, fun i hi => ?_⟩
    · constructor
      · intro hi
        exact ⟨Nat.pos_of_ne_zero (h.chain.ne_zero i hi), h.free_lt i hi, hfree i hi⟩
      · rintro ⟨hpos, hlt, htype⟩
        exact h.free_of_type_none ht hpos hlt htype
    · exact ⟨h.free_object i hi, h.free_bits i hi⟩
  · exact h.collision
  · intro e he hpos hlt
    obtain ⟨hnot, hgen⟩ := h.shadow e he hpos hlt
    exact ⟨fun htype => hnot (h.free_of_type_none ht hpos hlt htype), hgen⟩
  · have hnodup : (s.treeList.map Prod.fst).Nodup := by
      rw [List.Nodup, List.pairwise_map]
      exact h.tree.ascending.imp fun hab => hab.ne
    rw [List.toFinset_card_of_nodup hnodup, List.length_map]
    exact h.total
  · exact h.small

/-- Every reachable space satisfies the representation invariant. -/
theorem spaceRun_wellFormed {its : IpcTableSizes} {s : IpcSpace} {m : Nat → Option IpcEntry}
    (hrun : spaceContract.Run (spaceStep its) (spaceInitial its) s m) : s.WellFormed its := by
  refine ((space_simulates its).run ?_ hrun).wellFormed
  rintro s₀ m₀ ⟨initial, hinit, rfl, rfl⟩
  exact represents_create hinit

/-- A dead name. -/
def oneDeadName : IpcEntry :=
  ⟨⟨1, ⟨false, false, false, false, true⟩, false, false, false, 0⟩, ioNull, 0⟩

/-- A space with one name, 256. -/
def oneEntrySpace (e : IpcEntry) : IpcSpace :=
  (ipcEntryGet (ipcSpaceCreate ipcTableEntries 0)).2.write (.table 1) e

theorem oneEntrySpace_rep (e : IpcEntry) : ∃ free, (oneEntrySpace e).Rep ipcTableEntries free
    (update (fun _ => none) 256 (some e.right)) ∧ (oneEntrySpace e).Refers free 256 (.table 1) := by
  obtain ⟨-, free, hrep⟩ :=
    (represents_create (by decide) : (ipcSpaceCreate ipcTableEntries 0).Represents ..)
  have hget₁ : (ipcEntryGet (ipcSpaceCreate ipcTableEntries 0)).1.toOption =
      some (256, .table 1) := by decide +kernel
  rcases hrep.get with ⟨-, hget⟩ | ⟨name, ref, s', free', hget, -, -, hrep', -, href⟩
  · rw [hget] at hget₁
    cases hget₁
  rw [hget] at hget₁
  cases hget₁
  obtain ⟨hwrite, href'⟩ := hrep'.write href e
  rw [update_idem] at hwrite
  rw [oneEntrySpace, hget]
  exact ⟨free', hwrite, href'⟩

theorem oneEntrySpace_represents {e : IpcEntry} (htype : e.ieBits.type ≠ machPortTypeNone) :
    (oneEntrySpace e).Represents ipcTableEntries (update (fun _ => none) 256 (some e.right)) := by
  obtain ⟨free, hrep, -⟩ := oneEntrySpace_rep e
  have hempty : Typed fun _ => none := nofun
  exact ⟨typed_update hempty 256 htype, free, hrep⟩

theorem run_create (C : Contract SpaceOp SpaceResult (Nat → Option IpcEntry)) :
    C.Run (spaceStep ipcTableEntries) (spaceInitial ipcTableEntries)
      (ipcSpaceCreate ipcTableEntries 0) fun _ => none :=
  .start ⟨0, by decide, rfl, rfl⟩

/-- In a new space, a name beyond the table goes to the splay tree. -/
theorem spaceRun_wellFormed_tree :
    ∃ s, spaceStep ipcTableEntries (.allocName 1280000 (fun _ => true) true oneDeadName)
        (ipcSpaceCreate ipcTableEntries 0) = some (s, .allocated 1280000) ∧ s.isTreeTotal = 1 ∧
      s.WellFormed ipcTableEntries := by
  have hres : (spaceStep ipcTableEntries (.allocName 1280000 (fun _ => true) true oneDeadName)
      (ipcSpaceCreate ipcTableEntries 0)).map (fun p => (p.2, p.1.isTreeTotal)) =
        some (.allocated 1280000, 1) := by
    decide +kernel
  obtain ⟨⟨s, r⟩, hs, hr⟩ := map_eq_some_iff.mp hres
  obtain ⟨rfl, htotal⟩ := Prod.mk.inj hr
  have hlegal : spaceContract.legal (.allocName 1280000 (fun _ => true) true oneDeadName)
      fun _ => none := ⟨by decide, by decide⟩
  exact ⟨s, hs, htotal, spaceRun_wellFormed ((run_create _).step hlegal hs)⟩

/-! ## The name of slot 0 -/

/-- The operation does not ask for the name with the index and the generation number of
slot 0. -/
def SpaceOp.AvoidsHead : SpaceOp → Prop
  | .allocName name _ _ _ => name ≠ 255
  | _ => True

/-- The operation allocated, deallocated or stored the right of the name. -/
def SpaceOp.Touches : SpaceOp → SpaceResult → Nat → Prop
  | .get _, r, n => r = .allocated n
  | .alloc _ _, r, n => r = .allocated n
  | .allocName _ _ _ _, r, n => r = .allocated n
  | .dealloc name _, _, n => n = name
  | .write name _, _, n => n = name
  | _, _, _ => False

/-- The contract for callers that avoid that name. -/
def headFreeContract : Contract SpaceOp SpaceResult (Nat → Option IpcEntry) :=
  { spaceContract with legal := fun op m => spaceContract.legal op m ∧ op.AvoidsHead }

variable {op : SpaceOp} {r : SpaceResult}

theorem next_of_not_touches
    {n : Nat} (h : ¬ op.Touches r n) : spaceContract.next op m r n = m n := by
  cases op with
  | get v | alloc mem v | allocName name mem ite v =>
    cases r with
    | allocated =>
      refine update_of_ne ?_ ..
      rintro rfl
      exact h rfl
    | _ => rfl
  | dealloc name v | write name => exact update_of_ne h ..
  | growTable | lookup => rfl

theorem not_touches_head
    (hlegal : headFreeContract.legal op m) (hok : spaceContract.ok op m r) (hm : m 255 = none) :
    ¬ op.Touches r 255 := by
  obtain ⟨hlegal, hhead⟩ := hlegal
  have hidx : machPortIndex 255 = 0 := by decide
  cases op with
  | get v | alloc mem v =>
    rintro rfl
    rcases hok with ⟨kr, ⟨⟩⟩ | ⟨name, ⟨⟩, -, hpos, -⟩
    omega
  | allocName name mem ite v =>
    rintro rfl
    rcases hok with ⟨kr, ⟨⟩⟩ | ⟨⟨⟩, -⟩ | ⟨⟨⟩, -⟩
    exact hhead rfl
  | dealloc name v | write name =>
    rintro rfl
    exact hlegal.1 hm
  | growTable | lookup => exact id

theorem headFree_simulates (its : IpcTableSizes) : headFreeContract.Simulates (spaceStep its)
      fun s m => s.Represents its m ∧ m 255 = none := by
  rintro s m op ⟨hrep, hm⟩ hlegal
  obtain ⟨s', r, hstep, hok, hrep'⟩ := space_simulates its s m op hrep hlegal.1
  refine ⟨s', r, hstep, hok, hrep', ?_⟩
  exact (next_of_not_touches (not_touches_head hlegal hok hm)).trans hm

/-- As long as nobody asks for the name of slot 0, a lookup finds exactly the allocated
names, with the rights that were stored in their entries; no operation changes the lookup
of a name that it does not touch, and growing the table changes none. -/
theorem spaceRun_lookup {its : IpcTableSizes} {s : IpcSpace} {m : Nat → Option IpcEntry}
    (hrun : headFreeContract.Run (spaceStep its) (spaceInitial its) s m) :
    (∀ n, ((ipcEntryLookup s n).1 = none ↔ m n = none) ∧ lookupRight s n = m n) ∧
      ∀ op, headFreeContract.legal op m →
        ∃ s' r, spaceStep its op s = some (s', r) ∧ spaceContract.ok op m r ∧
          (∀ n, lookupRight s' n = spaceContract.next op m r n) ∧
          ∀ n, ¬ op.Touches r n → lookupRight s' n = lookupRight s n := by
  have hinv : s.Represents its m ∧ m 255 = none := by
    refine (headFree_simulates its).run ?_ hrun
    rintro s₀ m₀ ⟨initial, hinit, rfl, rfl⟩
    exact ⟨represents_create hinit, rfl⟩
  have hlook : ∀ {s : IpcSpace} {m : Nat → Option IpcEntry}, s.Represents its m ∧ m 255 = none →
      ∀ n, lookupRight s n = m n := by
    rintro s m ⟨⟨ht, free, h⟩, hm⟩ n
    exact h.lookupRight_eq ht fun hn => hn ▸ hm
  refine ⟨fun n => ⟨?_, hlook hinv n⟩, fun op hlegal => ?_⟩
  · obtain ⟨⟨ht, free, h⟩, hm⟩ := hinv
    obtain ⟨r, tree, heq, -, -, hr⟩ := h.lookup ht n
    rw [heq]
    rcases hr with ⟨rfl, hnone | rfl⟩ | ⟨ref, rfl, href⟩
    · exact iff_of_true rfl hnone
    · exact iff_of_true rfl hm
    · obtain ⟨v, hv⟩ := h.mapped href
      exact iff_of_false (by simp) (by rw [hv]; simp)
  · obtain ⟨s', r, hstep, hok, hinv'⟩ := headFree_simulates its s m op hinv hlegal
    refine ⟨s', r, hstep, hok, hlook hinv', fun n hn => ?_⟩
    rw [hlook hinv', hlook hinv]
    exact next_of_not_touches hn

/-- The first entry of a new space is found. -/
theorem spaceRun_lookup_get :
    ∃ s, spaceStep ipcTableEntries (.get oneDeadName) (ipcSpaceCreate ipcTableEntries 0) =
      some (s, .allocated 256) ∧ lookupRight s 256 = some oneDeadName := by
  have hres : (spaceStep ipcTableEntries (.get oneDeadName)
      (ipcSpaceCreate ipcTableEntries 0)).map Prod.snd = some (.allocated 256) := by
    decide +kernel
  obtain ⟨⟨s, r⟩, hs, hr⟩ := map_eq_some_iff.mp hres
  cases hr
  have hlegal : headFreeContract.legal (.get oneDeadName) fun _ => none :=
    ⟨show oneDeadName.ieBits.type ≠ machPortTypeNone by decide, trivial⟩
  exact ⟨s, hs, ((spaceRun_lookup ((run_create _).step hlegal hs)).1 256).2⟩

/-- In a new space the name 255 can be allocated and is not found. -/
theorem spaceRun_lookup_misses :
    ∃ s m, spaceContract.Run (spaceStep ipcTableEntries) (spaceInitial ipcTableEntries) s m ∧
      MachPortValid 255 ∧ m 255 = some oneDeadName ∧ (ipcEntryLookup s 255).1 = none := by
  have hres : (spaceStep ipcTableEntries (.allocName 255 (fun _ => true) true oneDeadName)
      (ipcSpaceCreate ipcTableEntries 0)).map
        (fun p => (p.2, (ipcEntryLookup p.1 255).1)) = some (.allocated 255, none) := by
    decide +kernel
  obtain ⟨⟨s, r⟩, hs, hr⟩ := map_eq_some_iff.mp hres
  simp only [Prod.mk.injEq] at hr
  obtain ⟨rfl, hnone⟩ := hr
  have hvalid : MachPortValid 255 := by decide
  have hlegal : spaceContract.legal (.allocName 255 (fun _ => true) true oneDeadName)
      fun _ => none := ⟨hvalid, by decide⟩
  exact ⟨s, _, (run_create _).step hlegal hs, hvalid, rfl, hnone⟩

end Mach
