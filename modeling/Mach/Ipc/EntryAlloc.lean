import Mach.Ipc.EntryGrow

/-!
# The loops of allocation

`ipc_entry_grow_table` starts over while growing again would save memory,
`ipc_entry_alloc` while there is no free entry, and `ipc_entry_alloc_name` whenever it had
to give up the lock.  Each time round the table has grown or a tree entry has been
allocated, and there are only so many table sizes, so the loops end.
-/

namespace Mach

namespace IpcSpace

variable {its : IpcTableSizes} {m : Nat → Option IpcEntry}

/-- `ipc_entry_grow_table` ends, whatever memory there is, and represents the same map. -/
theorem Rep.growTable (mem : Nat → Bool) (ht : Typed m) :
    ∀ (fuel : Nat) (s : IpcSpace) (free : List Nat), s.Rep its free m →
      its.num ≤ fuel + s.isTableNext →
      ∃ kr s' calls free', ipcEntryGrowTable its mem fuel s = some (kr, s', calls) ∧
        s'.Rep its free' m ∧ s.isTableNext ≤ s'.isTableNext ∧
        (kr = .ok () → s.isTableNext < s'.isTableNext)
  | 0, s, free, h, hfuel => by
    have := h.next_lt
    omega
  | fuel + 1, s, free, h, hfuel => by
    by_cases hmax : its.itsSize (s.isTableNext - 1) = its.itsSize s.isTableNext
    · refine ⟨_, s, [], free, by simp only [ipcEntryGrowTable, if_pos hmax]; rfl, h,
        le_rfl, fun hkr => by cases hkr⟩
    cases hmem : mem s.isTableNext with
    | false =>
      refine ⟨.error .resourceShortage, s, [], free, ?_, h, le_rfl, fun hkr => by cases hkr⟩
      simp [ipcEntryGrowTable, if_neg hmax, hmem]
    | true =>
      have hpos := h.next_pos
      have hlt := h.next_lt
      have hlast : s.isTableNext + 1 < its.num := by
        have hle := its.size_le_succ (i := s.isTableNext - 1) (by omega)
        have hiff := its.size_lt_iff (i := s.isTableNext - 1) (by omega)
        rw [Nat.sub_add_cancel hpos] at hle hiff
        omega
      obtain ⟨s₁, calls, free₁, hround, hrep, hnext⟩ := h.growRound ht hlast
      by_cases hagain : 0 < s₁.isTreeSmall ∧
          (its.itsSize (s.isTableNext + 1) - its.itsSize s.isTableNext) * sizeofIpcEntry <
            s₁.isTreeSmall * sizeofIpcTreeEntry
      · obtain ⟨kr, s₂, calls₂, free₂, hgrow, hrep₂, hle, -⟩ :=
          growTable mem ht fuel s₁ free₁ hrep (by omega)
        refine ⟨kr, s₂, calls ++ calls₂, free₂, ?_, hrep₂, by omega, fun _ => by omega⟩
        simp [ipcEntryGrowTable, if_neg hmax, hmem, hround, if_pos hagain, hgrow]
      · refine ⟨.ok (), s₁, calls, free₁, ?_, hrep, by omega, fun _ => by omega⟩
        simp [ipcEntryGrowTable, if_neg hmax, hmem, hround, if_neg hagain]

/-- `ipc_entry_alloc` ends with a new entry or without memory or room. -/
theorem Rep.alloc (mem : Nat → Bool) (ht : Typed m) :
    ∀ (fuel : Nat) (s : IpcSpace) (free : List Nat), s.Rep its free m →
      its.num ≤ fuel + s.isTableNext →
      ∃ r s' calls free', ipcEntryAlloc its mem fuel s = some (r, s', calls) ∧
        ((∃ kr, r = .error kr ∧ s'.Rep its free' m) ∨
          ∃ name ref, r = .ok (name, ref) ∧ MachPortValid name ∧ 0 < machPortIndex name ∧
            m name = none ∧
            s'.Rep its free' (Function.update m name (some .zero)) ∧ s'.Refers free' name ref)
  | 0, s, free, h, hfuel => by
    have := h.next_lt
    omega
  | fuel + 1, s, free, h, hfuel => by
    rcases h.get with ⟨-, hget⟩ | ⟨name, ref, s', free', hget, hvalid, hpos, hrep, hnone, href⟩
    · obtain ⟨kr, s₁, calls, free₁, hgrow, hrep, -, hlt⟩ :=
        growTable mem ht its.num s free h (by omega)
      cases kr with
      | error kr =>
        refine ⟨.error kr, s₁, calls, free₁, ?_, .inl ⟨kr, rfl, hrep⟩⟩
        simp [ipcEntryAlloc, if_pos h.active, hget, hgrow]
      | ok _ =>
        have hlt := hlt rfl
        obtain ⟨r, s₂, calls₂, free₂, halloc, hres⟩ :=
          alloc mem ht fuel s₁ free₁ hrep (by omega)
        refine ⟨r, s₂, calls ++ calls₂, free₂, ?_, hres⟩
        simp [ipcEntryAlloc, if_pos h.active, hget, hgrow, halloc]
    · refine ⟨_, s', [], free', ?_, .inr ⟨name, ref, rfl, hvalid, hpos, hnone, hrep, href⟩⟩
      simp only [ipcEntryAlloc, if_pos h.active, hget]

/-- What `ipc_entry_alloc_name` may return: the entry there is, a new one, or a failure. -/
def AllocNameSpec (its : IpcTableSizes) (m : Nat → Option IpcEntry) (name : Nat)
    (r : Except KernReturn EntryRef) (s : IpcSpace) (free : List Nat) : Prop :=
  (∃ kr, r = .error kr ∧ s.Rep its free m) ∨
    (∃ ref v, r = .ok ref ∧ m name = some v ∧ s.Rep its free m ∧ s.Refers free name ref) ∨
    ∃ ref, r = .ok ref ∧ m name = none ∧
      s.Rep its free (Function.update m name (some .zero)) ∧ s.Refers free name ref

/-- `ipc_entry_alloc_name` ends with the entry of the name, new if there was none, or
without memory. -/
theorem Rep.allocName (mem : Nat → Bool) (ite : Bool) {name : Nat} (hvalid : MachPortValid name)
    (ht : Typed m) :
    ∀ (fuel : Nat) (treeEntry : Bool) (s : IpcSpace) (free : List Nat), s.Rep its free m →
      its.num + (if treeEntry then 0 else 1) ≤ fuel + s.isTableNext →
      ∃ r s' calls free', ipcEntryAllocName its mem ite name fuel treeEntry s =
          some (r, s', calls) ∧ AllocNameSpec its m name r s' free'
  | 0, treeEntry, s, free, h, hfuel => by
    have := h.next_lt
    omega
  | fuel + 1, treeEntry, s, free, h, hfuel => by
    have hmake := machPortMake_index_gen hvalid.1
    simp only [ipcEntryAllocName, if_neg (not_not.mpr h.active)]
    by_cases hfree : 0 < machPortIndex name ∧ machPortIndex name < s.isTableSize ∧
        (s.isTable (machPortIndex name)).ieBits.type = machPortTypeNone
    · -- The slot is free.
      obtain ⟨s', free', hrip, hrep, hnone, href⟩ :=
        h.ripOut (h.free_of_type_none ht hfree.1 hfree.2.1 hfree.2.2) (machPortGen_lt name)
      rw [hmake] at hrep hnone href
      simp only [if_pos hfree, hrip]
      exact ⟨_, s', _, free', rfl, .inr (.inr ⟨_, rfl, hnone, hrep, href⟩)⟩
    simp only [if_neg hfree]
    have hused (hpos : 0 < machPortIndex name) (hlt : machPortIndex name < s.isTableSize) :
        machPortIndex name ∉ free := fun hf => hfree ⟨hpos, hlt, by rw [h.free_bits _ hf]; rfl⟩
    by_cases hslot : 0 < machPortIndex name ∧ machPortIndex name < s.isTableSize ∧
        (s.isTable (machPortIndex name)).ieBits.gen = machPortGen name
    · -- The slot is in use for this name.
      have hin : s.InSlot free name := ⟨hslot.1, hslot.2.1, hused hslot.1 hslot.2.1, hslot.2.2⟩
      have hm := (h.maps name _).mp (.inl ⟨hin, rfl⟩)
      simp only [if_pos hslot]
      exact ⟨_, s, _, free, rfl, .inr (.inl ⟨_, _, rfl, hm, h, rfl, hin⟩)⟩
    have hnotIn : ¬ s.InSlot free name := fun hin => hslot ⟨hin.1, hin.2.1, hin.2.2.2⟩
    have hlook : ∃ found tree, (if 0 < s.isTreeTotal then s.treeLookup name else (none, s)) =
        (found, { s with isTree := tree }) ∧ tree.Valid ∧ tree.contents = s.treeList ∧
        ((found = none ∧ ∀ v, (name, v) ∉ s.treeList) ∨
          (found = some (.tree name) ∧ ∃ v, (name, v) ∈ s.treeList)) := by
      by_cases htotal : 0 < s.isTreeTotal
      · obtain ⟨tree, hv, hc, heq⟩ := treeLookup_eq h.tree name
        rw [if_pos htotal]
        exact ⟨_, tree, heq, hv, hc, lookup_tree_cases h.tree name⟩
      rw [if_neg htotal]
      refine ⟨none, s.isTree, rfl, h.tree, rfl, .inl ⟨rfl, fun v hv => ?_⟩⟩
      rw [h.total] at htotal
      exact htotal (List.length_pos_of_mem hv)
    obtain ⟨found, tree, hlook, hv, hc, hcases⟩ := hlook
    have hrep := h.congr_tree hv hc
    simp only [if_neg hslot, hlook]
    rcases hcases with ⟨rfl, habs⟩ | ⟨rfl, v, hpres⟩
    · have hnone := h.none_of_absent hnotIn habs
      by_cases hgrow : s.isTableSize ≤ machPortIndex name ∧
          machPortIndex name < its.itsSize s.isTableNext ∧
          (its.itsSize s.isTableNext - s.isTableSize) * sizeofIpcEntry <
            (s.isTreeSmall + 1) * sizeofIpcTreeEntry
      · -- The table grows and the loop starts over.
        obtain ⟨kr, s₁, calls, free₁, hgt, hrep₁, -, hlt⟩ :=
          growTable mem ht its.num { s with isTree := tree } free hrep (by omega)
        simp only [if_pos hgrow, hgt, Option.bind_some]
        cases kr with
        | error kr => exact ⟨_, s₁, calls, free₁, rfl, .inl ⟨kr, rfl, hrep₁⟩⟩
        | ok _ =>
          have hlt : s.isTableNext < s₁.isTableNext := hlt rfl
          obtain ⟨r, s₂, calls₂, free₂, hrec, hspec⟩ :=
            allocName mem ite hvalid ht fuel treeEntry s₁ free₁ hrep₁ (by omega)
          simp only [hrec]
          exact ⟨r, s₂, _, free₂, rfl, hspec⟩
      · simp only [if_neg hgrow]
        cases treeEntry with
        | true =>
          obtain ⟨hrep₁, href⟩ := hrep.insertTree hvalid hnone hused
          exact ⟨_, _, _, free, rfl, .inr (.inr ⟨_, rfl, hnone, hrep₁, href⟩)⟩
        | false =>
          cases ite with
          | true =>
            refine (allocName mem true hvalid ht fuel true { s with isTree := tree } free hrep ?_)
            simp only [Bool.false_eq_true, if_false, if_true] at hfuel ⊢
            omega
          | false => exact ⟨_, _, _, free, rfl, .inl ⟨_, rfl, hrep⟩⟩
    · have hm := (h.maps name v).mp (.inr hpres)
      exact ⟨_, _, _, free, rfl,
        .inr (.inl ⟨_, v, rfl, hm, hrep, rfl, v, by rw [treeList, hc]; exact hpres⟩)⟩

end IpcSpace

end Mach
