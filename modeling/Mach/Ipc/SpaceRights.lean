import Mach.Lib.Weight
import Mach.Ipc.EntryMap

/-!
# The rights of a space

The entries of a space with a right in them, as `ipc_space_destroy` visits them: first the
slots of the table, then the tree.  In a space that represents a map they are the entries
of the map that have a type (`IpcSpace.Rep.mem_rights`), so the number of rights of a kind
changes with the map (`IpcSpace.Rep.weight_rights`).

A caller may hold pointers to two entries while it deallocates one of them.  The other
pointer stays good (`IpcSpace.Rep.refers_dealloc`) unless its entry is the one that moves
from the tree into the slot.
-/

namespace Mach

open Function

namespace IpcSpace

/-- The names in the table. -/
def tableRights (s : IpcSpace) : List (Nat × IpcEntry) :=
  (List.range s.isTableSize).filterMap fun i =>
    if (s.isTable i).ieBits.type = machPortTypeNone then none
    else some (machPortMake i (s.isTable i).ieBits.gen, (s.isTable i).right)

/-- The names of a space. -/
def rights (s : IpcSpace) : List (Nat × IpcEntry) :=
  s.tableRights ++ s.treeList.filter fun e => e.2.ieBits.type ≠ machPortTypeNone

variable {its : IpcTableSizes} {s s' : IpcSpace} {free free' : List Nat}
  {m m' : Nat → Option IpcEntry}

namespace Core

variable (h : s.Core its free) {name : Nat}

include h

theorem inSlot_of_type {i : Nat} (hi : i < s.isTableSize)
    (htype : (s.isTable i).ieBits.type ≠ machPortTypeNone) :
    s.InSlot free (machPortMake i (s.isTable i).ieBits.gen) := by
  refine h.inSlot_make (Nat.pos_of_ne_zero ?_) hi fun hfree => ?_
  · rintro rfl
    exact htype h.head_type
  · rw [h.free_bits i hfree] at htype
    exact htype rfl

theorem mem_tableRights {v : IpcEntry} : (name, v) ∈ s.tableRights ↔ s.InSlot free name ∧
      (s.isTable (machPortIndex name)).right = v ∧ v.ieBits.type ≠ machPortTypeNone := by
  have hle := h.size_le
  simp only [tableRights, List.mem_filterMap, List.mem_range]
  constructor
  · rintro ⟨i, hi, heq⟩
    split at heq
    · cases heq
    rename_i htype
    cases heq
    have hidx : machPortIndex (machPortMake i (s.isTable i).ieBits.gen) = i :=
      machPortIndex_make (by omega) (h.gen_lt i hi)
    exact ⟨h.inSlot_of_type hi htype, by rw [hidx], htype⟩
  · rintro ⟨hslot, rfl, htype⟩
    refine ⟨machPortIndex name, hslot.2.1, ?_⟩
    rw [IpcEntry.right_type] at htype
    have hle := h.size_le
    have hlt := hslot.2.1
    rw [if_neg htype, hslot.2.2.2, machPortMake_index_gen]
    unfold machPortIndex at hlt
    omega

theorem keyed_tableRights : Keyed s.tableRights := by
  have hle := h.size_le
  have hidx : ∀ i ∈ List.range s.isTableSize, ∀ e,
      (if (s.isTable i).ieBits.type = machPortTypeNone then none
        else some (machPortMake i (s.isTable i).ieBits.gen, (s.isTable i).right)) = some e →
      machPortIndex e.1 = i := by
    intro i hi e he
    rw [List.mem_range] at hi
    split at he
    · cases he
    · cases he
      exact machPortIndex_make (by omega) (h.gen_lt i hi)
  rw [Keyed, tableRights, List.Nodup, List.pairwise_map, List.pairwise_filterMap]
  refine .imp_of_mem ?_ List.nodup_range
  intro i j hi hj hij e he e' he' heq
  refine hij ?_
  rw [← hidx i hi e he, ← hidx j hj e' he', heq]

theorem bare_rights {e : Nat × IpcEntry} (he : e ∈ s.rights) : e.2.Bare := by
  rcases List.mem_append.mp he with he | he
  · rw [(h.mem_tableRights.mp he).2.1.symm]
    exact IpcEntry.right_bare _
  · exact h.bare e (List.mem_filter.mp he).1

theorem keyed_rights : Keyed s.rights := by
  have htree : Keyed s.treeList := by
    rw [Keyed, List.Nodup, List.pairwise_map]
    exact h.tree.ascending.imp fun hab => hab.ne
  refine h.keyed_tableRights.append (htree.filter _) ?_
  rintro ⟨n, v⟩ he ⟨n', v'⟩ he' rfl
  exact h.not_mem_tree (h.mem_tableRights.mp he).1 v' (List.mem_filter.mp he').1

end Core

/-- Storing a right in an entry does not change which name would move into its slot. -/
theorem isTable_write_self (s : IpcSpace) (index : Nat) (v : IpcEntry) :
    (s.write (.table index) v).isTable index = (s.isTable index).withRight v :=
  update_self ..

theorem moved_write (s : IpcSpace) (ref : EntryRef) (v : IpcEntry) :
    (s.write ref v).moved ref = s.moved ref := by
  cases ref with
  | table =>
    rw [moved, moved, isTable_write_self]
    rfl
  | tree => rfl

namespace Rep

theorem map_unique (h : s.Rep its free m) (h' : s.Rep its free' m') : m = m' := by
  obtain rfl := h.chain.unique h'.chain
  funext name
  exact Option.ext fun v => (h.maps name v).symm.trans (h'.maps name v)

variable {name : Nat} {ref : EntryRef}

theorem mem_rights (h : s.Rep its free m) {v : IpcEntry} :
    (name, v) ∈ s.rights ↔ m name = some v ∧ v.ieBits.type ≠ machPortTypeNone := by
  rw [rights, List.mem_append, h.mem_tableRights, List.mem_filter, ← h.maps, Maps,
    decide_eq_true_eq]
  constructor
  · rintro (⟨hslot, heq, htype⟩ | ⟨hin, htype⟩)
    · exact ⟨.inl ⟨hslot, heq⟩, htype⟩
    · exact ⟨.inr hin, htype⟩
  · rintro ⟨⟨hslot, heq⟩ | hin, htype⟩
    · exact .inl ⟨hslot, heq, htype⟩
    · exact .inr ⟨hin, htype⟩

theorem weight_rights {c : IpcEntry → Nat}
    (hc : ∀ v, v.ieBits.type = machPortTypeNone → c v = 0) (h : s.Rep its free m)
    {o : Option IpcEntry} (h' : s'.Rep its free' (update m name o)) :
    weight c s'.rights + (m name).elim 0 c = weight c s.rights + o.elim 0 c := by
  have hfilter : ∀ o : Option IpcEntry,
      (o.filter fun v => v.ieBits.type ≠ machPortTypeNone).elim 0 c = o.elim 0 c := by
    rintro (_ | v)
    · rfl
    · by_cases htype : v.ieBits.type = machPortTypeNone
      · simp [Option.filter, htype, hc v htype]
      · simp [Option.filter, htype]
  rw [← hfilter (m name), ← hfilter o]
  refine weight_update h.keyed_rights h'.keyed_rights ?_ ?_ ?_ (k := name)
  · intro v
    rw [h.mem_rights]
    simp
  · intro v
    rw [h'.mem_rights]
    simp
  · intro n v hn
    rw [h'.mem_rights, h.mem_rights, update_of_ne hn]

/-! ## Pointers -/

/-- A pointer to an entry stays good as long as the name stays in the tree or out of it. -/
theorem refers_frame (h : s.Rep its free m) (h' : s'.Rep its free' m')
    (href : s.Refers free name ref) (hm : m' name ≠ none)
    (htree : (∃ v, (name, v) ∈ s'.treeList) ↔ ∃ v, (name, v) ∈ s.treeList) :
    s'.Refers free' name ref := by
  cases ref with
  | table =>
    obtain ⟨rfl, hslot⟩ := href
    obtain ⟨v, hv⟩ := Option.ne_none_iff_exists'.mp hm
    rcases (h'.maps name v).mpr hv with ⟨hslot', -⟩ | hin
    · exact ⟨rfl, hslot'⟩
    · obtain ⟨w, hw⟩ := htree.mp ⟨v, hin⟩
      exact absurd hw (h.not_mem_tree hslot w)
  | tree =>
    obtain ⟨rfl, hin⟩ := href
    exact ⟨rfl, htree.mpr hin⟩

theorem tree_write (s : IpcSpace) (ref : EntryRef) (v : IpcEntry) (name : Nat) :
    (∃ w, (name, w) ∈ (s.write ref v).treeList) ↔ ∃ w, (name, w) ∈ s.treeList := by
  unfold IpcSpace.write
  split
  · cases ref with
    | table => exact .rfl
    | tree tname =>
      simp only [store, treeList, IpcSplayTree.contents_modify, List.mem_map]
      constructor
      · rintro ⟨w, a, ha, heq⟩
        split at heq
        · cases heq
          exact ⟨_, ha⟩
        · exact ⟨w, heq ▸ ha⟩
      · rintro ⟨w, hw⟩
        by_cases hn : name = tname
        · exact ⟨_, _, hw, by simp; rfl⟩
        · exact ⟨w, _, hw, by simp [hn]⟩
  · exact .rfl

variable (h : s.Rep its free m) {n : Nat} {r : EntryRef}

include h

theorem refers_write (href : s.Refers free name ref) (v : IpcEntry) (hr : s.Refers free n r) :
    (s.write ref v).Refers free n r := by
  obtain ⟨w, hw⟩ := h.mapped hr
  refine h.refers_frame (h.write href v).1 hr ?_ (tree_write s ref v n)
  by_cases hn : n = name
  · rw [hn, update_self]
    simp
  · rw [update_of_ne hn, hw]
    simp

/-- Deallocating an entry leaves a pointer to another one good, unless that one moves. -/
theorem refers_dealloc (h' : s'.Rep its free' (update m name none))
    (htree : ∀ e, e ∈ s'.treeList ↔ e ∈ s.treeList ∧ e.1 ≠ name ∧ s.moved ref ≠ some e.1)
    (hr : s.Refers free n r) (hne : n ≠ name)
    (hmoved : s.moved ref ≠ some n) : s'.Refers free' n r := by
  obtain ⟨w, hw⟩ := h.mapped hr
  refine h.refers_frame h' hr ?_ ?_
  · rw [update_of_ne hne, hw]
    simp
  · simp [htree, hne, hmoved]

end Rep

end IpcSpace

end Mach
