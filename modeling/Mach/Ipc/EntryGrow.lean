import Mach.Ipc.EntryUpdate

/-!
# Growing the table of a space

`ipc_entry_grow_table` has three loops.  The first walks over the names of the tree that
now have a slot and moves one of each index into the table; `MoveInv` is its invariant,
and `growMove_fold` carries it to the end of the walk.  The second counts the indices that
occur in the part of the tree for the next size (`growCount_fold`).  The third puts the
slots that are left over on the free list (`growFree_spec`).

`IpcSpace.Rep.growRound` puts them together: a round of growth represents the same map.
-/

namespace Mach

open List IpcEntry

open Function (update update_self update_of_ne)

/-! ## Moving entries into the table -/

/-- The first loop, with `kept` behind it and `rest` before it: the slots and the names
that are still in the tree make up the names it started with. -/
structure MoveInv (osize size : Nat) (orig : List (Nat × IpcEntry)) (table : Nat → IpcEntry)
    (kept rest : List (Nat × IpcEntry)) : Prop where
  asc : Ascending (kept ++ rest)
  range : ∀ e ∈ kept ++ rest, osize ≤ machPortIndex e.1 ∧ machPortIndex e.1 < size
  bare : ∀ e ∈ kept ++ rest, e.2.Bare
  typed : ∀ e ∈ kept ++ rest, e.2.ieBits.type ≠ machPortTypeNone
  /-- A slot of the new part is clear or taken. -/
  slot : ∀ i, osize ≤ i → i < size → table i = .zero ∨
    ((table i).ieBits.type ≠ machPortTypeNone ∧ (table i).ieBits.gen < 256)
  /-- A name stays in the tree only if its slot is taken. -/
  taken : ∀ e ∈ kept, (table (machPortIndex e.1)).ieBits.type ≠ machPortTypeNone
  clash : ∀ e ∈ kept ++ rest, (table (machPortIndex e.1)).ieBits.type ≠ machPortTypeNone →
    (table (machPortIndex e.1)).ieBits.gen ≠ machPortGen e.1
  collision : ∀ i, osize ≤ i → i < size →
    ((table i).ieBits.collision = true ↔ Occurs kept i)
  maps : ∀ name v, ((osize ≤ machPortIndex name ∧ machPortIndex name < size ∧
      (table (machPortIndex name)).ieBits.type ≠ machPortTypeNone ∧
      (table (machPortIndex name)).ieBits.gen = machPortGen name ∧
      (table (machPortIndex name)).right = v) ∨ (name, v) ∈ kept ++ rest) ↔
    (name, v) ∈ orig

namespace MoveInv

variable {osize size : Nat} {orig kept rest : List (Nat × IpcEntry)}
  {table : Nat → IpcEntry} {name : Nat} {tentry : IpcEntry}

theorem bits_eq_zero (h : MoveInv osize size orig table kept rest) {i : Nat} (hlo : osize ≤ i)
    (hhi : i < size) :
    (table i).ieBits = .zero ↔ (table i).ieBits.type = machPortTypeNone := by
  rcases h.slot i hlo hhi with hz | ⟨ht, -⟩
  · rw [hz]
    exact iff_of_true rfl rfl
  · refine iff_of_false (fun hz => ht ?_) ht
    rw [hz]
    rfl

variable (h : MoveInv osize size orig table kept ((name, tentry) :: rest))

include h

theorem keep (hbits : (table (machPortIndex name)).ieBits ≠ .zero) : MoveInv osize size orig
      (update table (machPortIndex name) ((table (machPortIndex name)).setCollision true))
      (kept ++ [(name, tentry)]) rest := by
  obtain ⟨hlo, hhi⟩ := h.range (name, tentry) (by simp)
  have htype : (table (machPortIndex name)).ieBits.type ≠ machPortTypeNone :=
    fun hz => hbits ((h.bits_eq_zero hlo hhi).mpr hz)
  obtain ⟨hasc, hrange, hbare, htyped, hslot, htaken, hclash, hcollision, hmaps⟩ := h
  rw [append_cons] at hasc hrange hbare htyped hclash hmaps
  rw [update_setCollision]
  refine ⟨hasc, hrange, hbare, htyped, ?_, ?_, hclash, ?_, hmaps⟩
  · intro i hi hi'
    by_cases hin : i = machPortIndex name
    · subst hin
      exact .inr ((hslot _ hi hi').resolve_left fun hz => hbits (by rw [hz]; rfl))
    · rw [if_neg hin]
      exact hslot i hi hi'
  · intro e he
    rcases mem_append.mp he with he | he
    · exact htaken e he
    · rw [mem_singleton.mp he]
      exact htype
  · intro i hi hi'
    have hocc : Occurs (kept ++ [(name, tentry)]) i ↔ Occurs kept i ∨ i = machPortIndex name :=
      occurs_insert (x := (name, tentry)) (fun e => by simp [or_comm]) i
    rw [hocc]
    by_cases hin : i = machPortIndex name
    · simp [hin, setCollision]
    · simp [hin, hcollision i hi hi']

theorem move (hbits : (table (machPortIndex name)).ieBits = .zero) : MoveInv osize size orig
      (update table (machPortIndex name) (tentry.inSlot (machPortGen name) false))
      kept rest := by
  obtain ⟨hlo, hhi⟩ := h.range (name, tentry) (by simp)
  have hnone : (table (machPortIndex name)).ieBits.type = machPortTypeNone :=
    (h.bits_eq_zero hlo hhi).mp hbits
  have htype : tentry.ieBits.type ≠ machPortTypeNone := h.typed (name, tentry) (by simp)
  have hbare := h.bare (name, tentry) (by simp)
  have hsub : (kept ++ rest).Sublist (kept ++ (name, tentry) :: rest) := by simp
  have hne : ∀ e ∈ kept ++ rest, e.1 ≠ name := by
    have hasc := ascending_middle.mp h.asc
    intro e he
    rcases mem_append.mp he with he | he
    · exact (hasc.2.1 e he).ne
    · exact (hasc.2.2.1 e he).ne'
  have hkept : ∀ e ∈ kept, machPortIndex e.1 ≠ machPortIndex name := by
    intro e he heq
    have ht := h.taken e he
    rw [heq] at ht
    exact ht hnone
  have hother : ∀ i, i ≠ machPortIndex name → update table (machPortIndex name)
      (tentry.inSlot (machPortGen name) false) i = table i :=
    fun i hi => update_of_ne hi ..
  refine ⟨h.asc.sublist hsub, fun e he => h.range e (hsub.mem he), fun e he => h.bare e
    (hsub.mem he),
    fun e he => h.typed e (hsub.mem he), ?_, ?_, ?_, ?_, ?_⟩
  · intro i hi hi'
    by_cases hin : i = machPortIndex name
    · subst hin
      rw [update_self]
      exact .inr ⟨htype, machPortGen_lt name⟩
    · rw [hother i hin]
      exact h.slot i hi hi'
  · intro e he
    rw [hother _ (hkept e he)]
    exact h.taken e he
  · intro e he
    by_cases hin : machPortIndex e.1 = machPortIndex name
    · rw [hin, update_self]
      intro _ hgen
      exact hne e he (machPort_ext hin hgen.symm)
    · rw [hother _ hin]
      exact h.clash e (hsub.mem he)
  · intro i hi hi'
    by_cases hin : i = machPortIndex name
    · subst hin
      refine iff_of_false (by simp [inSlot]) ?_
      rintro ⟨e, he, heq⟩
      exact hkept e he heq
    · rw [hother i hin]
      exact h.collision i hi hi'
  · intro n v
    rw [← h.maps n v, perm_middle.mem_iff, mem_cons]
    by_cases hn : machPortIndex n = machPortIndex name
    · rw [hn, update_self]
      constructor
      · rintro (⟨-, -, -, hgen, hright⟩ | hin)
        · have heq : n = name := machPort_ext hn hgen.symm
          refine .inr (.inl ?_)
          rw [heq, ← hright, right_inSlot, right_of_bare hbare]
        · exact .inr (.inr hin)
      · rintro (⟨-, -, ht, -⟩ | heq | hin)
        · exact absurd hnone ht
        · cases heq
          exact .inl ⟨hlo, hhi, htype, rfl, by
            rw [right_inSlot, right_of_bare hbare]⟩
        · exact .inr hin
    · rw [hother _ hn]
      have hneq : (n, v) ≠ (name, tentry) := fun heq => hn (by cases heq; rfl)
      simp [hneq]

end MoveInv

variable {osize : Nat}

theorem growMove_fold {size : Nat} {orig : List (Nat × IpcEntry)} (c : Nat) :
    ∀ (rest kept : List (Nat × IpcEntry)) (g : GrowState),
      MoveInv osize size orig g.table kept rest →
      g.isTreeTotal = c + kept.length + rest.length →
      MoveInv osize size orig (foldKeep (growMove size) g rest).1.table
          (kept ++ (foldKeep (growMove size) g rest).2) [] ∧
        (foldKeep (growMove size) g rest).1.isTreeTotal =
          c + (kept ++ (foldKeep (growMove size) g rest).2).length ∧
        ∀ i, i < osize ∨ size ≤ i → (foldKeep (growMove size) g rest).1.table i = g.table i
  | [], kept, g, h, htotal => by
    refine ⟨by simpa [foldKeep] using h, ?_, fun _ _ => rfl⟩
    simpa [foldKeep] using htotal
  | (name, tentry) :: rest, kept, g, h, htotal => by
    obtain ⟨hlo, hhi⟩ := h.range (name, tentry) (by simp)
    simp only at hlo hhi
    by_cases hbits : (g.table (machPortIndex name)).ieBits = .zero
    · -- The name moves into the table and leaves the tree.
      obtain ⟨calls, hstep⟩ : ∃ calls, growMove size g name tentry =
          (⟨update g.table (machPortIndex name) (tentry.inSlot (machPortGen name) false),
            g.isTreeTotal - 1, calls⟩, true) := by
        obtain ⟨hcol, hgen⟩ := h.bare (name, tentry) (by simp)
        simp only at hcol hgen
        refine ⟨(growMove size g name tentry).1.calls, ?_⟩
        simp [growMove, if_neg (not_not.mpr hbits), IeBits.orGen, hgen, Nat.zero_or, inSlot, hcol]
      obtain ⟨h1, h2, h3⟩ := growMove_fold c rest kept
        ⟨update g.table (machPortIndex name) (tentry.inSlot (machPortGen name) false),
          g.isTreeTotal - 1, calls⟩ (h.move hbits) (by simp only [htotal, length_cons]; omega)
      simp only [foldKeep, hstep]
      refine ⟨h1, h2, fun i hi => ?_⟩
      rw [h3 i hi]
      exact update_of_ne (by omega) ..
    · -- The slot is taken and the name stays.
      have hstep : growMove size g name tentry =
          (⟨update g.table (machPortIndex name) ((g.table (machPortIndex name)).setCollision true),
            g.isTreeTotal, g.calls⟩, false) := by
        rw [growMove, if_pos hbits]
        rfl
      obtain ⟨h1, h2, h3⟩ := growMove_fold c rest (kept ++ [(name, tentry)])
        ⟨update g.table (machPortIndex name) ((g.table (machPortIndex name)).setCollision true),
          g.isTreeTotal, g.calls⟩ (h.keep hbits) (by
          simp only [htotal, length_cons, length_append, length_nil]
          omega)
      simp only [append_assoc] at h1 h2
      simp only [foldKeep, hstep]
      refine ⟨h1, h2, fun i hi => ?_⟩
      rw [h3 i hi]
      exact update_of_ne (by omega) ..

/-! ## Counting indices -/

/-- In the order of names the indices do not decrease, so each new one is seen once. -/
theorem growCount_fold : ∀ (l : List (Nat × IpcEntry)) (c : Nat × Nat), Ascending l →
      (∀ e ∈ l, c.2 ≤ machPortIndex e.1) →
      (foldKeep growCount c l).2 = l ∧ (foldKeep growCount c l).1.1 =
          c.1 + ((l.map fun e => machPortIndex e.1).toFinset.erase c.2).card
  | [], c, _, _ => by simp [foldKeep]
  | e :: l, c, hasc, hle => by
    rw [ascending_cons] at hasc
    obtain ⟨habove, hasc⟩ := hasc
    have hmono : ∀ x ∈ l, machPortIndex e.1 ≤ machPortIndex x.1 :=
      fun x hx => Nat.div_le_div_right (habove x hx).le
    by_cases hidx : machPortIndex e.1 = c.2
    · have hstep : growCount c e.1 e.2 = (c, false) := by
        simp [growCount, hidx]
      obtain ⟨h1, h2⟩ := growCount_fold l c hasc fun x hx => hle x (by simp [hx])
      simp only [foldKeep, hstep, h1, h2]
      simp [hidx]
    have hstep : growCount c e.1 e.2 = ((c.1 + 1, machPortIndex e.1), false) := by
      simp [growCount, hidx]
    obtain ⟨h1, h2⟩ := growCount_fold l (c.1 + 1, machPortIndex e.1) hasc hmono
    simp only [foldKeep, hstep, Bool.false_eq_true, if_false, h1, h2, true_and]
    have hgt : c.2 < machPortIndex e.1 := by
      have := hle e (by simp)
      omega
    have hnot : c.2 ∉ insert (machPortIndex e.1) (l.map fun e => machPortIndex e.1).toFinset := by
      simp only [Finset.mem_insert, mem_toFinset, mem_map, not_or, not_exists, not_and]
      refine ⟨by omega, fun x hx heq => ?_⟩
      have := hmono x hx
      omega
    rw [map_cons, toFinset_cons, Finset.erase_eq_of_notMem hnot,
      ← Finset.card_erase_add_one (Finset.mem_insert_self (machPortIndex e.1) _),
      Finset.erase_insert_eq_erase]
    omega

/-! ## The new part of the free list -/

/-- The slots of the new part that no name has moved into. -/
def clearSlots (osize n : Nat) (table : Nat → IpcEntry) : List Nat :=
  (range' osize n).filter fun i => (table i).ieBits = .zero

variable {i n : Nat} {table : Nat → IpcEntry}

theorem mem_clearSlots : i ∈ clearSlots osize n table ↔
    (osize ≤ i ∧ i < osize + n) ∧ (table i).ieBits = .zero := by
  rw [clearSlots, mem_filter, mem_range'_1, decide_eq_true_iff]

theorem growFree_spec (hpos : 0 < osize) {freeIndex : Nat} {free : List Nat}
    (hchain : Chain (fun i => (table i).ieNext) freeIndex free)
    (hfree : ∀ i ∈ free, i < osize ∨ osize + n ≤ i) :
    Chain (fun i => ((growFree osize n table freeIndex).1 i).ieNext)
        (growFree osize n table freeIndex).2 (clearSlots osize n table ++ free) ∧
      (∀ i, i ∉ clearSlots osize n table → (growFree osize n table freeIndex).1 i = table i) ∧
      ∀ i ∈ clearSlots osize n table,
        ((growFree osize n table freeIndex).1 i).ieBits = .ofGen 255 ∧
          ((growFree osize n table freeIndex).1 i).ieObject = (table i).ieObject := by
  induction n generalizing table freeIndex free with
  | zero => exact ⟨hchain, fun _ _ => rfl, nofun⟩
  | succ n ih =>
    have hsplit : clearSlots osize (n + 1) table = clearSlots osize n table ++
        if (table (osize + n)).ieBits = .zero then [osize + n] else [] := by
      simp [clearSlots, range'_1_concat, filter_singleton]
    rw [hsplit]
    by_cases hz : (table (osize + n)).ieBits = .zero
    · simp only [growFree, if_pos hz]
      generalize htable : update table (osize + n)
        { table (osize + n) with ieBits := .ofGen 255, ieRequest := freeIndex } = table'
      have hne {i : Nat} (hi : i ≠ osize + n) : table' i = table i := htable ▸ update_of_ne hi ..
      have hclear : clearSlots osize n table' = clearSlots osize n table :=
        filter_congr fun i hi => by rw [hne (mem_range'_1.mp hi).2.ne]
      have hchain' : Chain (fun i => (table' i).ieNext) (osize + n) ((osize + n) :: free) := by
        refine .cons (by omega) ?_
        simp only [← htable, update_self]
        refine hchain.congr fun i hi => ?_
        have hlt := hfree i hi
        rw [update_of_ne (by omega)]
      obtain ⟨hch, hout, hin⟩ := ih hchain' (forall_mem_cons.mpr
        ⟨.inr le_rfl, fun i hi => (hfree i hi).imp_right Nat.le_of_succ_le⟩)
      rw [← hclear, append_assoc]
      refine ⟨hch, fun i hi => ?_, fun i hi => ?_⟩
      · rw [mem_append, mem_singleton, not_or] at hi
        rw [hout i hi.1, hne hi.2]
      · rcases mem_append.mp hi with hi | hi
        · have hlt := (mem_clearSlots.mp hi).1.2
          rw [← hne hlt.ne]
          exact hin i hi
        · rw [mem_singleton.mp hi, hout _ fun hc => (mem_clearSlots.mp hc).1.2.false,
            ← htable, update_self]
          exact ⟨rfl, rfl⟩
    · simp only [growFree, if_neg hz, append_nil]
      exact ih hchain fun i hi => (hfree i hi).imp_right Nat.le_of_succ_le

/-! ## A round of growth -/

/-- The table with a cleared part after the old one. -/
def extendTable (s : IpcSpace) (osize : Nat) : Nat → IpcEntry :=
  fun i => if i < osize then s.isTable i else .zero

/-- What the work on the tree comes to. -/
structure GrowTreeSpec (s : IpcSpace) (osize size nsize : Nat) (s' : IpcSpace)
    (lo move kept hi : List (Nat × IpcEntry)) : Prop where
  same : s' = { s with
    isTable := s'.isTable, isTree := s'.isTree, isTreeTotal := s'.isTreeTotal
    isTreeSmall := s'.isTreeSmall }
  valid : s'.isTree.Valid
  old : s.treeList = lo ++ move ++ hi
  new : s'.treeList = lo ++ kept ++ hi
  below : ∀ e ∈ lo, machPortIndex e.1 < osize
  above : ∀ e ∈ hi, size ≤ machPortIndex e.1
  moved : MoveInv osize size move s'.isTable kept []
  frame : ∀ i, i < osize ∨ size ≤ i → s'.isTable i = extendTable s osize i
  total : s'.isTreeTotal = s'.treeList.length
  small : s'.isTreeSmall = (indicesIn s'.treeList size nsize).card

namespace IpcSpace

variable {its : IpcTableSizes} {s : IpcSpace} {free : List Nat} {m : Nat → Option IpcEntry}

theorem moveInv_start {size : Nat} {move : List (Nat × IpcEntry)}
    (hasc : Ascending move) (hrange : ∀ e ∈ move, osize ≤ machPortIndex e.1 ∧
      machPortIndex e.1 < size) (hbare : ∀ e ∈ move, e.2.Bare)
    (htyped : ∀ e ∈ move, e.2.ieBits.type ≠ machPortTypeNone) :
    MoveInv osize size move (extendTable s osize) [] move := by
  have hclear : ∀ i, osize ≤ i → extendTable s osize i = .zero := fun i hi => by
    rw [extendTable, if_neg hi.not_gt]
  refine ⟨hasc, hrange, hbare, htyped, fun i hi _ => .inl (hclear i hi), nofun, ?_, ?_, ?_⟩
  · intro e he ht
    rw [hclear _ (hrange e he).1] at ht
    exact absurd rfl ht
  · intro i hi _
    rw [hclear i hi]
    refine iff_of_false (by decide) ?_
    rintro ⟨e, he, -⟩
    cases he
  · intro n v
    rw [nil_append, or_iff_right]
    rintro ⟨hi, -, ht, -⟩
    rw [hclear _ hi] at ht
    exact ht rfl

/-- The work on the tree succeeds and leaves one name of each new index in the table. -/
theorem Rep.growTree (h : s.Rep its free m) (ht : Typed m) {size nsize : Nat}
    (hosize : 0 < osize) (hle : osize ≤ size) (hle' : size ≤ nsize) (hmax : nsize < 2 ^ 24)
    (calls : List HashCall) (hsize : s.isTableSize = osize)
    (hnext : its.itsSize s.isTableNext = size) :
    ∃ s' calls' lo move kept hi,
      growTree s osize size nsize ⟨extendTable s osize, s.isTreeTotal, calls⟩ =
        some (s', calls') ∧ GrowTreeSpec s osize size nsize s' lo move kept hi := by
  by_cases htotal : 0 < s.isTreeTotal
  · obtain ⟨tree, small₀, hres₁, hv₁, hv₁', hlist₁, hbelow₁, htreeIdx⟩ := split_index h.tree hmax
    obtain ⟨small, move₀, hres₂, hv₂, hv₂', hlist₂, hbelow₂, habove₂⟩ :=
      split_index hv₁' (i := size) (by omega)
    obtain ⟨move, ignore, hres₃, hv₃, hv₃', hlist₃, hignoreIdx, habove₃⟩ :=
      split_index hv₂' (i := osize) (by omega)
    have hold : s.treeList = ignore.contents ++ move.contents ++
        (small.contents ++ tree.contents) := by
      rw [treeList, hlist₁, hlist₂, hlist₃]
      simp
    have hin : ∀ e, e ∈ move.contents → e ∈ s.treeList := by
      intro e he
      rw [hold]
      simp [he]
    have hrange : ∀ e ∈ move.contents, osize ≤ machPortIndex e.1 ∧ machPortIndex e.1 < size :=
      fun e he => ⟨habove₃ e he, hbelow₂ e (by rw [hlist₃]; simp [he])⟩
    have hsmallIdx : ∀ e ∈ small.contents, size ≤ machPortIndex e.1 ∧ machPortIndex e.1 < nsize :=
      fun e he => ⟨habove₂ e he, hbelow₁ e (by rw [hlist₂]; simp [he])⟩
    have hhigh : ∀ e ∈ small.contents ++ tree.contents, size ≤ machPortIndex e.1 := fun e he =>
      (mem_append.mp he).elim (habove₂ e) fun he => hle'.trans (htreeIdx e he)
    have hstart : MoveInv osize size move.contents (extendTable s osize) [] move.contents :=
      moveInv_start hv₃.ascending hrange (fun e he => h.bare e (hin e he)) fun e he =>
        ht e.1 e.2 ((h.maps e.1 e.2).mp (.inr (hin e he)))
    have hlen : s.isTreeTotal = (ignore.contents.length + small.contents.length +
        tree.contents.length) + ([] : List (Nat × IpcEntry)).length + move.contents.length := by
      rw [h.total, hold]
      simp only [length_append, length_nil]
      omega
    obtain ⟨hinv, htot, hframe⟩ := growMove_fold _ move.contents []
      ⟨extendTable s osize, s.isTreeTotal, calls⟩ hstart hlen
    obtain ⟨move', hwalk, hvm, hcm⟩ := hv₃.traverse (growMove size)
      ⟨extendTable s osize, s.isTreeTotal, calls⟩
    generalize foldKeep (growMove size) ⟨extendTable s osize, s.isTreeTotal, calls⟩
      move.contents = folded at *
    obtain ⟨g, kept⟩ := folded
    simp only [nil_append] at hinv htot hframe hwalk hcm
    obtain ⟨hckeep, hccard⟩ := growCount_fold small.contents (0, 0) hv₂.ascending
      fun _ _ => Nat.zero_le _
    obtain ⟨small', hwalk', hvs, hcs⟩ := hv₂.traverse growCount (0, 0)
    rw [hckeep] at hcs
    have hkept : ∀ e ∈ kept, osize ≤ machPortIndex e.1 ∧ machPortIndex e.1 < size :=
      fun e he => hinv.range e (by simpa using he)
    obtain ⟨hj₁, hcj₁⟩ := join_index hv₁ hvs (by rw [hcs]; exact fun e he => (hsmallIdx e he).2)
      htreeIdx
    obtain ⟨hj₂, hcj₂⟩ := join_index hj₁ hvm (by rw [hcm]; exact fun e he => (hkept e he).2)
      (by rw [hcj₁, hcs]; exact hhigh)
    obtain ⟨hj₃, hcj₃⟩ := join_index hj₂ hv₃' hignoreIdx (by
      rw [hcj₂, hcm, hcj₁, hcs]
      exact fun e he => (mem_append.mp he).elim (fun he => (hkept e he).1)
        fun he => hle.trans (hhigh e he))
    rw [hcj₂, hcm, hcj₁, hcs] at hcj₃
    have hnew : (ipcSplayTreeJoin (ipcSplayTreeJoin (ipcSplayTreeJoin tree small').1 move').1
        ignore).1.contents = ignore.contents ++ kept ++ (small.contents ++ tree.contents) := by
      rw [hcj₃]
      simp
    refine ⟨_, g.calls, ignore.contents, move.contents, kept, small.contents ++ tree.contents, by
        simp only [Mach.growTree, if_pos htotal, hres₁, hres₂, hres₃, hwalk, hwalk']
        rfl, ?_⟩
    refine ⟨rfl, hj₃, hold, hnew, hignoreIdx, hhigh, hinv, hframe, ?_, ?_⟩
    · show g.isTreeTotal = _
      rw [treeList, hnew, htot]
      simp only [length_append]
      omega
    · show (foldKeep growCount (0, 0) small.contents).1.1 = _
      rw [hccard, treeList, hnew, Nat.zero_add]
      congr 1
      ext i
      rw [mem_indicesIn, Finset.mem_erase, mem_toFinset, mem_map]
      constructor
      · rintro ⟨-, e, he, rfl⟩
        exact ⟨⟨e, by simp [he], rfl⟩, hsmallIdx e he⟩
      · rintro ⟨⟨e, he, rfl⟩, h1, h2⟩
        refine ⟨by simp only; omega, e, ?_, rfl⟩
        simp only [mem_append] at he
        rcases he with (he | he) | he | he
        · exact absurd (hignoreIdx e he) (by omega)
        · exact absurd (hkept e he).2 (by omega)
        · exact he
        · exact absurd (htreeIdx e he) (by omega)
  · have hnil : s.treeList = [] := by
      rw [← length_eq_zero_iff, ← h.total]
      omega
    refine ⟨_, calls, [], [], [], [], by rw [Mach.growTree, if_neg htotal], ?_⟩
    refine ⟨rfl, h.tree, hnil, hnil, by simp, by simp, ?_, fun _ _ => rfl, ?_, ?_⟩
    · exact moveInv_start ascending_nil (by simp) (by simp) (by simp)
    · exact h.total
    · show s.isTreeSmall = (indicesIn s.treeList size nsize).card
      rw [h.small, hnil]
      rfl

end IpcSpace

namespace GrowTreeSpec

variable {s s' : IpcSpace} {osize size nsize : Nat} {lo move kept hi : List (Nat × IpcEntry)}

variable (h : GrowTreeSpec s osize size nsize s' lo move kept hi)

include h

variable {e : Nat × IpcEntry} {i : Nat}

theorem mem_outside (hidx : machPortIndex e.1 < osize ∨ size ≤ machPortIndex e.1) :
    e ∈ s'.treeList ↔ e ∈ s.treeList := by
  have hk : e ∉ kept := fun he => by
    have := h.moved.range e (by simpa using he)
    omega
  have hm : e ∉ move := fun he => by
    rcases (h.moved.maps e.1 e.2).mpr he with hin | hk
    · omega
    · have := h.moved.range e hk
      omega
  rw [h.new, h.old]
  simp [hk, hm]

theorem mem_inside (h1 : osize ≤ machPortIndex e.1) (h2 : machPortIndex e.1 < size) :
    (e ∈ s'.treeList ↔ e ∈ kept) ∧ (e ∈ s.treeList ↔ e ∈ move) := by
  have hl : e ∉ lo := fun he => absurd (h.below e he) (by omega)
  have hh : e ∉ hi := fun he => absurd (h.above e he) (by omega)
  rw [h.new, h.old]
  simp [hl, hh]

theorem occurs_outside
    (hi : i < osize ∨ size ≤ i) : Occurs s'.treeList i ↔ Occurs s.treeList i :=
  exists_congr fun _ => and_congr_left fun hidx => h.mem_outside (hidx ▸ hi)

theorem occurs_inside (h1 : osize ≤ i) (h2 : i < size) : Occurs s'.treeList i ↔ Occurs kept i :=
  exists_congr fun _ => and_congr_left fun hidx => (h.mem_inside (hidx ▸ h1) (hidx ▸ h2)).1

theorem mem_old (he : e ∈ s'.treeList) : e ∈ s.treeList := by
  by_cases hidx : osize ≤ machPortIndex e.1 ∧ machPortIndex e.1 < size
  · obtain ⟨hnew, hold⟩ := h.mem_inside hidx.1 hidx.2
    refine hold.mpr ((h.moved.maps e.1 e.2).mp (.inr ?_))
    simpa using hnew.mp he
  · exact (h.mem_outside (by omega)).mp he

end GrowTreeSpec

/-- The table at the end of a round, slot by slot: `clear` are the slots of the new part
that no name has moved into. -/
structure GrownTable (s s' : IpcSpace) (osize size : Nat) (clear free : List Nat)
    (table : Nat → IpcEntry) : Prop where
  clear_iff : ∀ i, i ∈ clear ↔ osize ≤ i ∧ i < size ∧ (s'.isTable i).ieBits = .zero
  chain : Chain (fun i => (table i).ieNext) (table 0).ieNext (clear ++ free)
  old : ∀ i, i ≠ 0 → i < osize → table i = s.isTable i
  oldBits : ∀ i, i < osize → (table i).ieBits = (s.isTable i).ieBits
  new : ∀ i, osize ≤ i → i ∉ clear → table i = s'.isTable i
  clearBits : ∀ i ∈ clear, (table i).ieBits = .ofGen 255
  clearObject : ∀ i ∈ clear, (table i).ieObject = ioNull

namespace IpcSpace

variable {its : IpcTableSizes} {s s' : IpcSpace} {free : List Nat} {m : Nat → Option IpcEntry}
  {osize size nsize : Nat} {lo move kept hi : List (Nat × IpcEntry)}

theorem Core.grownTable (h : s.Core its free) (hosize : s.isTableSize = osize)
    (hle : osize ≤ size) (hspec : GrowTreeSpec s osize size nsize s' lo move kept hi) :
    ∃ clear table, GrownTable s s' osize size clear free table ∧
      update (growFree osize (size - osize) s'.isTable (s'.isTable 0).ieNext).1 0
        { (growFree osize (size - osize) s'.isTable (s'.isTable 0).ieNext).1 0 with
            ieRequest := (growFree osize (size - osize) s'.isTable (s'.isTable 0).ieNext).2 } =
        table := by
  have hpos : 0 < osize := hosize ▸ h.size_pos
  have hold : ∀ i, i < osize → s'.isTable i = s.isTable i := fun i hi => by
    rw [hspec.frame i (.inl hi), extendTable, if_pos hi]
  have hfreeLt : ∀ i ∈ free, i < osize := fun i hi => hosize ▸ h.free_lt i hi
  have hchain₀ : Chain (fun i => (s'.isTable i).ieNext) (s'.isTable 0).ieNext free := by
    rw [hold 0 hpos]
    exact h.chain.congr fun i hi => by rw [hold i (hfreeLt i hi)]
  obtain ⟨hchain, hout, hin⟩ := growFree_spec hpos hchain₀ fun i hi => .inl (hfreeLt i hi)
  have hclear (i : Nat) : i ∈ clearSlots osize (size - osize) s'.isTable ↔
      osize ≤ i ∧ i < size ∧ (s'.isTable i).ieBits = .zero := by
    rw [mem_clearSlots, Nat.add_sub_cancel' hle, and_assoc]
  generalize clearSlots osize (size - osize) s'.isTable = clear at *
  generalize growFree osize (size - osize) s'.isTable (s'.isTable 0).ieNext = grown at *
  obtain ⟨table, freeIndex⟩ := grown
  simp only at hchain hout hin ⊢
  have hlo : ∀ i ∈ clear, osize ≤ i := fun i hi => ((hclear i).mp hi).1
  have hlow : ∀ i, i < osize → table i = s.isTable i := fun i hi => by
    rw [hout i fun hc => absurd (hlo i hc) (by omega), hold i hi]
  refine ⟨clear, _, ⟨hclear, ?_, ?_, ?_, ?_, ?_, ?_⟩, rfl⟩
  · refine hchain.congr fun i hi => ?_
    have hne : i ≠ 0 := by
      rintro rfl
      rcases mem_append.mp hi with hi | hi
      · exact absurd (hlo 0 hi) (by omega)
      · exact h.chain.ne_zero 0 hi rfl
    rw [update_of_ne hne]
  · intro i h0 hi
    rw [update_of_ne h0, hlow i hi]
  · intro i hi
    rw [← hlow i hi]
    rcases eq_or_ne i 0 with rfl | h0
    · rw [update_self]
    · rw [update_of_ne h0]
  · intro i hi hc
    rw [update_of_ne (by omega), hout i hc]
  · intro i hi
    have := hlo i hi
    rw [update_of_ne (by omega)]
    exact (hin i hi).1
  · intro i hi
    obtain ⟨h1, h2, h3⟩ := (hclear i).mp hi
    rw [update_of_ne (by omega), (hin i hi).2]
    rcases hspec.moved.slot i h1 h2 with hz | ⟨hz, -⟩
    · rw [hz]
      rfl
    · rw [h3] at hz
      exact absurd rfl hz

/-- The space at the end of a round represents the map of the space before it. -/
theorem Rep.grown (h : s.Rep its free m) (hlast : s.isTableNext + 1 < its.num)
    (hosize : s.isTableSize = osize) (hsize : its.itsSize s.isTableNext = size)
    (hnsize : its.itsSize (s.isTableNext + 1) = nsize) (hle : osize ≤ size)
    (hspec : GrowTreeSpec s osize size nsize s' lo move kept hi) {clear : List Nat}
    {table : Nat → IpcEntry} (htable : GrownTable s s' osize size clear free table) :
    ({ s' with
        isTable := table, isTableSize := size
        isTableNext := s'.isTableNext + 1 } : IpcSpace).Rep its (clear ++ free) m := by
  have hpos : 0 < osize := hosize ▸ h.size_pos
  have hnext : s'.isTableNext = s.isTableNext := by rw [hspec.same]
  have hinv := hspec.moved
  have hfreeLt : ∀ i ∈ free, i < osize := fun i hi => hosize ▸ h.free_lt i hi
  have hfree : ∀ i ∈ free, table i = s.isTable i := fun i hi =>
    htable.old i (h.chain.ne_zero i hi) (hfreeLt i hi)
  have hclearLo : ∀ i ∈ clear, osize ≤ i ∧ i < size := fun i hi =>
    ⟨((htable.clear_iff i).mp hi).1, ((htable.clear_iff i).mp hi).2.1⟩
  have hclearType : ∀ i, osize ≤ i → i < size →
      (i ∈ clear ↔ (s'.isTable i).ieBits.type = machPortTypeNone) := by
    intro i h1 h2
    rw [htable.clear_iff, ← hinv.bits_eq_zero h1 h2]
    simp [h1, h2]
  have hmemOld : ∀ i, i < osize → (i ∈ clear ++ free ↔ i ∈ free) := by
    intro i hi
    rw [mem_append, or_iff_right]
    exact fun hc => absurd (hclearLo i hc).1 (by omega)
  have hmemNew : ∀ i, osize ≤ i → (i ∈ clear ++ free ↔ i ∈ clear) := by
    intro i hi
    rw [mem_append, or_iff_left]
    exact fun hf => absurd (hfreeLt i hf) (by omega)
  have hcore : ({ s' with
      isTable := table, isTableSize := size
      isTableNext := s'.isTableNext + 1 } : IpcSpace).Core its (clear ++ free) := by
    constructor
    · show s'.isActive = true
      rw [hspec.same]
      exact h.active
    · exact Nat.succ_pos _
    · show s'.isTableNext + 1 < its.num
      rw [hnext]
      exact hlast
    · show size = its.itsSize (s'.isTableNext + 1 - 1)
      rw [hnext, Nat.add_sub_cancel, hsize]
    · exact hspec.valid
    · exact fun e he => h.bare e (hspec.mem_old he)
    · exact fun e he => h.name_pos e (hspec.mem_old he)
    · exact htable.chain
    · intro i hi
      rcases mem_append.mp hi with hc | hf
      · exact (hclearLo i hc).2
      · exact (hfreeLt i hf).trans_le hle
    · intro i hi
      show (table i).ieBits = .ofGen (table i).ieBits.gen
      rcases mem_append.mp hi with hc | hf
      · rw [htable.clearBits i hc]
        rfl
      · rw [hfree i hf]
        exact h.free_bits i hf
    · intro i hi
      show (table i).ieObject = _
      rcases mem_append.mp hi with hc | hf
      · exact htable.clearObject i hc
      · rw [hfree i hf]
        exact h.free_object i hf
    · show (table 0).ieBits.gen = _
      rw [htable.oldBits 0 hpos]
      exact h.head_gen
    · show (table 0).ieBits.type = _
      rw [htable.oldBits 0 hpos]
      exact h.head_type
    · intro i hi
      show (table i).ieBits.gen < 256
      by_cases hio : i < osize
      · rw [htable.oldBits i hio]
        exact h.gen_lt i (by omega)
      by_cases hc : i ∈ clear
      · rw [htable.clearBits i hc]
        decide
      rw [htable.new i (by omega) hc]
      rcases hinv.slot i (by omega) hi with hz | ⟨-, hg⟩
      · rw [hz]
        decide
      · exact hg
    · intro i hi
      show (table i).ieBits.collision = true ↔ Occurs s'.treeList i
      by_cases hio : i < osize
      · rw [htable.oldBits i hio, hspec.occurs_outside (.inl hio)]
        exact h.collision i (by omega)
      have hoi : osize ≤ i := by omega
      rw [hspec.occurs_inside hoi hi]
      by_cases hc : i ∈ clear
      · rw [htable.clearBits i hc]
        refine iff_of_false (by decide) ?_
        rintro ⟨e, he, rfl⟩
        exact hinv.taken e he ((hclearType _ hoi hi).mp hc)
      · rw [htable.new i hoi hc]
        exact hinv.collision i hoi hi
    · intro e he hidx hlt
      show _ ∧ (table (machPortIndex e.1)).ieBits.gen ≠ _
      by_cases hio : machPortIndex e.1 < osize
      · rw [htable.oldBits _ hio, hmemOld _ hio]
        exact h.shadow e (hspec.mem_old he) hidx (by omega)
      have hoi : osize ≤ machPortIndex e.1 := by omega
      have hk : e ∈ kept := (hspec.mem_inside hoi hlt).1.mp he
      have ht := hinv.taken e hk
      have hc : machPortIndex e.1 ∉ clear := fun hc => ht ((hclearType _ hoi hlt).mp hc)
      rw [hmemNew _ hoi, htable.new _ hoi hc]
      exact ⟨hc, hinv.clash e (by simpa using hk) ht⟩
    · exact hspec.total
    · show s'.isTreeSmall = (indicesIn s'.treeList size (its.itsSize (s'.isTableNext + 1))).card
      rw [hnext, hnsize]
      exact hspec.small
  refine ⟨hcore, fun n v => ?_⟩
  rw [← h.maps]
  by_cases hio : machPortIndex n < osize
  · -- An old slot.
    refine or_congr ?_ (hspec.mem_outside (.inl hio))
    simp only [InSlot, hmemOld _ hio]
    rcases Nat.eq_zero_or_pos (machPortIndex n) with h0 | h0
    · simp [h0]
    · simp [h0, htable.old _ h0.ne' hio, hio, hio.trans_le hle, hosize]
  have hoi : osize ≤ machPortIndex n := by omega
  have hrhs : s.Maps free n v ↔ (n, v) ∈ s.treeList :=
    or_iff_right fun hs => hio (hosize ▸ hs.1.2.1)
  rw [hrhs]
  by_cases his : machPortIndex n < size
  · -- A new slot.
    obtain ⟨hnew, hold⟩ := hspec.mem_inside (show osize ≤ machPortIndex (n, v).1 from hoi) his
    have hmaps := hinv.maps n v
    rw [append_nil] at hmaps
    rw [hold, ← hmaps]
    refine or_congr ?_ hnew
    simp only [InSlot, hmemNew _ hoi]
    by_cases hc : machPortIndex n ∈ clear
    · simp [hc, (hclearType _ hoi his).mp hc]
    · simp [hc, mt (hclearType _ hoi his).mpr hc, htable.new _ hoi hc, hoi, his, hpos.trans_le hoi]
  · -- No slot.
    rw [← hspec.mem_outside (.inr (not_lt.mp his))]
    exact or_iff_right fun hs => his hs.1.2.1

/-- A round of growth succeeds and represents the same map. -/
theorem Rep.growRound (h : s.Rep its free m) (ht : Typed m) (hlast : s.isTableNext + 1 < its.num) :
    ∃ s' calls free', growRound its s = some (s', calls) ∧ s'.Rep its free' m ∧
      s'.isTableNext = s.isTableNext + 1 := by
  have hpos := h.next_pos
  have hprev : s.isTableNext - 1 + 1 = s.isTableNext := Nat.sub_add_cancel hpos
  have hlt : its.itsSize (s.isTableNext - 1) < its.itsSize s.isTableNext := by
    have := its.increasing (s.isTableNext - 1) (by omega)
    rwa [hprev] at this
  have hle := its.size_le_succ hlast
  have hbound := its.bound _ hlast
  rw [← h.size] at hlt
  obtain ⟨s₁, calls, lo, move, kept, hi, htree, hspec⟩ := h.growTree ht h.size_pos
    hlt.le hle (by omega)
    (.clear (its.itsSize s.isTableNext) ::
      growRehash (its.itsSize s.isTableNext) s.isTableSize (extendTable s s.isTableSize)) rfl rfl
  obtain ⟨clear, table, htable, hfinal⟩ := h.toCore.grownTable rfl hlt.le hspec
  have hround : Mach.growRound its s = some ({ s₁ with
      isTable := table, isTableSize := its.itsSize s.isTableNext
      isTableNext := s₁.isTableNext + 1 }, calls) := by
    have hext : (fun i => if i < s.isTableSize then s.isTable i else zero) =
        extendTable s s.isTableSize := rfl
    simp only [Mach.growRound, ← h.size, hext, htree, Option.map_some]
    rw [← hfinal]
  have hnext : s₁.isTableNext = s.isTableNext := by rw [hspec.same]
  refine ⟨_, calls, clear ++ free, hround, h.grown hlast rfl rfl rfl hlt.le hspec htable, ?_⟩
  show s₁.isTableNext + 1 = s.isTableNext + 1
  rw [hnext]

end IpcSpace

end Mach
