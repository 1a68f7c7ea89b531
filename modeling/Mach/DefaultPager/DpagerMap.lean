import Mach.DefaultPager.Dpager

/-!
# The map of a paging object

What the map of a paging object says is a function from pages to blocks (`Dpager.lookup`).  The
operations of the pager are described by what they do to this function: extending the map leaves it
alone as long as the map does not shrink (`Dpager.Ok.extend`), and storing an entry changes it at
one page (`Dpager.Ok.store`).
-/

namespace Mach

open List Option

namespace BlockMap

/-- The kind of the map and the lengths of its arrays are right for the size. -/
def Fits (size : Nat) : BlockMap → Prop
  | .direct blocks => size ≤ pagemapEntries ∧ blocks.length = size
  | .indirect maps => pagemapEntries < size ∧ maps.length = indirectPagemapEntries size ∧
      ∀ blocks, some blocks ∈ maps → blocks.length = pagemapEntries

/-- The block that a map has for a page. -/
def lookup (page : Nat) : BlockMap → Option (Nat × Nat)
  | .direct blocks => blocks[page]?.bind Block.slot
  | .indirect maps =>
    (maps[page / pagemapEntries]?.join.bind fun blocks => blocks[page % pagemapEntries]?).bind
      Block.slot

end BlockMap

namespace Dpager

/-- The block of a page. -/
def lookup (d : Dpager) (page : Nat) : Option (Nat × Nat) := d.map.lookup page

/-- The map is as long as the size says. -/
structure Ok (d : Dpager) : Prop where
  pos : 0 < d.size
  fits : d.map.Fits d.size

variable {c : PagerConfig} {d d' : Dpager} {page : Nat} {i : Nat}

theorem pagemapEntries_pos : 0 < pagemapEntries := by decide

@[simp] theorem slot_noBlock : noBlock.slot = none := rfl

theorem getElem?_replicate_noBlock {n : Nat} :
    ((List.replicate n noBlock)[i]?).bind Block.slot = none := by
  rw [getElem?_replicate]
  split <;> rfl

variable {n : Nat}

theorem indirectPagemap_of_lt (h : pagemapEntries < n) : indirectPagemap n = true :=
  decide_eq_true h

theorem indirectPagemap_of_le (h : n ≤ pagemapEntries) : indirectPagemap n = false :=
  decide_eq_false (not_lt.mpr h)

theorem mod_lt_entries : page % pagemapEntries < pagemapEntries := Nat.mod_lt _ pagemapEntries_pos

/-- There is an entry for the page. -/
def Reaches (d : Dpager) (page : Nat) : Prop :=
  match d.map with
  | .direct blocks => page < blocks.length
  | .indirect maps => ∃ blocks, maps[page / pagemapEntries]? = some (some blocks)

variable {maps : List (Option (List Block))} {size : Nat} {current : Option Nat}

namespace Ok

theorem entry_of_reaches (h : d.Ok) (hreach : d.Reaches page) :
    ∃ b, d.entry page = .ok b ∧ b.slot = d.lookup page := by
  obtain ⟨map, size, current⟩ := d
  cases map with
  | direct blocks =>
    have hlt : page < blocks.length := hreach
    refine ⟨blocks[page], ?_, ?_⟩
    · simp only [entry, indirectPagemap_of_le h.fits.1, entryOf, getElem?_eq_getElem hlt]
    · simp [lookup, BlockMap.lookup, getElem?_eq_getElem hlt]
  | indirect =>
    obtain ⟨hlt, -, hblocks⟩ := h.fits
    obtain ⟨blocks, hmap⟩ := hreach
    have hmod : page % pagemapEntries < blocks.length := by
      rw [hblocks blocks (mem_of_getElem? hmap)]
      exact mod_lt_entries
    refine ⟨blocks[page % pagemapEntries], ?_, ?_⟩
    · simp only [Dpager.entry, indirectPagemap_of_lt hlt, hmap, entryOf,
        getElem?_eq_getElem hmod]
    · simp [lookup, BlockMap.lookup, hmap, getElem?_eq_getElem hmod]

theorem exists_map (h : Ok ⟨.indirect maps, size, current⟩) (hpage : page < size) :
    ∃ m, maps[page / pagemapEntries]? = some m := by
  have hdiv : page / pagemapEntries < maps.length := by
    rw [h.fits.2.1]
    exact Nat.lt_succ_of_le (Nat.div_le_div_right (Nat.le_sub_one_of_lt hpage))
  exact ⟨_, getElem?_eq_getElem hdiv⟩

theorem entry (h : d.Ok) (hpage : page < d.size) :
    ∃ b, d.entry page = .ok b ∧ b.slot = d.lookup page := by
  obtain ⟨map, size, current⟩ := d
  cases map with
  | direct => exact h.entry_of_reaches (hpage.trans_eq h.fits.2.symm)
  | indirect maps =>
    obtain ⟨m, hget⟩ := h.exists_map hpage
    cases m with
    | none =>
      refine ⟨noBlock, ?_, ?_⟩
      · simp only [Dpager.entry, indirectPagemap_of_lt h.fits.1, hget]
      · simp [lookup, BlockMap.lookup, hget]
    | some blocks => exact h.entry_of_reaches ⟨blocks, hget⟩

end Ok

/-! ### Extending the map -/

theorem le_doubleUntil_self (fuel i n : Nat) : i ≤ doubleUntil fuel i n := by
  induction fuel generalizing i with
  | zero => exact le_refl i
  | succ fuel ih =>
    rw [doubleUntil]
    split
    · exact (Nat.le_mul_of_pos_left i two_pos).trans (ih (2 * i))
    · exact le_refl i

theorem le_doubleUntil {fuel n : Nat} (hpos : 0 < i) (hfuel : n ≤ i + fuel) :
    n ≤ doubleUntil fuel i n := by
  induction fuel generalizing i with
  | zero => exact hfuel
  | succ fuel ih =>
    rw [doubleUntil]
    split
    next => exact ih (by omega) (by omega)
    next hle => exact not_lt.mp hle

theorem le_roundupToPagemap (n : Nat) : n ≤ roundupToPagemap n := by
  have hdiv := Nat.div_add_mod' (n + pagemapEntries - 1) pagemapEntries
  have hmod := Nat.mod_lt (n + pagemapEntries - 1) pagemapEntries_pos
  rw [roundupToPagemap]
  omega

/-- The map does not shrink by doubling, and otherwise only if the page is in the map already. -/
theorem size_le_extendedSize_iff {oldSize newSize : Nat} :
    oldSize ≤ extendedSize c oldSize newSize ↔
      newSize ≤ c.maxDoubledPages ∨ oldSize ≤ roundupToPagemap newSize := by
  rw [extendedSize]
  split
  next h => exact iff_of_true (le_doubleUntil_self ..) (.inl h)
  next h => rw [or_iff_right h]

theorem copyEntries_ok {α : Type} {old : List α} {m : Nat} {fill : α} (hlength : old.length = m)
    (h : m ≤ n) : copyEntries old m n fill = .ok (old ++ List.replicate (n - m) fill) := by
  rw [copyEntries, ← hlength, if_pos ⟨le_rfl, hlength ▸ h⟩, take_length]

theorem length_copied {α : Type} {old : List α} {m : Nat} {fill : α} (hlength : old.length = m)
    (h : m ≤ n) : (old ++ List.replicate (n - m) fill).length = n := by
  rw [length_append, length_replicate, hlength]
  exact Nat.add_sub_cancel' h

variable {blocks : List Block} {k : Nat}

theorem lookup_append_noBlock :
    ((blocks ++ List.replicate k noBlock)[page]?).bind Block.slot = blocks[page]?.bind
    Block.slot := by
  rw [getElem?_append]
  split
  next => rfl
  next hge =>
    rw [getElem?_replicate_noBlock, getElem?_eq_none (not_lt.mp hge)]
    rfl

theorem join_append_none :
    ((maps ++ List.replicate k none)[i]?).join = maps[i]?.join := by
  rw [getElem?_append]
  split
  next => rfl
  next hge =>
    rw [getElem?_replicate, getElem?_eq_none (not_lt.mp hge)]
    split <;> rfl

theorem lookup_indirectOf (h : blocks.length = pagemapEntries) :
    (indirectOf n blocks).lookup page = blocks[page]?.bind Block.slot := by
  rcases lt_or_ge page pagemapEntries with hlt | hge
  · simp only [BlockMap.lookup, Nat.div_eq_of_lt hlt, Nat.mod_eq_of_lt hlt]
    rfl
  obtain ⟨k, hk⟩ : ∃ k, page / pagemapEntries = k + 1 :=
    Nat.exists_eq_add_one.mpr (Nat.div_pos hge pagemapEntries_pos)
  rw [getElem?_eq_none (h ▸ hge)]
  simp only [indirectOf, BlockMap.lookup, hk, getElem?_cons_succ, getElem?_replicate]
  split <;> rfl

namespace Ok

theorem extendMap (h : d.Ok) (hle : d.size ≤ n) :
    ∃ map, d.extendMap n = .ok map ∧ map.Fits n ∧ ∀ page, map.lookup page = d.lookup page := by
  obtain ⟨map, size, current⟩ := d
  cases map with
  | indirect maps =>
    obtain ⟨hlt, hlength, hblocks⟩ := h.fits
    have hentries : indirectPagemapEntries size ≤ indirectPagemapEntries n :=
      Nat.succ_le_succ (Nat.div_le_div_right (Nat.sub_le_sub_right hle 1))
    refine ⟨.indirect (maps ++ replicate (_ - indirectPagemapEntries size) none), ?_,
      ⟨hlt.trans_le hle, length_copied hlength hentries, ?_⟩, ?_⟩
    · simp only [extendMap, indirectPagemap_of_lt hlt, copyEntries_ok hlength hentries]
      rfl
    · intro blocks hmem
      rw [mem_append] at hmem
      rcases hmem with hold | hnew
      · exact hblocks blocks hold
      · cases eq_of_mem_replicate hnew
    · intro page
      simp only [lookup, BlockMap.lookup, join_append_none]
  | direct blocks =>
    obtain ⟨hsmall, hlength⟩ := h.fits
    dsimp only at hle hsmall hlength
    rcases lt_or_ge pagemapEntries n with hlarge | hsmall'
    · have hfirst : (blocks ++ replicate _ noBlock).length = _ := length_copied hlength hsmall
      refine ⟨indirectOf n (blocks ++ replicate (pagemapEntries - size) noBlock), ?_,
        ⟨hlarge, ?_, ?_⟩, ?_⟩
      · simp only [extendMap, indirectPagemap_of_le hsmall, indirectPagemap_of_lt hlarge,
          copyEntries_ok hlength hsmall]
        rfl
      · rw [length_cons, length_replicate]
        rfl
      · intro bs hmem
        rcases mem_cons.mp hmem with heq | hrest
        · cases heq
          exact hfirst
        · cases eq_of_mem_replicate hrest
      · intro page
        rw [lookup_indirectOf hfirst, lookup_append_noBlock]
        rfl
    · refine ⟨.direct (blocks ++ replicate (n - size) noBlock), ?_,
        ⟨hsmall', length_copied hlength hle⟩, fun page => lookup_append_noBlock⟩
      simp only [extendMap, indirectPagemap_of_le hsmall, indirectPagemap_of_le hsmall',
        copyEntries_ok hlength hle]
      rfl

theorem extend (h : d.Ok) (hle : d.size ≤ extendedSize c d.size n) :
    ∃ d', d.pagerExtend c n = .ok d' ∧ d'.Ok ∧ d'.size = extendedSize c d.size n ∧
      d'.currentPartition = d.currentPartition ∧ d'.lookup = d.lookup := by
  obtain ⟨map, hmap, hfits, hlookup⟩ := h.extendMap hle
  refine ⟨{ d with map := map, size := extendedSize c d.size n }, ?_, ⟨h.pos.trans_le hle, hfits⟩,
    rfl, rfl, funext hlookup⟩
  rw [pagerExtend, hmap]
  rfl

/-- `pager_extend` to a smaller size writes beyond the new map. -/
theorem extend_wild (h : d.Ok) (hlt : extendedSize c d.size n < d.size) :
    d.pagerExtend c n = .error .wild := by
  have hround : ¬ n ≤ c.maxDoubledPages := fun hn =>
    absurd (size_le_extendedSize_iff.mpr (.inl hn)) (not_le.mpr hlt)
  have hsize : extendedSize c d.size n = roundupToPagemap n := if_neg hround
  have hentries : indirectPagemapEntries (roundupToPagemap n) < indirectPagemapEntries d.size ∧
      pagemapEntries < d.size := by
    rw [hsize] at hlt
    simp only [indirectPagemapEntries, roundupToPagemap, pagemapEntries] at hlt ⊢
    omega
  obtain ⟨map, size, current⟩ := d
  cases map with
  | direct => exact absurd h.fits.1 (not_le.mpr hentries.2)
  | indirect maps =>
    have hcopy : copyEntries maps (indirectPagemapEntries size)
        (indirectPagemapEntries (roundupToPagemap n)) none = .error .wild :=
      if_neg fun hle => not_le.mpr hentries.1 hle.2
    simp only [pagerExtend, hsize, Dpager.extendMap, indirectPagemap_of_lt hentries.2, hcopy]
    rfl

theorem extendTo (h : d.Ok) (c : PagerConfig) (page : Nat) : ∃ d', d.extendTo c 2 page = .ok d' ∧
    d'.Ok ∧ page < d'.size ∧
    d'.currentPartition = d.currentPartition ∧ d'.lookup = d.lookup := by
  rcases lt_or_ge page d.size with hlt | hge
  · refine ⟨d, ?_, h, hlt, rfl, rfl⟩
    rw [Dpager.extendTo, if_neg (not_le.mpr hlt)]
  have hcovers : page + 1 ≤ extendedSize c d.size (page + 1) := by
    rw [extendedSize]
    split
    · exact le_doubleUntil h.pos (Nat.le_add_left ..)
    · exact le_roundupToPagemap _
  obtain ⟨d', hextend, hok, hsize, hcurrent, hlookup⟩ :=
    h.extend (hge.trans (Nat.le_of_succ_le hcovers))
  have hlt : page < d'.size := hsize ▸ hcovers
  refine ⟨d', ?_, hok, hlt, hcurrent, hlookup⟩
  rw [Dpager.extendTo, if_pos hge, hextend]
  simp only [Except.bind, Dpager.extendTo, if_neg (not_le.mpr hlt)]

end Ok

/-! ### Entries that are stored -/

theorem reaches_of_lookup {x : Nat × Nat} (h : d.lookup page = some x) : d.Reaches page := by
  obtain ⟨map, size, current⟩ := d
  cases map with
  | direct blocks =>
    obtain ⟨b, hb, -⟩ := bind_eq_some_iff.mp h
    exact (List.getElem?_eq_some_iff.mp hb).1
  | indirect =>
    obtain ⟨b, hb, -⟩ := bind_eq_some_iff.mp h
    obtain ⟨blocks, hblocks, -⟩ := bind_eq_some_iff.mp hb
    exact ⟨blocks, join_eq_some_iff.mp hblocks⟩

theorem page_eq_iff {p q : Nat} :
    p = q ↔ p / pagemapEntries = q / pagemapEntries ∧ p % pagemapEntries = q % pagemapEntries :=
  Bitmap.eq_iff_div_mod

namespace Ok

theorem store (h : d.Ok) (hreach : d.Reaches page) (b : Block) :
    ∃ d', d.store page b = .ok d' ∧ d'.Ok ∧ d'.size = d.size ∧
      d'.currentPartition = d.currentPartition ∧
      d'.lookup = Function.update d.lookup page b.slot := by
  obtain ⟨map, size, current⟩ := d
  cases map with
  | direct blocks =>
    obtain ⟨hle, hlength⟩ := h.fits
    have hlt : page < blocks.length := hreach
    refine ⟨⟨.direct (blocks.set page b), size, current⟩, ?_,
      ⟨h.pos, hle, length_set.trans hlength⟩, rfl, rfl, ?_⟩
    · simp only [store, indirectPagemap_of_le hle, storeIn, hlt]
      rfl
    · funext q
      simp only [lookup, BlockMap.lookup, Function.update_apply]
      rcases eq_or_ne q page with rfl | hne
      · simp [hlt]
      · simp [hne, hne.symm]
  | indirect maps =>
    obtain ⟨hlt, hlength, hblocks⟩ := h.fits
    obtain ⟨blocks, hmap⟩ := hreach
    have hdiv : page / pagemapEntries < maps.length := (List.getElem?_eq_some_iff.mp hmap).1
    have hmod : page % pagemapEntries < blocks.length := by
      rw [hblocks blocks (mem_of_getElem? hmap)]
      exact mod_lt_entries
    refine ⟨⟨.indirect (maps.set (page / pagemapEntries)
      (some (blocks.set (page % pagemapEntries) b))), size, current⟩, ?_,
      ⟨h.pos, hlt, length_set.trans hlength, ?_⟩, rfl, rfl, ?_⟩
    · simp only [store, indirectPagemap_of_lt hlt, hmap, storeIn, hmod]
      rfl
    · intro bs hmem
      rcases mem_or_eq_of_mem_set hmem with hold | hnew
      · exact hblocks bs hold
      · cases hnew
        rw [length_set]
        exact hblocks blocks (mem_of_getElem? hmap)
    · funext q
      simp only [lookup, BlockMap.lookup, Function.update_apply, page_eq_iff (p := q)]
      rw [getElem?_set]
      rcases eq_or_ne (page / pagemapEntries) (q / pagemapEntries) with heq | hne
      · rw [if_pos heq, if_pos hdiv, ← heq, hmap]
        simp only [true_and]
        rcases eq_or_ne (page % pagemapEntries) (q % pagemapEntries) with heq' | hne'
        · simp [heq', heq' ▸ hmod]
        · simp [hne', hne'.symm]
      · simp [hne, hne.symm]

/-- The second-level map of a page within the size is there, or it is allocated. -/
theorem ensureMap (h : d.Ok) (hpage : page < d.size) (kalloc : Bool) :
    (d.ensureMap kalloc page = .ok none ∧ kalloc = false ∧ d.lookup page = none) ∨
    ∃ d', d.ensureMap kalloc page = .ok (some d') ∧ d'.Ok ∧ d'.Reaches page ∧ d'.size = d.size ∧
      d'.currentPartition = d.currentPartition ∧ d'.lookup = d.lookup := by
  obtain ⟨map, size, current⟩ := d
  cases map with
  | direct blocks =>
    obtain ⟨hle, hlength⟩ := h.fits
    refine .inr ⟨_, ?_, h, hpage.trans_eq hlength.symm, rfl, rfl, rfl⟩
    simp only [ensureMap, indirectPagemap_of_le hle]
  | indirect maps =>
    obtain ⟨hlt, hlength, hblocks⟩ := h.fits
    obtain ⟨m, hget⟩ := h.exists_map hpage
    have hdiv : page / pagemapEntries < maps.length := (List.getElem?_eq_some_iff.mp hget).1
    cases m with
    | some blocks =>
      refine .inr ⟨_, ?_, h, ⟨blocks, hget⟩, rfl, rfl, rfl⟩
      simp only [ensureMap, indirectPagemap_of_lt hlt, hget]
    | none =>
      cases kalloc with
      | false =>
        refine .inl ⟨?_, rfl, ?_⟩
        · simp [ensureMap, indirectPagemap_of_lt hlt, hget]
        · simp [lookup, BlockMap.lookup, hget]
      | true =>
        refine .inr ⟨⟨.indirect (maps.set (page / pagemapEntries)
          (some (replicate pagemapEntries noBlock))), size, current⟩, ?_,
          ⟨h.pos, hlt, length_set.trans hlength, ?_⟩,
          ⟨_, getElem?_set_self hdiv⟩, rfl, rfl, ?_⟩
        · simp [ensureMap, indirectPagemap_of_lt hlt, hget]
        · intro bs hmem
          rcases mem_or_eq_of_mem_set hmem with hold | hnew
          · exact hblocks bs hold
          · cases hnew
            exact length_replicate
        · funext q
          simp only [lookup, BlockMap.lookup]
          rw [getElem?_set]
          rcases eq_or_ne (page / pagemapEntries) (q / pagemapEntries) with heq | hne
          · rw [if_pos heq, if_pos hdiv, ← heq, hget]
            exact getElem?_replicate_noBlock
          · rw [if_neg hne]

end Ok

theorem pagerAlloc_ok (part : Option Nat) (size : BitVec 32) :
    (pagerAlloc c part size).Ok ∧ (pagerAlloc c part size).lookup = fun _ => none := by
  have hpos : 0 < (pagerAlloc c part size).size := by
    simp only [pagerAlloc]
    split
    next => exact one_pos.trans_le (le_doubleUntil_self ..)
    next h =>
      exact ((Nat.zero_le _).trans_lt (Nat.lt_of_not_le h)).trans_le (le_roundupToPagemap _)
  rw [pagerAlloc] at hpos ⊢
  generalize (if c.atop size ≤ c.maxDoubledPages then doubleUntil (c.atop size) 1 (c.atop size)
    else roundupToPagemap (c.atop size)) = n at hpos ⊢
  rcases lt_or_ge pagemapEntries n with hlarge | hsmall
  · rw [if_pos (indirectPagemap_of_lt hlarge)]
    refine ⟨⟨hpos, hlarge, length_replicate, ?_⟩, ?_⟩
    · exact fun blocks hmem => nomatch eq_of_mem_replicate hmem
    · funext page
      simp only [lookup, BlockMap.lookup, getElem?_replicate]
      split <;> rfl
  · rw [if_neg (by rw [indirectPagemap_of_le hsmall]; exact Bool.false_ne_true)]
    exact ⟨⟨hpos, hsmall, length_replicate⟩, funext fun page => getElem?_replicate_noBlock⟩

/-! ### The blocks of an object -/

/-- Every page has its own block. -/
def Injective (d : Dpager) : Prop :=
  ∀ p q x, d.lookup p = some x → d.lookup q = some x → p = q

theorem pairwise_slots (h : ∀ (i j : Nat) x,
      blocks[i]?.bind Block.slot = some x → blocks[j]?.bind Block.slot = some x → i = j) :
    blocks.Pairwise fun b b' => ∀ x, b.slot = some x → ∀ y, b'.slot = some y → x ≠ y := by
  rw [pairwise_iff_getElem]
  rintro i j hi hj hlt x hx y hy rfl
  have heq := h i j x (by simp [hi, hx]) (by simp [hj, hy])
  omega

theorem div_page (i j : Nat) (hj : j < pagemapEntries) :
    (i * pagemapEntries + j) / pagemapEntries = i := by
  rw [add_comm, Nat.add_mul_div_right _ _ pagemapEntries_pos, Nat.div_eq_of_lt hj, zero_add]

/-- The blocks of a map, in the order of `pager_dealloc`. -/
def allBlocks (d : Dpager) : List Block :=
  match d.map with
  | .direct blocks => blocks
  | .indirect maps => maps.reverse.flatMap fun m => m.getD []

namespace Ok

theorem blocks_eq (h : d.Ok) : d.blocks = .ok d.allBlocks := by
  obtain ⟨map, size, current⟩ := d
  cases map with
  | direct blocks =>
    obtain ⟨hle, hlength⟩ := h.fits
    subst hlength
    simp [Dpager.blocks, allBlocks, indirectPagemap_of_le hle]
  | indirect =>
    obtain ⟨hlt, hlength, -⟩ := h.fits
    simp [blocks, allBlocks, indirectPagemap_of_lt hlt, ← hlength]

theorem lookup_page (h : Ok ⟨.indirect maps, size, current⟩) {i j : Nat} {b : Block}
    (hi : maps[i]? = some (some blocks)) (hj : blocks[j]? = some b) :
    lookup ⟨.indirect maps, size, current⟩ (i * pagemapEntries + j) = b.slot ∧
      j < pagemapEntries := by
  have hlt : j < pagemapEntries := by
    rw [← h.fits.2.2 blocks (mem_of_getElem? hi)]
    exact (List.getElem?_eq_some_iff.mp hj).1
  refine ⟨?_, hlt⟩
  simp [lookup, BlockMap.lookup, div_page i j hlt, Nat.mul_add_mod_of_lt hlt, hi, hj]

theorem mem_allBlocks (h : d.Ok) {x : Nat × Nat} :
    x ∈ d.allBlocks.filterMap Block.slot ↔ ∃ page, d.lookup page = some x := by
  rw [mem_filterMap]
  obtain ⟨map, size, current⟩ := d
  cases map with
  | direct blocks =>
    constructor
    · rintro ⟨b, hmem, hslot⟩
      obtain ⟨page, hpage⟩ := mem_iff_getElem?.mp hmem
      exact ⟨page, (congrArg (bind · Block.slot) hpage).trans hslot⟩
    · rintro ⟨page, hpage⟩
      obtain ⟨b, hb, hslot⟩ := bind_eq_some_iff.mp hpage
      exact ⟨b, mem_of_getElem? hb, hslot⟩
  | indirect =>
    simp only [allBlocks, mem_flatMap, mem_reverse]
    constructor
    · rintro ⟨b, ⟨m, hm, hmem⟩, hslot⟩
      cases m with
      | none => cases hmem
      | some =>
        obtain ⟨i, hi⟩ := mem_iff_getElem?.mp hm
        obtain ⟨j, hj⟩ := mem_iff_getElem?.mp hmem
        exact ⟨i * pagemapEntries + j, (h.lookup_page hi hj).1.trans hslot⟩
    · rintro ⟨page, hpage⟩
      obtain ⟨b, hb, hslot⟩ := bind_eq_some_iff.mp hpage
      obtain ⟨blocks, hget, hb⟩ := bind_eq_some_iff.mp hb
      rw [join_eq_some_iff] at hget
      exact ⟨b, ⟨some blocks, mem_of_getElem? hget, mem_of_getElem? hb⟩, hslot⟩

theorem nodup_allBlocks (h : d.Ok) (hinj : d.Injective) :
    (d.allBlocks.filterMap Block.slot).Nodup := by
  rw [List.Nodup, pairwise_filterMap]
  obtain ⟨map, size, current⟩ := d
  cases map with
  | direct blocks => exact pairwise_slots hinj
  | indirect maps =>
    rw [allBlocks, pairwise_flatMap]
    constructor
    · -- Within one second-level map.
      intro m hm
      cases m with
      | none => exact .nil
      | some =>
        obtain ⟨i, hi⟩ := mem_iff_getElem?.mp (mem_reverse.mp hm)
        apply pairwise_slots
        intro j k x hj hk
        obtain ⟨b, hb, hslot⟩ := bind_eq_some_iff.mp hj
        obtain ⟨b', hb', hslot'⟩ := bind_eq_some_iff.mp hk
        have heq := hinj _ _ x ((h.lookup_page hi hb).1.trans hslot)
            ((h.lookup_page hi hb').1.trans hslot')
        exact add_left_cancel heq
    · -- In two of them.
      rw [pairwise_reverse, pairwise_iff_getElem]
      intro i k hi hk hlt b hb b' hb' x hx y hy hxy
      cases hm : maps[k] with
      | none =>
        rw [hm] at hb
        cases hb
      | some =>
        cases hm' : maps[i] with
        | none =>
          rw [hm'] at hb'
          cases hb'
        | some =>
          rw [hm] at hb
          rw [hm'] at hb'
          obtain ⟨j, hj⟩ := mem_iff_getElem?.mp hb
          obtain ⟨j', hj'⟩ := mem_iff_getElem?.mp hb'
          have hpage := h.lookup_page (getElem?_eq_getElem hk ▸ congrArg some hm) hj
          have hpage' := h.lookup_page (getElem?_eq_getElem hi ▸ congrArg some hm') hj'
          have heq := hinj _ _ x (hpage.1.trans hx) (hpage'.1.trans (hxy ▸ hy))
          have hdiv := congrArg (· / pagemapEntries) heq
          rw [div_page k j hpage.2, div_page i j' hpage'.2] at hdiv
          omega

end Ok

end Dpager

end Mach
