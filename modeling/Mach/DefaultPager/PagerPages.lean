import Mach.DefaultPager.DpagerMap

/-!
# The pages of a paging object

`pager_pages` goes over the map of an object and reports the offset of each page that has a block.
The offset is not moved on with the entries of an array: all pages of an array are given the same
offset, and the array after a second-level map that is there starts one page further on, not
`PAGEMAP_ENTRIES`.  So an offset is right only for the first page of an array with no second-level
map before it (`pagerPages_right_iff`).
-/

namespace Mach

open List Function Dpager

/-- `actual`, and the entries of `pages` that are filled. -/
abbrev Reported := Nat × List Nat

/-- An entry of an array, which belongs to the page at the offset. -/
def reportBlock (numpages offset : Nat) : Reported → Block → Reported
  | (actual, pages), b =>
    if b = noBlock then (actual, pages)
    else (actual + 1, if actual < numpages then pages ++ [offset] else pages)

/-- A second-level map, with the offset before and after it. -/
def reportMap (c : PagerConfig) (numpages : Nat) :
    Nat × Reported → Option (List Block) → Nat × Reported
  | (offset, r), none => (offset + c.pageSize * pagemapEntries, r)
  | (offset, r), some blocks =>
    (offset + c.pageSize, blocks.foldl (reportBlock numpages offset) r)

/-- `pager_pages`. -/
def Dpager.pagerPages (c : PagerConfig) (numpages : Nat) (d : Dpager) :
    Except PagerFault Reported :=
  match d.map, indirectPagemap d.size with
  | .indirect maps, true =>
    if indirectPagemapEntries d.size ≤ maps.length then
      .ok ((maps.take (indirectPagemapEntries d.size)).foldl (reportMap c numpages) (0, 0, [])).2
    else .error .wild
  | .direct blocks, false =>
    if d.size ≤ blocks.length then
      .ok ((blocks.take d.size).foldl (reportBlock numpages 0) (0, []))
    else .error .wild
  | _, _ => .error .wild

namespace BlockMap

/-- The pages that have a block, in increasing order. -/
def pages : BlockMap → List Nat
  | m@(.direct blocks) => (range blocks.length).filter fun p => (m.lookup p).isSome
  | m@(.indirect maps) => (range (pagemapEntries * maps.length)).filter fun p => (m.lookup p).isSome

/-- The page is the first one of its array, and no second-level map comes before. -/
def First (p : Nat) : BlockMap → Prop
  | .direct _ => p = 0
  | .indirect maps =>
    p % pagemapEntries = 0 ∧ ∀ m ∈ maps.take (p / pagemapEntries), m = none

end BlockMap

/-- The number of the offsets, and as many of them as there is room for. -/
def report (numpages : Nat) (offsets : List Nat) : Reported :=
  (offsets.length, offsets.take numpages)

variable {numpages : Nat}

theorem reportBlock_report (offset : Nat) (offsets : List Nat) (b : Block) :
    reportBlock numpages offset (report numpages offsets) b =
      report numpages (if b.slot.isSome then offsets ++ [offset] else offsets) := by
  rw [report, reportBlock, Block.slot]
  split
  next => rfl
  next =>
    simp only [report, Option.isSome_some, if_true, length_append, length_singleton, take_append]
    rcases lt_or_ge offsets.length numpages with hlt | hge
    · rw [if_pos hlt, take_of_length_le (l := [offset]) (Nat.sub_pos_of_lt hlt)]
    · rw [if_neg hge.not_gt, Nat.sub_eq_zero_of_le hge, take_zero, append_nil]

theorem foldl_reportBlock (numpages offset : Nat) (offsets : List Nat) (blocks : List Block) :
    blocks.foldl (reportBlock numpages offset) (report numpages offsets) =
      report numpages (offsets ++
        ((range blocks.length).filter fun i => (blocks[i]?.bind Block.slot).isSome).map
          fun _ => offset) := by
  induction blocks using List.reverseRecOn with
  | nil => simp
  | append_singleton blocks b ih =>
    rw [foldl_append, ih, foldl_cons, foldl_nil, reportBlock_report, length_append,
      length_singleton, range_succ, filter_append]
    have hsame : ∀ i ∈ range blocks.length, ((blocks ++ [b])[i]?.bind Block.slot).isSome =
        (blocks[i]?.bind Block.slot).isSome :=
      fun i hi => by rw [getElem?_append_left (mem_range.mp hi)]
    rw [filter_congr hsame]
    cases hb : b.slot <;> simp [hb]

/-- The offset that is reported for the pages of a second-level map, in pages. -/
def givenOffset (maps : List (Option (List Block))) (j : Nat) : Nat :=
  ((maps.take j).map fun m => if m = none then pagemapEntries else 1).sum

variable {c : PagerConfig} {maps : List (Option (List Block))} {d : Dpager}

theorem pages_map (n : Nat) {α : Type} (g : Nat → α) :
    (((range pagemapEntries).map (pagemapEntries * n + ·)).filter fun p =>
        ((BlockMap.indirect maps).lookup p).isSome).map (fun p => g (p / pagemapEntries)) =
      ((range pagemapEntries).filter fun i =>
        ((maps[n]?.join.bind fun blocks => blocks[i]?).bind Block.slot).isSome).map
        fun _ => g n := by
  have hdiv : ∀ i ∈ range pagemapEntries, (pagemapEntries * n + i) / pagemapEntries = n := by
    intro i hi
    rw [Nat.mul_add_div pagemapEntries_pos, Nat.div_eq_of_lt (mem_range.mp hi), add_zero]
  rw [filter_map, map_map, filter_congr (q := fun i =>
    ((maps[n]?.join.bind fun blocks => blocks[i]?).bind Block.slot).isSome)]
  · exact map_congr_left fun i hi => congrArg g (hdiv i (mem_of_mem_filter hi))
  · intro i hi
    rw [comp_apply, BlockMap.lookup, hdiv i hi, Nat.mul_add_mod, Nat.mod_eq_of_lt (mem_range.mp hi)]

theorem foldl_reportMap (hmaps : ∀ blocks, some blocks ∈ maps → blocks.length = pagemapEntries)
    {n : Nat} (hn : n ≤ maps.length) :
    (maps.take n).foldl (reportMap c numpages) (0, 0, []) =
      (c.pageSize * givenOffset maps n, report numpages
        (((range (pagemapEntries * n)).filter fun p =>
            ((BlockMap.indirect maps).lookup p).isSome).map fun p =>
          c.pageSize * givenOffset maps (p / pagemapEntries))) := by
  induction n with
  | zero => simp [givenOffset, report]
  | succ n ih =>
    have hget := getElem?_eq_getElem (Nat.lt_of_succ_le hn)
    rw [take_add_one, foldl_append, ih (Nat.le_of_succ_le hn), Nat.mul_succ, range_add,
      filter_append, map_append, pages_map n fun j => c.pageSize * givenOffset maps j]
    cases hm : maps[n] with
    | none => simp [hget, hm, reportMap, mul_add, givenOffset, take_add_one]
    | some blocks =>
      have hlength := hmaps blocks (hm ▸ getElem_mem _)
      simp [hget, hm, reportMap, mul_add, foldl_reportBlock, hlength, givenOffset, take_add_one]

theorem givenOffset_add (maps : List (Option (List Block))) :
    (maps.map fun m => if m = none then pagemapEntries else 1).sum + 63 * maps.countP
    Option.isSome =
      pagemapEntries * maps.length := by
  induction maps with
  | nil => rfl
  | cons m maps ih =>
    cases m <;> simp [pagemapEntries] at ih ⊢ <;> omega

theorem givenOffset_eq_iff {p : Nat} (hp : p / pagemapEntries ≤ maps.length) :
    givenOffset maps (p / pagemapEntries) = p ↔ (BlockMap.indirect maps).First p := by
  have hadd := givenOffset_add (maps.take (p / pagemapEntries))
  have hnone : (∀ m ∈ maps.take (p / pagemapEntries), m = none) ↔
      (maps.take (p / pagemapEntries)).countP Option.isSome = 0 := by
    simp [countP_eq_zero]
  rw [length_take_of_le hp] at hadd
  rw [givenOffset, BlockMap.First, hnone]
  have hp := Nat.div_add_mod p pagemapEntries
  omega

/-- What is reported is right if each page is given its offset. -/
theorem report_eq_iff (c : PagerConfig) (l : List Nat) (f : Nat → Nat) :
    report numpages (l.map fun p => c.pageSize * f p) =
        (l.length, (l.take numpages).map (c.pageSize * ·)) ↔
      ∀ p ∈ l.take numpages, f p = p := by
  have hpos : 0 < c.pageSize := Nat.two_pow_pos c.shift
  rw [report, ← map_take, length_map, Prod.mk.injEq, map_inj_left]
  simp [hpos.ne']

/-- The offsets of a paging object are reported as they should be if and only if each of them is
that of a first page. -/
theorem pagerPages_right_iff (c : PagerConfig) (numpages : Nat) {d : Dpager} (hd : d.Ok) :
    d.pagerPages c numpages =
        .ok (d.map.pages.length, (d.map.pages.take numpages).map (c.pageSize * ·)) ↔
      ∀ p ∈ d.map.pages.take numpages, d.map.First p := by
  obtain ⟨map, size, current⟩ := d
  cases map with
  | direct blocks =>
    obtain ⟨hle, rfl⟩ := hd.fits
    have hreport := foldl_reportBlock numpages 0 [] blocks
    rw [report, take_nil, nil_append, ← mul_zero c.pageSize] at hreport
    simp only [pagerPages, indirectPagemap_of_le hle, le_refl, if_true, take_length,
      Except.ok.injEq]
    exact (Eq.congr_left hreport).trans ((report_eq_iff c _ fun _ => 0).trans
      (forall₂_congr fun p _ => eq_comm))
  | indirect maps =>
    obtain ⟨hlt, hlength, hmaps⟩ := hd.fits
    simp only [pagerPages, indirectPagemap_of_lt hlt, ← hlength, le_refl, if_true, Except.ok.injEq]
    rw [foldl_reportMap hmaps le_rfl]
    refine (report_eq_iff c _ _).trans (forall₂_congr fun p hp => givenOffset_eq_iff ?_)
    have hp := mem_range.mp (mem_of_mem_filter (mem_of_mem_take hp))
    exact (Nat.div_lt_of_lt_mul hp).le

/-- An object of two pages with a block each. -/
def twoPages : Dpager := ⟨.direct [⟨0, 0⟩, ⟨1, 0⟩], 2, some 0⟩

/-- One of the pages is asked for. -/
theorem pagerPages_right_iff_one :
    twoPages.pagerPages ⟨12, le_rfl, by decide⟩ 1 = .ok (2, [0]) :=
  (pagerPages_right_iff (d := twoPages) ⟨12, le_rfl, by decide⟩ 1 ⟨by decide, by decide, rfl⟩).mpr
    (by decide : ∀ p ∈ twoPages.map.pages.take 1, p = 0)

/-- Both pages are reported at offset 0. -/
theorem not_pagerPages_right :
    twoPages.map.pages = [0, 1] ∧
      twoPages.pagerPages ⟨12, le_rfl, by decide⟩ 2 = .ok (2, [0, 0]) :=
  ⟨by decide, rfl⟩

end Mach
