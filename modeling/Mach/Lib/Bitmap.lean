import Mathlib.Data.Finset.Card
import Mathlib.Data.List.GetD

/-!
# Bitmaps

A bitmap is a list of words of `w` bits.  Bit `i` is bit `i % w` of word `i / w`.  The search for a
clear bit first finds a word that is not full and then a bit of it.  It finds the least clear bit
(`firstClear_spec`), so that it stays below every bound below which there is a clear bit.
-/

/-- Words of `w` bits. -/
abbrev Bitmap (w : Nat) := List (BitVec w)

namespace Bitmap

open List

variable {w : Nat} {m : Bitmap w} {i j : Nat} {k : Nat}

/-- A bit. -/
def test (m : Bitmap w) (i : Nat) : Bool := (m.getD (i / w) 0).getLsbD (i % w)

/-- Set a bit. -/
def set (m : Bitmap w) (i : Nat) : Bitmap w :=
  m.modify (i / w) fun word => word ||| BitVec.twoPow w (i % w)

/-- Clear a bit. -/
def clear (m : Bitmap w) (i : Nat) : Bitmap w :=
  m.modify (i / w) fun word => word &&& ~~~ BitVec.twoPow w (i % w)

/-- The first bit of a word that is clear. -/
def clearBit (word : BitVec w) : Option Nat := (List.range w).find? fun i => !word.getLsbD i

/-- The first word that is not full. -/
def openWord (m : Bitmap w) : Nat := m.findIdx fun word => word ≠ BitVec.allOnes w

@[simp] theorem length_set : (m.set i).length = m.length := length_modify ..

@[simp] theorem length_clear : (m.clear i).length = m.length := length_modify ..

theorem eq_iff_div_mod : i = j ↔ i / w = j / w ∧ i % w = j % w := by
  refine ⟨fun h => h ▸ ⟨rfl, rfl⟩, fun ⟨hdiv, hmod⟩ => ?_⟩
  rw [← Nat.div_add_mod i w, ← Nat.div_add_mod j w, hdiv, hmod]

theorem getD_modify {f : BitVec w → BitVec w} {l : Nat} (hk : k < m.length) :
    List.getD (m.modify k f) l 0 = if k = l then f (m.getD l 0) else m.getD l 0 := by
  rw [getD_eq_getElem?_getD, getD_eq_getElem?_getD, getElem?_modify]
  split
  next h =>
    subst h
    rw [getElem?_eq_getElem hk]
    rfl
  next => simp

section Update

variable (hw : 0 < w) (hi : i / w < m.length)
include hw hi

theorem test_set : (m.set i).test j = (m.test j || decide (i = j)) := by
  have hmod : i % w < w := Nat.mod_lt i hw
  rw [test, set, getD_modify hi, test]
  split
  next hdiv =>
    have heq : i = j ↔ i % w = j % w := by
      rw [eq_iff_div_mod, and_iff_right hdiv]
    rw [BitVec.getLsbD_or, BitVec.getLsbD_twoPow, decide_eq_true hmod, Bool.true_and,
      decide_eq_decide.mpr heq]
  next hdiv =>
    have hne : i ≠ j := fun h => hdiv (congrArg (· / w) h)
    simp [hne]

theorem test_clear : (m.clear i).test j = (m.test j && decide (i ≠ j)) := by
  have hmod : i % w < w := Nat.mod_lt i hw
  have hmod' : j % w < w := Nat.mod_lt j hw
  rw [test, clear, getD_modify hi, test]
  split
  next hdiv =>
    have heq : i = j ↔ i % w = j % w := by
      rw [eq_iff_div_mod, and_iff_right hdiv]
    rw [BitVec.getLsbD_and, BitVec.getLsbD_not, BitVec.getLsbD_twoPow, decide_eq_true hmod,
      decide_eq_true hmod', Bool.true_and, Bool.true_and, ← decide_not,
      decide_eq_decide.mpr (not_congr heq)]
  next hdiv =>
    have hne : i ≠ j := fun h => hdiv (congrArg (· / w) h)
    simp [hne]

end Update

variable {word : BitVec w}

/-- A word that is not full has a clear bit, and the search finds the first. -/
theorem clearBit_spec (hk : k < w) (hclear : word.getLsbD k = false) :
    ∃ bit, clearBit word = some bit ∧ bit < w ∧ word.getLsbD bit = false ∧ bit ≤ k := by
  cases hfind : clearBit word with
  | none =>
    have hall := find?_range_eq_none.mp hfind k hk
    simp [hclear] at hall
  | some bit =>
    obtain ⟨hbit, hmem, hleast⟩ := find?_range_eq_some.mp hfind
    refine ⟨bit, rfl, mem_range.mp hmem, by simpa using hbit, ?_⟩
    by_contra hlt
    have hset := hleast k (Nat.lt_of_not_le hlt)
    simp [hclear] at hset

theorem ne_allOnes (hk : k < w) (hclear : word.getLsbD k = false) : word ≠ BitVec.allOnes w := by
  rintro rfl
  simp [hk] at hclear

theorem firstClear_spec (hw : 0 < w) (hi : i / w < m.length) (hclear : m.test i = false) :
    ∃ word bit, m[m.openWord]? = some word ∧ clearBit word = some bit ∧ bit < w ∧
      m.test (m.openWord * w + bit) = false ∧ m.openWord * w + bit ≤ i := by
  have hmod : i % w < w := Nat.mod_lt i hw
  have hword : m.getD (i / w) 0 = m.get ⟨i / w, hi⟩ := by
    simp [hi]
  rw [test, hword] at hclear
  have hopen : m.openWord < m.length :=
    findIdx_lt_length_of_exists
      ⟨m.get ⟨i / w, hi⟩, get_mem .., by simpa using ne_allOnes hmod hclear⟩
  have hle : m.openWord ≤ i / w := by
    by_contra hlt
    have hfull := not_of_lt_findIdx (Nat.lt_of_not_le hlt)
    exact ne_allOnes hmod hclear (by simpa using hfull)
  have htest : ∀ bit, bit < w →
      m.test (m.openWord * w + bit) = (m.get ⟨m.openWord, hopen⟩).getLsbD bit := by
    intro bit hbit
    rw [test, Nat.add_comm, Nat.add_mul_div_right _ _ hw, Nat.add_mul_mod_self_right,
      Nat.div_eq_of_lt hbit, Nat.zero_add, Nat.mod_eq_of_lt hbit]
    simp [hopen]
  obtain ⟨k, hk, hclear', hki⟩ : ∃ k < w, (m.get ⟨m.openWord, hopen⟩).getLsbD k = false ∧
      m.openWord * w + k ≤ i := by
    rcases hle.eq_or_lt with heq | hlt
    · exact ⟨i % w, hmod, by simpa [heq] using hclear, heq ▸ (Nat.div_add_mod' i w).le⟩
    have hfound : m.get ⟨m.openWord, hopen⟩ ≠ .allOnes w :=
      of_decide_eq_true (findIdx_getElem (w := hopen))
    by_contra hall
    refine hfound (BitVec.eq_of_getLsbD_eq fun k hk => ?_)
    rw [BitVec.getLsbD_allOnes, decide_eq_true hk]
    by_contra hset
    refine hall ⟨k, hk, by simpa using hset, ?_⟩
    calc m.openWord * w + k ≤ (m.openWord + 1) * w := by rw [Nat.add_mul]; omega
      _ ≤ i / w * w := Nat.mul_le_mul_right w hlt
      _ ≤ i := Nat.div_mul_le_self i w
  obtain ⟨bit, hfind, hbit, hclear'', hleast⟩ := clearBit_spec hk hclear'
  exact ⟨_, bit, getElem?_eq_getElem hopen, hfind, hbit, (htest bit hbit).trans hclear'', by omega⟩

/-- The bits below `n` that are clear. -/
def clearBits (m : Bitmap w) (n : Nat) : Finset Nat :=
  (Finset.range n).filter fun i => m.test i = false

theorem mem_clearBits {n : Nat} : i ∈ m.clearBits n ↔ i < n ∧ m.test i = false := by
  simp [clearBits]

section Count

variable {n : Nat} (hw : 0 < w) (hi : i / w < m.length) (hn : i < n)
include hw hi hn

theorem card_clearBits_set (hclear : m.test i = false) :
    ((m.set i).clearBits n).card + 1 = (m.clearBits n).card := by
  have herase : (m.set i).clearBits n = (m.clearBits n).erase i := by
    ext j
    simp only [mem_clearBits, Finset.mem_erase, test_set hw hi, Bool.or_eq_false_iff,
      decide_eq_false_iff_not]
    tauto
  rw [herase, Finset.card_erase_add_one (mem_clearBits.mpr ⟨hn, hclear⟩)]

theorem card_clearBits_clear (hset : m.test i = true) :
    ((m.clear i).clearBits n).card = (m.clearBits n).card + 1 := by
  have hinsert : (m.clear i).clearBits n = insert i (m.clearBits n) := by
    ext j
    simp only [mem_clearBits, Finset.mem_insert, test_clear hw hi, Bool.and_eq_false_iff,
      decide_eq_false_iff_not, not_not]
    constructor
    · rintro ⟨hj, hclear | rfl⟩
      · exact .inr ⟨hj, hclear⟩
      · exact .inl rfl
    · rintro (rfl | ⟨hj, hclear⟩)
      · exact ⟨hn, .inr rfl⟩
      · exact ⟨hj, .inl hclear⟩
  rw [hinsert, Finset.card_insert_of_notMem]
  simp [mem_clearBits, hset]

end Count

end Bitmap
