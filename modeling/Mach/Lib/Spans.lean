import Mathlib.Algebra.GroupWithZero.Nat
import Mathlib.Order.Lattice
import Mathlib.Order.Nat
import Mathlib.Data.List.Pairwise

/-!
# Spans

A *span* is a half-open interval, given by its two ends.  `Between lo hi l` says that the spans of
the list `l` are not empty, follow each other without overlap, and lie between `lo` and `hi`.  It
is defined along the list, so that it splits at every member (`between_middle`) and at every place
(`between_append`).  A span is put into a gap, taken out, cut in two, and two are joined into one.

`Free l a b` says that no span of the list meets the interval from `a` to `b`, and `Filled lo hi l`
that the spans leave no gap between two bounds.
-/

universe u

namespace Spans

variable {α : Type u} [LinearOrder α]

/-- The spans follow each other between two bounds. -/
def Between (lo hi : α) : List (α × α) → Prop
  | [] => lo ≤ hi
  | s :: l => lo ≤ s.1 ∧ s.1 < s.2 ∧ Between s.2 hi l

/-- The end of the last span, or a lower bound. -/
def endOf (lo : α) (l : List (α × α)) : α := (l.getLast?.map Prod.snd).getD lo

/-- The start of the first span, or an upper bound. -/
def startOf (hi : α) (l : List (α × α)) : α := (l.head?.map Prod.fst).getD hi

/-- A span contains the point. -/
def Covered (l : List (α × α)) (a : α) : Prop := ∃ s ∈ l, s.1 ≤ a ∧ a < s.2

/-- No span meets the interval. -/
def Free (l : List (α × α)) (a b : α) : Prop := ∀ s ∈ l, s.2 ≤ a ∨ b ≤ s.1

variable {lo hi a b c : α} {s t : α × α} {l l₁ l₂ : List (α × α)}

omit [LinearOrder α] in
@[simp]
theorem endOf_concat : endOf lo (l ++ [s]) = s.2 := by
  rw [endOf, List.getLast?_concat]
  rfl

theorem Between.le (h : Between lo hi l) : lo ≤ hi := by
  induction l generalizing lo with
  | nil => exact h
  | cons s l ih => exact h.1.trans (h.2.1.le.trans (ih h.2.2))

theorem Between.mono (h : Between lo hi l) (hlo : a ≤ lo) (hhi : hi ≤ b) : Between a b l := by
  induction l generalizing a lo with
  | nil => exact hlo.trans (h.trans hhi)
  | cons s l ih => exact ⟨hlo.trans h.1, h.2.1, ih h.2.2 le_rfl⟩

theorem between_middle :
    Between lo hi (l₁ ++ s :: l₂) ↔ Between lo s.1 l₁ ∧ s.1 < s.2 ∧ Between s.2 hi l₂ := by
  induction l₁ generalizing lo with
  | nil => exact .rfl
  | cons t l₁ ih =>
    change lo ≤ t.1 ∧ t.1 < t.2 ∧ Between t.2 hi (l₁ ++ s :: l₂) ↔
      (lo ≤ t.1 ∧ t.1 < t.2 ∧ Between t.2 s.1 l₁) ∧ _
    rw [ih, and_assoc, and_assoc]

theorem between_append : Between lo hi (l₁ ++ l₂) ↔
      Between lo (endOf lo l₁) l₁ ∧ Between (endOf lo l₁) hi l₂ := by
  rcases List.eq_nil_or_concat l₁ with rfl | ⟨l, s, rfl⟩
  · exact ⟨fun h => ⟨le_rfl, h⟩, fun h => h.2⟩
  rw [List.concat_eq_append, endOf_concat, ← List.append_cons, between_middle, between_middle]
  constructor
  · exact fun ⟨h₁, hs, h₂⟩ => ⟨⟨h₁, hs, le_refl s.2⟩, h₂⟩
  · exact fun ⟨⟨h₁, hs, _⟩, h₂⟩ => ⟨h₁, hs, h₂⟩

section

variable (h : Between lo hi (l₁ ++ l₂))
include h

theorem Between.endOf_le_startOf : endOf lo l₁ ≤ startOf hi l₂ := by
  have h := (between_append.mp h).2
  cases l₂ with
  | nil => exact h
  | cons => exact h.1

theorem Between.startOf_le : startOf hi l₂ ≤ hi := by
  have h := (between_append.mp h).2
  cases l₂ with
  | nil => exact le_rfl
  | cons => exact h.2.1.le.trans h.2.2.le

end

theorem Between.mem (h : Between lo hi l) (hs : s ∈ l) : lo ≤ s.1 ∧ s.1 < s.2 ∧ s.2 ≤ hi := by
  obtain ⟨l₁, l₂, rfl⟩ := List.append_of_mem hs
  obtain ⟨h₁, hs, h₂⟩ := between_middle.mp h
  exact ⟨h₁.le, hs, h₂.le⟩

theorem Between.above (h : Between a hi l) (hb : b ≤ startOf hi l) : Between b hi l := by
  cases l with
  | nil => exact hb
  | cons => exact ⟨hb, h.2⟩

theorem Between.insert (h : Between lo hi (l₁ ++ l₂)) (ha : endOf lo l₁ ≤ s.1) (hs : s.1 < s.2)
    (hb : s.2 ≤ startOf hi l₂) : Between lo hi (l₁ ++ s :: l₂) := by
  obtain ⟨h₁, h₂⟩ := between_append.mp h
  exact between_middle.mpr ⟨h₁.mono le_rfl ha, hs, h₂.above hb⟩

theorem Between.erase (h : Between lo hi (l₁ ++ s :: l₂)) : Between lo hi (l₁ ++ l₂) := by
  obtain ⟨-, hs, h₂⟩ := between_middle.mp h
  have hend : endOf lo l₁ ≤ s.1 := (between_append.mp h).2.1
  exact between_append.mpr ⟨(between_append.mp h).1, h₂.mono (hend.trans hs.le) le_rfl⟩

theorem Between.cut (h : Between lo hi (l₁ ++ s :: l₂)) (ha : s.1 < a) (hb : a < s.2) :
    Between lo hi (l₁ ++ (s.1, a) :: (a, s.2) :: l₂) := by
  obtain ⟨h₁, -, h₂⟩ := between_middle.mp h
  exact between_middle.mpr ⟨h₁, ha, le_refl a, hb, h₂⟩

theorem Between.join (h : Between lo hi (l₁ ++ s :: t :: l₂)) :
    Between lo hi (l₁ ++ (s.1, t.2) :: l₂) := by
  obtain ⟨h₁, hs, hst, ht, h₂⟩ := between_middle.mp h
  exact between_middle.mpr ⟨h₁, hs.trans_le (hst.trans ht.le), h₂⟩

theorem Between.extend (h : Between lo hi (l₁ ++ s :: l₂)) (ha : s.2 ≤ a) (hb : a ≤ startOf hi l₂) :
    Between lo hi (l₁ ++ (s.1, a) :: l₂) := by
  obtain ⟨h₁, hs, h₂⟩ := between_middle.mp h
  exact between_middle.mpr ⟨h₁, hs.trans_le ha, h₂.above hb⟩

theorem Between.free_gap (h : Between lo hi (l₁ ++ l₂)) (ha : endOf lo l₁ ≤ a)
    (hb : b ≤ startOf hi l₂) : Free (l₁ ++ l₂) a b := by
  obtain ⟨h₁, h₂⟩ := between_append.mp h
  intro s hs
  cases List.mem_append.mp hs with
  | inl hs => exact .inl ((h₁.mem hs).2.2.trans ha)
  | inr hs => exact .inr ((h₂.above hb).mem hs).1

@[simp]
theorem covered_append : Covered (l₁ ++ l₂) a ↔ Covered l₁ a ∨ Covered l₂ a := by
  simp [Covered, or_and_right, exists_or]

@[simp]
theorem covered_cons : Covered (s :: l) a ↔ (s.1 ≤ a ∧ a < s.2) ∨ Covered l a := by
  simp [Covered, or_and_right, exists_or]

theorem Between.not_covered (h : Between lo hi l) (ha : a < lo ∨ hi ≤ a) : ¬ Covered l a := by
  rintro ⟨s, hs, hs₁, hs₂⟩
  obtain ⟨hlo, -, hhi⟩ := h.mem hs
  cases ha with
  | inl ha => exact absurd (hlo.trans hs₁) (not_le_of_gt ha)
  | inr ha => exact absurd (hs₂.trans_le hhi) (not_lt_of_ge ha)

theorem covered_cut (hb : s.1 ≤ b) (hc : b ≤ s.2) :
    Covered (l₁ ++ (s.1, b) :: (b, s.2) :: l₂) a ↔ Covered (l₁ ++ s :: l₂) a := by
  simp only [covered_append, covered_cons]
  refine or_congr_right ?_
  rw [← or_assoc]
  refine or_congr_left ⟨?_, fun h => ?_⟩
  · rintro (h | h)
    · exact ⟨h.1, h.2.trans_le hc⟩
    · exact ⟨hb.trans h.1, h.2⟩
  · exact (lt_or_ge a b).imp (fun hab => ⟨h.1, hab⟩) fun hab => ⟨hab, h.2⟩

end Spans

/-! ## Lengths -/

namespace Spans

/-- The length of spans of numbers. -/
def total (l : List (Nat × Nat)) : Nat := (l.map fun s => s.2 - s.1).sum

variable {l l₁ l₂ : List (Nat × Nat)} {s : Nat × Nat} {b : Nat}

@[simp]
theorem total_append : total (l₁ ++ l₂) = total l₁ + total l₂ := by
  rw [total, List.map_append, List.sum_append]
  rfl

@[simp]
theorem total_cons : total (s :: l) = s.2 - s.1 + total l :=
  List.sum_cons

/-- Between are not longer than the distance of their bounds. -/
theorem Between.total_le {lo hi : Nat} (h : Between lo hi l) : lo + total l ≤ hi := by
  induction l generalizing lo with
  | nil => exact h
  | cons s l ih =>
    obtain ⟨hlo, hs, hrest⟩ := h
    have hle := ih hrest
    rw [total_cons]
    omega

/-! ## Spans without gaps -/

/-- The spans follow each other without gaps. -/
def Filled (lo hi : Nat) : List (Nat × Nat) → Prop
  | [] => lo = hi
  | s :: l => s.1 = lo ∧ s.1 < s.2 ∧ Filled s.2 hi l

variable {lo hi : Nat}

theorem Filled.between (h : Filled lo hi l) : Between lo hi l := by
  induction l generalizing lo with
  | nil => exact h.le
  | cons s l ih => exact ⟨h.1.symm.le, h.2.1, ih h.2.2⟩

theorem Filled.concat {mid : Nat} (h : Filled lo mid l) (hlt : mid < hi) :
    Filled lo hi (l ++ [(mid, hi)]) := by
  induction l generalizing lo with
  | nil =>
    exact ⟨h.symm, hlt, rfl⟩
  | cons s l ih => exact ⟨h.1, h.2.1, ih h.2.2⟩

theorem Filled.add_total (h : Filled lo hi l) : lo + total l = hi := by
  induction l generalizing lo with
  | nil => exact h
  | cons s l ih =>
    obtain ⟨hlo, hs, hrest⟩ := h
    have hle := ih hrest
    rw [total_cons]
    omega

/-- Spans without gaps are moved to another place. -/
theorem Filled.move {start : Nat} {f : Nat → Nat} (h : Filled lo hi l)
    (hf : ∀ p, lo ≤ p → p ≤ hi → f p = start + (p - lo)) :
    Filled start (start + (hi - lo)) (l.map fun s => (f s.1, f s.2)) := by
  induction l generalizing lo start with
  | nil =>
    have h : lo = hi := h
    change start = start + (hi - lo)
    omega
  | cons s l ih =>
    obtain ⟨hlo, hs, hrest⟩ := h
    have hle : s.2 ≤ hi := hrest.between.le
    have h₁ := hf s.1 (by omega) (by omega)
    have h₂ := hf s.2 (by omega) hle
    have hfirst : f s.1 = start := by omega
    have hmove : f s.1 < f s.2 := by omega
    refine ⟨hfirst, hmove, ?_⟩
    have hmoved : Filled (start + (s.2 - lo)) (start + (s.2 - lo) + (hi - s.2)) _ :=
      ih hrest fun p hp hp' => by
        rw [hf p (by omega) hp']
        omega
    have hstop : start + (s.2 - lo) + (hi - s.2) = start + (hi - lo) := by omega
    rw [hstop] at hmoved
    change Filled (f s.2) ..
    rw [h₂]
    exact hmoved

/-- Spans without gaps are put into a gap. -/
theorem Between.fill {l₃ : List (Nat × Nat)} {a : Nat} (h : Between lo hi (l₁ ++ l₂))
    (hf : Filled a b l₃) (ha : endOf lo l₁ ≤ a) (hb : b ≤ startOf hi l₂) :
    Between lo hi (l₁ ++ (l₃ ++ l₂)) := by
  induction l₃ generalizing l₁ a with
  | nil => exact h
  | cons s l₃ ih =>
    obtain ⟨rfl, hs, hrest⟩ := hf
    have hle : s.2 ≤ b := hrest.between.le
    have hinsert := h.insert ha hs (hle.trans hb)
    rw [List.append_cons] at hinsert
    have hfill := ih hinsert hrest (by rw [endOf_concat])
    rw [← List.append_cons] at hfill
    exact hfill

end Spans
