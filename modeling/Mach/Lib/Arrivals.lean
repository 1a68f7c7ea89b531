import Mathlib.Algebra.BigOperators.Group.Finset.Piecewise

/-!
# Queues of ranked elements

The elements that wait, each with its rank, are a list in order of arrival.  The best one is the
first to arrive of those with the least rank.  An implementation may keep the elements of each rank
apart, as `ofRank` does.  Then the best one is the head of the first list that is not empty
(`best_eq_of_ofRank`).
-/

universe u

namespace Arrivals

open List hiding beq_eq_decide

variable {α : Type u}

/-- The elements of a rank, in order of arrival. -/
def ofRank (i : Nat) (xs : List (α × Nat)) : List α :=
  (xs.filter fun x => x.2 = i).map Prod.fst

/-- The first to arrive of those with the least rank. -/
def best (xs : List (α × Nat)) : Option (α × Nat) :=
  xs.find? fun x => ∀ y ∈ xs, x.2 ≤ y.2

variable {xs : List (α × Nat)} {i : Nat} {a : α}

@[simp] theorem mem_ofRank : a ∈ ofRank i xs ↔ (a, i) ∈ xs := by
  simp [ofRank]

theorem length_eq_sum_ofRank {n : Nat} (h : ∀ x ∈ xs, x.2 < n) :
    xs.length = ∑ i ∈ Finset.range n, (ofRank i xs).length := by
  induction xs with
  | nil => simp [ofRank]
  | cons x xs ih =>
    have hcons : ∀ i, (ofRank i (x :: xs)).length =
        (ofRank i xs).length + if x.2 = i then 1 else 0 := by
      intro i
      rw [ofRank, ofRank, filter_cons]
      split <;> simp_all
    have hx : x.2 ∈ Finset.range n := Finset.mem_range.mpr (h x mem_cons_self)
    have hxs := ih fun y hy => h y (mem_cons_of_mem _ hy)
    rw [length_cons, hxs, Finset.sum_congr rfl fun i _ => hcons i, Finset.sum_add_distrib,
      Finset.sum_ite_eq, if_pos hx]

/-- The head of the first list that is not empty. -/
theorem best_eq_of_ofRank {l : List α}
    (hi : ofRank i xs = a :: l) (hlt : ∀ j < i, ofRank j xs = []) : best xs = some (a, i) := by
  have hmem : (a, i) ∈ xs := mem_ofRank.mp (hi ▸ mem_cons_self)
  have hle : ∀ x ∈ xs, i ≤ x.2 := by
    intro x hx
    rcases lt_or_ge x.2 i with hj | hj
    · have hx' : x.1 ∈ ofRank x.2 xs := mem_ofRank.mpr hx
      rw [hlt x.2 hj] at hx'
      cases hx'
    · exact hj
  have hfilter : (xs.filter fun x => ∀ y ∈ xs, x.2 ≤ y.2) = xs.filter fun x => x.2 = i := by
    apply filter_congr
    intro x hx
    rw [decide_eq_decide]
    constructor
    · intro h
      exact (h (a, i) hmem).antisymm (hle x hx)
    · rintro rfl
      exact hle
  have hhead : ((xs.filter fun x => x.2 = i).map Prod.fst).head? = some a := by
    rw [← ofRank, hi, head?_cons]
  rw [best, ← head?_filter, hfilter]
  rw [head?_map] at hhead
  cases hx : (xs.filter fun x => x.2 = i).head? with
  | none =>
    rw [hx] at hhead
    cases hhead
  | some x =>
    have hrank : x.2 = i := by
      have := mem_of_head? hx
      simpa using (mem_filter.mp this).2
    rw [hx, Option.map_some] at hhead
    rw [← Option.some.inj hhead, ← hrank]

variable {x : α × Nat}

theorem best_mem (h : best xs = some x) : x ∈ xs :=
  mem_of_find?_eq_some h

/-- The best one has the least rank, and all who came earlier have a higher one. -/
theorem best_spec (h : best xs = some x) :
    (∀ y ∈ xs, x.2 ≤ y.2) ∧ ∃ ys zs, xs = ys ++ x :: zs ∧ ∀ y ∈ ys, x.2 < y.2 := by
  obtain ⟨hx, ys, zs, rfl, hys⟩ := find?_eq_some_iff_append.mp h
  have hle := of_decide_eq_true hx
  refine ⟨hle, ys, zs, rfl, ?_⟩
  intro y hy
  have hnot := hys y hy
  rw [Bool.not_eq_true', decide_eq_false_iff_not] at hnot
  refine lt_of_le_of_ne (hle y (mem_append_left _ hy)) ?_
  intro heq
  exact hnot (heq ▸ hle)

section Leave

variable [DecidableEq α]

/-- One leaves. -/
def leave (a : α) (xs : List (α × Nat)) : List (α × Nat) :=
  xs.filter fun x => x.1 ≠ a

variable {a : α}

@[simp] theorem mem_leave : x ∈ leave a xs ↔ x ∈ xs ∧ x.1 ≠ a := by
  simp [leave]

theorem leave_eq_self (h : a ∉ xs.map Prod.fst) : leave a xs = xs := by
  rw [leave, filter_eq_self]
  intro x hx
  have hne : x.1 ≠ a := fun heq => h (heq ▸ mem_map_of_mem hx)
  simpa using hne

theorem ofRank_leave (h : (xs.map Prod.fst).Nodup) (a : α) (i : Nat) :
    ofRank i (leave a xs) = (ofRank i xs).erase a := by
  have hnodup : (ofRank i xs).Nodup := h.sublist (filter_sublist.map Prod.fst)
  rw [hnodup.erase_eq_filter, ofRank, ofRank, leave, filter_map,
    filter_filter, filter_filter]
  congr 2
  funext x
  simp [Bool.and_comm, bne, beq_eq_decide]

theorem length_leave (h : (xs.map Prod.fst).Nodup)
    (ha : a ∈ xs.map Prod.fst) : (leave a xs).length = xs.length - 1 := by
  have hmap : (leave a xs).map Prod.fst = (xs.map Prod.fst).erase a := by
    rw [h.erase_eq_filter, leave, filter_map]
    congr 2
    funext x
    simp [bne, beq_eq_decide]
  have hlength := congrArg length hmap
  rwa [length_map, length_erase_of_mem ha, length_map] at hlength

end Leave

end Arrivals
