import Mathlib.Data.List.Nodup

/-!
# Lists threaded through an array

A table of cells with a successor field threads a list through itself.  Cell `0` is not
an element: it is the head, and a successor of `0` ends the list.  `Chain next i l` says
that following `next` from the word `i` visits exactly `l` and then ends, so a chain is
finite and acyclic by construction (`Chain.nodup`).

The operations on such a list write one or two successors.  `Chain.congr` is the frame
rule, `Chain.splice` says what cutting an element out does.
-/

universe u

/-- Following `next` from the word `i` visits the elements of `l` and ends in `0`. -/
inductive Chain (next : Nat → Nat) : Nat → List Nat → Prop where
  | nil : Chain next 0 []
  | cons {i : Nat} {l : List Nat} : i ≠ 0 → Chain next (next i) l → Chain next i (i :: l)

namespace Chain

open List

variable {next next' : Nat → Nat} {i i' j : Nat} {l l' : List Nat}

section

variable (h : Chain next i l)

include h

theorem ne_zero : ∀ k ∈ l, k ≠ 0 := by
  induction h with
  | nil => intro k hk; cases hk
  | cons hi _ ih =>
    intro k hk
    cases hk with
    | head => exact hi
    | tail _ hk => exact ih k hk

theorem eq_nil_iff : l = [] ↔ i = 0 := by
  cases h with
  | nil => simp
  | cons hi => simp [hi]

theorem head_mem (hi : i ≠ 0) : i ∈ l := by
  cases h with
  | nil => exact absurd rfl hi
  | cons => exact mem_cons_self

theorem unique : ∀ {l'}, Chain next i l' → l = l' := by
  induction h with
  | nil =>
    intro l' h'
    exact (h'.eq_nil_iff.mpr rfl).symm
  | @cons i l hi _ ih =>
    intro l' h'
    cases h' with
    | nil => exact absurd rfl hi
    | cons _ h' => rw [ih h']

/-- The frame rule: only the successors of the elements matter. -/
theorem congr (heq : ∀ k ∈ l, next' k = next k) : Chain next' i l := by
  induction h with
  | nil => exact .nil
  | cons hi _ ih =>
    refine .cons hi ?_
    rw [heq _ mem_cons_self]
    exact ih fun k hk => heq k (mem_cons_of_mem _ hk)

end

theorem head_eq (h : Chain next i (j :: l)) : i = j := by
  cases h with
  | cons => rfl

theorem next_eq (h : Chain next i (l ++ j :: l')) : Chain next j (j :: l') := by
  induction l generalizing i with
  | nil => exact h.head_eq ▸ h
  | cons k l ih =>
    cases h with
    | cons _ h => exact ih h

theorem tail_of_append (h : Chain next i (l ++ j :: l')) : Chain next (next j) l' := by
  cases h.next_eq with
  | cons _ h => exact h

theorem nodup (h : Chain next i l) : l.Nodup := by
  induction h with
  | nil => exact nodup_nil
  | @cons i l hi h ih =>
    refine nodup_cons.mpr ⟨fun hmem => ?_, ih⟩
    -- A second visit would be the start of a shorter chain from the same word.
    obtain ⟨l₁, l₂, rfl⟩ := append_of_mem hmem
    have h₁ : Chain next (next i) l₂ := h.tail_of_append
    have h₂ : l₁ ++ i :: l₂ = l₂ := h.unique h₁
    have hlen := congrArg length h₂
    simp only [length_append, length_cons] at hlen
    omega

theorem next_ne_self (h : Chain next i l) (hi : i ≠ 0) : next i ≠ i := by
  intro heq
  cases hc : h with
  | nil => exact hi rfl
  | cons _ htail =>
    rw [heq] at htail
    exact absurd (h.unique htail) (cons_ne_self _ _)

/-- Walk from the cell `i` to the cell whose successor is `j`. -/
def pred (next : Nat → Nat) (j : Nat) : Nat → Nat → Option Nat
  | 0, _ => none
  | fuel + 1, i => if next i = j then some i else pred next j fuel (next i)

theorem pred_eq (h : Chain next (next i) (l ++ j :: l')) {fuel : Nat} (hfuel : l.length < fuel) :
    pred next j fuel i = some (l.getLastD i) := by
  induction l generalizing i fuel with
  | nil =>
    obtain ⟨fuel, rfl⟩ : ∃ n, fuel = n + 1 := ⟨fuel - 1, by omega⟩
    generalize hn : next i = n at h
    cases h with
    | cons => rw [pred, if_pos hn, getLastD_nil]
  | cons k l ih =>
    obtain ⟨fuel, rfl⟩ : ∃ n, fuel = n + 1 := ⟨fuel - 1, by omega⟩
    have hnodup := h.nodup
    generalize hn : next i = n at h
    cases h with
    | cons _ h =>
      have hne : next i ≠ j := by
        rintro rfl
        rw [hn] at hnodup
        exact (nodup_cons.mp hnodup).1 (by simp)
      rw [pred, if_neg hne, hn, ih h (by simpa using hfuel), getLastD_cons]

/-- Redirecting the cell before an element to its successor cuts the element out. -/
theorem splice (h : Chain next (next i) (l ++ j :: l')) (hi : i ∉ l ++ j :: l') :
    Chain (Function.update next (l.getLastD i) (next j))
      (Function.update next (l.getLastD i) (next j) i) (l ++ l') := by
  induction l generalizing i with
  | nil =>
    rw [getLastD_nil, Function.update_self]
    refine h.tail_of_append.congr fun b hb => Function.update_of_ne ?_ ..
    rintro rfl
    exact hi (by simp [hb])
  | cons k l ih =>
    have hnodup := h.nodup
    generalize hn : next i = n at h
    cases h with
    | cons hk h =>
      have hlast : (k :: l).getLastD i ∈ k :: l := by
        cases l with
        | nil => simp
        | cons => simp [getLastD]
      have hne : i ≠ (k :: l).getLastD i := by
        intro heq
        rw [← heq] at hlast
        exact hi (mem_append_left _ hlast)
      rw [Function.update_of_ne hne, hn, getLastD_cons]
      exact .cons hk (ih h (nodup_cons.mp hnodup).1)

theorem exists_pred (h : Chain next i l) (hj : j ∈ l) (hne : j ≠ i) : ∃ k ∈ l, next k = j := by
  induction h with
  | nil => cases hj
  | @cons i l hi h ih =>
    have hmem : j ∈ l := (mem_cons.mp hj).resolve_left hne
    rcases eq_or_ne j (next i) with rfl | hnext
    · exact ⟨i, mem_cons_self, rfl⟩
    · obtain ⟨k, hk, heq⟩ := ih hmem hnext
      exact ⟨k, mem_cons_of_mem _ hk, heq⟩

/-- Redirecting an element to the successor of its successor cuts that out. -/
theorem skip (h : Chain next i (l ++ j :: i' :: l')) :
    Chain (Function.update next j (next i')) i (l ++ j :: l') := by
  have hlast : (l ++ [j]).getLastD j = j := getLastD_concat ..
  have hnodup := h.nodup
  rw [append_cons] at h hnodup ⊢
  cases hl : l ++ [j] with
  | nil => simp at hl
  | cons k l =>
    rw [hl] at h hnodup hlast
    cases h with
    | cons hk h =>
      rw [← hlast, getLastD_cons]
      exact .cons hk (h.splice (nodup_cons.mp hnodup).1)

end Chain
