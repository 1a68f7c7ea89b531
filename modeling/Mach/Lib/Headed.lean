import Mathlib.Data.List.Nodup

/-!
# Lists with an embedded head

A table may hold the first element of each of its lists in place, and chain only the others.  A head
that is not there marks the list as empty.  The first element cannot be freed, so it is removed by
copying the second into its place.
-/

universe u

/-- A list with its first element in place. -/
structure Headed (α : Type u) where
  head : Option α
  next : List α
deriving DecidableEq

namespace Headed

variable {α : Type u}

/-- The elements. -/
def toList (l : Headed α) : List α :=
  match l.head with
  | none => []
  | some a => a :: l.next

/-- The list with nothing in it. -/
def empty : Headed α := ⟨none, []⟩

variable (next : List α)

@[simp] theorem toList_some (a : α) (next : List α) : toList ⟨some a, next⟩ = a :: next := rfl

/-- The second element takes the place of the head.  The number is that of the cells that are free
afterwards. -/
def pop (next : List α) : Headed α × Nat :=
  match next with
  | [] => (⟨none, []⟩, 0)
  | a :: rest => (⟨some a, rest⟩, 1)

theorem toList_pop : (pop next).1.toList = next := by
  cases next with
  | nil | cons => rfl

section Remove

variable [BEq α] [LawfulBEq α]

/-- Unlinks an element, if the list has it. -/
def remove (a : α) (l : Headed α) : Option (Headed α × Nat) :=
  match l.head with
  | none => none
  | some b =>
    if b == a then some (pop l.next)
    else if a ∈ l.next then some (⟨some b, l.next.erase a⟩, 1)
    else none

theorem remove_of_mem {a : α} {l : Headed α} (ha : a ∈ l.toList) :
    ∃ l' k, l.remove a = some (l', k) ∧ l'.toList = l.toList.erase a := by
  obtain ⟨head, next⟩ := l
  cases head with
  | none => cases ha
  | some b =>
    cases hb : b == a with
    | true =>
      refine ⟨(pop next).1, (pop next).2, if_pos hb, ?_⟩
      rw [toList_pop, toList_some, eq_of_beq hb, List.erase_cons_head]
    | false =>
      have hmem : a ∈ next := (List.mem_cons.mp ha).resolve_left (ne_of_beq_false hb).symm
      have hneg : ¬ (b == a) = true := by simp [hb]
      refine ⟨⟨some b, next.erase a⟩, 1, (if_neg hneg).trans (if_pos hmem), ?_⟩
      rw [toList_some, toList_some, List.erase_cons_tail hneg]

end Remove

end Headed
