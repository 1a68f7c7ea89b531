import Mathlib.Algebra.BigOperators.Group.List.Basic
import Mathlib.Algebra.Ring.Int.Defs

/-!
# Calls in progress

A call that has several critical sections may have done one part of its work and not yet the other.
The state then has a list of the calls in progress, each at some point.  A balance that holds when
no call is in progress is off by what the calls have still to do, and this is `Pending.total`.
-/

universe u

namespace Pending

variable {α : Type u} {f g : α → Int} {calls : List α}

/-- The sum over all calls. -/
def total (f : α → Int) (calls : List α) : Int := (calls.map f).sum

@[simp] theorem total_cons (c : α) : total f (c :: calls) = f c + total f calls := by
  rw [total, List.map_cons, List.sum_cons, total]

theorem total_append (c : α) : total f (calls ++ [c]) = total f calls + f c := by
  rw [total, List.map_append, List.sum_append, List.map_singleton, List.sum_singleton, total]

theorem total_set {i : Nat} {c : α} (hc : calls[i]? = some c) (c' : α) :
    total f (calls.set i c') + f c = total f calls + f c' := by
  induction calls generalizing i with
  | nil => cases hc
  | cons d calls ih =>
    cases i with
    | zero =>
      cases hc
      rw [List.set_cons_zero, total_cons, total_cons]
      omega
    | succ =>
      have hrest := ih hc
      rw [List.set_cons_succ, total_cons, total_cons]
      omega

theorem total_eq_zero (h : ∀ c ∈ calls, f c = 0) : total f calls = 0 := by
  refine List.sum_eq_zero fun x hx => ?_
  obtain ⟨c, hc, rfl⟩ := List.mem_map.mp hx
  exact h c hc

end Pending
