import Mathlib.Algebra.BigOperators.Group.Finset.Piecewise

/-!
# Sums over parties

Each party has a share of something that is counted in one place.
-/

universe u v w

theorem Fintype.sum_update_add {ι : Type u} {α : Type v} {M : Type w} [Fintype ι] [DecidableEq ι]
    [AddCommMonoid M] (share : α → M) (party : ι → α) (i : ι) (x : α) :
    share (party i) + ∑ j, share (Function.update party i x j) =
      share x + ∑ j, share (party j) := by
  have hupdate : (fun j => share (Function.update party i x j)) =
      Function.update (fun j => share (party j)) i (share x) := by
    funext j
    exact Function.apply_update (fun _ => share) party i x j
  rw [hupdate, Finset.sum_update_of_mem (Finset.mem_univ i),
    ← Finset.add_sum_erase .univ _ (Finset.mem_univ i), Finset.sdiff_singleton_eq_erase]
  exact add_left_comm ..
