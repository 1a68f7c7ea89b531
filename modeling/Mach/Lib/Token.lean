import Mathlib.Logic.Function.Basic

/-!
# Flags with one owner

A flag in shared memory may stand for something that one party has, for instance the right to write.
No field says which party it is.  The flag is a token if it is set exactly when some party owns it,
and then there is only one.
-/

universe u v

/-- The flag is set if and only if there is an owner, and there is at most one. -/
structure Token {ι : Type u} (flag : Bool) (owns : ι → Prop) : Prop where
  flag_iff : flag = true ↔ ∃ i, owns i
  unique : ∀ i j, owns i → owns j → i = j

namespace Token

variable {ι : Type u} {flag : Bool} {owns owns' : ι → Prop} {i : ι}

theorem flag_of_owns (h : Token flag owns) (hi : owns i) : flag = true :=
  h.flag_iff.mpr ⟨i, hi⟩

theorem not_owns (h : Token false owns) : ¬ owns i :=
  fun hi => nomatch h.flag_of_owns hi

theorem congr (h : Token flag owns) (howns : ∀ j, owns' j ↔ owns j) : Token flag owns' := by
  rwa [funext fun j => propext (howns j)]

section Update

variable {α : Type v} [DecidableEq ι] {f : ι → α} {P : α → Prop} {x : α}

theorem update (h : Token flag fun j => P (f j)) (hx : P x ↔ P (f i)) :
    Token flag fun j => P (Function.update f i x j) := by
  apply h.congr
  intro j
  rcases eq_or_ne j i with rfl | hne
  · rwa [Function.update_self]
  · rw [Function.update_of_ne hne]

theorem take (h : Token false fun j => P (f j)) (hx : P x) :
    Token true fun j => P (Function.update f i x j) := by
  have howner : ∀ j, P (Function.update f i x j) → j = i := by
    intro j hj
    rcases eq_or_ne j i with rfl | hne
    · rfl
    · rw [Function.update_of_ne hne] at hj
      exact absurd hj h.not_owns
  refine ⟨⟨fun _ => ⟨i, ?_⟩, fun _ => rfl⟩, fun j k hj hk => (howner j hj).trans (howner k hk).symm⟩
  rwa [Function.update_self]

theorem drop (h : Token flag fun j => P (f j)) (hi : P (f i)) (hx : ¬ P x) :
    Token false fun j => P (Function.update f i x j) := by
  have hnobody : ∀ j, ¬ P (Function.update f i x j) := by
    intro j hj
    rcases eq_or_ne j i with rfl | hne
    · rw [Function.update_self] at hj
      exact hx hj
    · rw [Function.update_of_ne hne] at hj
      exact hne (h.unique j i hj hi)
  exact ⟨⟨(fun hflag => nomatch hflag), fun ⟨j, hj⟩ => absurd hj (hnobody j)⟩,
    fun j _ hj => absurd hj (hnobody j)⟩

end Update

end Token
