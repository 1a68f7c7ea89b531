import Mathlib.Logic.Function.Basic

/-!
# Links

Each node of a *link* points to at most one other node.
-/

universe u

namespace Link

variable {α : Type u}

/-- Follow the link to its end. -/
def walk (next : α → Option α) : Nat → α → Option α
  | 0, _ => none
  | fuel + 1, a =>
    match next a with
    | some b => walk next fuel b
    | none => some a

end Link
