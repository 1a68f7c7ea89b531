import Mathlib.Logic.Function.Basic

/-!
# Linear probing

An open-addressing hash table in an array of `size` slots.  A slot holds the index of an
item, or `0` if it is empty, and each item has a home slot.  An item that finds its home
taken goes to the next empty slot, round the end of the array.

`seek` is the walk that all operations start with.  `close` is what deletion does with the
hole that it leaves: it moves the next displaced item into the hole, which makes a new hole,
until the end of the clump.
-/

namespace Probe

/-- The slot after a slot. -/
def next (size h : Nat) : Nat := if h + 1 = size then 0 else h + 1

/-- Walk on from a slot to one where the walk stops. -/
def seek (stop : Nat → Bool) (size : Nat) : Nat → Nat → Option Nat
  | 0, _ => none
  | fuel + 1, h => if stop h then some h else seek stop size fuel (next size h)

/-- An item in slot `d` with this home could also be in the hole before it. -/
def displaced (hole d home : Nat) : Prop :=
  if d < hole then d < home ∧ home ≤ hole else d < home ∨ home ≤ hole

instance (hole d home : Nat) : Decidable (displaced hole d home) := by
  unfold displaced
  infer_instance

/-- Close a hole, having looked at the slots up to `d`. -/
def close (home : Nat → Nat) (size : Nat) :
    Nat → (Nat → Nat) → Nat → Nat → Option (Nat → Nat)
  | 0, _, _, _ => none
  | fuel + 1, table, hole, d =>
    let d := next size d
    if table d = 0 then some (Function.update table hole 0)
    else if displaced hole d (home (table d)) then
      close home size fuel (Function.update table hole (table d)) d d
    else close home size fuel table hole d

end Probe
