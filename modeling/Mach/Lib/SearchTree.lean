import Mathlib.Data.List.Pairwise
import Mathlib.Order.Lattice

/-!
# Search trees and the two halves of a top-down search

A search tree holds one value per key.  Its meaning is its in-order list (`SearchTree.toList`), and
a tree is a search tree exactly when the keys of that list increase (`Ascending`).  So an operation
that keeps the list keeps the order.

A top-down search cuts the tree at the path it walks.  What lies to the left of
the path is a *left spine*: the nodes passed on the way right, each with its left
subtree, the last one with an empty right field that is still to be filled.  What
lies to the right is a *right spine*.  A spine is a list of frames, the frame with
the open field first.  `closeLeft` and `closeRight` store a tree in the open field.

Lookup in an ascending list is `List.lookup`.  The last section is about lookup in concatenations.
-/

/-- A binary tree with a key and a value at each node. -/
inductive SearchTree (κ β : Type) where
  | nil
  | node (key : κ) (val : β) (left right : SearchTree κ β)
deriving Repr, DecidableEq

namespace SearchTree

variable {κ β : Type}

/-- The nodes in symmetric order. -/
def toList : SearchTree κ β → List (κ × β)
  | nil => []
  | node k v l r => l.toList ++ (k, v) :: r.toList

/-- The number of nodes. -/
def size : SearchTree κ β → Nat
  | nil => 0
  | node _ _ l r => l.size + r.size + 1

/-- The tree is empty. -/
def isNil : SearchTree κ β → Bool
  | nil => true
  | node .. => false

/-- Change the value at a key, wherever the key stands. -/
def modify [DecidableEq κ] (k : κ) (f : β → β) : SearchTree κ β → SearchTree κ β
  | nil => nil
  | node k' v l r => node k' (if k' = k then f v else v) (l.modify k f) (r.modify k f)

@[simp] theorem toList_nil : (nil : SearchTree κ β).toList = [] := rfl

@[simp] theorem toList_node (k : κ) (v : β) (l r : SearchTree κ β) :
    (node k v l r).toList = l.toList ++ (k, v) :: r.toList := rfl

theorem length_toList : ∀ t : SearchTree κ β, t.toList.length = t.size
  | nil => rfl
  | node _ _ l r => by
    simp only [toList_node, List.length_append, List.length_cons, size]
    rw [length_toList l, length_toList r]
    omega

theorem toList_eq_nil {t : SearchTree κ β} : t.toList = [] ↔ t = nil := by
  cases t with
  | nil | node => simp

theorem toList_modify [DecidableEq κ] (k : κ) (f : β → β) : ∀ t : SearchTree κ β,
      (t.modify k f).toList = t.toList.map fun e => (e.1, if e.1 = k then f e.2 else e.2)
  | nil => rfl
  | node k' v l r => by
    simp only [modify, toList_node, List.map_append, List.map_cons]
    rw [toList_modify k f l, toList_modify k f r]

end SearchTree

/-! ## Spines -/

/-- One node of a spine: its key and value, and the subtree on the far side of the
search path. -/
structure SpineFrame (κ β : Type) where
  /-- The key of the node. -/
  key : κ
  /-- The value of the node. -/
  val : β
  /-- The child that the search did not enter. -/
  sub : SearchTree κ β
deriving Repr, DecidableEq

/-- A spine, the frame with the open field first. -/
abbrev Spine (κ β : Type) := List (SpineFrame κ β)

namespace Spine

open SearchTree

variable {κ β : Type}

/-- The nodes of a left spine in symmetric order. -/
def leftList : Spine κ β → List (κ × β)
  | [] => []
  | f :: fs => leftList fs ++ f.sub.toList ++ [(f.key, f.val)]

/-- The nodes of a right spine in symmetric order. -/
def rightList : Spine κ β → List (κ × β)
  | [] => []
  | f :: fs => (f.key, f.val) :: f.sub.toList ++ rightList fs

/-- Store a tree in the open right field of a left spine. -/
def closeLeft : Spine κ β → SearchTree κ β → SearchTree κ β
  | [], t => t
  | f :: fs, t => closeLeft fs (node f.key f.val f.sub t)

/-- Store a tree in the open left field of a right spine. -/
def closeRight : Spine κ β → SearchTree κ β → SearchTree κ β
  | [], t => t
  | f :: fs, t => closeRight fs (node f.key f.val t f.sub)

/-- Change the value at a key of a spine. -/
def modify [DecidableEq κ] (k : κ) (f : β → β) (s : Spine κ β) : Spine κ β :=
  s.map fun fr => ⟨fr.key, if fr.key = k then f fr.val else fr.val, fr.sub.modify k f⟩

@[simp] theorem leftList_nil : leftList ([] : Spine κ β) = [] := rfl

@[simp] theorem rightList_nil : rightList ([] : Spine κ β) = [] := rfl

variable (f : SpineFrame κ β)

@[simp] theorem leftList_cons (fs : Spine κ β) :
    leftList (f :: fs) = leftList fs ++ f.sub.toList ++ [(f.key, f.val)] := rfl

@[simp] theorem rightList_cons (fs : Spine κ β) :
    rightList (f :: fs) = (f.key, f.val) :: f.sub.toList ++ rightList fs := rfl

@[simp] theorem toList_closeLeft :
    ∀ (s : Spine κ β) (t : SearchTree κ β), (closeLeft s t).toList = leftList s ++ t.toList
  | [], t => rfl
  | f :: fs, t => by
    rw [closeLeft, toList_closeLeft fs]
    simp

@[simp] theorem toList_closeRight :
    ∀ (s : Spine κ β) (t : SearchTree κ β), (closeRight s t).toList = t.toList ++ rightList s
  | [], t => by simp [closeRight]
  | f :: fs, t => by
    rw [closeRight, toList_closeRight fs]
    simp

theorem lists_modify [DecidableEq κ] (k : κ) (f : β → β) : ∀ s : Spine κ β,
      leftList (s.modify k f) = (leftList s).map (fun e => (e.1, if e.1 = k then f e.2 else e.2)) ∧
      rightList (s.modify k f) = (rightList s).map fun e => (e.1, if e.1 = k then f e.2 else e.2)
  | [] => ⟨rfl, rfl⟩
  | fr :: fs => by
    have ih := lists_modify k f fs
    simp only [modify] at ih
    simp [modify, ih, toList_modify]

end Spine

/-! ## Ascending association lists -/

section Ascending

open List

variable {κ β : Type} [LinearOrder κ]

/-- The keys increase. -/
def Ascending (l : List (κ × β)) : Prop := l.Pairwise fun a b => a.1 < b.1

/-- Every key of the list is below `k`. -/
def Below (k : κ) (l : List (κ × β)) : Prop := ∀ e ∈ l, e.1 < k

/-- Every key of the list is above `k`. -/
def Above (k : κ) (l : List (κ × β)) : Prop := ∀ e ∈ l, k < e.1

variable {k : κ} {l l₁ l₂ : List (κ × β)} {v : β} {k' : κ}

@[simp] theorem below_nil (k : κ) : Below k ([] : List (κ × β)) := forall_mem_nil _

@[simp] theorem above_nil (k : κ) : Above k ([] : List (κ × β)) := forall_mem_nil _

@[simp] theorem below_cons (k : κ) (e : κ × β) (l : List (κ × β)) :
    Below k (e :: l) ↔ e.1 < k ∧ Below k l := by
  simp [Below]

@[simp] theorem above_cons (k : κ) (e : κ × β) (l : List (κ × β)) :
    Above k (e :: l) ↔ k < e.1 ∧ Above k l := by
  simp [Above]

@[simp] theorem below_append (k : κ) (l₁ l₂ : List (κ × β)) :
    Below k (l₁ ++ l₂) ↔ Below k l₁ ∧ Below k l₂ :=
  forall_mem_append

theorem Below.mono (h : Below k l) (hk : k ≤ k') : Below k' l :=
  fun e he => lt_of_lt_of_le (h e he) hk

theorem Above.mono (h : Above k l) (hk : k' ≤ k) : Above k' l :=
  fun e he => lt_of_le_of_lt hk (h e he)

@[simp] theorem ascending_nil : Ascending ([] : List (κ × β)) := .nil

@[simp] theorem ascending_cons (e : κ × β) (l : List (κ × β)) :
    Ascending (e :: l) ↔ Above e.1 l ∧ Ascending l := by
  simp [Ascending, Above]

theorem ascending_append : Ascending (l₁ ++ l₂) ↔
      Ascending l₁ ∧ Ascending l₂ ∧ ∀ a ∈ l₁, ∀ b ∈ l₂, a.1 < b.1 :=
  pairwise_append

/-- A list cut at a key: the part before is below it, the part after above it. -/
theorem ascending_middle {e : κ × β} : Ascending (l₁ ++ e :: l₂) ↔
      Ascending l₁ ∧ Below e.1 l₁ ∧ Above e.1 l₂ ∧ Ascending l₂ := by
  rw [ascending_append, ascending_cons]
  constructor
  · rintro ⟨h₁, ⟨ha, h₂⟩, h⟩
    exact ⟨h₁, fun a hmem => h a hmem e (mem_cons_self ..), ha, h₂⟩
  · rintro ⟨h₁, hb, ha, h₂⟩
    refine ⟨h₁, ⟨ha, h₂⟩, ?_⟩
    intro a hmem b hb'
    rcases mem_cons.mp hb' with rfl | hb'
    · exact hb a hmem
    · exact lt_trans (hb a hmem) (ha b hb')

theorem lookup_eq_none_of_ne (h : ∀ e ∈ l, e.1 ≠ k) : l.lookup k = none :=
  lookup_eq_none_iff.mpr fun e he => bne_iff_ne.mpr (h e he).symm

theorem Below.lookup_eq_none (h : Below k l) : l.lookup k = none :=
  lookup_eq_none_of_ne fun e he => ne_of_lt (h e he)

theorem Above.lookup_eq_none (h : Above k l) : l.lookup k = none :=
  lookup_eq_none_of_ne fun e he => (ne_of_lt (h e he)).symm

theorem mem_of_lookup (h : l.lookup k = some v) : (k, v) ∈ l := by
  obtain ⟨l₁, l₂, rfl, -⟩ := lookup_eq_some_iff.mp h
  exact mem_append_right _ (mem_cons_self ..)

theorem Ascending.lookup_of_mem (h : Ascending l) (hmem : (k, v) ∈ l) : l.lookup k = some v := by
  obtain ⟨l₁, l₂, rfl⟩ := append_of_mem hmem
  obtain ⟨-, hbelow, -, -⟩ := ascending_middle.mp h
  exact lookup_eq_some_iff.mpr ⟨l₁, l₂, rfl, fun e he => bne_iff_ne.mpr (hbelow e he).ne'⟩

/-- A binary search tree: the keys on the left of a node are below its own, those on the
right above it. -/
def SearchTree.Ordered : SearchTree κ β → Prop
  | .nil => True
  | .node k _ l r => l.Ordered ∧ r.Ordered ∧ Below k l.toList ∧ Above k r.toList

/-- A tree is a search tree iff its symmetric order ascends. -/
theorem SearchTree.ordered_iff : ∀ t : SearchTree κ β, t.Ordered ↔ Ascending t.toList
  | .nil => by simp [Ordered]
  | .node k v l r => by
    rw [Ordered, toList_node, ascending_middle, ordered_iff l, ordered_iff r]
    constructor
    · rintro ⟨hl, hr, hb, ha⟩
      exact ⟨hl, hb, ha, hr⟩
    · rintro ⟨hl, hb, ha, hr⟩
      exact ⟨hl, hr, hb, ha⟩

end Ascending
