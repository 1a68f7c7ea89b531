import Mach.Lib.Chain
import Mach.Vm.MapOps
import Mach.Vm.Object
import Mathlib.Algebra.BigOperators.Group.Finset.Basic

/-!
# Collapsing shadow chains

`vm_object_collapse` shortens the chain of shadows below an object.  If nobody else refers to the
shadow, its pages and its pager move up into the object (`collapseInto`).  If others do, and the
object has a page for each of the shadow's that it could see, then the object goes past it to the
next one in the chain (`bypass`).

Nothing of this can be seen in the object, up to its size (`collapse_invisible`).  Pages of the
shadow outside of the object are lost.  Another object in front of it could see them if it reached
beyond the size of the object.
-/

universe u

namespace Mach

open Function List Option
open Finset (add_sum_erase mem_erase mem_insert)

variable {α : Type u}

/-- `vm_object_collapse_allowed` and `vm_object_collapse_bypass_allowed`. -/
structure CollapseFlags where
  allowed : Bool
  bypassAllowed : Bool

/-- What one round of the loop does. -/
inductive CollapseStep (α : Type u) where
  /-- The conditions are not right. -/
  | returned
  | again (h : VmObjects α)
  | panicked

/-- How far the loop gets. -/
inductive Collapsed (α : Type u) where
  | returned (h : VmObjects α)
  | panicked
  /-- There may be more rounds. -/
  | running

/-- The pages of the backing object go to the queue of the object.  Those are freed that are outside
of the object, or that it has itself. -/
def movePages (backingOffset size : Nat) :
    List (VmPage α) → List (VmPage α) → Option (List (VmPage α))
  | [], memq => some memq
  | p :: ps, memq =>
    let newOffset := sub32 p.offset backingOffset
    if p.offset < backingOffset ∨ size ≤ newOffset then movePages backingOffset size ps memq
    else
      match vmPageLookup newOffset memq with
      | some pp => if pp.absent then none else movePages backingOffset size ps memq
      | none => movePages backingOffset size ps (vmPageInsert newOffset p memq)

/-- A page of the backing object that can be seen in the object. -/
def pageNeeded (backingOffset size : Nat) (memq : List (VmPage α)) (p : VmPage α) : Bool :=
  let newOffset := sub32 p.offset backingOffset
  backingOffset ≤ p.offset && newOffset ≤ size && (vmPageLookup newOffset memq).isNone

namespace VmObjects

/-- `vm_object_reference`. -/
def reference (o : Nat) (h : VmObjects α) : VmObjects α :=
  if o = vmObjectNull then h
  else h.set o { h.object o with refCount := ((h.object o).refCount + 1) % 2 ^ 16 }

/-- The object gets the pages and the pager of the backing object, which is freed. -/
def collapseInto (o b : Nat) (memq : List (VmPage α)) (h : VmObjects α) : VmObjects α :=
  let object := h.object o
  let backing := h.object b
  (h.set o
    { object with
        memq := memq
        pager := backing.pager
        pagerInitialized := backing.pagerInitialized
        pagerReady := backing.pagerReady
        pagerCreated := backing.pagerCreated
        pagerRequest := backing.pagerRequest
        pagerName := backing.pagerName
        pagingOffset :=
          if backing.pager ≠ memoryObjectNull then
            (backing.pagingOffset + object.shadowOffset) % 2 ^ 32
          else object.pagingOffset
        existenceInfo := backing.existenceInfo
        shadow := backing.shadow
        shadowOffset := (object.shadowOffset + backing.shadowOffset) % 2 ^ 32 }).set b
    { backing with
        memq := []
        pager := memoryObjectNull
        pagerRequest := memoryObjectNull
        pagerName := memoryObjectNull
        existenceInfo := memoryObjectNull
        alive := false }

/-- The object shadows what the backing object shadows. -/
def bypass (o b : Nat) (h : VmObjects α) : VmObjects α :=
  let s := h.shadow b
  let h := (h.set o { h.object o with shadow := s }).reference s
  let h := h.set o
    { h.object o with
        shadowOffset := ((h.object o).shadowOffset + (h.object b).shadowOffset) % 2 ^ 32 }
  h.set b { h.object b with refCount := ((h.object b).refCount + (2 ^ 16 - 1)) % 2 ^ 16 }

/-- A round of `vm_object_collapse`, with the result of `vm_object_cache_lock_try`. -/
def collapseStep (flags : CollapseFlags) (cacheLock : Bool) (o : Nat) (h : VmObjects α) :
    CollapseStep α :=
  let object := h.object o
  if o = vmObjectNull ∨ object.pagerCreated ∨ object.pagingInProgress ≠ 0 ∨
      object.absentCount ≠ 0 then .returned
  else
    let b := object.shadow
    if b = vmObjectNull then .returned
    else
      let backing := h.object b
      if !backing.internal ∨ backing.pagingInProgress ≠ 0 then .returned
      else if backing.shadow ≠ vmObjectNull ∧ (h.object backing.shadow).copy ≠ vmObjectNull then
        .returned
      else if backing.refCount = 1 then
        if !cacheLock then .returned
        else
          match movePages object.shadowOffset object.size backing.memq object.memq with
          | none => .panicked
          -- The second check of `shadow->copy` is about the same object, and does not panic.
          | some memq => .again (h.collapseInto o b memq)
      else if !flags.bypassAllowed ∨ backing.pagerCreated then .returned
      else if backing.memq.any (pageNeeded object.shadowOffset object.size object.memq) then
        .returned
      else .again (h.bypass o b)

/-- The loop of `vm_object_collapse`, with the results of `vm_object_cache_lock_try`. -/
def collapseLoop (flags : CollapseFlags) (cacheLock : Nat → Bool) (o : Nat) :
    Nat → VmObjects α → Collapsed α
  | 0, _ => .running
  | fuel + 1, h =>
    match h.collapseStep flags (cacheLock fuel) o with
    | .returned => .returned h
    | .panicked => .panicked
    | .again h => h.collapseLoop flags cacheLock o fuel

/-- `vm_object_collapse`. -/
def collapse (flags : CollapseFlags) (cacheLock : Nat → Bool) (fuel o : Nat) (h : VmObjects α) :
    Collapsed α :=
  if flags.allowed then h.collapseLoop flags cacheLock o fuel else .returned h

theorem set_self (o : Nat) (v : VmObject α) (h : VmObjects α) : (h.set o v).object o = v :=
  update_self ..

theorem set_of_ne {o q : Nat} (hne : q ≠ o) (v : VmObject α) (h : VmObjects α) :
    (h.set o v).object q = h.object q :=
  update_of_ne hne ..

end VmObjects

/-! ## Pages that move up -/

theorem vmPageLookup_insert (x y : Nat) (p : VmPage α) (memq : List (VmPage α)) :
    vmPageLookup x (vmPageInsert y p memq) =
      (vmPageLookup x memq).or (if y = x then some { p with offset := y } else none) := by
  unfold vmPageLookup vmPageInsert
  rw [find?_append, find?_singleton]
  simp

/-- The pages of an object are at different offsets. -/
structure PagesWf (memq : List (VmPage α)) : Prop where
  nodup : (memq.map VmPage.offset).Nodup
  width : ∀ p ∈ memq, p.offset < 2 ^ 32

variable {memq : List (VmPage α)} {x : Nat}

theorem vmPageLookup_eq_some {p : VmPage α}
    (h : vmPageLookup x memq = some p) : p ∈ memq ∧ p.offset = x :=
  ⟨mem_of_find?_eq_some h,
    of_decide_eq_true (find?_some (p := fun p : VmPage α => decide (p.offset = x)) h)⟩

/-- The queue after pages have moved up to it. -/
structure MovedUp (b size : Nat) (ps memq memq' : List (VmPage α)) : Prop where
  lookup (y : Nat) : vmPageLookup y memq' = (vmPageLookup y memq).or
    (if y < size then (vmPageLookup (y + b) ps).map fun p => { p with offset := y } else none)
  wf : PagesWf memq'
  absent : ∀ p ∈ memq', p ∈ memq ∨ ∃ p' ∈ ps, p.absent = p'.absent

theorem vmPageLookup_cons (x : Nat) (p : VmPage α) (ps : List (VmPage α)) :
    vmPageLookup x (p :: ps) = if p.offset = x then some p else vmPageLookup x ps := by
  unfold vmPageLookup
  rw [find?_cons]
  split
  next h => rw [if_pos (of_decide_eq_true h)]
  next h => rw [if_neg (of_decide_eq_false h)]

theorem PagesWf.insert (hw : PagesWf memq)
    (hnone : vmPageLookup x memq = none) (hx : x < 2 ^ 32) (p : VmPage α) :
    PagesWf (vmPageInsert x p memq) where
  nodup := by
    unfold vmPageInsert
    rw [map_append, map_singleton, nodup_append]
    refine ⟨hw.nodup, nodup_singleton _, ?_⟩
    intro a ha b hb
    obtain ⟨q, hq, rfl⟩ := mem_map.mp ha
    rw [mem_singleton.mp hb]
    exact of_decide_eq_false (Bool.eq_false_of_not_eq_true (find?_eq_none.mp hnone q hq))
  width q hq := by
    cases mem_append.mp hq with
    | inl hq => exact hw.width q hq
    | inr hq =>
      rw [mem_singleton.mp hq]
      exact hx

/-- All pages move up that can be seen, and none of those panics that are in the way. -/
theorem movePages_spec {b size : Nat} (hfit : b + size ≤ 2 ^ 32) {ps : List (VmPage α)}
    (hps : PagesWf ps) (hw : PagesWf memq)
    (hreal : ∀ p ∈ ps, b ≤ p.offset → ∀ pp, vmPageLookup (p.offset - b) memq = some pp →
      pp.absent = false) :
    ∃ memq', movePages b size ps memq = some memq' ∧ MovedUp b size ps memq memq' := by
  induction ps generalizing memq with
  | nil =>
    refine ⟨memq, rfl, fun y => ?_, hw, fun p hp => .inl hp⟩
    change _ = (vmPageLookup y memq).or (if y < size then none else none)
    rw [ite_self, or_none]
  | cons p ps ih =>
    have hnodup := nodup_cons.mp hps.nodup
    have hps' : PagesWf ps := ⟨hnodup.2, fun q hq => hps.width q (mem_cons_of_mem _ hq)⟩
    have hwidth := hps.width p mem_cons_self
    have hskip (hfree : ∀ y, y < size → y + b = p.offset → ∃ pp, vmPageLookup y memq = some pp) :
        ∃ memq', movePages b size ps memq = some memq' ∧ MovedUp b size (p :: ps) memq memq' := by
      obtain ⟨memq', hmove, hup⟩ := ih hps' hw fun q hq => hreal q (mem_cons_of_mem _ hq)
      refine ⟨memq', hmove, fun y => ?_, hup.wf, fun q hq => ?_⟩
      · rw [hup.lookup, vmPageLookup_cons]
        split
        next hy =>
          split
          next hoffset =>
            obtain ⟨pp, hpp⟩ := hfree y hy hoffset.symm
            rw [hpp, some_or, some_or]
          next => rfl
        next => rfl
      · exact (hup.absent q hq).imp_right fun ⟨q', hq', ha⟩ => ⟨q', mem_cons_of_mem _ hq', ha⟩
    rw [movePages]
    split
    next hout =>
      refine hskip fun y hy hoffset => ?_
      cases hout with
      | inl => omega
      | inr hge =>
        rw [VmMap.sub32_eq (by omega) hwidth] at hge
        omega
    rename_i hin
    obtain ⟨hle, hlt⟩ := not_or.mp hin
    have hsub : sub32 p.offset b = p.offset - b :=
      VmMap.sub32_eq (not_lt.mp hle) hwidth
    rw [hsub] at hlt ⊢
    cases hlookup : vmPageLookup (p.offset - b) memq with
    | some pp =>
      have habsent := hreal p mem_cons_self (not_lt.mp hle) pp hlookup
      simp only [habsent]
      refine hskip fun y _ hoffset => ⟨pp, ?_⟩
      rw [← hlookup]
      congr 1
      omega
    | none =>
      obtain ⟨memq', hmove, hup⟩ := ih hps' (hw.insert hlookup (by omega) p)
          fun q hq hb pp hpp => by
        have hne : p.offset - b ≠ q.offset - b := by
          intro heq
          have hoffset : p.offset = q.offset := by omega
          exact hnodup.1 (hoffset ▸ mem_map_of_mem hq)
        rw [vmPageLookup_insert, if_neg hne, or_none] at hpp
        exact hreal q (mem_cons_of_mem _ hq) hb pp hpp
      refine ⟨memq', hmove, fun y => ?_, hup.wf, fun q hq => ?_⟩
      · rw [hup.lookup, vmPageLookup_insert, vmPageLookup_cons, Option.or_assoc]
        by_cases heq : p.offset - b = y
        · have hoffset : p.offset = y + b := by omega
          have hy : y < size := by omega
          rw [if_pos heq, some_or, if_pos hy, if_pos hoffset, heq]
          rfl
        · rw [if_neg heq, none_or]
          split
          next =>
            rw [if_neg (by omega)]
          next => rfl
      · rcases hup.absent q hq with hmem | ⟨q', hq', ha⟩
        · cases mem_append.mp hmem with
          | inl hmem => exact .inl hmem
          | inr hmem =>
            rw [mem_singleton.mp hmem]
            exact .inr ⟨p, mem_cons_self, rfl⟩
        · exact .inr ⟨q', mem_cons_of_mem _ hq', ha⟩

/-! ## Chains of shadows -/

/-- An object without a pager has nothing with it, and no page is absent. -/
structure VmObject.Wf (v : VmObject α) : Prop where
  pages : PagesWf v.memq
  noPager : v.pagerCreated = false → v.pager = memoryObjectNull ∧ ∀ p ∈ v.memq, p.absent = false

namespace VmObjects

variable {h h' : VmObjects α} {o b q : Nat} {l l₁ l₂ : List Nat} {os os' : Finset Nat}

/-- How many objects have an object as their shadow. -/
def links (h : VmObjects α) (os : Finset Nat) (q : Nat) : Nat :=
  ∑ p ∈ os, if h.shadow p = q then 1 else 0

/-- The objects `os` with their shadows: the chains are finite, and the number of references is at
least the number of objects in front. -/
structure Graph (h : VmObjects α) (os : Finset Nat) : Prop where
  null : vmObjectNull ∉ os
  wf : ∀ o ∈ os, (h.object o).Wf
  alive : ∀ o ∈ os, (h.object o).alive = true
  chain : ∀ o ∈ os, ∃ l, Chain h.shadow o l ∧ ∀ p ∈ l, p ∈ os
  refs : ∀ o ∈ os, h.links os o ≤ (h.object o).refCount

/-- Another reference fits into the count, which has 15 bits and a sign.  The shadow of `o` may have
one more already. -/
structure Room (o : Nat) (h : VmObjects α) (os : Finset Nat) : Prop where
  count_lt : ∀ q ∈ os, (h.object q).refCount < 2 ^ 15
  succ_lt : ∀ q ∈ os, q ≠ h.shadow o → (h.object q).refCount + 1 < 2 ^ 15

/-- An object of a size fits below an offset into the first object of a chain: none of its pages is
at an offset that wraps around. -/
def Fits (h : VmObjects α) (size : Nat) : List Nat → Nat → Prop
  | [], _ => True
  | b :: l, d => d + size ≤ 2 ^ 32 ∧ h.Fits size l ((d + (h.object b).shadowOffset) % 2 ^ 32)

theorem read_append (h : VmObjects α) (l₁ l₂ : List Nat) (x : Nat) :
    h.read (l₁ ++ l₂) x = (h.read l₁ x).or (h.read l₂ (h.below l₁ x)) := by
  induction l₁ generalizing x with
  | nil => rfl
  | cons o l₁ ih => rw [cons_append, read, read, below, ih, Option.or_assoc]

/-- An object shows what it did before. -/
def Same (h h' : VmObjects α) (p : Nat) : Prop :=
  h'.own p = h.own p ∧ (h'.object p).shadowOffset = (h.object p).shadowOffset

theorem read_congr (hsame : ∀ p ∈ l, Same h h' p) (x : Nat) : h'.read l x = h.read l x := by
  induction l generalizing x with
  | nil => rfl
  | cons o l ih =>
    obtain ⟨hown, hoffset⟩ := hsame o mem_cons_self
    rw [read, read, hown, hoffset, ih fun p hp => hsame p (mem_cons_of_mem _ hp)]

theorem below_congr (hsame : ∀ p ∈ l, Same h h' p) (x : Nat) : h'.below l x = h.below l x := by
  induction l generalizing x with
  | nil => rfl
  | cons o l ih =>
    rw [below, below, (hsame o mem_cons_self).2, ih fun p hp => hsame p (mem_cons_of_mem _ hp)]

theorem Fits.congr {size d : Nat} (hf : h.Fits size l d) (hsame : ∀ p ∈ l, Same h h' p) :
    h'.Fits size l d := by
  induction l generalizing d with
  | nil => trivial
  | cons b l ih =>
    refine ⟨hf.1, ?_⟩
    rw [(hsame b mem_cons_self).2]
    exact ih hf.2 fun p hp => hsame p (mem_cons_of_mem _ hp)

/-- An object is cut out of the chain below `o`.  What it holds is in `o`, up to the size of `o`. -/
structure CutOut (h h' : VmObjects α) (o b : Nat) : Prop where
  shadow : h'.shadow = update h.shadow o (h.shadow b)
  offset : (h'.object o).shadowOffset =
    ((h.object o).shadowOffset + (h.object b).shadowOffset) % 2 ^ 32
  size : (h'.object o).size = (h.object o).size
  own (y : Nat) : y < (h.object o).size →
    h'.own o y = (h.own o y).or (h.own b ((y + (h.object o).shadowOffset) % 2 ^ 32))
  same (p : Nat) : p ≠ o → p ≠ b → Same h h' p

/-- Nothing changes for an object in front, as far as it reaches `o` below its size. -/
theorem CutOut.read (hc : CutOut h h' o b) (hnodup : (l₁ ++ o :: b :: l₂).Nodup)
    (hx : h.below l₁ x < (h.object o).size) :
    h'.read (l₁ ++ o :: l₂) x = h.read (l₁ ++ o :: b :: l₂) x := by
  have hperm := nodup_append.mp hnodup
  have hcons := nodup_cons.mp hperm.2.1
  have hcons' := nodup_cons.mp hcons.2
  have h₁ : ∀ p ∈ l₁, Same h h' p := fun p hp => hc.same p (hperm.2.2 p hp o mem_cons_self)
    (hperm.2.2 p hp b (mem_cons_of_mem _ mem_cons_self))
  have h₂ : ∀ p ∈ l₂, Same h h' p := fun p hp => hc.same p
    (fun heq => hcons.1 (heq ▸ mem_cons_of_mem _ hp)) (fun heq => hcons'.1 (heq ▸ hp))
  rw [read_append, read_append, read_congr h₁, below_congr h₁]
  rw [VmObjects.read, VmObjects.read, VmObjects.read, hc.own _ hx, hc.offset, read_congr h₂,
    Option.or_assoc, Nat.mod_add_mod, Nat.add_mod_mod, add_assoc]

variable {p : Nat}

theorem own_congr (hheld : h'.held = h.held) (hmemq : (h'.object p).memq = (h.object p).memq)
    (hpager : (h'.object p).pager = (h.object p).pager)
    (hoffset : (h'.object p).pagingOffset = (h.object p).pagingOffset) : h'.own p = h.own p := by
  funext x
  unfold own paged
  rw [hmemq, hpager, hoffset, hheld]

theorem own_of_lookup {v : VmPage α} (hpage : vmPageLookup x (h.object p).memq = some v)
    (hreal : v.absent = false) : h.own p x = some v.contents := by
  unfold own
  rw [hpage]
  simp [hreal]

theorem collapseInto_of_ne (ho : p ≠ o) (hb : p ≠ b) (memq : List (VmPage α))
    (h : VmObjects α) : (h.collapseInto o b memq).object p = h.object p := by
  unfold collapseInto
  rw [set_of_ne hb, set_of_ne ho]

theorem collapseInto_refCount (hne : o ≠ b) (hqb : q ≠ b) :
    ((h.collapseInto o b memq).object q).refCount = (h.object q).refCount := by
  rcases eq_or_ne q o with rfl | hqo
  · rw [collapseInto, set_of_ne hne, set_self]
  · rw [collapseInto_of_ne hqo hqb]

theorem collapseInto_paged (hne : o ≠ b) (memq : List (VmPage α)) (h : VmObjects α) (y : Nat) :
    (h.collapseInto o b memq).paged o y = h.paged b ((y + (h.object o).shadowOffset) % 2 ^ 32) := by
  unfold paged
  rw [collapseInto, set_of_ne hne, set_self]
  simp only
  split
  next => rfl
  next =>
    rw [Nat.add_mod_mod, Nat.mod_add_mod, add_comm (h.object b).pagingOffset, ← add_assoc]
    rfl

theorem collapseInto_cutOut (hne : o ≠ b) (ho : (h.object o).Wf)
    (hpager : (h.object o).pagerCreated = false)
    (hfit : (h.object o).shadowOffset + (h.object o).size ≤ 2 ^ 32)
    (hup : MovedUp (h.object o).shadowOffset (h.object o).size (h.object b).memq (h.object o).memq
      memq) :
    CutOut h (h.collapseInto o b memq) o b where
  shadow := by
    funext p
    unfold shadow
    rcases eq_or_ne p o with rfl | hp
    · rw [collapseInto, set_of_ne hne, set_self, update_self]
    rw [update_of_ne hp]
    rcases eq_or_ne p b with rfl | hb
    · unfold collapseInto
      rw [set_self]
    · rw [collapseInto_of_ne hp hb]
  offset := by rw [collapseInto, set_of_ne hne, set_self]
  size := by rw [collapseInto, set_of_ne hne, set_self]
  same p hp hb := by
    have hobject := collapseInto_of_ne hp hb memq h
    exact ⟨own_congr rfl (by rw [hobject]) (by rw [hobject]) (by rw [hobject]), by rw [hobject]⟩
  own y hy := by
    obtain ⟨hnull, habsent⟩ := ho.noPager hpager
    have hmod : (y + (h.object o).shadowOffset) % 2 ^ 32 = y + (h.object o).shadowOffset :=
      Nat.mod_eq_of_lt (by omega)
    have hpaged : h.paged o y = none := if_pos hnull
    have hlookup := hup.lookup y
    rw [if_pos hy] at hlookup
    have hmemq : ((h.collapseInto o b memq).object o).memq = memq := by
      rw [collapseInto, set_of_ne hne, set_self]
    rw [own, collapseInto_paged hne, hmod, hmemq, hlookup]
    cases hpage : vmPageLookup y (h.object o).memq with
    | some p =>
      have hreal := habsent p (vmPageLookup_eq_some hpage).1
      rw [some_or, own_of_lookup hpage hreal, some_or]
      simp [hreal]
    | none =>
      have hfront : h.own o y = none := by
        unfold own
        rw [hpage, hpaged]
      rw [none_or, hfront, none_or]
      unfold own
      cases vmPageLookup (y + (h.object o).shadowOffset) (h.object b).memq with
      | none | some => rfl

theorem reference_object (s p : Nat) (h : VmObjects α) : (h.reference s).object p =
      { h.object p with
          refCount :=
            if s = p ∧ s ≠ vmObjectNull then ((h.object p).refCount + 1) % 2 ^ 16
            else (h.object p).refCount } := by
  unfold reference
  split
  next hs => rw [if_neg fun hand => hand.2 hs]
  next hs =>
    rcases eq_or_ne p s with rfl | hne
    · rw [set_self, if_pos ⟨rfl, hs⟩]
    · rw [set_of_ne hne, if_neg fun hand => hne hand.1.symm]

theorem reference_held (s : Nat) (h : VmObjects α) : (h.reference s).held = h.held := by
  unfold reference
  split
  next => rfl
  next => rfl

theorem bypass_object (hne : o ≠ b) (hs : h.shadow b ≠ o) (hsb : h.shadow b ≠ b) :
    (h.bypass o b).object o =
      { h.object o with
          shadow := h.shadow b
          shadowOffset := ((h.object o).shadowOffset + (h.object b).shadowOffset) % 2 ^ 32 } := by
  simp only [bypass]
  rw [set_of_ne hne, set_self, reference_object, set_self, if_neg fun hand => hs hand.1,
    reference_object, set_of_ne hne.symm, if_neg fun hand => hsb hand.1]

theorem bypass_backing (hne : o ≠ b) (hsb : h.shadow b ≠ b) : (h.bypass o b).object b =
      { h.object b with refCount := ((h.object b).refCount + (2 ^ 16 - 1)) % 2 ^ 16 } := by
  simp only [bypass]
  rw [set_self, set_of_ne hne.symm, reference_object, set_of_ne hne.symm,
    if_neg fun hand => hsb hand.1]

/-! ### Counting links -/

theorem links_update (ho : o ∈ os) {s : Nat} (hshadow : h'.shadow = update h.shadow o s) (q : Nat) :
    h'.links os q + (if h.shadow o = q then 1 else 0) =
      h.links os q + (if s = q then 1 else 0) := by
  unfold links
  rw [← add_sum_erase os _ ho,
    ← add_sum_erase os (fun p => if h.shadow p = q then 1 else 0) ho, hshadow,
    update_self]
  have hrest : ∑ p ∈ os.erase o, (if update h.shadow o s p = q then 1 else 0) =
      ∑ p ∈ os.erase o, if h.shadow p = q then 1 else 0 :=
    Finset.sum_congr rfl fun p hp => by rw [update_of_ne (Finset.ne_of_mem_erase hp)]
  omega

theorem links_erase (hb : b ∈ os) (h : VmObjects α) (q : Nat) :
    (if h.shadow b = q then 1 else 0) + h.links (os.erase b) q = h.links os q :=
  add_sum_erase os (fun p => if h.shadow p = q then 1 else 0) hb

theorem Graph.links_pos (ho : o ∈ os) (hshadow : h.shadow o = b) : 1 ≤ h.links os b := by
  have := links_erase ho h b
  rw [if_pos hshadow] at this
  omega

theorem Graph.mem_shadow (hg : Graph h os) (ho : o ∈ os) (hb : h.shadow o ≠ vmObjectNull) :
    h.shadow o ∈ os := by
  obtain ⟨l, hl, hmem⟩ := hg.chain o ho
  cases hl with
  | nil => exact absurd ho hg.null
  | cons _ hl => exact hmem _ (mem_cons_of_mem _ (hl.head_mem hb))

/-! ### One round -/

/-- The objects of a chain that are in front of one. -/
def inFront (o : Nat) (l : List Nat) : List Nat := l.takeWhile (· ≠ o)

/-- If a chain goes through an object then it gets there below its size. -/
def Reaches (h : VmObjects α) (o : Nat) (l : List Nat) (x : Nat) : Prop :=
  o ∈ l → h.below (inFront o l) x < (h.object o).size

/-- What one round does, or several: objects are cut out of the chain below `o`. -/
structure Shortened (o : Nat) (h : VmObjects α) (os : Finset Nat) (h' : VmObjects α)
    (os' : Finset Nat) : Prop where
  graph : Graph h' os'
  mem : o ∈ os'
  subset : os' ⊆ os
  size : (h'.object o).size = (h.object o).size
  read : ∀ q ∈ os', ∀ l, Chain h.shadow q l → ∃ l', Chain h'.shadow q l' ∧
    (∀ x, h.Reaches o l x → h'.read l' x = h.read l x) ∧
    ∀ x, h.Reaches o l x → h'.Reaches o l' x
  refs : ∀ q ∈ os', (h'.object q).refCount + h.links os q = (h.object q).refCount + h'.links os' q
  freed : ∀ q ∈ os, q ∉ os' → (h'.object q).alive = false ∧ (h.object q).refCount = h.links os q
  frame : ∀ q, q ∉ os → h'.object q = h.object q

theorem inFront_append (ho : o ∉ l₁) (l₂ : List Nat) : inFront o (l₁ ++ o :: l₂) = l₁ := by
  unfold inFront
  rw [takeWhile_append_of_pos, takeWhile_cons_of_neg, append_nil]
  · simp
  · intro p hp
    exact decide_eq_true fun heq => ho (heq ▸ hp)

theorem Shortened.refl (hg : Graph h os) (ho : o ∈ os) : Shortened o h os h os where
  graph := hg
  mem := ho
  subset := Finset.Subset.refl _
  size := rfl
  read _ _ l hl := ⟨l, hl, fun _ _ => rfl, fun _ hx => hx⟩
  refs _ _ := rfl
  freed _ hq hnot := absurd hq hnot
  frame _ _ := rfl

theorem Shortened.trans {h'' : VmObjects α} {os'' : Finset Nat} (hs : Shortened o h os h' os')
    (hs' : Shortened o h' os' h'' os'') : Shortened o h os h'' os'' where
  graph := hs'.graph
  mem := hs'.mem
  subset := hs'.subset.trans hs.subset
  size := hs'.size.trans hs.size
  read q hq l hl := by
    obtain ⟨l', hl', hread, hreaches⟩ := hs.read q (hs'.subset hq) l hl
    obtain ⟨l'', hl'', hread', hreaches'⟩ := hs'.read q hq l' hl'
    refine ⟨l'', hl'', fun x hx => ?_, fun x hx => hreaches' x (hreaches x hx)⟩
    rw [hread' x (hreaches x hx), hread x hx]
  refs q hq := by
    have h₁ := hs.refs q (hs'.subset hq)
    have h₂ := hs'.refs q hq
    omega
  freed q hq hnot := by
    by_cases hmem : q ∈ os'
    · obtain ⟨halive, hrefs⟩ := hs'.freed q hmem hnot
      have h₁ := hs.refs q hmem
      exact ⟨halive, by omega⟩
    · obtain ⟨halive, hrefs⟩ := hs.freed q hq hmem
      rw [hs'.frame q hmem]
      exact ⟨halive, hrefs⟩
  frame q hq := by rw [hs'.frame q fun hmem => hq (hs.subset hmem), hs.frame q hq]

/-- What a round does follows from what it does to the chain and to the references. -/
theorem CutOut.shortened (hc : CutOut h h' o b) (hg : Graph h os) (ho : o ∈ os)
    (hb : h.shadow o = b) (hnull : b ≠ vmObjectNull) (hsub : os' ⊆ os) (hmem : o ∈ os')
    (hwf : ∀ q ∈ os', (h'.object q).Wf) (halive : ∀ q ∈ os', (h'.object q).alive = true)
    (hthere : ∀ q ∈ os, q ≠ b → q ∈ os')
    (hback : b ∈ os' → Same h h' b) (honly : b ∉ os' → ∀ p ∈ os, h.shadow p = b → p = o)
    (hrefs : ∀ q ∈ os',
      (h'.object q).refCount + h.links os q = (h.object q).refCount + h'.links os' q)
    (hfreed : b ∉ os' → (h'.object b).alive = false ∧ (h.object b).refCount = h.links os b)
    (hframe : ∀ q, q ∉ os → h'.object q = h.object q) : Shortened o h os h' os' := by
  have hstays {q : Nat} {l : List Nat} (hq : q ∈ os') (hl : Chain h.shadow q l)
      (hin : ∀ p ∈ l, p ∈ os) (hol : o ∉ l) (hp : b ∈ l) : b ∈ os' := by
    by_contra hnot
    obtain ⟨k, hk, hkb⟩ := hl.exists_pred hp fun heq => hnot (heq ▸ hq)
    exact hol (honly hnot k (hin k hk) hkb ▸ hk)
  have hchain (q : Nat) (hq : q ∈ os') (l : List Nat) (hl : Chain h.shadow q l)
      (hin : ∀ p ∈ l, p ∈ os) :
      (∃ l₁ l₂, l = l₁ ++ o :: b :: l₂ ∧ Chain h'.shadow q (l₁ ++ o :: l₂)) ∨
        (o ∉ l ∧ Chain h'.shadow q l ∧ ∀ p ∈ l, Same h h' p) := by
    by_cases hol : o ∈ l
    · left
      obtain ⟨l₁, l₂, rfl⟩ := append_of_mem hol
      have htail := hl.tail_of_append
      rw [hb] at htail
      cases htail with
      | nil => exact absurd rfl hnull
      | @cons _ l₂ _ _ =>
        refine ⟨l₁, l₂, rfl, ?_⟩
        rw [hc.shadow]
        exact hl.skip
    · right
      refine ⟨hol, ?_, fun p hp => ?_⟩
      · refine hl.congr fun k hk => ?_
        rw [hc.shadow, update_of_ne]
        rintro rfl
        exact hol hk
      · have hpo : p ≠ o := fun heq => hol (heq ▸ hp)
        rcases eq_or_ne p b with rfl | hpb
        · exact hback (hstays hq hl hin hol hp)
        · exact hc.same p hpo hpb
  constructor
  case graph =>
    refine ⟨fun hmem' => hg.null (hsub hmem'), hwf, halive, fun q hq => ?_, fun q hq => ?_⟩
    · obtain ⟨l, hl, hin⟩ := hg.chain q (hsub hq)
      rcases hchain q hq l hl hin with ⟨l₁, l₂, rfl, hl'⟩ | ⟨hol, hl', hsame⟩
      · refine ⟨_, hl', fun p hp => ?_⟩
        have hnodup := hl.nodup
        rw [append_cons] at hin hnodup hp
        obtain ⟨hbl, -⟩ := nodup_cons.mp (nodup_middle.mp hnodup)
        exact hthere p (hin p (perm_middle.mem_iff.mpr (mem_cons_of_mem _ hp)))
          fun heq => hbl (heq ▸ hp)
      · refine ⟨l, hl', fun p hp => ?_⟩
        rcases eq_or_ne p b with rfl | hpb
        · exact hstays hq hl hin hol hp
        · exact hthere p (hin p hp) hpb
    · have := hrefs q hq
      have := hg.refs q (hsub hq)
      omega
  case read =>
    intro q hq l hl
    obtain ⟨l', hl', hin⟩ := hg.chain q (hsub hq)
    obtain rfl := hl.unique hl'
    rcases hchain q hq l hl hin with ⟨l₁, l₂, rfl, hcut⟩ | ⟨hol, hcut, hsame⟩
    · have hnot : o ∉ l₁ := fun hmem' =>
        (nodup_append.mp hl.nodup).2.2 o hmem' o mem_cons_self rfl
      have hfront : ∀ p ∈ l₁, Same h h' p := fun p hp => hc.same p (fun heq => hnot (heq ▸ hp))
        ((nodup_append.mp hl.nodup).2.2 p hp b (mem_cons_of_mem _ mem_cons_self))
      have hx' (x : Nat) (hx : h.Reaches o (l₁ ++ o :: b :: l₂) x) :
          h.below l₁ x < (h.object o).size := by
        have hlt := hx (mem_append_right _ mem_cons_self)
        rwa [inFront_append hnot] at hlt
      refine ⟨_, hcut, fun x hx => hc.read hl.nodup (hx' x hx), fun x hx _ => ?_⟩
      rw [inFront_append hnot, below_congr hfront, hc.size]
      exact hx' x hx
    · exact ⟨l, hcut, fun x _ => read_congr hsame x, fun x _ hmem' => absurd hmem' hol⟩
  case mem => exact hmem
  case subset => exact hsub
  case size => exact hc.size
  case refs => exact hrefs
  case freed =>
    intro q hq hnot
    rcases eq_or_ne q b with rfl | hqb
    · exact hfreed hnot
    · exact absurd (hthere q hq hqb) hnot
  case frame => exact hframe

theorem CutOut.fits (hc : CutOut h h' o b) (hl : Chain h.shadow o (o :: b :: l))
    (hf : h.Fits (h.object o).size (b :: l) (h.object o).shadowOffset) :
    Chain h'.shadow o (o :: l) ∧ h'.Fits (h'.object o).size l (h'.object o).shadowOffset := by
  have hcons := nodup_cons.mp hl.nodup
  constructor
  · rw [hc.shadow]
    exact .skip (l := []) hl
  · rw [hc.size, hc.offset]
    refine hf.2.congr fun p hp => hc.same p ?_ ?_
    · rintro rfl
      exact hcons.1 (mem_cons_of_mem _ hp)
    · rintro rfl
      exact (nodup_cons.mp hcons.2).1 hp

theorem collapseInto_shortened (hg : Graph h os) (ho : o ∈ os) (hb : h.shadow o = b)
    (hnull : b ≠ vmObjectNull) (hne : o ≠ b) (hpager : (h.object o).pagerCreated = false)
    (hone : (h.object b).refCount = 1)
    (hfit : (h.object o).shadowOffset + (h.object o).size ≤ 2 ^ 32)
    (hup : MovedUp (h.object o).shadowOffset (h.object o).size (h.object b).memq (h.object o).memq
      memq) :
    Shortened o h os (h.collapseInto o b memq) (os.erase b) := by
  have hbmem : b ∈ os := hb ▸ hg.mem_shadow ho (hb ▸ hnull)
  have hwf := hg.wf o ho
  have hc := collapseInto_cutOut hne hwf hpager hfit hup
  have hlinks : h.links os b = 1 := (hone ▸ hg.refs b hbmem).antisymm (Graph.links_pos ho hb)
  have hsame (q : Nat) (hq : q ≠ b) :
      (h.collapseInto o b memq).links (os.erase b) q = h.links os q := by
    have h₁ := links_update ho hc.shadow q
    have h₂ := links_erase hbmem (h.collapseInto o b memq) q
    rw [hc.shadow, update_of_ne hne.symm] at h₂
    rw [hb, if_neg hq.symm] at h₁
    omega
  refine hc.shortened hg ho hb hnull (Finset.erase_subset ..) (mem_erase.mpr ⟨hne, ho⟩)
    (fun q hq => ?_) (fun q hq => ?_) (fun q hq hqb => mem_erase.mpr ⟨hqb, hq⟩)
    (fun hmem => absurd rfl (Finset.ne_of_mem_erase hmem))
    (fun _ p hp hpb => ?_) (fun q hq => ?_)
    (fun _ => ⟨?_, hone.trans hlinks.symm⟩) (fun q hq => ?_)
  · obtain ⟨hqb, hq⟩ := mem_erase.mp hq
    rcases eq_or_ne q o with rfl | hqo
    · rw [collapseInto, set_of_ne hne, set_self]
      refine ⟨hup.wf, fun hcreated => ?_⟩
      obtain ⟨hpagerb, habsentb⟩ := (hg.wf b hbmem).noPager hcreated
      refine ⟨hpagerb, fun p hp => ?_⟩
      rcases hup.absent p hp with hp' | ⟨p', hp', habsent⟩
      · exact (hwf.noPager hpager).2 p hp'
      · exact habsent.trans (habsentb p' hp')
    · rw [collapseInto_of_ne hqo hqb]
      exact hg.wf q hq
  · obtain ⟨hqb, hq⟩ := mem_erase.mp hq
    rcases eq_or_ne q o with rfl | hqo
    · rw [collapseInto, set_of_ne hne, set_self]
      exact hg.alive q hq
    · rw [collapseInto_of_ne hqo hqb]
      exact hg.alive q hq
  · by_contra hpo
    have h₁ := links_erase ho h b
    have h₂ := links_erase (mem_erase.mpr ⟨hpo, hp⟩) h b
    rw [if_pos hb] at h₁
    rw [if_pos hpb] at h₂
    omega
  · obtain ⟨hqb, hq⟩ := mem_erase.mp hq
    rw [hsame q hqb, collapseInto_refCount hne hqb]
  · unfold collapseInto
    rw [set_self]
  · have hqo : q ≠ o := fun heq => hq (heq ▸ ho)
    have hqb : q ≠ b := fun heq => hq (heq ▸ hbmem)
    exact collapseInto_of_ne hqo hqb memq h

theorem Room.collapseInto (hroom : Room o h os) (hb : h.shadow o = b) (hne : o ≠ b)
    (memq : List (VmPage α)) : Room o (h.collapseInto o b memq) (os.erase b) := by
  constructor
  case count_lt =>
    intro q hq
    obtain ⟨hqb, hq⟩ := mem_erase.mp hq
    rw [collapseInto_refCount hne hqb]
    exact hroom.count_lt q hq
  case succ_lt =>
    intro q hq _
    obtain ⟨hqb, hq⟩ := mem_erase.mp hq
    rw [collapseInto_refCount hne hqb]
    exact hroom.succ_lt q hq (hb ▸ hqb)

/-- If no page of the backing object is needed then the object has all that can be seen there. -/
theorem own_of_not_needed (hbw : (h.object b).Wf) (how : (h.object o).Wf)
    (hpager : (h.object o).pagerCreated = false) (hbpager : (h.object b).pagerCreated = false)
    (hnot : (h.object b).memq.any
      (pageNeeded (h.object o).shadowOffset (h.object o).size (h.object o).memq) = false)
    (hfit : (h.object o).shadowOffset + (h.object o).size ≤ 2 ^ 32) {y : Nat}
    (hy : y < (h.object o).size) :
    h.own o y = (h.own o y).or (h.own b ((y + (h.object o).shadowOffset) % 2 ^ 32)) := by
  have hmod : (y + (h.object o).shadowOffset) % 2 ^ 32 = y + (h.object o).shadowOffset :=
    Nat.mod_eq_of_lt (by omega)
  have hpaged : h.paged b (y + (h.object o).shadowOffset) = none := if_pos (hbw.noPager hbpager).1
  rw [hmod]
  cases hpage : vmPageLookup (y + (h.object o).shadowOffset) (h.object b).memq with
  | none =>
    have hback : h.own b (y + (h.object o).shadowOffset) = none := by
      unfold own
      rw [hpage]
      exact hpaged
    rw [hback, or_none]
  | some p =>
    obtain ⟨hmem, hoffset⟩ := vmPageLookup_eq_some hpage
    have hneeded := any_eq_false.mp hnot p hmem
    have hsub : sub32 p.offset (h.object o).shadowOffset = y := by
      rw [VmMap.sub32_eq (by omega) (hbw.pages.width p hmem), hoffset, Nat.add_sub_cancel]
    unfold pageNeeded at hneeded
    simp only [hsub] at hneeded
    rw [decide_eq_true (by omega : (h.object o).shadowOffset ≤ p.offset),
      decide_eq_true hy.le, Bool.true_and, Bool.true_and] at hneeded
    cases hfront : vmPageLookup y (h.object o).memq with
    | none =>
      rw [hfront] at hneeded
      exact absurd rfl hneeded
    | some pp =>
      have hreal := (how.noPager hpager).2 pp (vmPageLookup_eq_some hfront).1
      rw [own_of_lookup hfront hreal, some_or]

theorem bypass_shortened (hg : Graph h os) (hroom : Room o h os) (ho : o ∈ os)
    (hl : Chain h.shadow o (o :: b :: l)) (hnull : b ≠ vmObjectNull)
    (hpager : (h.object o).pagerCreated = false)
    (hone : (h.object b).refCount ≠ 1) (hbpager : (h.object b).pagerCreated = false)
    (hnot : (h.object b).memq.any
      (pageNeeded (h.object o).shadowOffset (h.object o).size (h.object o).memq) = false)
    (hfit : (h.object o).shadowOffset + (h.object o).size ≤ 2 ^ 32) :
    CutOut h (h.bypass o b) o b ∧ Shortened o h os (h.bypass o b) os ∧
      Room o (h.bypass o b) os := by
  have hb : h.shadow o = b := (Chain.tail_of_append (l := []) hl).head_eq
  have hbmem : b ∈ os := hb ▸ hg.mem_shadow ho (hb ▸ hnull)
  have honull : o ≠ vmObjectNull := fun heq => hg.null (heq ▸ ho)
  have hcons := nodup_cons.mp hl.nodup
  have hne : o ≠ b := fun heq => hcons.1 (heq ▸ mem_cons_self)
  have htail : Chain h.shadow (h.shadow b) l := .tail_of_append (l := [o]) hl
  have hs {p : Nat} (hp : p ≠ vmObjectNull) (hpl : p ∉ l) : h.shadow b ≠ p := by
    rintro rfl
    exact hpl (htail.head_mem hp)
  have hsb : h.shadow b ≠ b := hs hnull (nodup_cons.mp hcons.2).1
  have hso : h.shadow b ≠ o := hs honull fun hmem => hcons.1 (mem_cons_of_mem _ hmem)
  have hobject := bypass_object hne hso hsb
  have hbacking := bypass_backing hne hsb
  have hother {p : Nat} (hp : p ≠ o) (hpb : p ≠ b) : (h.bypass o b).object p =
      { h.object p with
          refCount :=
            if h.shadow b = p ∧ h.shadow b ≠ vmObjectNull then ((h.object p).refCount + 1) % 2 ^ 16
            else (h.object p).refCount } := by
    simp only [bypass]
    rw [set_of_ne hpb, set_of_ne hp, reference_object, set_of_ne hp]
  have hsame (q : Nat) : ∃ s offset count, (h.bypass o b).object q =
      { h.object q with shadow := s, shadowOffset := offset, refCount := count } := by
    rcases eq_or_ne q o with rfl | hqo
    · exact ⟨_, _, _, hobject⟩
    · rcases eq_or_ne q b with rfl | hqb
      · exact ⟨_, _, _, hbacking⟩
      · exact ⟨_, _, _, hother hqo hqb⟩
  have hown (q : Nat) : (h.bypass o b).own q = h.own q := by
    obtain ⟨s, offset, count, heq⟩ := hsame q
    exact own_congr (reference_held ..) (by rw [heq]) (by rw [heq]) (by rw [heq])
  have hc : CutOut h (h.bypass o b) o b := by
    constructor
    case shadow =>
      funext p
      unfold shadow
      rcases eq_or_ne p o with rfl | hp
      · rw [hobject, update_self]
        rfl
      rw [update_of_ne hp]
      rcases eq_or_ne p b with rfl | hpb
      · rw [hbacking]
      · rw [hother hp hpb]
    case offset => rw [hobject]
    case size => rw [hobject]
    case same =>
      intro p hp hpb
      exact ⟨hown p, by rw [hother hp hpb]⟩
    case own =>
      intro y hy
      rw [hown]
      exact own_of_not_needed (hg.wf b hbmem) (hg.wf o ho) hpager hbpager hnot hfit hy
  have hdown : ((h.bypass o b).object b).refCount + 1 = (h.object b).refCount := by
    have hpos := lt_of_lt_of_le (Graph.links_pos ho hb) (hg.refs b hbmem)
    have hlt := hroom.count_lt b hbmem
    rw [hbacking]
    change ((h.object b).refCount + (2 ^ 16 - 1)) % 2 ^ 16 + 1 = _
    omega
  have hup {q : Nat} (hq : q ∈ os) (hqb : q ≠ b) : ((h.bypass o b).object q).refCount =
      (h.object q).refCount + if h.shadow b = q then 1 else 0 := by
    rcases eq_or_ne q o with rfl | hqo
    · rw [hobject, if_neg hso]
      rfl
    have hlt := hroom.succ_lt q hq (hb ▸ hqb)
    rw [hother hqo hqb]
    split
    next hand => rw [if_pos hand.1, Nat.mod_eq_of_lt (by omega)]
    next hand =>
      rw [if_neg fun heq => hand ⟨heq, fun hnull => hg.null (hnull ▸ heq ▸ hq)⟩]
      rfl
  have hshadow : (h.bypass o b).shadow o = h.shadow b := by
    rw [hc.shadow, update_self]
  have hroom' : Room o (h.bypass o b) os := by
    constructor
    case count_lt =>
      intro q hq
      have hlt := hroom.count_lt q hq
      rcases eq_or_ne q b with rfl | hqb
      · omega
      have hlt' := hroom.succ_lt q hq (hb ▸ hqb)
      rw [hup hq hqb]
      split
      next => omega
      next => omega
    case succ_lt =>
      intro q hq hne'
      have hlt := hroom.count_lt q hq
      rcases eq_or_ne q b with rfl | hqb
      · omega
      · have hsq : h.shadow b ≠ q := fun heq => hne' (heq.symm.trans hshadow.symm)
        rw [hup hq hqb, if_neg hsq]
        exact hroom.succ_lt q hq (hb ▸ hqb)
  refine ⟨hc, hc.shortened hg ho hb hnull (Finset.Subset.refl _) ho (fun q hq => ?_)
    (fun q hq => ?_) (fun q hq _ => hq) (fun _ => ?_) (fun hmem => absurd hbmem hmem)
    (fun q hq => ?_) (fun hmem => absurd hbmem hmem) (fun q hq => ?_), hroom'⟩
  · obtain ⟨s, offset, count, heq⟩ := hsame q
    rw [heq]
    exact ⟨(hg.wf q hq).pages, (hg.wf q hq).noPager⟩
  · obtain ⟨s, offset, count, heq⟩ := hsame q
    rw [heq]
    exact hg.alive q hq
  · exact ⟨hown b, by rw [hbacking]⟩
  · have hlinks := links_update ho hc.shadow q
    rw [hb] at hlinks
    rcases eq_or_ne q b with rfl | hqb
    · rw [if_pos rfl, if_neg hsb] at hlinks
      omega
    · rw [if_neg hqb.symm] at hlinks
      rw [hup hq hqb]
      omega
  · have hqo : q ≠ o := fun heq => hq (heq ▸ ho)
    have hqb : q ≠ b := fun heq => hq (heq ▸ hbmem)
    rw [hother hqo hqb, if_neg]
    · rintro ⟨rfl, hsnull⟩
      exact hq (hg.mem_shadow hbmem hsnull)

/-! ### The loop -/

/-- A round returns, or cuts one object out of the chain.  It does not panic. -/
inductive Round (o : Nat) (h : VmObjects α) (os : Finset Nat) (l : List Nat) :
    CollapseStep α → Prop
  | returned : Round o h os l .returned
  | again {h' : VmObjects α} {os' : Finset Nat} {b : Nat} {l' : List Nat} (hl : l = b :: l')
      (hcut : CutOut h h' o b) (hs : Shortened o h os h' os') (hroom : Room o h' os') :
      Round o h os l (.again h')

theorem collapseStep_spec (hg : Graph h os) (hroom : Room o h os) (ho : o ∈ os)
    (hl : Chain h.shadow o (o :: l))
    (hf : h.Fits (h.object o).size l (h.object o).shadowOffset) (flags : CollapseFlags)
    (cacheLock : Bool) : Round o h os l (h.collapseStep flags cacheLock o) := by
  simp only [collapseStep]
  split
  next => exact .returned
  rename_i hobject
  obtain ⟨-, hrest⟩ := not_or.mp hobject
  have hpager : (h.object o).pagerCreated = false :=
    Bool.eq_false_iff.mpr (not_or.mp hrest).1
  split
  next => exact .returned
  rename_i hnull
  have htail : Chain h.shadow (h.shadow o) l := .tail_of_append (l := []) hl
  generalize hb : (h.object o).shadow = b at hnull
  have hb' : h.shadow o = b := hb
  rw [hb'] at htail
  cases htail with
  | nil => exact absurd rfl hnull
  | @cons _ l hnull =>
    have hbmem : b ∈ os := hb' ▸ hg.mem_shadow ho (hb' ▸ hnull)
    have hne : o ≠ b := fun heq =>
      (nodup_cons.mp hl.nodup).1 (heq ▸ mem_cons_self)
    split
    next => exact .returned
    split
    next => exact .returned
    split
    next hone =>
      split
      next => exact .returned
      obtain ⟨memq, hmove, hup⟩ := movePages_spec hf.1 (hg.wf b hbmem).pages
        (hg.wf o ho).pages fun _ _ _ pp hpp =>
          ((hg.wf o ho).noPager hpager).2 pp (vmPageLookup_eq_some hpp).1
      rw [hmove]
      exact .again rfl (collapseInto_cutOut hne (hg.wf o ho) hpager hf.1 hup)
        (collapseInto_shortened hg ho hb' hnull hne hpager hone hf.1 hup)
        (hroom.collapseInto hb' hne memq)
    rename_i hone
    split
    next => exact .returned
    rename_i hbpager
    split
    next => exact .returned
    next hneeded =>
      obtain ⟨hcut, hs, hroom'⟩ := bypass_shortened hg hroom ho hl hnull hpager hone
        (Bool.eq_false_iff.mpr (not_or.mp hbpager).2) (Bool.eq_false_iff.mpr hneeded)
        hf.1
      exact .again rfl hcut hs hroom'

/-- The loop ends, after at most as many rounds as there are objects in the chain. -/
theorem collapseLoop_spec (hg : Graph h os) (hroom : Room o h os) (ho : o ∈ os)
    (hl : Chain h.shadow o (o :: l))
    (hf : h.Fits (h.object o).size l (h.object o).shadowOffset) (flags : CollapseFlags)
    (cacheLock : Nat → Bool) {fuel : Nat} (hfuel : l.length < fuel) :
    ∃ h' os', h.collapseLoop flags cacheLock o fuel = .returned h' ∧ Shortened o h os h' os' := by
  induction fuel generalizing h os l with
  | zero => exact absurd hfuel (Nat.not_lt_zero _)
  | succ fuel ih =>
    have hround := collapseStep_spec hg hroom ho hl hf flags (cacheLock fuel)
    rw [collapseLoop]
    cases hstep : h.collapseStep flags (cacheLock fuel) o with
    | returned => exact ⟨h, os, rfl, .refl hg ho⟩
    | panicked =>
      rw [hstep] at hround
      cases hround
    | again =>
      rw [hstep] at hround
      cases hround with
      | again hcons hcut hs hroom' =>
        subst hcons
        obtain ⟨hl', hf'⟩ := hcut.fits hl hf
        obtain ⟨h', os', hrun, hs'⟩ := ih hs.graph hroom' hs.mem hl' hf'
          (Nat.lt_of_succ_lt_succ hfuel)
        exact ⟨h', os', hrun, hs.trans hs'⟩

/-- `vm_object_collapse` returns, and cannot be seen: the contents of every object that survives are
the same, as far as its chain reaches the collapsed object below its size.  For the collapsed object
itself this is every offset below its size.  References change with the links, and an object is
freed only if all its references were links, and all of them are gone. -/
theorem collapse_invisible (hg : Graph h os)
    (hroom : ∀ q ∈ os, (h.object q).refCount + 1 < 2 ^ 15) (ho : o ∈ os)
    (hl : Chain h.shadow o (o :: l))
    (hf : h.Fits (h.object o).size l (h.object o).shadowOffset) (flags : CollapseFlags)
    (cacheLock : Nat → Bool) {fuel : Nat} (hfuel : l.length < fuel) :
    ∃ h' os', h.collapse flags cacheLock fuel o = .returned h' ∧ o ∈ os' ∧ os' ⊆ os ∧ Graph h' os' ∧
      (∀ l', Chain h'.shadow o l' → ∀ x, x < (h.object o).size → h'.read l' x = h.read (o :: l) x) ∧
      (∀ q ∈ os', ∀ l l', Chain h.shadow q l → Chain h'.shadow q l' →
        ∀ x, h.Reaches o l x → h'.read l' x = h.read l x) ∧
      (∀ q ∈ os', (h'.object q).refCount + h.links os q = (h.object q).refCount + h'.links os' q) ∧
      (∀ q ∈ os, q ∉ os' → (h'.object q).alive = false ∧
        (h.object q).refCount = h.links os q ∧ h'.links os' q = 0) := by
  have hrun : ∃ h' os', h.collapse flags cacheLock fuel o = .returned h' ∧
      Shortened o h os h' os' := by
    unfold collapse
    split
    next =>
      have hroom : Room o h os :=
        ⟨fun q hq => Nat.lt_of_succ_lt (hroom q hq), fun q hq _ => hroom q hq⟩
      exact collapseLoop_spec hg hroom ho hl hf flags cacheLock hfuel
    next => exact ⟨h, os, rfl, .refl hg ho⟩
  obtain ⟨h', os', hrun, hs⟩ := hrun
  have hread (q : Nat) (hq : q ∈ os') (l l' : List Nat) (hl : Chain h.shadow q l)
      (hl' : Chain h'.shadow q l') (x : Nat) (hx : h.Reaches o l x) :
        h'.read l' x = h.read l x := by
    obtain ⟨l'', hl'', hread, -⟩ := hs.read q hq l hl
    obtain rfl := hl'.unique hl''
    exact hread x hx
  refine ⟨h', os', hrun, hs.mem, hs.subset, hs.graph, fun l' hl' x hx => ?_, hread, hs.refs,
    fun q hq hnot => ?_⟩
  · refine hread o hs.mem _ l' hl hl' x fun _ => ?_
    rw [show inFront o (o :: l) = [] from inFront_append not_mem_nil l]
    exact hx
  · obtain ⟨halive, hrefs⟩ := hs.freed q hq hnot
    refine ⟨halive, hrefs, Finset.sum_eq_zero fun p hp => if_neg ?_⟩
    rintro rfl
    exact hnot (hs.graph.mem_shadow hp fun heq => hg.null (heq ▸ hq))

/-! ### Beyond the size -/

/-- An object with pages and without a pager. -/
def page (size shadow : Nat) (memq : List (VmPage Nat)) : VmObject Nat where
  memq := memq
  size := size
  refCount := 1
  copy := vmObjectNull
  shadow := shadow
  shadowOffset := 0
  pager := memoryObjectNull
  pagingOffset := 0
  pagerRequest := memoryObjectNull
  pagerName := memoryObjectNull
  existenceInfo := memoryObjectNull
  pagerCreated := false
  pagerInitialized := false
  pagerReady := false
  internal := true
  temporary := true
  alive := true
  pagingInProgress := 0
  absentCount := 0

/-- Object 3 shadows object 1, which shadows object 2.  Object 1 has the size of one page only, and
there are two pages in object 2. -/
def threePages : VmObjects Nat where
  object o :=
    if o = 1 then page 4096 2 []
    else if o = 2 then page 8192 0 [⟨0, false, 7⟩, ⟨4096, false, 8⟩]
    else if o = 3 then page 8192 1 []
    else page 0 0 []
  held _ _ := none

/-- Objects in a chain, without pagers. -/
theorem graph_of_chain (hl : Chain h.shadow o l)
    (hpages : ∀ q ∈ l, ((h.object q).memq.map VmPage.offset).Nodup ∧
      ∀ p ∈ (h.object q).memq, p.offset < 2 ^ 32 ∧ p.absent = false)
    (hpager : ∀ q ∈ l, (h.object q).pager = memoryObjectNull ∧ (h.object q).alive = true)
    (hrefs : ∀ q ∈ l, h.links l.toFinset q ≤ (h.object q).refCount) : Graph h l.toFinset where
  null hnull := hl.ne_zero _ (mem_toFinset.mp hnull) rfl
  wf q hq := by
    obtain ⟨hnodup, hp⟩ := hpages q (mem_toFinset.mp hq)
    exact ⟨⟨hnodup, fun p h => (hp p h).1⟩,
      fun _ => ⟨(hpager q (mem_toFinset.mp hq)).1, fun p h => (hp p h).2⟩⟩
  alive q hq := (hpager q (mem_toFinset.mp hq)).2
  chain q hq := by
    obtain ⟨l₁, l₂, rfl⟩ := append_of_mem (mem_toFinset.mp hq)
    exact ⟨_, hl.next_eq, fun p hp => mem_toFinset.mpr (mem_append_right _ hp)⟩
  refs q hq := hrefs q (mem_toFinset.mp hq)

theorem threePages_chain : Chain threePages.shadow 3 [3, 1, 2] :=
  .cons (by decide) (.cons (by decide) (.cons (by decide) .nil))

theorem threePages_graph : Graph threePages {1, 2, 3} :=
  (by decide : [3, 1, 2].toFinset = {1, 2, 3}) ▸
    graph_of_chain threePages_chain (by decide) (by decide) (by decide)

/-- Object 1 is collapsed with object 2, and the page at the start is the same. -/
theorem collapse_invisible_threePages :
    ∃ h', threePages.collapse ⟨true, true⟩ (fun _ => true) 2 1 = .returned h' ∧
      h'.read [1] 0 = some 7 := by
  obtain ⟨h', os', hrun, -, -, -, hread, -⟩ :=
    collapse_invisible threePages_graph (by decide) (by decide)
      (.next_eq (l := [3]) threePages_chain) ⟨by decide, trivial⟩ ⟨true, true⟩ (fun _ => true)
      (by decide : [2].length < 2)
  refine ⟨h', hrun, (hread [1] ?_ 0 (by decide)).trans (by decide)⟩
  cases hrun
  exact .cons (by decide) .nil

/-- Object 3 can see the second page of object 2, beyond the size of object 1.  After object 1 is
collapsed it reads zeros there. -/
theorem not_invisible_threePages :
    Graph threePages {1, 2, 3} ∧ Chain threePages.shadow 3 [3, 1, 2] ∧
      threePages.read [3, 1, 2] 4096 = some 8 ∧
      ∃ h', threePages.collapse ⟨true, true⟩ (fun _ => true) 2 1 = .returned h' ∧
        Chain h'.shadow 3 [3, 1] ∧ h'.read [3, 1] 4096 = none :=
  ⟨threePages_graph, threePages_chain, by decide, _, rfl,
    .cons (by decide) (.cons (by decide) .nil), by decide⟩

/-- Object 1 shows the page of object 2 at an offset that wraps around. -/
def wrappedPage : VmObjects Nat where
  object o :=
    if o = 1 then { page 8192 2 [] with shadowOffset := 2 ^ 32 - 4096 }
    else page 4096 0 [⟨0, false, 9⟩]
  held _ _ := none

/-- A page that wraps around is lost, below the size of the object. -/
theorem not_invisible_wrappedPage :
    Graph wrappedPage {1, 2} ∧ wrappedPage.read [1, 2] 4096 = some 9 ∧
      ∃ h', wrappedPage.collapse ⟨true, true⟩ (fun _ => true) 2 1 = .returned h' ∧
        Chain h'.shadow 1 [1] ∧ h'.read [1] 4096 = none :=
  ⟨graph_of_chain (l := [1, 2]) (.cons (by decide) (.cons (by decide) .nil)) (by decide) (by decide)
    (by decide), by decide, _, rfl, .cons (by decide) .nil, by decide⟩

/-- Object 1 can bypass object 2, and the count of object 3 is full. -/
def fullCount : VmObjects Nat where
  object o :=
    if o = 1 then page 4096 2 []
    else if o = 2 then { page 4096 3 [] with refCount := 2 }
    else { page 4096 0 [⟨0, false, 9⟩] with refCount := 32767 }
  held _ _ := none

/-- The count of references is negative after another one, as a `short`. -/
theorem not_room_fullCount :
    Graph fullCount {1, 2, 3} ∧ (BitVec.ofNat 16 (fullCount.object 3).refCount).toInt = 32767 ∧
      ∃ h', fullCount.collapse ⟨true, true⟩ (fun _ => true) 3 1 = .returned h' ∧
        (BitVec.ofNat 16 (h'.object 3).refCount).toInt = -32768 :=
  ⟨graph_of_chain (l := [1, 2, 3])
    (.cons (by decide) (.cons (by decide) (.cons (by decide) .nil))) (by decide) (by decide)
    (by decide), by decide, _, rfl, by decide⟩

end VmObjects

end Mach
