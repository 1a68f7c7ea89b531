import Mach.Intel.Pmap
import Mathlib.Algebra.BigOperators.Group.Finset.Piecewise

/-!
# What the pmap system is for

A map is a partial function from VM pages to physical pages (`Mappings`), and the calls change it in
the way that their names say.

A map has the addresses below `VM_MIN_KERNEL_ADDRESS` to itself (`PmapConfig.Own`).  Those above it
are the kernel's, and callers leave alone those that are mapped from the start
(`PmapConfig.Usable`).
-/

namespace Mach

open Function

/-! ## Mappings -/

/-- What a VM page of a map stands for. -/
structure Mapping where
  /-- The physical VM page. -/
  page : Nat
  write : Bool
  wired : Bool
deriving DecidableEq

/-- The mappings of all maps, by VM page. -/
abbrev Mappings := Nat → Nat → Option Mapping

namespace Mappings

variable (a : Mappings) {p q v w : Nat} {x y : Option Mapping}

/-- Changes what one VM page stands for. -/
def set (p v : Nat) (x : Option Mapping) : Mappings :=
  fun q w => if q = p ∧ w = v then x else a q w

/-- Changes mappings, and neither makes nor removes any. -/
def change (g : Nat → Nat → Mapping → Mapping) : Mappings := fun q w => (a q w).map (g q w)

/-- Removes the mappings of some VM pages of a map. -/
def drop (p : Nat) (pages : Nat → Prop) [DecidablePred pages] : Mappings :=
  fun q w => if q = p ∧ pages w then none else a q w

/-- `pmap_protect`. -/
def protect (p first last : Nat) (prot : Protection) : Mappings :=
  if prot.ReadOnly then
    if p = 0 then a.drop p fun w => first ≤ w ∧ w < last
    else a.change fun q w m => if q = p ∧ first ≤ w ∧ w < last then { m with write := false } else m
  else if prot.read ∧ prot.write then a
  else a.drop p fun w => first ≤ w ∧ w < last

/-- All mappings of a physical page are removed, or become read-only where that is possible. -/
def lower (remove : Bool) (f : Nat) : Mappings := fun q w =>
  (a q w).bind fun m =>
    if m.page = f then if remove ∨ q = 0 then none else some { m with write := false }
    else some m

/-- `pmap_page_protect`, of a managed page. -/
def pageProtect (f : Nat) (prot : Protection) : Mappings :=
  if prot.ReadOnly then a.lower false f
  else if prot = Protection.all then a
  else a.lower true f

/-- `pmap_enter`. -/
def enter (p v f : Nat) (prot : Protection) (wired : Bool) : Mappings :=
  a.set p v
    (if p = 0 ∧ prot.write = false ∧ wired = false then none else some ⟨f, prot.write, wired⟩)

/-- `pmap_change_wiring`. -/
def changeWiring (p v : Nat) (wired : Bool) : Mappings :=
  a.set p v ((a p v).map fun m => { m with wired := wired })

@[simp] theorem set_self : a.set p v x p v = x := if_pos ⟨rfl, rfl⟩

theorem set_of_ne (h : ¬ (q = p ∧ w = v)) : a.set p v x q w = a q w := if_neg h

theorem set_cases (h : a.set p v x q w = y) :
    (q = p ∧ w = v ∧ x = y) ∨ (¬ (q = p ∧ w = v) ∧ a q w = y) := by
  by_cases hqw : q = p ∧ w = v
  · exact .inl ⟨hqw.1, hqw.2, (if_pos hqw).symm.trans h⟩
  · exact .inr ⟨hqw, (if_neg hqw).symm.trans h⟩

@[simp] theorem set_set : (a.set p v x).set p v y = a.set p v y := by
  funext q w
  by_cases h : q = p ∧ w = v
  · simp only [set, if_pos h]
  · simp only [set, if_neg h]

theorem set_eq_self (h : a p v = x) : a.set p v x = a := by
  funext q w
  by_cases hqw : q = p ∧ w = v
  · obtain ⟨rfl, rfl⟩ := hqw
    rw [set_self, h]
  · rw [set_of_ne a hqw]

variable {pages : Nat → Prop} {pages' : Nat → Prop}

theorem drop_of_pos [DecidablePred pages] (h : pages w) :
    a.drop p pages p w = none := if_pos ⟨rfl, h⟩

theorem drop_of_not [DecidablePred pages] (h : ¬ (q = p ∧ pages w)) :
    a.drop p pages q w = a q w := if_neg h

theorem drop_congr [DecidablePred pages] [DecidablePred pages']
    (h : ∀ w, a p w ≠ none → (pages w ↔ pages' w)) : a.drop p pages = a.drop p pages' := by
  funext q w
  by_cases hq : q = p
  · subst hq
    cases hm : a q w with
    | none => simp [drop, hm]
    | some => simp [drop, h w (by simp [hm])]
  · rw [drop_of_not a fun h => hq h.1, drop_of_not a fun h => hq h.1]

theorem drop_drop [DecidablePred pages] [DecidablePred pages'] :
    (a.drop p pages).drop p pages' = a.drop p fun w => pages w ∨ pages' w := by
  funext q w
  by_cases hq : q = p
  · by_cases hw : pages' w
    · simp [drop, hq, hw]
    · simp [drop, hw]
  · simp [drop, hq]

theorem drop_eq_set : a.drop p (· = v) = a.set p v none := rfl

variable {remove : Bool} {f : Nat} {m : Mapping}

theorem lower_cases (h : a.lower remove f q w = some m) :
    (m.page ≠ f ∧ a q w = some m) ∨ (m.page = f ∧ remove = false ∧ m.write = false) := by
  obtain ⟨m₀, hm₀, hlow⟩ := Option.bind_eq_some_iff.mp h
  by_cases hf : m₀.page = f
  · rw [if_pos hf] at hlow
    obtain ⟨hstay, hm⟩ := Option.ite_none_left_eq_some.mp hlow
    cases hm
    exact .inr ⟨hf, Bool.eq_false_of_not_eq_true fun hremove => hstay (.inl hremove), rfl⟩
  · rw [if_neg hf] at hlow
    cases hlow
    exact .inl ⟨hf, hm₀⟩

/-- The number of VM pages of a map with a mapping of some kind, below the last slot of the page
directory. -/
def num (kind : Mapping → Bool) (p : Nat) : Nat :=
  ((Finset.range (1023 * nptes)).filter fun v => (a p v).any kind = true).card

theorem num_congr {a' : Mappings} {kind : Mapping → Bool}
    (h : ∀ v, (a' p v).any kind = (a p v).any kind) : a'.num kind p = a.num kind p := by
  simp only [num, h]

theorem num_set (kind : Mapping → Bool) (hv : v < 1023 * nptes) :
    (a.set p v x).num kind p + ((a p v).any kind).toNat = a.num kind p + (x.any kind).toNat := by
  have hmem : v ∈ Finset.range (1023 * nptes) := Finset.mem_range.mpr hv
  have hrest : ∀ w ∈ (Finset.range (1023 * nptes)).erase v,
      (if (a.set p v x p w).any kind = true then 1 else 0) =
        if (a p w).any kind = true then 1 else 0 := by
    intro w hw
    rw [set_of_ne a fun h => (Finset.mem_erase.mp hw).1 h.2]
  have hone : ∀ b : Bool, (if b = true then 1 else 0) = b.toNat := by decide
  rw [num, num, Finset.card_filter, Finset.card_filter, ← Finset.add_sum_erase _ _ hmem,
    ← Finset.add_sum_erase _ _ hmem, Finset.sum_congr rfl hrest, set_self, hone, hone]
  omega

end Mappings

/-! ## Pages and their entries -/

namespace PmapConfig

variable (c : PmapConfig)

theorem ptes_pos : 0 < c.ptes := Nat.two_pow_pos _

theorem mem_page {v w k : Nat} (hk : k < c.ptes) :
    (v * c.ptes ≤ w * c.ptes + k ∧ w * c.ptes + k < v * c.ptes + c.ptes) ↔ w = v := by
  constructor
  · rintro ⟨hle, hlt⟩
    have hv : v < w + 1 := by
      refine Nat.lt_of_mul_lt_mul_right (a := c.ptes) ?_
      rw [Nat.succ_mul]
      omega
    have hw : w < v + 1 := by
      refine Nat.lt_of_mul_lt_mul_right (a := c.ptes) ?_
      rw [Nat.succ_mul]
      omega
    omega
  · rintro rfl
    omega

theorem slot_div {v k : Nat} (hk : k < c.ptes) : (v * c.ptes + k) / nptes / c.ptes = v / nptes := by
  rw [Nat.div_div_eq_div_mul, mul_comm nptes, ← Nat.div_div_eq_div_mul, mul_comm v,
    Nat.mul_add_div c.ptes_pos, Nat.div_eq_of_lt hk, add_zero]

theorem mem_group {d g : Nat} : (g * c.ptes ≤ d ∧ d < g * c.ptes + c.ptes) ↔ d / c.ptes = g := by
  rw [Nat.div_eq_iff c.ptes_pos]
  have hpos := c.ptes_pos
  omega

theorem mem_group_entries {g w k : Nat} (hk : k < c.ptes) : (g * c.ptes * nptes ≤ w * c.ptes + k ∧
      w * c.ptes + k < g * c.ptes * nptes + c.ptes * nptes) ↔ w / nptes = g := by
  rw [← c.slot_div hk, ← c.mem_group, Nat.le_div_iff_mul_le (by decide),
    Nat.div_lt_iff_lt_mul (by decide), Nat.add_mul]

/-- The VM page is not one of those that the kernel map has from the start. -/
def Usable (p v : Nat) : Prop := p = 0 → c.reserved v = false

/-- The VM page is in the part of the address space that the map has to itself, below the last slot
of the page directory, and callers may use it. -/
structure Own (p v : Nat) : Prop where
  le : (v + 1) * c.ptes ≤ 1023 * nptes
  le_kernel : p ≠ 0 → (v + 1) * c.ptes ≤ kernelDir * nptes
  usable : c.Usable p v

variable {c}

theorem usable_of_ne {p : Nat} (hp : p ≠ 0) (v : Nat) : c.Usable p v := fun h => absurd h hp

theorem Own.lt {p v : Nat} (h : c.Own p v) : v < 1023 * nptes := by
  have hle : v + 1 ≤ (v + 1) * c.ptes := Nat.le_mul_of_pos_right _ c.ptes_pos
  exact (Nat.lt_succ_self v).trans_le (hle.trans h.le)

theorem Own.entry_lt {p v k : Nat} (h : c.Own p v) (hp : p ≠ 0) (hk : k < c.ptes) :
    v * c.ptes + k < kernelDir * nptes := by
  have hle := h.le_kernel hp
  rw [Nat.succ_mul] at hle
  omega

theorem Own.slot_lt {p v k : Nat} (h : c.Own p v) (hp : p ≠ 0) (hk : k < c.ptes) :
    (v * c.ptes + k) / nptes < kernelDir :=
  (Nat.div_lt_iff_lt_mul (by decide)).mpr (h.entry_lt hp hk)

end PmapConfig

/-- The physical address of a hardware page of a map. -/
def Mappings.frame (a : Mappings) (c : PmapConfig) (p h : Nat) : Nat :=
  match a p (h / c.ptes) with
  | none => 0
  | some m => m.page * c.ptes + h % c.ptes

/-- The pages that have been written to, after a write of the hardware. -/
def Mappings.noteWrite (a : Mappings) (c : PmapConfig) (written : Nat → Bool) (p h : Nat) :
    Nat → Bool :=
  match a p (h / c.ptes) with
  | none => written
  | some m => if m.write then update written m.page true else written

variable {a : Mappings} {c : PmapConfig}

theorem Mappings.noteWrite_congr {written written' : Nat → Bool}
    {p h f : Nat} (heq : written f = written' f) :
    a.noteWrite c written p h f = a.noteWrite c written' p h f := by
  rw [noteWrite, noteWrite]
  cases a p (h / c.ptes) with
  | none => exact heq
  | some m =>
    obtain ⟨page, write, wired⟩ := m
    cases write with
    | false => exact heq
    | true =>
      change update written page true f = update written' page true f
      rcases eq_or_ne f page with rfl | hne
      · rw [update_self, update_self]
      · rw [update_of_ne hne, update_of_ne hne, heq]

/-- A map has a mapping of the physical page at the address. -/
def Mappings.At (a : Mappings) (c : PmapConfig) (f p h : Nat) : Prop :=
  ∃ v, h = v * c.ptes ∧ ∃ m, a p v = some m ∧ m.page = f

theorem Mappings.at_page {f p v : Nat} :
    a.At c f p (v * c.ptes) ↔ ∃ m, a p v = some m ∧ m.page = f := by
  constructor
  · rintro ⟨w, hw, hm⟩
    obtain rfl := Nat.mul_right_cancel c.ptes_pos hw
    exact hm
  · exact fun hm => ⟨v, rfl, hm⟩

theorem Mappings.At.unique {f f' p h : Nat} (hat : a.At c f p h)
    (hat' : a.At c f' p h) : f = f' := by
  obtain ⟨v, rfl, m, hm, rfl⟩ := hat
  obtain ⟨m', hm', rfl⟩ := at_page.mp hat'
  rw [Option.some.inj (hm.symm.trans hm')]

theorem Mappings.at_set {f p v q h : Nat} {x : Option Mapping} :
    (a.set p v x).At c f q h ↔ ((q, h) = (p, v * c.ptes) ∧ ∃ m, x = some m ∧ m.page = f) ∨
        ((q, h) ≠ (p, v * c.ptes) ∧ a.At c f q h) := by
  rcases eq_or_ne (q, h) (p, v * c.ptes) with heq | hne
  · obtain ⟨rfl, rfl⟩ := Prod.mk.inj heq
    rw [at_page, set_self]
    exact ⟨fun hm => .inl ⟨rfl, hm⟩, fun hm => (hm.resolve_right fun hne => hne.1 rfl).2⟩
  have hset : ∀ w, h = w * c.ptes → a.set p v x q w = a q w := by
    rintro w rfl
    exact a.set_of_ne fun hqw => hne (by rw [hqw.1, hqw.2])
  constructor
  · rintro ⟨w, hw, m, hm, hf⟩
    rw [hset w hw] at hm
    exact .inr ⟨hne, w, hw, m, hm, hf⟩
  · rintro (⟨heq, -⟩ | ⟨-, w, hw, m, hm, hf⟩)
    · exact absurd heq hne
    · exact ⟨w, hw, m, (hset w hw).trans hm, hf⟩

end Mach
