import Mach.Vm.MapInvariant

/-!
# Entering memory into a map

`vm_map_enter` finds a place for a range and links an entry for it, or extends the one before it.
What is found is a place in the list of entries where the range ends before the next entry
(`findPlace_ok`).  The range starts after the entry before it unless rounding up its start
wraps around the address space (`RoundsAfter`).

`EntersFree` is what is expected of a call: the range is not empty, aligned, inside the map and was
free, the list is in order again, and other addresses are translated as before.  It holds exactly
if the address is fixed, or rounding up does not wrap around in the first gap that takes the range
(`map_entersFree_iff`).
-/

namespace Mach

open Ring Spans VmMapHeader List

/-! ## Masks -/

variable {mask : Nat}

theorem land_add_land_not32 {x : Nat} (hx : x < 2 ^ 32) (hmask : mask < 2 ^ 32) :
    (x &&& mask) + (x &&& not32 mask) = x := by
  let a := BitVec.ofNat 32 x
  let b := BitVec.ofNat 32 mask
  have ha : a.toNat = x := Nat.mod_eq_of_lt hx
  have hb : b.toNat = mask := Nat.mod_eq_of_lt hmask
  have hnot : (~~~b).toNat = not32 mask := by rw [BitVec.toNat_not, hb, not32]
  have hzero : (a &&& b) &&& (a &&& ~~~b) = 0#32 := by
    ext i hi
    simp only [BitVec.getElem_and, BitVec.getElem_not, BitVec.getElem_zero]
    cases a[i] <;> cases b[i] <;> rfl
  have hor : (a &&& b) ||| (a &&& ~~~b) = a := by
    ext i hi
    simp only [BitVec.getElem_or, BitVec.getElem_and, BitVec.getElem_not]
    cases a[i] <;> cases b[i] <;> rfl
  have hadd := BitVec.toNat_add_of_and_eq_zero hzero
  rw [BitVec.add_eq_or_of_and_eq_zero _ _ hzero, hor, BitVec.toNat_and, BitVec.toNat_and, ha, hb,
    hnot] at hadd
  exact hadd.symm

theorem not32_land (mask : Nat) (hmask : mask < 2 ^ 32) : not32 mask &&& mask = 0 := by
  have hlt : not32 mask < 2 ^ 32 := by
    rw [not32]
    omega
  have hsum := land_add_land_not32 hlt hmask
  rw [Nat.and_self] at hsum
  exact Nat.add_eq_right.mp hsum

theorem roundMask_lt (mask x : Nat) : roundMask mask x < 2 ^ 32 :=
  Nat.and_le_left.trans_lt (Nat.mod_lt _ (Nat.two_pow_pos 32))

theorem le_roundMask {x : Nat} (h : x + mask < 2 ^ 32) : x ≤ roundMask mask x := by
  have hmask : mask < 2 ^ 32 := by omega
  have hsum := land_add_land_not32 h hmask
  have hle : (x + mask) &&& mask ≤ mask := Nat.and_le_right
  rw [roundMask, Nat.mod_eq_of_lt h]
  omega

/-! ## Places -/

namespace VmMap

variable {m m' : VmMap} {l l₁ l₂ : List Nat} {size mask : Nat}

/-- The range from `start` to `stop` ends before the entries `l₂`. -/
structure Fits (h : VmMapHeader) (l₂ : List Nat) (size mask start stop : Nat) : Prop where
  aligned : start &&& mask = 0
  stop_eq : stop = start + size
  stop_le : stop ≤ h.startAfter (l₂.headD vmMapToEntry)

variable {start : Nat} {h : VmMapHeader}

/-- In the first gap that takes a range, rounding up its start does not wrap around to below the
gap, and the range is not empty.  The first gap starts at `before` and is searched from `s` on, and
the others are after the entries `l`. -/
def RoundsAfter (h : VmMapHeader) (size mask : Nat) : Nat → Nat → List Nat → Prop
  | before, s, [] =>
    roundMask mask s + size ≤ h.maxOffset → size ≠ 0 ∧ before ≤ roundMask mask s
  | before, s, x :: l =>
    if roundMask mask s + size ≤ (h.entry x).vmeStart then size ≠ 0 ∧ before ≤ roundMask mask s
    else roundMask mask s + size ≤ h.maxOffset →
      RoundsAfter h size mask (h.entry x).vmeEnd (h.entry x).vmeEnd l

instance decidableRoundsAfter (h : VmMapHeader) (size mask : Nat) :
    (before s : Nat) → (l : List Nat) → Decidable (RoundsAfter h size mask before s l)
  | before, s, [] => inferInstanceAs (Decidable (roundMask mask s + size ≤ h.maxOffset →
      size ≠ 0 ∧ before ≤ roundMask mask s))
  | before, s, x :: l =>
    have := decidableRoundsAfter h size mask (h.entry x).vmeEnd (h.entry x).vmeEnd l
    inferInstanceAs (Decidable (if roundMask mask s + size ≤ (h.entry x).vmeStart then
        size ≠ 0 ∧ before ≤ roundMask mask s
      else roundMask mask s + size ≤ h.maxOffset →
        RoundsAfter h size mask (h.entry x).vmeEnd (h.entry x).vmeEnd l))

section

variable {fuel : Nat} (hsize : size < 2 ^ 32)
include hsize

theorem placeLoop_nil (hw : h.Wf l₁) :
    placeLoop h size mask (fuel + 1) (l₁.getLastD vmMapToEntry) start =
      if roundMask mask start + size ≤ h.maxOffset then
        some (l₁.getLastD vmMapToEntry, roundMask mask start, roundMask mask start + size)
      else none := by
  rw [← append_nil l₁] at hw
  have hnext : h.next (l₁.getLastD vmMapToEntry) = vmMapToEntry := hw.ring.split.1
  have hround := roundMask_lt mask start
  have hwidth := hw.width
  simp only [placeLoop, hnext]
  split
  next hroom => rw [if_neg (by omega)]
  next hroom =>
    have hstop : (roundMask mask start + size) % 2 ^ 32 = roundMask mask start + size := by omega
    rw [hstop] at hroom ⊢
    rw [if_pos (not_lt.mp (not_or.mp hroom).1)]
    exact if_pos trivial

theorem placeLoop_cons {x : Nat} (hw : h.Wf (l₁ ++ x :: l₂)) :
    placeLoop h size mask (fuel + 1) (l₁.getLastD vmMapToEntry) start =
      if roundMask mask start + size ≤ (h.entry x).vmeStart then
        some (l₁.getLastD vmMapToEntry, roundMask mask start, roundMask mask start + size)
      else if roundMask mask start + size ≤ h.maxOffset then
        placeLoop h size mask fuel ((l₁ ++ [x]).getLastD vmMapToEntry) (h.entry x).vmeEnd
      else none := by
  have hnext : h.next (l₁.getLastD vmMapToEntry) = x := hw.ring.split.1
  have hx : x ≠ vmMapToEntry := hw.ne_header (mem_append_right l₁ mem_cons_self)
  have hround := roundMask_lt mask start
  have hwidth := hw.width
  obtain ⟨-, hlt, hmax⟩ := hw.spans.mem (mem_map_of_mem (mem_append_right l₁ mem_cons_self))
  replace hlt : (h.entry x).vmeStart < (h.entry x).vmeEnd := hlt
  replace hmax : (h.entry x).vmeEnd ≤ h.maxOffset := hmax
  rw [getLastD_concat]
  simp only [placeLoop, hnext, hx, if_false]
  split
  next hroom => rw [if_neg (by omega), if_neg (by omega)]
  next hroom =>
    have hstop : (roundMask mask start + size) % 2 ^ 32 = roundMask mask start + size := by omega
    rw [hstop] at hroom ⊢
    rw [if_pos (not_lt.mp (not_or.mp hroom).1)]

theorem placeLoop_some (hw : h.Wf (l₁ ++ l₂)) (hmask : mask < 2 ^ 32) {entry' start' stop' : Nat}
    (hplace : placeLoop h size mask fuel (l₁.getLastD vmMapToEntry) start =
      some (entry', start', stop')) :
    ∃ l₁' l₂', l₁ ++ l₂ = l₁' ++ l₂' ∧ entry' = l₁'.getLastD vmMapToEntry ∧
      Fits h l₂' size mask start' stop' := by
  have hfits {l : List Nat} {s : Nat}
      (hle : roundMask mask s + size ≤ h.startAfter (l.headD vmMapToEntry)) :
      Fits h l size mask (roundMask mask s) (roundMask mask s + size) :=
    ⟨by rw [roundMask, Nat.land_assoc, not32_land mask hmask, Nat.and_zero], rfl, hle⟩
  induction fuel generalizing l₁ l₂ start with
  | zero => cases hplace
  | succ fuel ih =>
    cases l₂ with
    | nil =>
      rw [placeLoop_nil hsize (append_nil l₁ ▸ hw)] at hplace
      obtain ⟨hle, heq⟩ := Option.ite_none_right_eq_some.mp hplace
      cases heq
      exact ⟨l₁, [], rfl, rfl, hfits hle⟩
    | cons x l =>
      rw [placeLoop_cons hsize hw] at hplace
      split at hplace
      next hle =>
        cases hplace
        refine ⟨l₁, x :: l, rfl, rfl, hfits ?_⟩
        exact hle.trans (if_neg (hw.ne_header (mem_append_right l₁ mem_cons_self))).ge
      next =>
        rw [append_cons] at hw ⊢
        exact ih hw (Option.ite_none_right_eq_some.mp hplace).2

/-- The loop finds a place that is not empty and after the entry before it. -/
theorem placeLoop_after_iff (hw : h.Wf (l₁ ++ l₂)) (hfuel : l₂.length < fuel) :
    (∀ entry' start' stop', placeLoop h size mask fuel (l₁.getLastD vmMapToEntry) start =
        some (entry', start', stop') → size ≠ 0 ∧ h.endBefore entry' ≤ start') ↔
      RoundsAfter h size mask (h.endBefore (l₁.getLastD vmMapToEntry)) start l₂ := by
  induction l₂ generalizing l₁ start fuel with
  | nil =>
    obtain ⟨fuel, rfl⟩ := Nat.exists_eq_succ_of_ne_zero hfuel.ne'
    rw [placeLoop_nil hsize (append_nil l₁ ▸ hw), RoundsAfter]
    refine ⟨fun hplace hle => hplace _ _ _ (if_pos hle), fun hround e s t hplace => ?_⟩
    obtain ⟨hle, heq⟩ := Option.ite_none_right_eq_some.mp hplace
    cases heq
    exact hround hle
  | cons x l ih =>
    obtain ⟨fuel, rfl⟩ := Nat.exists_eq_succ_of_ne_zero (Nat.ne_zero_of_lt hfuel)
    have hx : (h.entry x).vmeEnd = h.endBefore ((l₁ ++ [x]).getLastD vmMapToEntry) := by
      rw [getLastD_concat]
      exact (if_neg (hw.ne_header (mem_append_right l₁ mem_cons_self))).symm
    rw [placeLoop_cons hsize hw, RoundsAfter]
    rw [append_cons] at hw
    split
    next hle =>
      refine ⟨fun hplace => hplace _ _ _ rfl, fun hround e s t hplace => ?_⟩
      cases hplace
      exact hround
    next =>
      nth_rewrite 2 [hx]
      rw [← ih hw (Nat.lt_of_succ_lt_succ hfuel)]
      refine ⟨fun hplace hle e s t heq => hplace e s t ((if_pos hle).trans heq),
        fun hround e s t hplace => ?_⟩
      obtain ⟨hle, heq⟩ := Option.ite_none_right_eq_some.mp hplace
      exact hround hle e s t heq

end

theorem place_of_mem {e : Nat} (he : e ∈ vmMapToEntry :: l) :
    ∃ l₁ l₂, l = l₁ ++ l₂ ∧ e = l₁.getLastD vmMapToEntry := by
  cases mem_cons.mp he with
  | inl he => exact ⟨[], l, rfl, he⟩
  | inr he =>
    obtain ⟨l₁, l₂, rfl⟩ := append_of_mem he
    exact ⟨l₁ ++ [e], l₂, append_cons l₁ e l₂, getLastD_concat.symm⟩

theorem endBefore_le {a : Nat} (hl : vmMapToEntry ∉ l) (hmin : h.minOffset ≤ a)
    (hend : ∀ x ∈ l, (h.entry x).vmeEnd ≤ a) :
    h.endBefore (l.getLastD vmMapToEntry) ≤ a := by
  rcases eq_nil_or_concat' l with rfl | ⟨l, x, rfl⟩
  · exact hmin
  have hx : x ∈ l ++ [x] := mem_concat_self
  have hne : x ≠ vmMapToEntry := fun heq => hl (heq ▸ hx)
  rw [getLastD_concat, endBefore, if_neg hne]
  exact hend x hx

theorem Wf.header_not_mem_left (hw : m.Wf (l₁ ++ l₂)) : vmMapToEntry ∉ l₁ :=
  fun hx => hw.hdr.header_not_mem (mem_append_left l₂ hx)

variable {address : Nat}

theorem Wf.start_lt (hw : m.Wf l) {e : Nat} (he : e ∈ l) :
    (m.hdr.entry e).vmeStart < (m.hdr.entry e).vmeEnd :=
  (hw.hdr.spans.mem (mem_map_of_mem he)).2.1

/-- The entries after a place start after what is before it, and those before it do not. -/
theorem Wf.around (hw : m.Wf (l₁ ++ l₂)) :
    m.minOffset ≤ m.hdr.endBefore (l₁.getLastD vmMapToEntry) ∧
      (∀ x ∈ l₁, (m.hdr.entry x).vmeStart < m.hdr.endBefore (l₁.getLastD vmMapToEntry)) ∧
      ∀ x ∈ l₂, m.hdr.endBefore (l₁.getLastD vmMapToEntry) ≤ (m.hdr.entry x).vmeStart := by
  have hspans := hw.hdr.spans
  rw [spans_append, between_append, endOf_spans hw.header_not_mem_left] at hspans
  refine ⟨hspans.1.le, fun x hx => ?_, fun x hx => ?_⟩
  · obtain ⟨-, hlt, hle⟩ := hspans.1.mem (mem_map_of_mem hx)
    exact hlt.trans_le hle
  · exact (hspans.2.mem (mem_map_of_mem hx)).1

theorem filter_split {p : Nat → Bool} (h₁ : ∀ x ∈ l₁, p x = true) (h₂ : ∀ x ∈ l₂, p x = false) :
    (l₁ ++ l₂).filter p = l₁ := by
  rw [filter_append, filter_eq_self.mpr h₁, filter_eq_nil_iff.mpr (by simpa using h₂), append_nil]

/-- The entry before the gap where the search for a place starts. -/
def searchEntry (first : Nat) (l : List Nat) (m : VmMap) : Nat :=
  if first = m.minOffset then m.firstFree
  else (l.filter fun x => (m.hdr.entry x).vmeStart ≤ first).getLastD vmMapToEntry

theorem first_eq (m : VmMap) (address : Nat) :
    (if address < m.minOffset then m.minOffset else address) = max address m.minOffset := by
  split <;> omega

theorem placeStart_isSome (m : VmMap) (address : Nat) :
    (m.placeStart address).1.isSome = true ↔ max address m.minOffset ≤ m.maxOffset := by
  simp only [placeStart, first_eq]
  split
  next h => exact iff_of_false (by simp) (not_le.mpr h)
  next h =>
    refine iff_of_true ?_ (not_lt.mp h)
    split
    next => rfl
    next => split <;> rfl

theorem placeStart_some (hw : m.Wf l) {entry : Nat}
    (h : m.placeStart address = (some (entry, start), m')) :
    entry = m.searchEntry (max address m.minOffset) l ∧
      start = max (max address m.minOffset) (m.hdr.endBefore entry) ∧
      (∃ l₁ l₂, l = l₁ ++ l₂ ∧ entry = l₁.getLastD vmMapToEntry) ∧
      ∃ e ∈ vmMapToEntry :: l, m' = m.saveHint e := by
  simp only [placeStart, first_eq] at h
  have hmin : m.minOffset ≤ max address m.minOffset := le_max_right ..
  generalize max address m.minOffset = first at h hmin ⊢
  rw [searchEntry]
  split at h
  next => cases h
  next =>
  split at h
  next hle heq =>
    cases h
    subst heq
    obtain ⟨l₁, l₂, rfl, hlast⟩ := place_of_mem hw.firstFree
    refine ⟨(if_pos rfl).symm, ?_, ⟨l₁, l₂, rfl, hlast⟩, m.hint, hw.hint, rfl⟩
    rw [max_eq_right (hlast ▸ hw.around.1), endBefore]
    exact ite_not ..
  next hne =>
  obtain ⟨hlookup, ⟨e, he, hm⟩, -⟩ := lookupEntry_spec hw first
  generalize m.lookupEntry first = r at h hlookup hm
  obtain ⟨found, x, m₁⟩ := r
  subst hm
  replace hlookup : Lookup m l first (found, x) := hlookup
  rw [if_neg hne]
  cases found with
  | true =>
    cases h
    cases hlookup with
    | found hl hstart hend =>
      rename_i l₁ l₂
      subst hl
      have hmiddle := (of_middle hw.hdr.sorted).1
      rw [append_cons] at hw he ⊢
      have haround := hw.around
      rw [getLastD_concat] at haround
      have hendBefore : m.hdr.endBefore entry = (m.hdr.entry entry).vmeEnd :=
        if_neg (hw.hdr.ne_header (mem_append_left _ mem_concat_self))
      have hupto (x : Nat) (hx : x ∈ l₁ ++ [entry]) : (m.hdr.entry x).vmeStart ≤ first := by
        rcases mem_append.mp hx with hx | hx
        · exact (hw.start_lt (mem_append_left _ (mem_append_left _ hx))).le.trans
            ((hmiddle x hx).trans hstart)
        · exact mem_singleton.mp hx ▸ hstart
      have hafter (x : Nat) (hx : x ∈ l₂) : ¬ (m.hdr.entry x).vmeStart ≤ first := by
        have := haround.2.2 x hx
        omega
      rw [filter_split (by simpa using hupto) (by simpa using hafter), getLastD_concat, hendBefore]
      refine ⟨rfl, (max_eq_right hend.le).symm, ⟨_, _, rfl, getLastD_concat.symm⟩, e, he, rfl⟩
  | false =>
    cases h
    cases hlookup with
    | between hl hbefore hafter =>
      rename_i l₁ l₂
      subst hl
      have hupto (x : Nat) (hx : x ∈ l₁) : (m.hdr.entry x).vmeStart ≤ start :=
        (hw.start_lt (mem_append_left _ hx)).le.trans (hbefore x hx)
      rw [filter_split (by simpa using hupto) (by simpa using hafter)]
      refine ⟨rfl, (max_eq_left ?_).symm, ⟨_, _, rfl, rfl⟩, e, he, rfl⟩
      exact endBefore_le hw.header_not_mem_left hmin hbefore

/-- A place for a range among the entries. -/
structure Place (m : VmMap) (l : List Nat) (size mask : Nat) (anywhere : Bool)
    (place : Nat × Nat × Nat) (m' : VmMap) (l₁ l₂ : List Nat) : Prop where
  list : l = l₁ ++ l₂
  entry : place.1 = l₁.getLastD vmMapToEntry
  fits : Fits m.hdr l₂ size mask place.2.1 place.2.2
  hint : ∃ e ∈ vmMapToEntry :: l, m' = m.saveHint e
  /-- A fixed address is after the entry before it. -/
  fixed : anywhere = false → size ≠ 0 ∧ m.hdr.endBefore place.1 ≤ place.2.1

variable {place : Nat × Nat × Nat} {wait : Bool}

theorem placeAnywhere_eq_ok (h : m.placeAnywhere address size mask wait = (.ok place, m')) :
    ∃ entry start, m.placeStart address = (some (entry, start), m') ∧
      placeLoop m'.hdr size mask (m'.hdr.nentries + 1) entry start = some place := by
  rw [placeAnywhere] at h
  split at h
  next => cases h
  next entry start m₁ hstart =>
  split at h
  next hplace =>
    cases h
    exact ⟨entry, start, hstart, hplace⟩
  next => split at h <;> cases h

theorem placeAnywhere_ok (hw : m.Wf l) (hsize : size < 2 ^ 32) (hmask : mask < 2 ^ 32)
    (h : m.placeAnywhere address size mask wait = (.ok place, m')) :
    ∃ l₁ l₂, Place m l size mask true place m' l₁ l₂ := by
  obtain ⟨entry, start, hstart, hplace⟩ := placeAnywhere_eq_ok h
  obtain ⟨-, -, ⟨l₁, l₂, rfl, hentry⟩, e, he, rfl⟩ := placeStart_some hw hstart
  rw [hentry] at hplace
  obtain ⟨l₁', l₂', hl, hentry', hfits⟩ := placeLoop_some hsize hw.hdr hmask hplace
  exact ⟨l₁', l₂', hl, hentry', hfits, ⟨e, he, rfl⟩, by simp⟩

theorem placeFixed_ok (hw : m.Wf l) (haddress : address < 2 ^ 32) (hsize : size < 2 ^ 32)
    (h : m.placeFixed address size mask = (.ok place, m')) :
    ∃ l₁ l₂, Place m l size mask false place m' l₁ l₂ := by
  simp only [placeFixed] at h
  split at h
  next => cases h
  next haligned =>
  split at h
  next => cases h
  next =>
  obtain ⟨hlookup, ⟨e, he, hm⟩, -⟩ := lookupEntry_spec hw address
  generalize m.lookupEntry address = r at h hlookup hm
  obtain ⟨found, x, m₁⟩ := r
  subst hm
  cases found with
  | true => cases h
  | false =>
    cases hlookup with
    | between hl hbefore hafter =>
      rename_i l₁ l₂
      subst hl
      have hnext : m.hdr.next (l₁.getLastD vmMapToEntry) = l₂.headD vmMapToEntry :=
        hw.hdr.ring.split.1
      change (if m.hdr.next (l₁.getLastD vmMapToEntry) ≠ vmMapToEntry ∧
        (m.hdr.entry (m.hdr.next (l₁.getLastD vmMapToEntry))).vmeStart <
          (address + size) % 2 ^ 32 then _ else _) = _ at h
      rw [hnext] at h
      split at h
      next => cases h
      rename_i hnot
      cases h
      have hstop : (address + size) % 2 ^ 32 = address + size := by omega
      refine ⟨l₁, l₂, rfl, rfl, ⟨?_, hstop, ?_⟩, ⟨e, he, rfl⟩, fun _ => ⟨by omega, ?_⟩⟩
      · exact of_not_not haligned
      · change (address + size) % 2 ^ 32 ≤ m.hdr.startAfter (l₂.headD vmMapToEntry)
        rcases eq_or_ne (l₂.headD vmMapToEntry) vmMapToEntry with hend | hentry
        · rw [startAfter, if_pos hend]
          change (address + size) % 2 ^ 32 ≤ m.maxOffset
          omega
        · rw [startAfter, if_neg hentry]
          exact not_lt.mp (not_and.mp hnot hentry)
      · have hmin : m.hdr.minOffset ≤ address := by
          change m.minOffset ≤ address
          omega
        exact endBefore_le hw.header_not_mem_left hmin hbefore

theorem findPlace_ok (hw : m.Wf l) (haddress : address < 2 ^ 32)
    (hsize : size < 2 ^ 32) (hmask : mask < 2 ^ 32) {anywhere : Bool}
    (h : m.findPlace address size mask anywhere wait = (.ok place, m')) :
    ∃ l₁ l₂, Place m l size mask anywhere place m' l₁ l₂ := by
  cases anywhere with
  | true => exact placeAnywhere_ok hw hsize hmask h
  | false => exact placeFixed_ok hw haddress hsize h

end VmMap

/-! ## Translation -/

/-- What an entry says about an address. -/
def VmMapEntry.view (v : VmMapEntry) (a : Nat) : VmMapEntry :=
  { v with vmeStart := a, vmeEnd := a + 1, offset := (v.offset + (a - v.vmeStart)) % 2 ^ 32 }

/-- The addresses of an entry. -/
def VmMapEntry.Has (v : VmMapEntry) (a : Nat) : Prop := v.vmeStart ≤ a ∧ a < v.vmeEnd

instance (v : VmMapEntry) (a : Nat) : Decidable (v.Has a) :=
  inferInstanceAs (Decidable (_ ∧ _))

namespace VmMap

/-- What a map says about an address. -/
def attributes (m : VmMap) (a : Nat) : Option VmMapEntry :=
  match m.lookupEntry a with
  | (true, e, _) => some ((m.hdr.entry e).view a)
  | (false, _, _) => none

variable {m m' : VmMap} {l l' : List Nat} {a e : Nat}

theorem attributes_of_mem (hw : m.Wf l) (he : e ∈ l) (ha : (m.hdr.entry e).Has a) :
    m.attributes a = some ((m.hdr.entry e).view a) := by
  have hr := (lookupEntry_spec hw a).lookup.eq_of_mem hw.hdr.sorted he ha.1 ha.2
  rw [attributes]
  generalize m.lookupEntry a = r at hr
  obtain ⟨found, x, m'⟩ := r
  cases hr
  rfl

theorem attributes_cases (hw : m.Wf l) (a : Nat) :
    (m.attributes a = none ∧ ∀ e ∈ l, ¬ (m.hdr.entry e).Has a) ∨
      ∃ e ∈ l, (m.hdr.entry e).Has a ∧ m.attributes a = some ((m.hdr.entry e).view a) := by
  by_cases h : ∃ e ∈ l, (m.hdr.entry e).Has a
  · obtain ⟨e, he, ha⟩ := h
    exact .inr ⟨e, he, ha, attributes_of_mem hw he ha⟩
  have hnot (e : Nat) (he : e ∈ l) : ¬ (m.hdr.entry e).Has a := fun ha => h ⟨e, he, ha⟩
  refine .inl ⟨?_, hnot⟩
  have hr := (lookupEntry_spec hw a).lookup
  rw [attributes]
  generalize m.lookupEntry a = r at hr
  obtain ⟨found, x, m'⟩ := r
  cases hr with
  | found hl hstart hend =>
    exact absurd ⟨hstart, hend⟩ (hnot x (hl ▸ mem_append_right _ mem_cons_self))
  | between => rfl

theorem attributes_congr (hw : m.Wf l) (hw' : m'.Wf l') {f : VmMapEntry → VmMapEntry}
    (hcovered : Covered (m'.hdr.spans l') a → Covered (m.hdr.spans l) a)
    (hview : ∀ e ∈ l, (m.hdr.entry e).Has a →
      ∃ e' ∈ l', (m'.hdr.entry e').Has a ∧ (m'.hdr.entry e').view a = f ((m.hdr.entry e).view a)) :
    m'.attributes a = (m.attributes a).map f := by
  rcases attributes_cases hw a with ⟨hnone, hnot⟩ | ⟨e, he, ha, hsome⟩
  · rw [hnone]
    rcases attributes_cases hw' a with ⟨hnone', -⟩ | ⟨e', he', ha', -⟩
    · exact hnone'
    · obtain ⟨s, hs, hin⟩ := hcovered ⟨_, mem_map_of_mem he', ha'⟩
      obtain ⟨e, he, rfl⟩ := mem_map.mp hs
      exact absurd hin (hnot e he)
  · obtain ⟨e', he', ha', heq⟩ := hview e he ha
    rw [hsome, attributes_of_mem hw' he' ha', heq]
    rfl

end VmMap

/-! ## Results -/

namespace VmMap

variable {m m' : VmMap} {l l₁ l₂ : List Nat} {size mask : Nat}

/-- What a successful call is expected to do.  The result is the return value, the address of the
range and the map. -/
def EntersFree (m : VmMap) (l : List Nat) (size mask : Nat) (r : VmReturn × Nat × VmMap) : Prop :=
  r.1 = .success →
    (0 < size ∧ m.minOffset ≤ r.2.1 ∧ r.2.1 + size ≤ m.maxOffset) ∧ r.2.1 &&& mask = 0 ∧
      Free (m.hdr.spans l) r.2.1 (r.2.1 + size) ∧
      (∃ l', r.2.2.Wf l') ∧ ∀ a, (a < r.2.1 ∨ r.2.1 + size ≤ a) →
        r.2.2.attributes a = m.attributes a

/-- `RoundsAfter`, of the gaps of a map from an address on. -/
def PlacesAfter (m : VmMap) (l : List Nat) (address size mask : Nat) : Prop :=
  let first := max address m.minOffset
  let before := m.hdr.endBefore (m.searchEntry first l)
  first ≤ m.maxOffset → RoundsAfter m.hdr size mask before (max first before)
    (l.filter fun x => before ≤ (m.hdr.entry x).vmeStart)

variable {anywhere : Bool}

/-- A place that starts after the entry before it is free. -/
theorem Place.inside {place : Nat × Nat × Nat} (hw : m.Wf l)
    (hp : Place m l size mask anywhere place m' l₁ l₂)
    (hafter : m.hdr.endBefore place.1 ≤ place.2.1) :
    m.minOffset ≤ place.2.1 ∧ place.2.1 + size ≤ m.maxOffset ∧
      Free (m.hdr.spans l) place.2.1 (place.2.1 + size) := by
  obtain rfl := hp.list
  have hnot := hw.hdr.header_not_mem
  rw [mem_append, not_or] at hnot
  have hbetween := hw.hdr.spans
  rw [spans_append] at hbetween ⊢
  rw [hp.entry, ← endOf_spans hnot.1] at hafter
  have hstop := hp.fits.stop_le
  rw [← startOf_spans hnot.2, hp.fits.stop_eq] at hstop
  exact ⟨(between_append.mp hbetween).1.le.trans hafter, hstop.trans hbetween.startOf_le,
    hbetween.free_gap hafter hstop⟩

variable {v : VmMapEntry}

theorem Wf.insertEntry (hw : m.Wf (l₁ ++ l₂))
    (hstart : m.hdr.endBefore (l₁.getLastD vmMapToEntry) ≤ v.vmeStart)
    (hspan : v.vmeStart < v.vmeEnd)
    (hend : v.vmeEnd ≤ m.hdr.startAfter (l₂.headD vmMapToEntry)) (size : Nat) :
    (m.insertEntry (l₁.getLastD vmMapToEntry) size v).Wf (l₁ ++ m.hdr.zone :: l₂) := by
  have hnew : m.hdr.zone ∈ vmMapToEntry :: (l₁ ++ m.hdr.zone :: l₂) :=
    mem_cons_of_mem _ (mem_append_right l₁ mem_cons_self)
  refine ⟨hw.hdr.insert hstart hspan hend, hnew, ?_⟩
  change (if _ then m.hdr.zone else m.firstFree) ∈ _
  split
  next => exact hnew
  next =>
    exact ((sublist_cons_self m.hdr.zone l₂).append_left l₁).cons_cons vmMapToEntry
      |>.subset hw.firstFree

variable {stop : Nat}

theorem Wf.extendEntry {e : Nat} (hw : m.Wf (l₁ ++ e :: l₂)) (hend : (m.hdr.entry e).vmeEnd ≤ stop)
    (hstop : stop ≤ m.hdr.startAfter (l₂.headD vmMapToEntry)) :
    (m.extendEntry e stop).Wf (l₁ ++ e :: l₂) := by
  have hnot := hw.hdr.header_not_mem
  rw [append_cons, mem_append, not_or] at hnot
  rw [← startOf_spans hnot.2] at hstop
  have hbetween := hw.hdr.spans
  rw [spans_append, spans_cons] at hbetween
  exact ⟨hw.hdr.setEntry (hbetween.extend hend hstop), hw.hint, hw.firstFree⟩

variable {e b : Nat}

theorem Wf.saveHint_attributes (hw : m.Wf l) (he : e ∈ vmMapToEntry :: l) :
    (m.saveHint e).attributes b = m.attributes b := by
  rw [attributes_congr hw (hw.saveHint he) (f := id) id fun x hx ha => ⟨x, hx, ha, rfl⟩,
    Option.map_id, id]

/-- A new entry does not change what is at other addresses. -/
theorem Wf.insertEntry_attributes {x : Nat} (hw : m.Wf (l₁ ++ l₂))
    (hw' : (m.insertEntry x size v).Wf (l₁ ++ m.hdr.zone :: l₂)) (hb : ¬ v.Has b) :
    (m.insertEntry x size v).attributes b = m.attributes b := by
  rw [attributes_congr hw hw' (f := id) (fun hcovered => ?_) fun e he ha => ?_, Option.map_id, id]
  · change Covered ((m.hdr.insert x v).spans _) b at hcovered
    rw [hw.hdr.toLists.spans_insert, covered_append, covered_cons] at hcovered
    rw [spans_append, covered_append]
    exact hcovered.imp_right fun h => h.resolve_left hb
  · have hkeep : (m.insertEntry x size v).hdr.entry e = m.hdr.entry e :=
      hw.hdr.toLists.insert_entry x v (mem_cons_of_mem _ he)
    refine ⟨e, ((sublist_cons_self m.hdr.zone l₂).append_left l₁).subset he, ?_⟩
    rw [hkeep]
    exact ⟨ha, rfl⟩

/-- An extended entry says the same outside what is added. -/
theorem Wf.extendEntry_attributes (hw : m.Wf (l₁ ++ e :: l₂))
    (hw' : (m.extendEntry e stop).Wf (l₁ ++ e :: l₂)) (hend : (m.hdr.entry e).vmeEnd ≤ stop)
    (hb : b < (m.hdr.entry e).vmeEnd ∨ stop ≤ b) :
    (m.extendEntry e stop).attributes b = m.attributes b := by
  rw [attributes_congr hw hw' (f := id) (fun hcovered => ?_) fun x hx ha => ?_, Option.map_id, id]
  · change Covered ((m.hdr.setEntry e { m.hdr.entry e with vmeEnd := stop }).spans _) b at hcovered
    rw [hw.hdr.toLists.spans_setEntry, covered_append, covered_cons] at hcovered
    rw [spans_append, spans_cons, covered_append, covered_cons]
    refine hcovered.imp_right fun h => h.imp_left fun h => ⟨h.1, ?_⟩
    have hlt : b < stop := h.2
    exact hb.resolve_right (by omega)
  · refine ⟨x, hx, ?_⟩
    rw [VmMap.extendEntry]
    rcases eq_or_ne x e with rfl | hne
    · rw [setEntry_self]
      exact ⟨⟨ha.1, ha.2.trans_le hend⟩, rfl⟩
    · rw [setEntry_of_ne _ _ hne]
      exact ⟨ha, rfl⟩

/-- The fields of the entry that `vm_map_enter` makes. -/
def Entering.entry (a : Entering) (start stop : Nat) : VmMapEntry :=
  ⟨start, stop, a.object, a.offset, false, false, a.needsCopy, a.curProtection, a.maxProtection,
    a.inheritance, 0, 0⟩

variable {coalesce : Bool} {address entry start : Nat} {a : Entering} {kr : VmReturn}

theorem enter_ok
    (h : m.findPlace address size mask anywhere true = (.ok (entry, start, stop), m')) :
    m.enter coalesce address size mask anywhere a = (.success, start,
        if m'.canExtend a entry start && coalesce then m'.extendEntry entry stop
        else m'.insertEntry entry size (a.entry start stop)) := by
  rw [enter, h]
  simp only
  split <;> rfl

theorem enter_error (h : m.findPlace address size mask anywhere true = (.error kr, m')) :
    m.enter coalesce address size mask anywhere a = (kr, address, m') := by
  rw [enter, h]

theorem canExtend_iff (h : m.canExtend a entry start = true) :
    entry ≠ vmMapToEntry ∧ (m.hdr.entry entry).vmeEnd = start := by
  simp only [canExtend, Bool.and_eq_true, decide_eq_true_eq] at h
  tauto

theorem findPlace_error {wait : Bool}
    (h : m.findPlace address size mask anywhere wait = (.error kr, m')) : kr ≠ .success := by
  cases anywhere with
  | true =>
    simp only [findPlace, if_true, placeAnywhere] at h
    split at h
    next => cases h; exact VmReturn.noConfusion
    next =>
      split at h
      next => cases h
      next => split at h <;> (cases h; exact VmReturn.noConfusion)
  | false =>
    simp only [findPlace, Bool.false_eq_true, if_false, placeFixed] at h
    split at h
    next => cases h; exact VmReturn.noConfusion
    split at h
    next => cases h; exact VmReturn.noConfusion
    next =>
      split at h
      next => cases h; exact VmReturn.noConfusion
      next =>
        split at h <;> cases h
        exact VmReturn.noConfusion

section

variable (hp : Place m l size mask anywhere (entry, start, stop) m' l₁ l₂)
include hp

/-- A place before the end of the entry before it puts the list out of order. -/
theorem Place.after
    {l' : List Nat} (hw : m.Wf l)
    (hw' : Wf (if m'.canExtend a entry start && coalesce then m'.extendEntry entry stop
      else m'.insertEntry entry size (a.entry start stop)) l') :
    m.hdr.endBefore entry ≤ start := by
  obtain ⟨e, -, hm⟩ := hp.hint
  have hl := hp.list
  have hentry : entry = l₁.getLastD vmMapToEntry := hp.entry
  subst hl hm
  split at hw'
  next hext =>
    obtain ⟨hne, hend⟩ := canExtend_iff (Bool.and_eq_true_iff.mp hext).1
    rw [endBefore, if_neg hne]
    exact hend.le
  rw [hentry] at hw'
  have hlists := hw.hdr.toLists.insert (a.entry start stop)
  have hl' : l' = l₁ ++ m.hdr.zone :: l₂ := hw'.hdr.ring.unique hlists.ring
  subst hl'
  have hnot := hw.header_not_mem_left
  have hheader := hw.hdr.toLists.insert_entry (l₁.getLastD vmMapToEntry) (a.entry start stop)
    mem_cons_self
  have hspans := hw'.hdr.spans
  change Between (m.hdr.insert (l₁.getLastD vmMapToEntry) (a.entry start stop)).minOffset
    (m.hdr.insert (l₁.getLastD vmMapToEntry) (a.entry start stop)).maxOffset
    ((m.hdr.insert (l₁.getLastD vmMapToEntry) (a.entry start stop)).spans
      (l₁ ++ m.hdr.zone :: l₂)) at hspans
  rw [hw.hdr.spans_insert, VmMapHeader.minOffset, VmMapHeader.maxOffset, hheader] at hspans
  have hle := hspans.endOf_le_startOf
  rw [← VmMapHeader.minOffset, endOf_spans hnot] at hle
  rw [hentry]
  exact hle

/-- A place after the end of the entry before it. -/
theorem Place.enters (hw : m.Wf l) (hsize : size ≠ 0) (hafter : m.hdr.endBefore entry ≤ start) :
    EntersFree m l size mask (.success, start,
        if m'.canExtend a entry start && coalesce then m'.extendEntry entry stop
        else m'.insertEntry entry size (a.entry start stop)) := by
  intro _
  obtain ⟨hmin, hmax, hfree⟩ := hp.inside hw hafter
  refine ⟨⟨Nat.pos_of_ne_zero hsize, hmin, hmax⟩, hp.fits.aligned, hfree, ?_⟩
  obtain ⟨e, he, hm⟩ := hp.hint
  have hstop : stop = start + size := hp.fits.stop_eq
  have hle : stop ≤ m.hdr.startAfter (l₂.headD vmMapToEntry) := hp.fits.stop_le
  have hl := hp.list
  have hentry : entry = l₁.getLastD vmMapToEntry := hp.entry
  have hw₁ : (m.saveHint e).Wf l := hw.saveHint he
  subst hl hm
  change (∃ l', Wf (if (m.saveHint e).canExtend a entry start && coalesce then
    (m.saveHint e).extendEntry entry stop
      else (m.saveHint e).insertEntry entry size (a.entry start stop)) l') ∧ ∀ b, b < start ∨
        start + size ≤ b →
        attributes _ b = _
  split
  next hext =>
    obtain ⟨hne, hend⟩ := canExtend_iff (Bool.and_eq_true_iff.mp hext).1
    replace hend : (m.hdr.entry entry).vmeEnd = start := hend
    rcases eq_nil_or_concat' l₁ with rfl | ⟨l₀, x, rfl⟩
    · exact absurd hentry hne
    rw [getLastD_concat] at hentry
    subst hentry
    rw [← append_cons] at hw₁
    have hext : ((m.saveHint e).hdr.entry entry).vmeEnd ≤ stop := hend.trans_le (by omega)
    have hw' := hw₁.extendEntry hext hle
    refine ⟨⟨_, hw'⟩, fun b hb => ?_⟩
    rw [hw₁.extendEntry_attributes hw' hext (hstop ▸ hend.symm ▸ hb), hw.saveHint_attributes he]
  next =>
    rw [hentry] at hafter ⊢
    have hspan : start < stop := by omega
    have hw' := hw₁.insertEntry (v := a.entry start stop) hafter hspan hle size
    refine ⟨⟨_, hw'⟩, fun b hb => ?_⟩
    rw [hw₁.insertEntry_attributes hw' ?_, hw.saveHint_attributes he]
    rintro ⟨hge, hlt⟩
    replace hge : start ≤ b := hge
    replace hlt : b < stop := hlt
    omega

end

/-- The search for a place anywhere finds one that is not empty and after the entry before it. -/
theorem placeAnywhere_after_iff (hw : m.Wf l) (hsize : size < 2 ^ 32) :
    (∀ entry start stop m', m.placeAnywhere address size mask true =
        (.ok (entry, start, stop), m') → size ≠ 0 ∧ m.hdr.endBefore entry ≤ start) ↔
      PlacesAfter m l address size mask := by
  have hsome := m.placeStart_isSome address
  rw [PlacesAfter]
  cases hstart : m.placeStart address with
  | mk r m' =>
  rw [hstart] at hsome
  cases r with
  | none =>
    refine iff_of_true (fun e s t m'' h => ?_) fun hle => absurd (hsome.mpr hle) (by simp)
    obtain ⟨entry, start, hstart', -⟩ := placeAnywhere_eq_ok h
    cases hstart.symm.trans hstart'
  | some r =>
    obtain ⟨entry, start⟩ := r
    obtain ⟨hentry, hs, ⟨l₁, l₂, rfl, hlast⟩, e, he, rfl⟩ := placeStart_some hw hstart
    have hafter : (l₁ ++ l₂).filter (fun x => m.hdr.endBefore entry ≤ (m.hdr.entry x).vmeStart) =
        l₂ := by
      obtain ⟨-, hbefore, hafter⟩ := hlast ▸ hw.around
      rw [filter_append, filter_eq_nil_iff.mpr (by simpa using hbefore),
        filter_eq_self.mpr (by simpa using hafter), nil_append]
    have hfuel : l₂.length < m.hdr.nentries + 1 := by
      have hcount := hw.hdr.count
      rw [length_append] at hcount
      omega
    rw [← hentry, ← hs, hafter, forall_prop_of_true (hsome.mp rfl), hlast,
      ← placeLoop_after_iff hsize hw.hdr hfuel, ← hlast]
    refine ⟨fun hall e' s t hplace => hall e' s t (m.saveHint e) ?_, fun hall e' s t m' h => ?_⟩
    · have hloop : placeLoop (m.saveHint e).hdr size mask ((m.saveHint e).hdr.nentries + 1) entry
          start = _ := hplace
      rw [placeAnywhere, hstart]
      simp only [hloop]
    · obtain ⟨entry', start', hstart', hplace⟩ := placeAnywhere_eq_ok h
      cases hstart.symm.trans hstart'
      exact hall e' s t hplace

/-- `vm_map_enter` does what is expected exactly if the address is fixed, or it rounds up to after
the entry before the first gap that takes the range. -/
theorem enter_entersFree_iff (hw : m.Wf l) (haddress : address < 2 ^ 32) (hsize : size < 2 ^ 32)
    (hmask : mask < 2 ^ 32) :
    EntersFree m l size mask (m.enter coalesce address size mask anywhere a) ↔
      (anywhere = true → PlacesAfter m l address size mask) := by
  rw [← placeAnywhere_after_iff hw hsize]
  cases hplace : m.findPlace address size mask anywhere true with
  | mk r m' =>
  cases r with
  | error =>
    rw [enter_error hplace]
    constructor
    · rintro - rfl entry start stop m'' h
      cases hplace.symm.trans h
    · exact fun _ hkr => absurd hkr (findPlace_error hplace)
  | ok place =>
    obtain ⟨entry, start, stop⟩ := place
    obtain ⟨l₁, l₂, hp⟩ := findPlace_ok hw haddress hsize hmask hplace
    rw [enter_ok hplace]
    constructor
    · rintro henter rfl entry' start' stop' m'' h
      cases hplace.symm.trans h
      obtain ⟨⟨hpos, -⟩, -, -, ⟨l', hw'⟩, -⟩ := henter rfl
      exact ⟨hpos.ne', hp.after hw hw'⟩
    · intro hafter
      obtain ⟨hne, hle⟩ : size ≠ 0 ∧ m.hdr.endBefore entry ≤ start := by
        cases anywhere with
        | true => exact hafter rfl entry start stop m' hplace
        | false => exact hp.fixed rfl
      exact hp.enters hw hne hle

theorem create_wf {min max : Nat} (hle : min ≤ max) (hmax : max < 2 ^ 32) :
    (create min max).Wf [] where
  hdr :=
    { ring := ⟨nodup_singleton _, isChain_cons_cons.mpr ⟨⟨rfl, rfl⟩, .singleton _⟩⟩
      count := rfl
      zone := fun e he => by
        rw [mem_singleton.mp he]
        exact Nat.zero_lt_one
      spans := hle
      width := hmax }
  hint := mem_cons_self
  firstFree := mem_cons_self

/-- `vm_map` with any arguments does what is expected exactly if the address is fixed, or it rounds
up to after the entry before the first gap that takes the range. -/
theorem map_entersFree_iff (hw : m.Wf l) (pageMask : Nat) (coalesce anywhere : Bool)
    {address size mask : Nat} (a : Entering) (haddress : address < 2 ^ 32)
    (hmask : mask < 2 ^ 32) :
    EntersFree m l (roundPage pageMask size) mask
        (m.map pageMask coalesce address size mask anywhere a) ↔
      (anywhere = true →
        PlacesAfter m l (truncPage pageMask address) (roundPage pageMask size) mask) :=
  enter_entersFree_iff hw (Nat.and_le_left.trans_lt haddress) (roundMask_lt ..) hmask

/-- Memory without an object. -/
def zeroFill : Entering := ⟨vmObjectNull, 0, false, vmProtDefault, vmProtAll, vmInheritDefault⟩

/-- A map with one entry, for the first page. -/
def onePage : VmMap := ((create 0 65536).map 4095 false 0 4096 0 false zeroFill).2.2

theorem onePage_wf : onePage.Wf [1] where
  hdr :=
    { ring :=
        { nodup := by decide
          linked := isChain_cons_cons.mpr ⟨⟨by decide, by decide⟩,
            isChain_cons_cons.mpr ⟨⟨by decide, by decide⟩, .singleton _⟩⟩ }
      count := by decide
      zone := by decide
      spans := ⟨by decide, by decide, (by decide : (4096 : Nat) ≤ 65536)⟩
      width := by decide }
  hint := by decide
  firstFree := by decide

/-- A page is entered anywhere, after the first one. -/
theorem map_entersFree_iff_onePage :
    let r := onePage.map 4095 false 0 100 4095 true zeroFill
    r.1 = .success ∧ r.2.1 = 4096 ∧ EntersFree onePage [1] (roundPage 4095 100) 4095 r := by
  refine ⟨by decide, by decide,
    (map_entersFree_iff onePage_wf 4095 false true zeroFill (by decide) (by decide)).mpr ?_⟩
  intro _ _
  decide

/-- A page is entered anywhere, with all bits in the mask.  It is entered over the first page. -/
theorem not_entersFree_onePage :
    let r := onePage.map 4095 false 0 4096 (2 ^ 32 - 1) true zeroFill
    onePage.Wf [1] ∧ onePage.hdr.spans [1] = [(0, 4096)] ∧ r.1 = .success ∧ r.2.1 = 0 ∧
      ¬ EntersFree onePage [1] (roundPage 4095 4096) (2 ^ 32 - 1) r := by
  refine ⟨onePage_wf, by decide, by decide, by decide, fun h => ?_⟩
  have hfree := (h (by decide)).2.2.1 (0, 4096) (by decide)
  revert hfree
  decide

end VmMap

end Mach
