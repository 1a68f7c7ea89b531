import Mach.Intel.PmapTables

/-!
# The calls keep to the mappings

For each call of the pmap system: it does not panic, and leaves a state of the mappings that it is
to leave.  The loops over page directories are proved once (`Pmaps.pdeLoop_ok`).  A VM page may have
more entries than a slot of the directory stands for, and then a part of a range that belongs to a
slot can start in the middle of a VM page.
-/

namespace Mach

open Function Mappings Headed
open Nat (succ_mul mod_lt)
open List (mem_cons any_eq_true mem_range)

namespace Pmaps

variable {c : PmapConfig} {s s' : Pmaps} {a : Mappings} {r : Nat → Bool} {p v : Nat}

/-! ## Removing mappings -/

variable {o g f e x first last q k : Nat} {m : Mapping} {remove wired : Bool} {xs : List PvEntry}
  {prot : Protection} {f' : Nat}

theorem clearMapping_modified : (s.clearMapping c o g f).modified f' = true ↔
    s.modified f' = true ∨ f = f' ∧ s.anyModified o g c.ptes = true := by
  rcases eq_or_ne f' f with rfl | hne
  · simp [clearMapping]
  · simp [clearMapping, update_of_ne hne, symm hne]

theorem pvRemove_ok {x : PvEntry} (hx : x ∈ (s.pv f).toList) :
    ∃ l free, s.pvRemove x.1 x.2 f = .ok { s with pv := update s.pv f l, pvFree := free } ∧
      l.toList = (s.pv f).toList.erase x := by
  obtain ⟨l, k, hremove, hl⟩ := remove_of_mem hx
  have hhead : (s.pv f).head ≠ none := by
    intro hnone
    rw [remove, hnone] at hremove
    exact nomatch hremove
  exact ⟨l, s.pvFree + k, by rw [pvRemove, if_neg hhead, hremove], hl⟩

theorem Represents.removePage (h : s.Represents c a r) (hv : c.Usable p v) :
    ∃ s', s.removePage c p p (v * c.ptes) = .ok s' ∧ s'.Represents c (a.set p v none) r ∧
      s'.dir = s.dir := by
  cases hm : a p v with
  | none =>
    refine ⟨s, ?_, ?_, rfl⟩
    · rw [Pmaps.removePage, if_pos]
      rw [(h.tables.first hv).1, hm]
    · rwa [a.set_eq_self hm]
  | some m =>
    have hframe : (s.pte p (v * c.ptes)).frame = m.page * c.ptes := by
      rw [(h.tables.first hv).1, hm]
    have hne : (s.pte p (v * c.ptes)).frame ≠ 0 := by
      rw [hframe]
      exact Nat.mul_ne_zero (h.tables.page_ne p v m hm) c.ptes_pos.ne'
    have hpage : (s.pte p (v * c.ptes)).frame / c.ptes = m.page := by
      rw [hframe, Nat.mul_div_cancel _ c.ptes_pos]
    rw [Pmaps.removePage, if_neg hne]
    simp only [hpage]
    cases hmanaged : c.managed m.page with
    | false =>
      refine ⟨_, rfl, ⟨h.tables.erase hm rfl rfl rfl rfl fun f hf => ?_,
        h.listed.erase hm (fun hf => nomatch hmanaged.symm.trans hf) fun _ _ => rfl⟩, rfl⟩
      have hne : m.page ≠ f := fun heq => nomatch (heq ▸ hmanaged).symm.trans hf
      exact (or_iff_left fun hin => hne hin.1).symm
    | true =>
      have hmem : (p, v * c.ptes) ∈ (s.pv m.page).toList :=
        ((h.listed m.page hmanaged).2 ..).mpr (at_page.mpr ⟨m, hm, rfl⟩)
      obtain ⟨l, free, hs', hl⟩ := pvRemove_ok
        (s := (s.count p (-1) (if (s.pte p (v * c.ptes)).wired then -1 else 0)).clearMapping c p
          (v * c.ptes) m.page) hmem
      refine ⟨_, hs', ⟨h.tables.erase hm rfl rfl rfl rfl fun f _ => clearMapping_modified,
        h.listed.erase hm (fun _ => ?_) fun f hne => update_of_ne hne ..⟩, rfl⟩
      exact (congrArg toList (update_self m.page l s.pv)).trans hl

section

variable {pages pages' : Nat → Prop} [DecidablePred pages] [DecidablePred pages']

theorem Represents.drop_congr (h : s.Represents c (a.drop p pages) r)
    (hpages : ∀ w, a p w ≠ none → (pages w ↔ pages' w)) :
    s.Represents c (a.drop p pages') r :=
  a.drop_congr hpages ▸ h

theorem Represents.drop_none (h : s.Represents c a r) (hpages : ∀ w, ¬ pages w) :
    s.Represents c (a.drop p pages) r := by
  have hdrop : a.drop p pages = a := funext₂ fun q w => a.drop_of_not fun hqw => hpages w hqw.2
  rwa [hdrop]

end

theorem Represents.removeRange (h : s.Represents c a r)
    (hv : ∀ w, v ≤ w → w < v + k → c.Usable p w) :
    ∃ s', Pmaps.removeRange c p p k (v * c.ptes) s = .ok s' ∧
      s'.Represents c (a.drop p fun w => v ≤ w ∧ w < v + k) r := by
  induction k generalizing s a v with
  | zero => exact ⟨s, rfl, h.drop_none fun w hw => by omega⟩
  | succ k ih =>
    obtain ⟨s₁, hs₁, h₁, -⟩ := h.removePage (hv v le_rfl (by omega))
    obtain ⟨s₂, hs₂, h₂⟩ := ih (v := v + 1) h₁ fun w hle hlt => hv w (by omega) (by omega)
    refine ⟨s₂, ?_, ?_⟩
    · rw [removeRange, hs₁]
      rw [succ_mul] at hs₂
      exact hs₂
    · rw [← a.drop_eq_set, a.drop_drop] at h₂
      exact h₂.drop_congr fun w _ => by omega

/-! ## The loop over page directories -/

theorem le_sliceEnd (hlt : g < e) : g < sliceEnd e g := by
  have hdiv := Nat.lt_div_mul_add (a := g) (b := nptes) (by decide)
  rw [sliceEnd, succ_mul]
  omega

theorem pdeLoop_ok {body : Nat → Nat → Nat → Pmaps → Except PmapPanic Pmaps}
    {I : Nat → Pmaps → Prop}
    (hnone : ∀ g s, I g s → g < e → s.pmapPte p g = none → I (sliceEnd e g) s)
    (hsome : ∀ g s o, I g s → g < e → s.pmapPte p g = some o →
      ∃ s', body o g (sliceEnd e g) s = .ok s' ∧ I (sliceEnd e g) s')
    {fuel : Nat} (hI : I g s) (hle : g ≤ e) (hfuel : e - g ≤ fuel) :
    ∃ s', pdeLoop body p e fuel g s = .ok s' ∧ I e s' := by
  induction fuel generalizing g s with
  | zero =>
    obtain rfl : g = e := by omega
    exact ⟨s, rfl, hI⟩
  | succ fuel ih =>
    by_cases hlt : g < e
    · have hslice := le_sliceEnd hlt
      obtain ⟨s₁, hs₁, h₁⟩ : ∃ s₁, s.pdeSlice body p e g = .ok s₁ ∧ I (sliceEnd e g) s₁ := by
        cases hpte : s.pmapPte p g with
        | none => exact ⟨s, by rw [pdeSlice, hpte], hnone g s hI hlt hpte⟩
        | some o =>
          obtain ⟨s₁, hs₁, h₁⟩ := hsome g s o hI hlt hpte
          exact ⟨s₁, by rw [pdeSlice, hpte]; exact hs₁, h₁⟩
      obtain ⟨s₂, hs₂, h₂⟩ := ih h₁ (min_le_right ..) (by omega)
      refine ⟨s₂, ?_, h₂⟩
      rw [pdeLoop, if_pos hlt, hs₁]
      exact hs₂
    · obtain rfl : g = e := by omega
      exact ⟨s, by rw [pdeLoop, if_neg hlt], hI⟩

theorem slot_of_slice (hle : g ≤ x) (hlt : x < sliceEnd e g) : x / nptes = g / nptes := by
  have hx : x / nptes < g / nptes + 1 :=
    (Nat.div_lt_iff_lt_mul (by decide)).mpr (hlt.trans_le (min_le_left ..))
  have hg := Nat.div_le_div_right (c := nptes) hle
  omega

variable {w : Nat}

theorem no_page_in_slice (hg : nptes ∣ g) (hnot : ¬ c.ptes ∣ g)
    (hle : g ≤ w * c.ptes) : sliceEnd e g ≤ w * c.ptes := by
  have hdvd : nptes ∣ c.ptes := by
    rcases le_total 10 c.shift with hshift | hshift
    · exact pow_dvd_pow 2 hshift
    · exact absurd ((pow_dvd_pow 2 hshift).trans hg) hnot
  obtain ⟨x, rfl⟩ := hg
  obtain ⟨y, hy⟩ := hdvd.mul_left w
  have hne : nptes * x ≠ w * c.ptes := fun heq => hnot ⟨w, by rw [heq, mul_comm]⟩
  have hlt : x < y := Nat.lt_of_mul_lt_mul_left (a := nptes) (by omega)
  refine (min_le_left ..).trans ?_
  rw [Nat.mul_div_cancel_left x (by decide), hy, mul_comm]
  exact Nat.mul_le_mul_left nptes hlt

theorem lt_ceil {n : Nat} (hn : 0 < n) (m : Nat) : x < (m + n - 1) / n ↔ x * n < m := by
  rw [Nat.lt_div_iff_mul_lt hn]
  omega

section

variable (h : s.Represents c (a.drop p fun w => first ≤ w ∧ w * c.ptes < g) r)
include h

theorem Represents.drop_slice (hlt : g < e) (hpte : s.pmapPte p g = none) :
    s.Represents c (a.drop p fun w => first ≤ w ∧ w * c.ptes < sliceEnd e g) r := by
  refine h.drop_congr fun w hw => ⟨fun hlow => ⟨hlow.1, hlow.2.trans (le_sliceEnd hlt)⟩,
    fun hhigh => ⟨hhigh.1, Nat.lt_of_not_le fun hge => ?_⟩⟩
  obtain ⟨m, hm⟩ := Option.ne_none_iff_exists'.mp hw
  have hpresent := h.tables.present p w m
    ((a.drop_of_not fun hqw => not_lt.mpr hge hqw.2.2).trans hm) 0 c.ptes_pos
  rw [add_zero, pmapPte, slot_of_slice hge hhigh.2, ← pmapPte, hpte] at hpresent
  cases hpresent

theorem Represents.removeSlice
    (hfirst : first * c.ptes ≤ g) (halign : g = first * c.ptes ∨ nptes ∣ g ∨ g = e) (hlt : g < e)
    (hpages : ∀ w, first ≤ w → w * c.ptes < e → c.Usable p w) :
    ∃ s', s.removeRange c p p ((sliceEnd e g - g + c.ptes - 1) / c.ptes) g = .ok s' ∧
      s'.Represents c (a.drop p fun w => first ≤ w ∧ w * c.ptes < sliceEnd e g) r := by
  have hend := le_sliceEnd hlt
  by_cases hdvd : c.ptes ∣ g
  · obtain ⟨v, rfl⟩ := hdvd
    rw [mul_comm c.ptes v] at *
    have hv : first ≤ v := Nat.le_of_mul_le_mul_right hfirst c.ptes_pos
    obtain ⟨s', hs', h'⟩ := h.removeRange (v := v)
      (k := (sliceEnd e (v * c.ptes) - v * c.ptes + c.ptes - 1) / c.ptes) fun w hle hw => by
        obtain ⟨x, rfl⟩ := Nat.exists_eq_add_of_le hle
        have hx := (lt_ceil c.ptes_pos _).mp (Nat.lt_of_add_lt_add_left hw)
        have hmul : (v + x) * c.ptes = v * c.ptes + x * c.ptes := Nat.add_mul v x c.ptes
        have hle : sliceEnd e (v * c.ptes) ≤ e := min_le_right ..
        exact hpages (v + x) (by omega) (by omega)
    rw [a.drop_drop] at h'
    refine ⟨s', hs', h'.drop_congr fun w _ => ?_⟩
    rcases lt_or_ge w v with hw | hw
    · have hlow : w * c.ptes < v * c.ptes := Nat.mul_lt_mul_of_pos_right hw c.ptes_pos
      simp [hlow, hlow.trans hend, not_le.mpr hw]
    obtain ⟨x, rfl⟩ := Nat.exists_eq_add_of_le hw
    have hx := lt_ceil (x := x) c.ptes_pos (sliceEnd e (v * c.ptes) - v * c.ptes)
    have hmul : (v + x) * c.ptes = v * c.ptes + x * c.ptes := Nat.add_mul v x c.ptes
    omega
  have hnot : ¬ g = first * c.ptes := fun heq => hdvd ⟨first, by rw [heq, mul_comm]⟩
  have hslot : nptes ∣ g := by
    rcases halign with heq | hslot | heq
    · exact absurd heq hnot
    · exact hslot
    · exact absurd heq hlt.ne
  have hmod := Nat.div_add_mod g c.ptes
  have hremlt := mod_lt g c.ptes_pos
  rw [mul_comm] at hmod
  have hlow : first ≤ g / c.ptes ∧ g / c.ptes * c.ptes < g :=
    ⟨(Nat.le_div_iff_mul_le c.ptes_pos).mpr hfirst, by omega⟩
  have hzero : s.pte p g = .zero := by
    have hunmapped := h.tables.unmapped p (g / c.ptes) (a.drop_of_pos hlow)
      (hpages _ hlow.1 (hlow.2.trans hlt)) (g % c.ptes) hremlt
    rwa [hmod] at hunmapped
  have hbound := no_page_in_slice (e := e) (w := g / c.ptes + 1) hslot hdvd
    (by rw [succ_mul]; omega)
  rw [succ_mul] at hbound
  have hone : (sliceEnd e g - g + c.ptes - 1) / c.ptes = 1 := by
    apply Nat.div_eq_of_lt_le
    · omega
    · omega
  refine ⟨s, ?_, ?_⟩
  · rw [hone, Pmaps.removeRange, Pmaps.removePage, hzero]
    rfl
  · refine h.drop_congr fun w _ => ⟨fun hw => ⟨hw.1, hw.2.trans hend⟩,
      fun hw => ⟨hw.1, Nat.lt_of_not_le fun hge => ?_⟩⟩
    exact absurd hw.2 (not_lt.mpr (no_page_in_slice hslot hdvd hge))

end

theorem Represents.pmapRemove (h : s.Represents c a r)
    (hp : p ≠ 0 → last * c.ptes ≤ kernelDir * nptes)
    (hpages : ∀ w, first ≤ w → w < last → c.Usable p w) :
    ∃ s', s.pmapRemove c p first last = .ok s' ∧
      s'.Represents c (a.drop p fun w => first ≤ w ∧ w < last) r := by
  rcases lt_or_ge last first with hlt | hle
  · refine ⟨s, ?_, ?_⟩
    · rw [Pmaps.pmapRemove, Nat.sub_eq_zero_of_le (Nat.mul_le_mul_right _ hlt.le)]
      rfl
    · exact h.drop_none fun w hw => by omega
  let I : Nat → Pmaps → Prop := fun g s => (g = first * c.ptes ∨ nptes ∣ g ∨ g = last * c.ptes) ∧
    first * c.ptes ≤ g ∧ s.Represents c (a.drop p fun w => first ≤ w ∧ w * c.ptes < g) r
  have hnext : ∀ g, sliceEnd (last * c.ptes) g = first * c.ptes ∨
      nptes ∣ sliceEnd (last * c.ptes) g ∨ sliceEnd (last * c.ptes) g = last * c.ptes := by
    intro g
    rcases le_total ((g / nptes + 1) * nptes) (last * c.ptes) with hmin | hmin
    · rw [sliceEnd, min_eq_left hmin]
      exact .inr (.inl (dvd_mul_left ..))
    · exact .inr (.inr (min_eq_right hmin))
  obtain ⟨s', hs', -, -, h'⟩ : ∃ s', s.pmapRemove c p first last = .ok s' ∧
      I (last * c.ptes) s' := by
    refine pdeLoop_ok ?_ ?_ ?_ (Nat.mul_le_mul_right _ hle) le_rfl
    · rintro g s₁ ⟨-, hfirst, h₁⟩ hlt hpte
      refine ⟨hnext g, hfirst.trans (le_sliceEnd hlt).le, ?_⟩
      exact h₁.drop_slice hlt hpte
    · rintro g s₁ o ⟨halign, hfirst, h₁⟩ hlt hpte
      obtain rfl := h₁.tables.pmapPte_eq (fun hp' => hlt.trans_le (hp hp')) hpte
      obtain ⟨s₂, hs₂, h₂⟩ := h₁.removeSlice hfirst halign hlt fun w hle hw =>
        hpages w hle (Nat.lt_of_mul_lt_mul_right hw)
      exact ⟨s₂, hs₂, hnext g, hfirst.trans (le_sliceEnd hlt).le, h₂⟩
    · refine ⟨.inl rfl, le_rfl, h.drop_none fun w hw => ?_⟩
      have hlow := Nat.lt_of_mul_lt_mul_right hw.2
      omega
  exact ⟨s', hs', h'.drop_congr fun w _ => by rw [Nat.mul_lt_mul_right c.ptes_pos]⟩

/-! ## Changing protections -/

/-- The state when `pmap_protect` has come to an address. -/
def protectedTo (s : Pmaps) (p first g : Nat) : Pmaps :=
  { s with
    pte := fun q x =>
      if q = p ∧ first ≤ x ∧ x < g ∧ s.pmapPte p x = some p then writeProtect 0 (s.pte q x)
      else s.pte q x }

theorem pdeLoop_protect (h : s.Tables c a r) (hp : p ≠ 0) (hlast : last ≤ kernelDir * nptes) :
    pdeLoop (fun o h l s => .ok (s.setEntries o h (l - h) writeProtect)) p last (last - first)
      first s = .ok (s.protectedTo p first last) := by
  have hslot : ∀ {g x}, g ≤ x → x < sliceEnd last g → s.pmapPte p x = s.pmapPte p g := by
    intro g x hge hlt
    rw [pmapPte, pmapPte, slot_of_slice hge hlt]
  have hstart : ∀ {g}, g ≤ first → s = s.protectedTo p first g := fun hg =>
    congrArg (fun pte => { s with pte := pte }) (funext₂ fun q x => (if_neg (by omega)).symm)
  rcases lt_or_ge last first with hlt | hle
  · rw [Nat.sub_eq_zero_of_le hlt.le, ← hstart hlt.le]
    rfl
  obtain ⟨s', hs', hfirst, rfl⟩ : ∃ s', pdeLoop
      (fun o h l s => .ok (s.setEntries o h (l - h) writeProtect)) p last (last - first) first s =
        .ok s' ∧ first ≤ last ∧ s' = s.protectedTo p first last := by
    refine pdeLoop_ok (I := fun g s' => first ≤ g ∧ s' = s.protectedTo p first g) ?_ ?_
      ⟨le_rfl, hstart le_rfl⟩ hle le_rfl
    · rintro g s' ⟨hfirst, rfl⟩ hlt hnone
      refine ⟨hfirst.trans (le_sliceEnd hlt).le, ?_⟩
      refine congrArg (fun pte => { s with pte := pte }) (funext₂ fun q x => ?_)
      refine if_congr ⟨fun hx => ⟨hx.1, hx.2.1, hx.2.2.1.trans (le_sliceEnd hlt), hx.2.2.2⟩,
        fun hx => ⟨hx.1, hx.2.1, Nat.lt_of_not_le fun hge => ?_, hx.2.2.2⟩⟩ rfl rfl
      cases hnone.symm.trans ((hslot hge hx.2.2.1).symm.trans hx.2.2.2)
    · rintro g s' o ⟨hfirst, rfl⟩ hlt hsome
      obtain rfl : o = p := h.pmapPte_eq (fun _ => hlt.trans_le hlast) hsome
      refine ⟨_, rfl, hfirst.trans (le_sliceEnd hlt).le, ?_⟩
      refine congrArg (fun pte => { s with pte := pte }) (funext₂ fun q x => ?_)
      have hend := le_sliceEnd hlt
      by_cases hx : q = o ∧ g ≤ x ∧ x < sliceEnd last g
      · have hin : q = o ∧ g ≤ x ∧ x < g + (sliceEnd last g - g) := by omega
        have hold : ¬ (q = o ∧ first ≤ x ∧ x < g ∧ s.pmapPte o x = some o) := by omega
        refine (if_pos hin).trans (.trans ?_ (if_pos ?_).symm)
        · exact congrArg (writeProtect _) (if_neg hold)
        · exact ⟨hx.1, hfirst.trans hx.2.1, hx.2.2, (hslot hx.2.1 hx.2.2).trans hsome⟩
      · have hin : ¬ (q = o ∧ g ≤ x ∧ x < g + (sliceEnd last g - g)) := by omega
        refine (if_neg hin).trans (if_congr ?_ rfl rfl)
        exact ⟨fun hold => ⟨hold.1, hold.2.1, hold.2.2.1.trans hend, hold.2.2.2⟩,
          fun hnew => ⟨hnew.1, hnew.2.1,
            Nat.lt_of_not_le fun hge => hx ⟨hnew.1, hge, hnew.2.2.1⟩, hnew.2.2.2⟩⟩
  exact hs'

theorem Represents.pmapProtect (h : s.Represents c a r)
    (hp : p ≠ 0 → last * c.ptes ≤ kernelDir * nptes)
    (hpages : ∀ w, first ≤ w → w < last → c.Usable p w) (prot : Protection) :
    ∃ s', s.pmapProtect c p first last prot = .ok s' ∧
      s'.Represents c (a.protect p first last prot) r := by
  by_cases hread : prot.ReadOnly
  · rcases eq_or_ne p 0 with rfl | hne
    · rw [Pmaps.pmapProtect, if_pos hread, if_pos rfl, protect, if_pos hread, if_pos rfl]
      exact h.pmapRemove hp hpages
    rw [Pmaps.pmapProtect, if_pos hread, if_neg hne, protect, if_pos hread, if_neg hne]
    refine ⟨_, pdeLoop_protect h.tables hne (hp hne), ?_⟩
    refine h.change ?_ ?_ rfl rfl rfl rfl rfl (fun q x => ?_) ?_ ?_
    · intro q w m
      split <;> rfl
    · intro q w m
      split <;> rfl
    · simp only [protectedTo, writeProtect]
      split <;> [split <;> rfl; rfl]
    · intro q w m hm
      by_cases hin : q = p ∧ first ≤ w ∧ w < last
      · obtain ⟨rfl, hge, hlt⟩ := hin
        rw [if_pos ⟨rfl, hge, hlt⟩]
        refine (h.tables.mapped q w m hm).writeProtect fun k hk => ?_
        have hlow := Nat.mul_le_mul_right c.ptes hge
        have hhigh := Nat.mul_le_mul_right c.ptes (Nat.succ_le_of_lt hlt)
        rw [succ_mul] at hhigh
        refine (if_pos ⟨rfl, by omega, by omega, h.tables.present q w m hm k hk⟩).trans ?_
        exact if_pos ((h.tables.mapped q w m hm).valid k hk)
      · rw [if_neg hin]
        refine (h.tables.mapped q w m hm).congr fun k hk => if_neg fun hx => ?_
        have hlow := lt_of_le_of_lt hx.2.1 (Nat.add_lt_add_left hk (w * c.ptes))
        rw [← succ_mul] at hlow
        have hfirst := Nat.lt_of_mul_lt_mul_right hlow
        have hlast := Nat.lt_of_mul_lt_mul_right (lt_of_le_of_lt (Nat.le_add_right _ k) hx.2.2.1)
        exact hin ⟨hx.1, by omega, hlast⟩
    · intro q w hm hw k hk
      have hzero := h.tables.unmapped q w hm hw k hk
      refine Eq.trans (ite_eq_right_iff.mpr fun _ => ?_) hzero
      rw [hzero]
      rfl
  rw [Pmaps.pmapProtect, if_neg hread, protect, if_neg hread]
  split
  · exact ⟨s, rfl, h⟩
  · exact h.pmapRemove hp hpages

/-! ## All mappings of a page -/

/-- What is left of a mapping of the page. -/
def lowerMapping (remove : Bool) (q : Nat) (m : Mapping) : Option Mapping :=
  if remove ∨ q = 0 then none else some { m with write := false }

instance : LawfulBEq PvEntry := inferInstance

/-- The mappings when the walk has been at some elements of the list. -/
def lowerAt (c : PmapConfig) (a : Mappings) (remove : Bool) (xs : List PvEntry) : Mappings :=
  fun q w => if (q, w * c.ptes) ∈ xs then (a q w).bind (lowerMapping remove q) else a q w

/-- The elements that the walk does not unlink. -/
def keeps (remove : Bool) (x : PvEntry) : Bool := ¬ (remove ∨ x.1 = 0)

/-- The entry is an unwired mapping of the page. -/
def Unwired (c : PmapConfig) (a : Mappings) (f : Nat) (x : PvEntry) : Prop :=
  ∃ v, x.2 = v * c.ptes ∧ ∃ m, a x.1 v = some m ∧ m.page = f ∧ m.wired = false

theorem Unwired.set {x : PvEntry} {y : Option Mapping} (hx : Unwired c a f x)
    (hne : x ≠ (p, v * c.ptes)) : Unwired c (a.set p v y) f x := by
  obtain ⟨w, hw, m, hm⟩ := hx
  refine ⟨w, hw, m, ?_⟩
  rwa [a.set_of_ne]
  rintro ⟨hp, rfl⟩
  exact hne (Prod.ext hp hw)

theorem Tables.protectEntry (h : s.Tables c a r) (remove : Bool)
    (hm : a p v = some m) (hpage : m.page = f) (hwired : m.wired = false) :
    ∃ s', s.protectEntry c remove f (p, v * c.ptes) = .ok (s', !keeps remove (p, v * c.ptes)) ∧
      s'.Tables c (a.set p v (lowerMapping remove p m)) r ∧ s'.pv = s.pv := by
  have hpresent := h.present p v m hm 0 c.ptes_pos
  have hunwired : (s.pte p (v * c.ptes)).wired = false := (h.mapped p v m hm).wired.trans hwired
  rw [add_zero] at hpresent
  by_cases hgone : remove ∨ p = 0
  · refine ⟨(s.count p (-1) 0).clearMapping c p (v * c.ptes) f, ?_, ?_, rfl⟩
    · simp [Pmaps.protectEntry, hpresent, hgone, hunwired, keeps]
    · rw [lowerMapping, if_pos hgone]
      refine h.erase hm rfl rfl rfl ?_ fun f' _ => ?_
      · rw [hunwired]
        rfl
      · rw [hpage]
        exact clearMapping_modified
  · refine ⟨s.setEntries p (v * c.ptes) c.ptes fun _ e => { e with write := false }, ?_, ?_, rfl⟩
    · simp [Pmaps.protectEntry, hpresent, hgone, keeps]
    · rw [lowerMapping, if_neg hgone]
      refine h.replace hm rfl rfl rfl (fun q g hnot => setEntries_pte_of_not hnot) ?_ rfl rfl rfl
        (anyModified_eq fun q x => setEntries_mod fun _ _ => rfl)
      exact (h.mapped p v m hm).writeProtect fun k hk => setEntries_pte hk

theorem lowerAt_cons (hm : a p v = some m) (hnot : (p, v * c.ptes) ∉ xs) :
    lowerAt c (a.set p v (lowerMapping remove p m)) remove xs =
      lowerAt c a remove ((p, v * c.ptes) :: xs) := by
  funext q w
  by_cases hqw : q = p ∧ w = v
  · obtain ⟨rfl, rfl⟩ := hqw
    simp [lowerAt, hnot, hm]
  · have hne : ¬ (q, w * c.ptes) = (p, v * c.ptes) := fun heq =>
      hqw ⟨(Prod.mk.inj heq).1, Nat.mul_right_cancel c.ptes_pos (Prod.mk.inj heq).2⟩
    simp [lowerAt, a.set_of_ne hqw, hne]

theorem Tables.protectChain (h : s.Tables c a r) (remove : Bool)
    (hnodup : xs.Nodup) (hxs : ∀ x ∈ xs, Unwired c a f x) :
    ∃ s', Pmaps.protectChain c remove f xs s = .ok (s', xs.filter (keeps remove)) ∧
      s'.Tables c (lowerAt c a remove xs) r ∧ s'.pv = s.pv := by
  induction xs generalizing s a with
  | nil => exact ⟨s, rfl, h, rfl⟩
  | cons x xs ih =>
    obtain ⟨p, g⟩ := x
    obtain ⟨v, rfl, m, (hm : a p v = some m), hpage, hwired⟩ : Unwired c a f (p, g) :=
      hxs _ (List.mem_cons_self ..)
    obtain ⟨hnot, hnodup⟩ := List.nodup_cons.mp hnodup
    obtain ⟨s₁, hs₁, h₁, hpv₁⟩ := h.protectEntry remove hm hpage hwired
    have hrest : ∀ x ∈ xs, Unwired c (a.set p v (lowerMapping remove p m)) f x := fun x hx =>
      (hxs x (List.mem_cons_of_mem _ hx)).set fun heq => hnot (heq ▸ hx)
    rw [← lowerAt_cons hm hnot, protectChain, hs₁]
    cases hkeep : keeps remove (p, v * c.ptes) with
    | false =>
      obtain ⟨s₂, hs₂, h₂, hpv₂⟩ := ih (s := { s₁ with pvFree := s₁.pvFree + 1 })
        (h₁.setPv ..) hnodup hrest
      refine ⟨s₂, ?_, h₂, hpv₂.trans hpv₁⟩
      rw [List.filter_cons_of_neg (by simp [hkeep])]
      exact hs₂
    | true =>
      obtain ⟨s₂, hs₂, h₂, hpv₂⟩ := ih h₁ hnodup hrest
      refine ⟨s₂, ?_, h₂, hpv₂.trans hpv₁⟩
      rw [List.filter_cons_of_pos hkeep]
      exact congrArg (· >>= fun y => .ok (y.1, (p, v * c.ptes) :: y.2)) hs₂

/-- When the walk has been everywhere, all mappings of the page are lowered. -/
theorem lowerAt_eq
    (hmem : ∀ q g, (q, g) ∈ xs ↔ a.At c f q g) : lowerAt c a remove xs = a.lower remove f := by
  funext q w
  rw [lowerAt, lower, if_congr ((hmem q _).trans at_page) rfl rfl]
  cases hm : a q w with
  | none => simp
  | some m =>
    by_cases hf : m.page = f
    · simp [lowerMapping]
    · simp [hf]

theorem at_lower :
    (a.lower remove f).At c f' q g ↔ a.At c f' q g ∧ (f' = f → keeps remove (q, g) = true) := by
  constructor
  · rintro ⟨w, rfl, m, hm, rfl⟩
    obtain ⟨m₀, hm₀, hlow⟩ := Option.bind_eq_some_iff.mp hm
    rw [at_page]
    by_cases hf : m₀.page = f
    · rw [if_pos hf] at hlow
      obtain ⟨hkeep, hm⟩ := Option.ite_none_left_eq_some.mp hlow
      cases hm
      exact ⟨⟨m₀, hm₀, rfl⟩, fun _ => by simpa [keeps] using hkeep⟩
    · rw [if_neg hf] at hlow
      cases hlow
      exact ⟨⟨m, hm₀, rfl⟩, fun heq => absurd heq hf⟩
  · rintro ⟨⟨w, rfl, m, hm, rfl⟩, hkeep⟩
    rw [at_page]
    by_cases hf : m.page = f
    · have hstay : ¬ (remove = true ∨ q = 0) := by simpa [keeps] using hkeep hf
      exact ⟨{ m with write := false }, by simp [lower, hm, hf, hstay], rfl⟩
    · exact ⟨m, by simp [lower, hm, hf], rfl⟩

theorem Represents.protectMappings (h : s.Represents c a r) (remove : Bool)
    (hf : c.managed f = true) (hwired : ∀ p v m, a p v = some m → m.page = f → m.wired = false) :
    ∃ s', s.protectMappings c remove f = .ok s' ∧ s'.Represents c (a.lower remove f) r := by
  obtain ⟨hnodup, hmem⟩ := h.listed f hf
  have hunwired : ∀ x ∈ (s.pv f).toList, Unwired c a f x := by
    rintro ⟨p, g⟩ hx
    obtain ⟨v, hv, m, hm, hpage⟩ := (hmem p g).mp hx
    exact ⟨v, hv, m, hm, hpage, hwired p v m hm hpage⟩
  have hlisted : ∀ s' : Pmaps, (s'.pv f).toList = (s.pv f).toList.filter (keeps remove) →
      (∀ f', f' ≠ f → s'.pv f' = s.pv f') → s'.Listed c (a.lower remove f) := by
    intro s' hlist hother f' hf'
    rcases eq_or_ne f' f with rfl | hne
    · rw [hlist]
      refine ⟨hnodup.filter _, fun q g => ?_⟩
      rw [List.mem_filter, hmem, at_lower]
      simp
    · rw [hother f' hne]
      refine ⟨(h.listed f' hf').1, fun q g => ?_⟩
      rw [(h.listed f' hf').2, at_lower]
      simp [hne]
  cases hhead : (s.pv f).head with
  | none =>
    have hlist : (s.pv f).toList = [] := by rw [toList, hhead]
    refine ⟨s, by rw [Pmaps.protectMappings, hhead], ?_, hlisted s (by rw [hlist]; rfl)
      fun _ _ => rfl⟩
    have hlower : lowerAt c a remove _ = _ := lowerAt_eq hmem
    rw [← hlower, hlist]
    exact h.tables
  | some x =>
    obtain ⟨p, g⟩ := x
    have hlist : (s.pv f).toList = (p, g) :: (s.pv f).next := by rw [toList, hhead]
    have hlower : lowerAt c a remove _ = _ := lowerAt_eq hmem
    rw [hlist] at hnodup hunwired hlower
    obtain ⟨v, rfl, m, (hm : a p v = some m), hpage, hw⟩ : Unwired c a f (p, g) :=
      hunwired _ (List.mem_cons_self ..)
    obtain ⟨hnot, hnodup⟩ := List.nodup_cons.mp hnodup
    obtain ⟨s₁, hs₁, h₁, hpv₁⟩ := h.tables.protectEntry remove hm hpage hw
    obtain ⟨s₂, hs₂, h₂, hpv₂⟩ := h₁.protectChain remove hnodup fun x hx =>
      (hunwired x (List.mem_cons_of_mem _ hx)).set fun heq => hnot (heq ▸ hx)
    rw [lowerAt_cons hm hnot, hlower] at h₂
    have hpv : s₂.pv = s.pv := hpv₂.trans hpv₁
    obtain ⟨l, free, hrun, hl⟩ : ∃ l free, s.protectMappings c remove f =
        .ok { s₂ with pv := update s₂.pv f l, pvFree := free } ∧
          l.toList = (s.pv f).toList.filter (keeps remove) := by
      simp only [Pmaps.protectMappings, hhead, hs₁, hs₂, bind, Except.bind, hlist]
      cases hkeep : keeps remove (p, v * c.ptes) with
      | false =>
        refine ⟨_, _, rfl, ?_⟩
        rw [toList_pop, List.filter_cons_of_neg (by simp [hkeep])]
      | true => exact ⟨_, _, rfl, (List.filter_cons_of_pos hkeep).symm⟩
    refine ⟨_, hrun, h₂.setPv .., hlisted _ ?_ fun f' hne => ?_⟩
    · exact (congrArg toList (update_self f l s₂.pv)).trans hl
    · exact (update_of_ne hne l s₂.pv).trans (congrFun hpv f')

theorem Represents.pmapPageProtect (h : s.Represents c a r)
    (hwired : ∀ p v m, a p v = some m → m.page = f → m.wired = false) (prot : Protection) :
    ∃ s', s.pmapPageProtect c f prot = .ok s' ∧
      s'.Represents c (if c.managed f then a.pageProtect f prot else a) r := by
  cases hf : c.managed f with
  | false => exact ⟨s, by simp [Pmaps.pmapPageProtect, hf], by simpa using h⟩
  | true =>
    rw [Pmaps.pmapPageProtect, if_pos hf, if_pos rfl, pageProtect]
    by_cases hread : prot.ReadOnly
    · rw [if_pos hread, if_pos hread]
      exact h.protectMappings false hf hwired
    rw [if_neg hread, if_neg hread]
    by_cases hall : prot = .all
    · rw [if_pos hall, if_pos hall]
      exact ⟨s, rfl, h⟩
    · rw [if_neg hall, if_neg hall]
      exact h.protectMappings true hf hwired

/-! ## Entering mappings -/

/-- A page of the kernel has a page table. -/
def KernelPage (c : PmapConfig) (p v : Nat) : Prop :=
  p = 0 → ∀ k < c.ptes, c.kernelTable ((v * c.ptes + k) / nptes) = true

/-- A table for the start of a VM page is a table for all of it. -/
theorem Tables.present_of_first (h : s.Tables c a r) (hown : c.Own p v) (hkernel : KernelPage c p v)
    (ho : s.pmapPte p (v * c.ptes) = some o) (hk : k < c.ptes) :
    s.pmapPte p (v * c.ptes + k) = some p := by
  rcases eq_or_ne p 0 with rfl | hp
  · rw [pmapPte, h.kernel, if_pos (hkernel rfl k hk)]
  have hlt := hown.slot_lt hp c.ptes_pos
  rw [add_zero] at hlt
  have hfirst : s.dir p (v * c.ptes / nptes) = some p := by
    rcases h.dirs p _ hp hlt with hnone | hsome
    · rw [pmapPte, hnone] at ho
      cases ho
    · exact hsome
  exact h.group p _ _ hp hlt ((c.slot_div c.ptes_pos).trans (c.slot_div hk).symm) hfirst

theorem Tables.pmapExpand (h : s.Tables c a r) (hp : p ≠ 0)
    (hnone : s.pmapPte p (v * c.ptes) = none) :
    ∃ s', s.pmapExpand c p (v * c.ptes) = .ok s' ∧ s'.Tables c a r ∧ s'.pv = s.pv ∧
      s'.pmapPte p (v * c.ptes) = some p := by
  have hgroup : v * c.ptes / nptes / c.ptes = v / nptes := c.slot_div c.ptes_pos
  have hempty : ∀ w, w / nptes = v / nptes → a p w = none := by
    intro w hw
    cases hm : a p w with
    | none => rfl
    | some m =>
      have hslot := (h.own p w m hm).slot_lt hp c.ptes_pos
      have hsome : s.pmapPte p (v * c.ptes) = some p :=
        h.group p _ _ hp hslot ((c.slot_div c.ptes_pos).trans (hw.trans hgroup.symm))
          (h.present p w m hm 0 c.ptes_pos)
      rw [hnone] at hsome
      exact nomatch hsome
  refine ⟨(s.setEntries p (v / nptes * c.ptes * nptes) (c.ptes * nptes) fun _ _ => .zero).setDir p
    (v / nptes * c.ptes) c.ptes (some p), ?_, ?_, rfl, if_pos ⟨rfl, c.mem_group.mpr hgroup⟩⟩
  · rw [Pmaps.pmapExpand, if_neg hp, hgroup]
  · refine setDir (h.zeroEntries hp ?_) hp hempty (.inr rfl)
    exact fun w k hk hle hlt => hempty w ((c.mem_group_entries hk).mp ⟨hle, hlt⟩)

theorem Represents.expandTo (h : s.Represents c a r) (hown : c.Own p v)
    (hkernel : KernelPage c p v) :
    ∃ s', s.expandTo c p (v * c.ptes) = .ok s' ∧ s'.Represents c a r ∧
      ∀ k < c.ptes, s'.pmapPte p (v * c.ptes + k) = some p := by
  cases hpte : s.pmapPte p (v * c.ptes) with
  | some =>
    refine ⟨s, by rw [Pmaps.expandTo, hpte], h, fun k hk => ?_⟩
    exact h.tables.present_of_first hown hkernel hpte hk
  | none =>
    have hp : p ≠ 0 := by
      rintro rfl
      have htable := hkernel rfl 0 c.ptes_pos
      rw [pmapPte, h.tables.kernel, ← add_zero (v * c.ptes), if_pos htable] at hpte
      cases hpte
    obtain ⟨s', hs', h', hpv, hfirst⟩ := h.tables.pmapExpand hp hpte
    refine ⟨s', ?_, ⟨h', h.listed.congr hpv⟩, fun k hk => h'.present_of_first hown
      hkernel hfirst hk⟩
    rw [Pmaps.expandTo, hpte]
    exact hs'

theorem reenter_pte (hk : k < c.ptes) : (s.reenter c p o e f prot wired).pte o (e + k) =
      { enterPte c f prot wired k with mod := s.anyModified o e (k + 1) } := by
  rw [reenter, setEntries_pte hk]

/-- The modify bits stay in the template, so that none is lost. -/
theorem reenter_anyModified :
    (s.reenter c p o e f prot wired).anyModified o e c.ptes = s.anyModified o e c.ptes := by
  refine Bool.eq_iff_iff.mpr ?_
  simp only [anyModified, any_eq_true, mem_range]
  constructor
  · rintro ⟨k, hk, hmod⟩
    rw [reenter_pte hk] at hmod
    obtain ⟨j, hj, hmod⟩ := any_eq_true.mp hmod
    exact ⟨j, (mem_range.mp hj).trans_le hk, hmod⟩
  · rintro ⟨k, hk, hmod⟩
    refine ⟨k, hk, ?_⟩
    rw [reenter_pte hk]
    exact any_eq_true.mpr ⟨k, mem_range.mpr (Nat.lt_succ_self k), hmod⟩

theorem Represents.reenter (h : s.Represents c a r) (hm : a p v = some m)
    (prot : Protection) (wired : Bool) :
    (s.reenter c p p (v * c.ptes) m.page prot wired).Represents c
      (a.set p v (some ⟨m.page, prot.write, wired⟩)) r := by
  refine ⟨h.tables.set (h.tables.own p v m hm) rfl
    (fun q g hnot => by rw [Pmaps.reenter, setEntries_pte_of_not hnot]; rfl)
    (fun hx => nomatch hx) ?_ rfl ?_ rfl ?_ ?_, h.listed.change hm rfl rfl⟩
  · rintro _ ⟨⟩
    refine ⟨h.tables.page_ne p v m hm, h.tables.present p v m hm, ?_⟩
    refine entriesOf_iff.mpr ⟨congrArg Pte.wired (reenter_pte c.ptes_pos), fun k hk => ?_⟩
    rw [reenter_pte hk]
    exact ⟨rfl, rfl, rfl⟩
  · simp [hm]
  · rw [(h.tables.first (h.tables.own p v m hm).usable).2, hm]
    obtain ⟨page, write, old⟩ := m
    cases wired <;> cases old <;> rfl
  · intro f _
    simp only [ModifiedAt, hm, reenter_anyModified, Option.some.injEq, exists_eq_left']
    rfl

variable {h : Nat} {atHand : Bool}

theorem pvEnter_none (hnone : s.pvEnter p h f atHand = none) : atHand = false := by
  cases atHand with
  | false => rfl
  | true =>
    rw [pvEnter] at hnone
    split at hnone <;> exact nomatch hnone

theorem pvEnter_some (hsome : s.pvEnter p h f atHand = some s') :
    ∃ l free, s' = { s with pv := update s.pv f l, pvFree := free } ∧
      l.toList.Perm ((p, h) :: (s.pv f).toList) := by
  cases hhead : (s.pv f).head with
  | none =>
    simp only [pvEnter, hhead] at hsome
    cases hsome
    exact ⟨_, _, rfl, by rw [toList, toList, hhead]⟩
  | some x =>
    have hperm : (toList ⟨some x, (p, h) :: (s.pv f).next⟩).Perm ((p, h) :: (s.pv f).toList) := by
      rw [toList, toList, hhead]
      exact .swap (p, h) x (s.pv f).next
    simp only [pvEnter, hhead] at hsome
    split at hsome
    · cases hsome
      exact ⟨_, _, rfl, hperm⟩
    · obtain ⟨-, ⟨⟩⟩ := Option.ite_none_left_eq_some.mp hsome
      exact ⟨_, _, rfl, hperm⟩

theorem Tables.enterEntries (h : s.Tables c a r) (hown : c.Own p v) (hf : f ≠ 0)
    (hpresent : ∀ k < c.ptes, s.pmapPte p (v * c.ptes + k) = some p) (hnone : a p v = none)
    (prot : Protection) (wired : Bool) :
    (s.enterEntries c p p (v * c.ptes) f prot wired).Tables c
      (a.set p v (some ⟨f, prot.write, wired⟩)) r := by
  have hpte : ∀ k < c.ptes, (s.enterEntries c p p (v * c.ptes) f prot wired).pte p
      (v * c.ptes + k) = enterPte c f prot wired k := fun k hk => setEntries_pte hk
  refine h.set hown rfl (fun q g hnot => setEntries_pte_of_not hnot)
    (fun hx => nomatch hx) ?_ rfl ?_
    rfl ?_ ?_
  · rintro _ ⟨⟩
    refine ⟨hf, hpresent, entriesOf_iff.mpr ⟨congrArg Pte.wired (hpte 0 c.ptes_pos), ?_⟩⟩
    intro k hk
    rw [hpte k hk]
    exact ⟨rfl, rfl, rfl⟩
  · simp [hnone]
  · rw [hnone]
    cases wired <;> rfl
  · have hclean : (s.enterEntries c p p (v * c.ptes) f prot wired).anyModified p (v * c.ptes)
        c.ptes = false := by
      refine List.any_eq_false.mpr fun k hk => ?_
      rw [hpte k (mem_range.mp hk), enterPte]
      exact Bool.false_ne_true
    intro f' _
    simp only [ModifiedAt, hnone, hclean, and_false, reduceCtorEq, false_and]
    rfl

theorem Represents.enterNew (h : s.Represents c a r) (hown : c.Own p v) (hf : f ≠ 0)
    (hpresent : ∀ k < c.ptes, s.pmapPte p (v * c.ptes + k) = some p) (hnone : a p v = none)
    (prot : Protection) (wired atHand : Bool) :
    ∃ s' done, s.enterNew c p p (v * c.ptes) f prot wired atHand = (s', done) ∧
      ((done = true ∧ s'.Represents c (a.set p v (some ⟨f, prot.write, wired⟩)) r) ∨
        (done = false ∧ atHand = false ∧ s'.Represents c a r)) := by
  cases hmanaged : c.managed f with
  | false =>
    rw [Pmaps.enterNew, hmanaged]
    refine ⟨_, _, rfl, .inl ⟨rfl, ?_, ?_⟩⟩
    · exact (h.tables.enterEntries hown hf hpresent hnone prot wired).setPv ..
    · exact h.listed.insert hnone (fun hm => nomatch hmanaged.symm.trans hm) fun _ _ => rfl
  | true =>
    rw [Pmaps.enterNew, hmanaged, if_pos rfl]
    cases hpv : s.pvEnter p (v * c.ptes) f atHand with
    | none => exact ⟨s, false, rfl, .inr ⟨rfl, pvEnter_none hpv, h⟩⟩
    | some =>
      obtain ⟨l, free, rfl, hperm⟩ := pvEnter_some hpv
      refine ⟨_, true, rfl, .inl ⟨rfl, ?_, ?_⟩⟩
      · exact (h.tables.setPv _ free).enterEntries hown hf hpresent hnone prot wired
      · refine h.listed.insert hnone (fun _ => ?_) fun f' hne => update_of_ne hne ..
        exact (congrArg toList (update_self f l s.pv)).symm ▸ hperm

theorem Represents.removeOld (h : s.Represents c a r) (hv : c.Usable p v) :
    ∃ s', s.removeOld c p p (v * c.ptes) = .ok s' ∧ s'.Represents c (a.set p v none) r ∧
      s'.dir = s.dir := by
  obtain ⟨s', hs', h'⟩ := h.removePage hv
  refine ⟨s', ?_, h'⟩
  by_cases hzero : (s.pte p (v * c.ptes)).frame = 0
  · rw [Pmaps.removePage, if_pos hzero] at hs'
    rw [Pmaps.removeOld, if_pos hzero]
    exact hs'
  · rw [Pmaps.removeOld, if_neg hzero, Pmaps.removeRange, hs']
    rfl

theorem Represents.tryEnter (h : s.Represents c a r) (hown : c.Own p v) (hf : f ≠ 0)
    (hkernel : KernelPage c p v) (prot : Protection) (wired atHand : Bool) :
    ∃ s' done, s.tryEnter c p (v * c.ptes) f prot wired atHand = .ok (s', done) ∧
      ((done = true ∧ s'.Represents c (a.set p v (some ⟨f, prot.write, wired⟩)) r) ∨
        (done = false ∧ atHand = false ∧ s'.Represents c (a.set p v none) r)) := by
  obtain ⟨s₀, hs₀, h₀, hpresent⟩ := h.expandTo hown hkernel
  have hfirst : s₀.pmapPte p (v * c.ptes) = some p := hpresent 0 c.ptes_pos
  by_cases hsame : (s₀.pte p (v * c.ptes)).frame = f * c.ptes
  · -- the page is mapped here already
    obtain ⟨m, hm, rfl⟩ : ∃ m, a p v = some m ∧ m.page = f := by
      rw [(h₀.tables.first hown.usable).1] at hsame
      cases hm : a p v with
      | none =>
        rw [hm] at hsame
        exact absurd hsame.symm (Nat.mul_ne_zero hf c.ptes_pos.ne')
      | some m =>
        rw [hm] at hsame
        exact ⟨m, rfl, Nat.mul_right_cancel c.ptes_pos hsame⟩
    have h₁ := h₀.reenter hm prot wired
    have hrun : s.tryEnter c p (v * c.ptes) m.page prot wired atHand =
        .ok ({ s₀.reenter c p p (v * c.ptes) m.page prot wired with
          pvFree := (s₀.reenter c p p (v * c.ptes) m.page prot wired).pvFree + atHand.toNat },
          true) := by
      simp only [tryEnter, hs₀, bind, Except.bind, hfirst, if_pos hsame]
    exact ⟨_, true, hrun, .inl ⟨rfl, h₁.tables.setPv .., h₁.listed.congr rfl⟩⟩
  · obtain ⟨s₁, hs₁, h₁, hdir₁⟩ := h₀.removeOld hown.usable
    obtain ⟨s₂, done, hs₂, h₂⟩ := h₁.enterNew hown hf
      (fun k hk => by rw [pmapPte, hdir₁]; exact hpresent k hk) (a.set_self) prot wired atHand
    rw [set_set] at h₂
    refine ⟨s₂, done, ?_, h₂⟩
    simp only [Pmaps.tryEnter, hs₀, bind, Except.bind, hfirst, if_neg hsame, hs₁, hs₂]

theorem Represents.pmapEnter (h : s.Represents c a r) (hown : c.Own p v) (hf : f ≠ 0)
    (hkernel : KernelPage c p v) (prot : Protection) (wired : Bool) :
    ∃ s', s.pmapEnter c p v f prot wired = .ok s' ∧
      s'.Represents c (a.enter p v f prot wired) r := by
  by_cases hgone : p = 0 ∧ prot.write = false ∧ wired = false
  · rw [Pmaps.pmapEnter, if_pos hgone, enter, if_pos hgone]
    cases hpte : s.pmapPte p (v * c.ptes) with
    | none =>
      have hnone : a p v = none := by
        cases hm : a p v with
        | none => rfl
        | some m => exact nomatch hpte.symm.trans (h.tables.present p v m hm 0 c.ptes_pos)
      exact ⟨s, rfl, by rwa [a.set_eq_self hnone]⟩
    | some o =>
      obtain rfl := h.tables.pmapPte_eq (fun hp => absurd hgone.1 hp) hpte
      obtain ⟨s', hs', h', -⟩ := h.removeOld hown.usable
      exact ⟨s', hs', h'⟩
  · rw [Pmaps.pmapEnter, if_neg hgone, enter, if_neg hgone]
    obtain ⟨s₁, done, hs₁, ⟨rfl, h₁⟩ | ⟨rfl, -, h₁⟩⟩ := h.tryEnter hown hf hkernel prot wired false
    · exact ⟨s₁, by rw [hs₁]; rfl, h₁⟩
    obtain ⟨s₂, done, hs₂, ⟨rfl, h₂⟩ | ⟨rfl, hfalse, -⟩⟩ :=
      h₁.tryEnter hown hf hkernel prot wired true
    · rw [set_set] at h₂
      refine ⟨s₂, ?_, h₂⟩
      simp [hs₁, bind, Except.bind, hs₂]
    · exact nomatch hfalse

/-! ## Wiring -/

theorem EntriesOf.rewire (h : s.EntriesOf c p v m) (hfirst : (s'.pte p (v * c.ptes)).wired = wired)
    (hpte : ∀ k < c.ptes, ∃ b, s'.pte p (v * c.ptes + k) =
      { s.pte p (v * c.ptes + k) with wired := b }) :
    s'.EntriesOf c p v { m with wired := wired } := by
  refine entriesOf_iff.mpr ⟨hfirst, fun k hk => ?_⟩
  obtain ⟨b, hb⟩ := hpte k hk
  rw [hb]
  exact ⟨h.frame k hk, h.valid k hk, h.write k hk⟩

theorem modifiedAt_rewire (hm : a p v = some m) (hmod : ∀ q x, (s'.pte q x).mod = (s.pte q x).mod) :
    s'.ModifiedAt c p v (some { m with wired := wired }) f ↔ s.ModifiedAt c p v (a p v) f := by
  simp [ModifiedAt, hm, anyModified_eq hmod]

/-- The first entries of a VM page are wired, or no longer so, and the count with them. -/
theorem Represents.rewire (h : s.Represents c a r) (hm : a p v = some m) (hk : k < c.ptes)
    (hwired : m.wired = !wired) : ((s.count p 0 (if wired then 1 else -1)).setEntries p (v * c.ptes)
      (k + 1) fun _ e => { e with wired := wired }).Represents c
        (a.set p v (some { m with wired := wired })) r := by
  have hfirst : ∀ {x}, x < k + 1 → ((s.count p 0 (if wired then 1 else -1)).setEntries p
      (v * c.ptes) (k + 1) fun _ e => { e with wired := wired }).pte p (v * c.ptes + x) =
        { s.pte p (v * c.ptes + x) with wired := wired } := setEntries_pte
  refine ⟨?_, h.listed.change hm rfl rfl⟩
  refine h.tables.set (h.tables.own p v m hm) rfl
    (fun q g hnot => setEntries_pte_of_not fun hin => hnot ⟨hin.1, by omega⟩) (fun hx => nomatch hx)
    ?_ rfl ?_ rfl ?_ ?_
  · rintro _ ⟨⟩
    refine ⟨h.tables.page_ne p v m hm, h.tables.present p v m hm, ?_⟩
    refine (h.tables.mapped p v m hm).rewire (congrArg Pte.wired (hfirst k.succ_pos)) fun x _ => ?_
    by_cases hx : x < k + 1
    · exact ⟨wired, hfirst hx⟩
    · exact ⟨(s.pte p (v * c.ptes + x)).wired, setEntries_pte_of_not fun hin => hx (by omega)⟩
  · simp [hm]
  · cases wired <;> simp [hm, hwired]
  · exact fun f _ => or_congr_right (modifiedAt_rewire hm fun q x => setEntries_mod fun _ _ => rfl)

theorem Represents.pmapChangeWiring (h : s.Represents c a r) (hm : a p v = some m) (wired : Bool) :
    ∃ s', s.pmapChangeWiring c p v wired = .ok s' ∧
      s'.Represents c (a.changeWiring p v wired) r := by
  have hfirst : s.pmapPte p (v * c.ptes) = some p := h.tables.present p v m hm 0 c.ptes_pos
  rw [changeWiring, hm, Option.map_some, Pmaps.pmapChangeWiring, hfirst]
  simp only [(h.tables.mapped p v m hm).wired]
  rcases Bool.eq_or_eq_not m.wired wired with hmw | hmw
  · refine ⟨s, by cases wired <;> simp [hmw], ?_⟩
    rwa [a.set_eq_self]
    rw [hm, ← hmw]
  cases wired with
  | true =>
    obtain ⟨k, hk⟩ := Nat.exists_eq_succ_of_ne_zero c.ptes_pos.ne'
    exact ⟨_, by simp [hmw, hk], h.rewire hm (hk ▸ k.lt_succ_self) hmw⟩
  | false => exact ⟨_, by simp [hmw], h.rewire hm c.ptes_pos hmw⟩

/-! ## Collecting tables -/

theorem div_nptes : (g * nptes ≤ w ∧ w < g * nptes + nptes) ↔ w / nptes = g := by
  rw [nptes]
  omega

theorem Represents.collectLoop (h : s.Represents c a r) (hp : p ≠ 0)
    (hbound : ∀ i < k, (g + i) * c.ptes < kernelDir) :
    ∃ s' freed, Pmaps.collectLoop c p k g s = .ok (s', freed) ∧ (∀ x ∈ freed, g ≤ x) ∧
      s'.Represents c (a.drop p fun w => w / nptes ∈ freed) r ∧
      ∀ v m, a p v = some m → v / nptes ∈ freed → m.wired = false := by
  induction k generalizing g s a with
  | zero => exact ⟨s, [], rfl, by simp, h.drop_none nofun, by simp⟩
  | succ k ih =>
    have hnext : ∀ i < k, (g + 1 + i) * c.ptes < kernelDir := by
      intro i hi
      have hb := hbound (i + 1) (by omega)
      rwa [add_assoc, add_comm 1 i]
    by_cases hskip : collectLoop c p (k + 1) g s = collectLoop c p k (g + 1) s
    · rw [hskip]
      obtain ⟨s', freed, hs', hge, h', hw⟩ := ih h hnext
      exact ⟨s', freed, hs', fun x hx => (Nat.le_succ g).trans (hge x hx), h', hw⟩
    cases hdir : s.dir p (g * c.ptes) with
    | none => exact absurd (by rw [collectLoop, hdir]) hskip
    | some o =>
      have hslot : g * c.ptes < kernelDir := hbound 0 (Nat.zero_lt_succ k)
      obtain rfl : o = p := by
        rcases h.tables.dirs p _ hp hslot with hnone | hsome
        · exact nomatch hnone.symm.trans hdir
        · exact Option.some.inj (hdir.symm.trans hsome)
      cases hany : (List.range (nptes * c.ptes)).any fun i =>
          (s.pte o (g * c.ptes * nptes + i)).wired with
      | true => exact absurd (by simp only [collectLoop, hdir, hany, if_true]) hskip
      | false =>
        obtain ⟨s₁, hs₁, h₁⟩ := h.removeRange (k := nptes) (v := g * nptes)
          fun w _ _ => PmapConfig.usable_of_ne hp w
        rw [mul_right_comm] at hs₁
        have h₂ : (s₁.setDir o (g * c.ptes) c.ptes none).Represents c
            (a.drop o fun w => g * nptes ≤ w ∧ w < g * nptes + nptes) r :=
          ⟨h₁.tables.setDir hp (fun w hw => a.drop_of_pos (div_nptes.mpr hw)) (.inl rfl),
            h₁.listed.congr rfl⟩
        obtain ⟨s₃, freed, hs₃, hge, h₃, hw₃⟩ := ih h₂ hnext
        refine ⟨s₃, g :: freed, ?_, ?_, ?_, ?_⟩
        · simp [collectLoop, hdir, hany, hs₁, bind, Except.bind, hs₃]
        · intro x hx
          rcases mem_cons.mp hx with rfl | hx
          · exact le_rfl
          · exact (Nat.le_succ g).trans (hge x hx)
        · rw [a.drop_drop] at h₃
          exact h₃.drop_congr fun w _ => by rw [div_nptes, mem_cons]
        · intro v m hm hv
          by_cases hg : v / nptes = g
          · have hin := (c.mem_group_entries c.ptes_pos).mpr hg
            obtain ⟨i, hi⟩ := Nat.exists_eq_add_of_le hin.1
            have hunwired := List.any_eq_false.mp hany i (mem_range.mpr (by
              rw [mul_comm nptes]
              omega))
            rw [← hi, add_zero, (h.tables.mapped o v m hm).wired] at hunwired
            exact Bool.eq_false_of_not_eq_true hunwired
          · refine hw₃ v m ?_ ((mem_cons.mp hv).resolve_left hg)
            rw [a.drop_of_not fun hin => hg (div_nptes.mp hin.2), hm]

theorem Represents.pmapCollect (h : s.Represents c a r) (p : Nat) :
    ∃ s' freed, s.pmapCollect c p = .ok (s', freed) ∧
      s'.Represents c (a.drop p fun w => w / nptes ∈ freed) r ∧
      ∀ v m, a p v = some m → v / nptes ∈ freed → m.wired = false := by
  rcases eq_or_ne p 0 with rfl | hp
  · exact ⟨s, [], rfl, h.drop_none nofun, by simp⟩
  · obtain ⟨s', freed, hs', -, h'⟩ := h.collectLoop hp (k := (kernelDir + c.ptes - 1) / c.ptes)
      fun i hi => by rw [zero_add]; exact (lt_ceil c.ptes_pos _).mp hi
    exact ⟨s', freed, by rw [Pmaps.pmapCollect, if_neg hp, hs'], h'⟩

/-! ## Looking at entries -/

theorem Tables.entry (h : s.Tables c a r) (hg : c.Usable p (g / c.ptes)) :
    match a p (g / c.ptes) with
    | none => s.pte p g = Pte.zero
    | some m => (s.pte p g).frame = m.page * c.ptes + g % c.ptes ∧ (s.pte p g).valid = true ∧
        (s.pte p g).write = m.write := by
  have hmod := mod_lt g c.ptes_pos
  have heq : g / c.ptes * c.ptes + g % c.ptes = g := Nat.div_add_mod' g c.ptes
  cases hm : a p (g / c.ptes) with
  | none =>
    have hzero := h.unmapped p _ hm hg _ hmod
    rwa [heq] at hzero
  | some m =>
    have hold := h.mapped p _ m hm
    have hframe := hold.frame _ hmod
    have hvalid := hold.valid _ hmod
    have hwrite := hold.write _ hmod
    rw [heq] at hframe hvalid hwrite
    exact ⟨hframe, hvalid, hwrite⟩

theorem Tables.pmapPte_of_mapped (h : s.Tables c a r)
    (hm : a p (g / c.ptes) = some m) : s.pmapPte p g = some p := by
  have hpresent := h.present p _ m hm _ (mod_lt g c.ptes_pos)
  rwa [Nat.div_add_mod' g c.ptes] at hpresent

theorem Tables.pmapExtract (h : s.Tables c a r) (hg : p ≠ 0 → g < kernelDir * nptes)
    (hpage : c.Usable p (g / c.ptes)) :
    s.pmapExtract p g = a.frame c p g := by
  have hentry := h.entry hpage
  cases hm : a p (g / c.ptes) with
  | some =>
    rw [hm] at hentry
    rw [Pmaps.pmapExtract, h.pmapPte_of_mapped hm, frame, hm]
    simp only [hentry.2.1]
    exact hentry.1
  | none =>
    rw [hm] at hentry
    rw [Pmaps.pmapExtract, frame, hm]
    cases hpte : s.pmapPte p g with
    | none => rfl
    | some o =>
      obtain rfl := h.pmapPte_eq hg hpte
      simp only [show s.pte o g = .zero from hentry]
      rfl

/-! ## Modify bits -/

theorem clearModified_ok (hxs : ∀ x ∈ xs, s.pmapPte x.1 x.2 = some x.1) :
    ∃ pte, clearModified xs s = .ok { s with pte := pte } ∧
      ∀ q x, pte q x = if (q, x) ∈ xs then { s.pte q x with mod := false } else s.pte q x := by
  induction xs generalizing s with
  | nil => exact ⟨s.pte, rfl, fun q x => rfl⟩
  | cons y xs ih =>
    obtain ⟨o, g⟩ := y
    have hpte : s.pmapPte o g = some o := hxs (o, g) (List.mem_cons_self ..)
    have hset : ∀ q x, (s.setEntries o g 1 fun _ e => { e with mod := false }).pte q x =
        if (q, x) = (o, g) then { s.pte q x with mod := false } else s.pte q x := by
      intro q x
      refine if_congr ?_ rfl rfl
      rw [Prod.mk.injEq]
      omega
    obtain ⟨pte, hs', hpte'⟩ := ih (s := s.setEntries o g 1 fun _ e => { e with mod := false })
      fun x hx => hxs x (List.mem_cons_of_mem _ hx)
    refine ⟨pte, ?_, fun q x => ?_⟩
    · rw [clearModified, hpte]
      exact hs'
    · rw [hpte', hset]
      by_cases hhead : (q, x) = (o, g)
      · simp [hhead, ite_self]
      · simp [hhead]

theorem testModified_ok (hxs : ∀ x ∈ xs, s.pmapPte x.1 x.2 = some x.1) :
    s.testModified xs = .ok (xs.any fun x => (s.pte x.1 x.2).mod) := by
  induction xs with
  | nil => rfl
  | cons y xs ih =>
    have hy := hxs y (List.mem_cons_self ..)
    have hrest := ih fun x hx => hxs x (List.mem_cons_of_mem _ hx)
    cases hmod : (s.pte y.1 y.2).mod with
    | true => simp [testModified, hy, hmod, List.any_cons, Bool.true_or]
    | false =>
      simp [testModified, hy, hmod, hrest, List.any_cons]

theorem Represents.present (h : s.Represents c a r) (hf : c.managed f = true) :
    ∀ x ∈ (s.pv f).toList, s.pmapPte x.1 x.2 = some x.1 := by
  rintro ⟨q, g⟩ hx
  obtain ⟨w, rfl, m, hm, -⟩ := ((h.listed f hf).2 q g).mp hx
  exact h.tables.present q w m hm 0 c.ptes_pos

theorem anyModified_one (hshift : c.shift = 0) (q g : Nat) :
    s.anyModified q g c.ptes = (s.pte q g).mod := by
  rw [PmapConfig.ptes, hshift]
  exact Bool.or_false _

theorem recorded_one (hshift : c.shift = 0) : s.Recorded c a f ↔
    s.modified f = true ∨ ∃ q x, a.At c f q x ∧ (s.pte q x).mod = true := by
  refine or_congr_right ⟨?_, ?_⟩
  · rintro ⟨q, w, m, hm, hpage, hmod⟩
    exact ⟨q, w * c.ptes, ⟨w, rfl, m, hm, hpage⟩, (anyModified_one hshift ..).symm.trans hmod⟩
  · rintro ⟨q, x, ⟨w, rfl, m, hm, hpage⟩, hmod⟩
    exact ⟨q, w, m, hm, hpage, (anyModified_one hshift ..).trans hmod⟩

/-- `pmap_clear_modify`.  Some record stays, if a VM page has several entries. -/
theorem Represents.pmapClearModify (h : s.Represents c a r) (f : Nat) :
    ∃ s' r', s.pmapClearModify c f = .ok s' ∧ s'.Represents c a r' ∧
      (c.shift = 0 → ∀ f', c.managed f' = true → r' f' = update r f false f') := by
  cases hf : c.managed f with
  | false =>
    refine ⟨s, r, by simp [Pmaps.pmapClearModify, hf], h, fun _ f' hf' => ?_⟩
    rw [update_of_ne]
    rintro rfl
    exact nomatch hf.symm.trans hf'
  | true =>
    obtain ⟨pte, hs₁, hpte⟩ := clearModified_ok (h.present hf)
    have hmem := (h.listed f hf).2
    let s' : Pmaps := { s with pte := pte, modified := update s.modified f false }
    classical
    refine ⟨s', fun f' => decide (s'.Recorded c a f'), ?_, ⟨?_, h.listed.congr rfl⟩, ?_⟩
    · rw [Pmaps.pmapClearModify, if_pos hf, hs₁]
      rfl
    · refine h.tables.modifyBits (fun q x => ?_) (fun q x hzero => ?_)
        fun f' _ => decide_eq_true_iff
      · rw [hpte]
        split
        · exact ⟨false, rfl⟩
        · exact ⟨_, rfl⟩
      · rw [hpte, hzero]
        exact ite_self _
    · intro hshift f' hf'
      rcases eq_or_ne f' f with rfl | hne
      · rw [update_self, decide_eq_false_iff_not, recorded_one hshift]
        rintro (hmod | ⟨q, x, hat, hmod⟩)
        · exact Bool.false_ne_true ((update_self f' false s.modified).symm.trans hmod)
        · rw [show s'.pte q x = _ from hpte q x, if_pos ((hmem q x).mpr hat)] at hmod
          exact Bool.false_ne_true hmod
      rw [update_of_ne hne]
      refine Bool.eq_iff_iff.mpr ?_
      rw [decide_eq_true_iff, h.tables.recorded f' hf', recorded_one hshift, recorded_one hshift]
      rw [show s'.modified f' = s.modified f' from update_of_ne hne ..]
      refine or_congr_right (exists_congr fun q => exists_congr fun x => and_congr_right
        fun hat => ?_)
      rw [show s'.pte q x = _ from hpte q x, if_neg fun hx => hne (hat.unique ((hmem q x).mp hx))]

theorem Represents.pmapIsModified_eq (h : s.Represents c a r) (hf : c.managed f = true) :
    s.pmapIsModified c f =
      .ok (s.modified f || (s.pv f).toList.any fun x => (s.pte x.1 x.2).mod) := by
  rw [pmapIsModified, if_pos hf, testModified_ok (h.present hf)]
  cases s.modified f with
  | false | true => rfl

theorem Represents.pmapIsModified (h : s.Represents c a r) (f : Nat) :
    ∃ b, s.pmapIsModified c f = .ok b ∧ (c.shift = 0 → c.managed f = true → b = r f) := by
  cases hf : c.managed f with
  | false => exact ⟨false, by simp [Pmaps.pmapIsModified, hf], nofun⟩
  | true =>
    refine ⟨_, h.pmapIsModified_eq hf, fun hshift _ => Bool.eq_iff_iff.mpr ?_⟩
    rw [h.tables.recorded f hf, recorded_one hshift, Bool.or_eq_true, any_eq_true]
    refine or_congr_right ⟨?_, ?_⟩
    · rintro ⟨⟨q, x⟩, hx, hmod⟩
      exact ⟨q, x, ((h.listed f hf).2 q x).mp hx, hmod⟩
    · rintro ⟨q, x, hat, hmod⟩
      exact ⟨(q, x), ((h.listed f hf).2 q x).mpr hat, hmod⟩

theorem hardwareWrite_modified (p g : Nat) : (s.hardwareWrite p g).modified = s.modified := by
  rw [hardwareWrite]
  split
  · rfl
  · split
    · rfl
    · rfl

theorem hardwareWrite_pte (hne : x ≠ g) : (s.hardwareWrite p g).pte q x = s.pte q x := by
  rw [hardwareWrite]
  split
  · rfl
  · split
    · exact setEntries_pte_of_not fun hin => hne (by omega)
    · rfl

theorem Represents.hardwareWrite (h : s.Represents c a r) (hg : p ≠ 0 → g < kernelDir * nptes)
    (husable : c.Usable p (g / c.ptes)) :
    (s.hardwareWrite p g).Represents c a (a.noteWrite c r p g) := by
  have hentry := h.tables.entry husable
  cases hm : a p (g / c.ptes) with
  | none =>
    rw [hm] at hentry
    have hsame : s.hardwareWrite p g = s := by
      rw [Pmaps.hardwareWrite]
      cases hpte : s.pmapPte p g with
      | none => rfl
      | some o =>
        obtain rfl := h.tables.pmapPte_eq hg hpte
        refine if_neg fun hvalid => ?_
        rw [show s.pte o g = .zero from hentry] at hvalid
        exact Bool.false_ne_true hvalid.1
    rw [hsame, noteWrite, hm]
    exact h
  | some m =>
    rw [hm] at hentry
    obtain ⟨-, hvalid, hwrite⟩ := hentry
    rw [Pmaps.hardwareWrite, h.tables.pmapPte_of_mapped hm, noteWrite, hm]
    simp only [hvalid, hwrite, true_and]
    cases m.write with
    | false => exact h
    | true =>
      simp only [if_true]
      have hset : ∀ q x, ¬ (q = p ∧ x = g) →
          (s.setEntries p g 1 fun _ e => { e with mod := true }).pte q x = s.pte q x :=
        fun q x hne => setEntries_pte_of_not fun hin => hne ⟨hin.1, by omega⟩
      have hself : (s.setEntries p g 1 fun _ e => { e with mod := true }).pte p g =
          { s.pte p g with mod := true } := setEntries_pte zero_lt_one
      refine ⟨h.tables.modifyBits (fun q x => ?_) (fun q x hzero => ?_) fun f hf => ?_,
        h.listed.congr rfl⟩
      · by_cases hqx : q = p ∧ x = g
        · obtain ⟨rfl, rfl⟩ := hqx
          exact ⟨true, hself⟩
        · exact ⟨(s.pte q x).mod, hset q x hqx⟩
      · by_cases hqx : q = p ∧ x = g
        · obtain ⟨rfl, rfl⟩ := hqx
          rw [hzero] at hvalid
          exact absurd hvalid Bool.false_ne_true
        · exact (hset q x hqx).trans hzero
      · rcases eq_or_ne f m.page with rfl | hne
        · refine iff_of_true (update_self ..) (.inr ⟨p, g / c.ptes, m, hm, rfl, ?_⟩)
          refine any_eq_true.mpr ⟨g % c.ptes, mem_range.mpr (mod_lt g c.ptes_pos), ?_⟩
          rw [Nat.div_add_mod' g c.ptes]
          exact congrArg Pte.mod hself
        rw [update_of_ne hne, h.tables.recorded f hf]
        refine or_congr_right (exists_congr fun q => exists_congr fun w => ?_)
        refine exists_congr fun m' => and_congr_right fun hm' => and_congr_right fun hpage => ?_
        rw [anyModified_congr]
        intro k hk
        refine (hset q _ fun hin => ?_).symm
        obtain ⟨rfl, rfl⟩ := hin
        have hw : (w * c.ptes + k) / c.ptes = w := by
          rw [mul_comm, Nat.mul_add_div c.ptes_pos, Nat.div_eq_of_lt hk, add_zero]
        rw [hw, hm'] at hm
        exact hne (hpage.symm.trans (congrArg Mapping.page (Option.some.inj hm)))

end Pmaps

end Mach
