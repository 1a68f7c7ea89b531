import Mach.Intel.PmapSpec

/-!
# Page tables and mappings

What it is for a state of the pmap system to be one of given mappings (`Pmaps.Represents`): the page
tables and the counts (`Pmaps.Tables`), the `pv` lists (`Pmaps.Listed`), and the modify bits, of
which only some record counts, wherever it is (`Pmaps.Recorded`).  The lemmas are about states that
differ in the entries of one VM page, and about changes that neither make nor remove mappings.
-/

namespace Mach

open Function Mappings

namespace Pmaps

/-! ## Page tables -/

/-- The entries of a mapped VM page.  Only the first has to be wired, and the modify bits are
anything. -/
structure EntriesOf (c : PmapConfig) (s : Pmaps) (p v : Nat) (m : Mapping) : Prop where
  wired : (s.pte p (v * c.ptes)).wired = m.wired
  frame : ∀ k < c.ptes, (s.pte p (v * c.ptes + k)).frame = m.page * c.ptes + k
  valid : ∀ k < c.ptes, (s.pte p (v * c.ptes + k)).valid = true
  write : ∀ k < c.ptes, (s.pte p (v * c.ptes + k)).write = m.write

/-- A mapping of the page at this place, with an entry that has its modify bit set. -/
def ModifiedAt (c : PmapConfig) (s : Pmaps) (p v : Nat) (x : Option Mapping) (f : Nat) : Prop :=
  ∃ m, x = some m ∧ m.page = f ∧ s.anyModified p (v * c.ptes) c.ptes = true

/-- A modification of the page is recorded somewhere. -/
def Recorded (c : PmapConfig) (s : Pmaps) (a : Mappings) (f : Nat) : Prop :=
  s.modified f = true ∨ ∃ p v, s.ModifiedAt c p v (a p v) f

/-- The page tables and the counts are those of the mappings.  The modify bits have a record of the
pages that `r` names. -/
structure Tables (c : PmapConfig) (s : Pmaps) (a : Mappings) (r : Nat → Bool) : Prop where
  page_ne : ∀ p v m, a p v = some m → m.page ≠ 0
  own : ∀ p v m, a p v = some m → c.Own p v
  present : ∀ p v m, a p v = some m → ∀ k < c.ptes, s.pmapPte p (v * c.ptes + k) = some p
  mapped : ∀ p v m, a p v = some m → s.EntriesOf c p v m
  unmapped : ∀ p v, a p v = none → c.Usable p v →
    ∀ k < c.ptes, s.pte p (v * c.ptes + k) = Pte.zero
  /-- Only the kernel's part of a page directory is shared. -/
  dirs : ∀ p d, p ≠ 0 → d < kernelDir → s.dir p d = none ∨ s.dir p d = some p
  /-- The tables of a map come and go in groups. -/
  group : ∀ p d d', p ≠ 0 → d < kernelDir → d / c.ptes = d' / c.ptes → s.dir p d = some p →
    s.dir p d' = some p
  kernel : ∀ d, s.dir 0 d = if c.kernelTable d then some 0 else none
  resident : ∀ p, s.resident p = c.residentAtStart p + a.num (fun _ => true) p
  wired : ∀ p, s.wired p = c.wiredAtStart p + a.num Mapping.wired p
  recorded : ∀ f, c.managed f = true → (r f = true ↔ s.Recorded c a f)

/-- The lists of the managed pages are those of the mappings. -/
def Listed (c : PmapConfig) (s : Pmaps) (a : Mappings) : Prop :=
  ∀ f, c.managed f = true → (s.pv f).toList.Nodup ∧
    ∀ p h, (p, h) ∈ (s.pv f).toList ↔ a.At c f p h

/-- The state is one of the mappings. -/
structure Represents (c : PmapConfig) (s : Pmaps) (a : Mappings) (r : Nat → Bool) : Prop where
  tables : s.Tables c a r
  listed : s.Listed c a

variable {c : PmapConfig} {s s' : Pmaps} {a : Mappings} {r : Nat → Bool} {p v : Nat}

variable {m : Mapping} {o g h n q : Nat} {f : Nat → Pte → Pte} {r' : Nat → Bool} {m' : Mapping}

theorem entriesOf_iff : s.EntriesOf c p v m ↔ (s.pte p (v * c.ptes)).wired = m.wired ∧
    ∀ k < c.ptes, (s.pte p (v * c.ptes + k)).frame = m.page * c.ptes + k ∧
      (s.pte p (v * c.ptes + k)).valid = true ∧ (s.pte p (v * c.ptes + k)).write = m.write :=
  ⟨fun h => ⟨h.wired, fun k hk => ⟨h.frame k hk, h.valid k hk, h.write k hk⟩⟩, fun h =>
    ⟨h.1, fun k hk => (h.2 k hk).1, fun k hk => (h.2 k hk).2.1, fun k hk => (h.2 k hk).2.2⟩⟩

theorem EntriesOf.congr (h : s.EntriesOf c p v m)
    (hpte : ∀ k < c.ptes, s'.pte p (v * c.ptes + k) = s.pte p (v * c.ptes + k)) :
    s'.EntriesOf c p v m := by
  rw [entriesOf_iff] at h ⊢
  refine ⟨(congrArg Pte.wired (hpte 0 c.ptes_pos)).trans h.1, fun k hk => ?_⟩
  rw [hpte k hk]
  exact h.2 k hk

theorem EntriesOf.writeProtect (h : s.EntriesOf c p v m)
    (hpte : ∀ k < c.ptes, s'.pte p (v * c.ptes + k) =
      { s.pte p (v * c.ptes + k) with write := false }) :
    s'.EntriesOf c p v { m with write := false } := by
  have hfirst := congrArg Pte.wired (hpte 0 c.ptes_pos)
  refine entriesOf_iff.mpr ⟨hfirst.trans h.wired, fun k hk => ?_⟩
  rw [hpte k hk]
  exact ⟨h.frame k hk, h.valid k hk, rfl⟩

theorem Tables.setPv (h : s.Tables c a r) (pv : Nat → Headed PvEntry) (free : Nat) :
    Tables c { s with pv := pv, pvFree := free } a r :=
  { h with mapped := fun p v m hm => (h.mapped p v m hm).congr fun _ _ => rfl }

theorem Listed.congr (h : s.Listed c a) (hpv : s'.pv = s.pv) : s'.Listed c a := by
  rw [Listed, hpv]
  exact h

theorem Tables.pmapPte_eq (h : s.Tables c a r) (hg : p ≠ 0 → g < kernelDir * nptes)
    (ho : s.pmapPte p g = some o) : o = p := by
  rcases eq_or_ne p 0 with rfl | hp
  · rw [pmapPte, h.kernel] at ho
    exact (Option.some.inj (Option.ite_none_right_eq_some.mp ho).2).symm
  have hd : g / nptes < kernelDir := (Nat.div_lt_iff_lt_mul (by decide)).mpr (hg hp)
  rcases h.dirs p _ hp hd with hnone | hsome
  · rw [pmapPte, hnone] at ho
    exact nomatch ho
  · rw [pmapPte, hsome] at ho
    exact (Option.some.inj ho).symm

theorem Tables.first (h : s.Tables c a r) (hv : c.Usable p v) :
    ((s.pte p (v * c.ptes)).frame = match a p v with
      | none => 0
      | some m => m.page * c.ptes) ∧ (s.pte p (v * c.ptes)).wired = (a p v).any Mapping.wired := by
  cases hm : a p v with
  | none =>
    have hzero := h.unmapped p v hm hv 0 c.ptes_pos
    exact ⟨congrArg Pte.frame hzero, congrArg Pte.wired hzero⟩
  | some m => exact ⟨(h.mapped p v m hm).frame 0 c.ptes_pos, (h.mapped p v m hm).wired⟩

theorem setEntries_pte_of_not
    (hnot : ¬ (q = o ∧ h ≤ g ∧ g < h + n)) : (s.setEntries o h n f).pte q g = s.pte q g :=
  if_neg hnot

theorem setEntries_pte {k : Nat} (hk : k < n) :
    (s.setEntries o h n f).pte o (h + k) = f k (s.pte o (h + k)) := by
  have hin : o = o ∧ h ≤ h + k ∧ h + k < h + n :=
    ⟨rfl, Nat.le_add_right h k, Nat.add_lt_add_left hk h⟩
  refine (if_pos hin).trans ?_
  rw [Nat.add_sub_cancel_left]

theorem anyModified_congr (h : ∀ k < n, s'.pte q (g + k) = s.pte q (g + k)) :
    s'.anyModified q g n = s.anyModified q g n := by
  refine Bool.eq_iff_iff.mpr ?_
  simp only [anyModified, List.any_eq_true, List.mem_range]
  exact exists_congr fun k => and_congr_right fun hk => by rw [h k hk]

theorem anyModified_eq (h : ∀ q x, (s'.pte q x).mod = (s.pte q x).mod) :
    s'.anyModified q g n = s.anyModified q g n := by
  simp only [anyModified, h]

theorem setEntries_mod {x : Nat}
    (hf : ∀ k e, (f k e).mod = e.mod) : ((s.setEntries o h n f).pte q x).mod = (s.pte q x).mod := by
  simp only [setEntries]
  split
  · exact hf ..
  · rfl

theorem recorded_split (p v : Nat) {f : Nat} : s.Recorded c a f ↔
    s.modified f = true ∨ s.ModifiedAt c p v (a p v) f ∨
      ∃ q w, ¬ (q = p ∧ w = v) ∧ s.ModifiedAt c q w (a q w) f := by
  refine or_congr_right ⟨?_, ?_⟩
  · rintro ⟨q, w, hqw⟩
    by_cases hsame : q = p ∧ w = v
    · obtain ⟨rfl, rfl⟩ := hsame
      exact .inl hqw
    · exact .inr ⟨q, w, hsame, hqw⟩
  · rintro (hpv | ⟨q, w, -, hqw⟩)
    · exact ⟨p, v, hpv⟩
    · exact ⟨q, w, hqw⟩

theorem Tables.remap {a' : Mappings} (h : s.Tables c a r) (hdir : s'.dir = s.dir)
    (hsome : ∀ q w m, a' q w = some m → m.page ≠ 0 ∧ c.Own q w ∧
      (∀ k < c.ptes, s.pmapPte q (w * c.ptes + k) = some q) ∧ s'.EntriesOf c q w m)
    (hnone : ∀ q w, a' q w = none → c.Usable q w →
      ∀ k < c.ptes, s'.pte q (w * c.ptes + k) = Pte.zero)
    (hresident : ∀ q, s'.resident q = c.residentAtStart q + a'.num (fun _ => true) q)
    (hwired : ∀ q, s'.wired q = c.wiredAtStart q + a'.num Mapping.wired q)
    (hrecorded : ∀ f, c.managed f = true → (r' f = true ↔ s'.Recorded c a' f)) :
    s'.Tables c a' r' where
  page_ne q w m hm := (hsome q w m hm).1
  own q w m hm := (hsome q w m hm).2.1
  present q w m hm k hk := by
    rw [pmapPte, hdir]
    exact (hsome q w m hm).2.2.1 k hk
  mapped q w m hm := (hsome q w m hm).2.2.2
  unmapped := hnone
  dirs := hdir ▸ h.dirs
  group := hdir ▸ h.group
  kernel := hdir ▸ h.kernel
  resident := hresident
  wired := hwired
  recorded := hrecorded

theorem Tables.set (h : s.Tables c a r) {x : Option Mapping} (hown : c.Own p v)
    (hdir : s'.dir = s.dir)
    (hrest : ∀ q g, ¬ (q = p ∧ v * c.ptes ≤ g ∧ g < v * c.ptes + c.ptes) → s'.pte q g = s.pte q g)
    (hnone : x = none → ∀ k < c.ptes, s'.pte p (v * c.ptes + k) = Pte.zero)
    (hsome : ∀ m, x = some m → m.page ≠ 0 ∧
      (∀ k < c.ptes, s.pmapPte p (v * c.ptes + k) = some p) ∧ s'.EntriesOf c p v m)
    {resident wired : Int}
    (hresident : s'.resident = update s.resident p (s.resident p + resident))
    (hresident' : resident = x.isSome.toNat - (a p v).isSome.toNat)
    (hwired : s'.wired = update s.wired p (s.wired p + wired))
    (hwired' : wired = (x.any Mapping.wired).toNat - ((a p v).any Mapping.wired).toNat)
    (hmodified : ∀ f, c.managed f = true → (s'.modified f = true ∨ s'.ModifiedAt c p v x f ↔
      s.modified f = true ∨ s.ModifiedAt c p v (a p v) f)) :
    s'.Tables c (a.set p v x) r := by
  have hpte : ∀ q w, ¬ (q = p ∧ w = v) → ∀ k < c.ptes,
      s'.pte q (w * c.ptes + k) = s.pte q (w * c.ptes + k) := fun q w hne k hk =>
    hrest q _ fun hin => hne ⟨hin.1, (c.mem_page hk).mp hin.2⟩
  refine h.remap hdir (fun q w m hm => ?_) (fun q w hm hw k hk => ?_) ?_ ?_ ?_
  · rcases a.set_cases hm with ⟨rfl, rfl, hx⟩ | ⟨hqw, hm⟩
    · exact ⟨(hsome m hx).1, hown, (hsome m hx).2⟩
    · exact ⟨h.page_ne q w m hm, h.own q w m hm, h.present q w m hm,
        (h.mapped q w m hm).congr (hpte q w hqw)⟩
  · rcases a.set_cases hm with ⟨rfl, rfl, hx⟩ | ⟨hqw, hm⟩
    · exact hnone hx k hk
    · rw [hpte q w hqw k hk, h.unmapped q w hm hw k hk]
  · intro q
    rcases eq_or_ne q p with rfl | hq
    · have hnum := a.num_set (p := q) (x := x) (fun _ => true) hown.lt
      simp only [Option.any_true] at hnum
      rw [hresident, update_self, h.resident q, hresident']
      omega
    · rw [hresident, update_of_ne hq, h.resident q, num_congr]
      intro w
      rw [set_of_ne a fun hqw => hq hqw.1]
  · intro q
    rcases eq_or_ne q p with rfl | hq
    · have hnum := a.num_set (p := q) (x := x) Mapping.wired hown.lt
      rw [hwired, update_self, h.wired q, hwired']
      omega
    · rw [hwired, update_of_ne hq, h.wired q, num_congr]
      intro w
      rw [set_of_ne a fun hqw => hq hqw.1]
  · intro f hf
    rw [h.recorded f hf, recorded_split p v, recorded_split p v, set_self, ← or_assoc,
      ← or_assoc, hmodified f hf]
    refine or_congr_right (exists_congr fun q => exists_congr fun w => and_congr_right
      fun hqw => ?_)
    rw [set_of_ne a hqw, ModifiedAt, ModifiedAt, anyModified_congr (hpte q w hqw)]

theorem Tables.replace (h : s.Tables c a r) (hm : a p v = some m)
    (hpage : m'.page = m.page) (hwire : m'.wired = m.wired) (hdir : s'.dir = s.dir)
    (hrest : ∀ q g, ¬ (q = p ∧ v * c.ptes ≤ g ∧ g < v * c.ptes + c.ptes) → s'.pte q g = s.pte q g)
    (hentries : s'.EntriesOf c p v m') (hresident : s'.resident = s.resident)
    (hwired : s'.wired = s.wired) (hmodified : s'.modified = s.modified)
    (hany : s'.anyModified p (v * c.ptes) c.ptes = s.anyModified p (v * c.ptes) c.ptes) :
    s'.Tables c (a.set p v (some m')) r := by
  have hsame : ∀ counts : Nat → Int, counts = update counts p (counts p + 0) := by
    intro counts
    rw [add_zero, update_eq_self]
  refine h.set (h.own p v m hm) hdir hrest (fun hx => nomatch hx) ?_
    (hresident.trans (hsame _)) ?_ (hwired.trans (hsame _)) ?_ ?_
  · rintro _ ⟨⟩
    exact ⟨hpage ▸ h.page_ne p v m hm, h.present p v m hm, hentries⟩
  · simp [hm]
  · simp [hm, hwire]
  · simp [ModifiedAt, hm, hpage, hmodified, hany]

theorem Tables.erase (h : s.Tables c a r) (hm : a p v = some m) (hdir : s'.dir = s.dir)
    (hpte : s'.pte = (s.setEntries p (v * c.ptes) c.ptes fun _ _ => Pte.zero).pte)
    (hresident : s'.resident = update s.resident p (s.resident p + -1))
    (hwired : s'.wired =
      update s.wired p (s.wired p + if (s.pte p (v * c.ptes)).wired then -1 else 0))
    (hmodified : ∀ f, c.managed f = true → (s'.modified f = true ↔
      s.modified f = true ∨ m.page = f ∧ s.anyModified p (v * c.ptes) c.ptes = true)) :
    s'.Tables c (a.set p v none) r := by
  refine h.set (h.own p v m hm) hdir ?_ ?_ ?_ hresident ?_ hwired ?_ ?_
  · intro q g hnot
    rw [hpte, setEntries_pte_of_not hnot]
  · intro _ k hk
    rw [hpte, setEntries_pte hk]
  · exact nofun
  · rw [hm]
    rfl
  · rw [(h.first (h.own p v m hm).usable).2, hm]
    obtain ⟨page, write, wired⟩ := m
    cases wired with
    | false | true => rfl
  · intro f hf
    simp [ModifiedAt, hm, hmodified f hf]

theorem Tables.setDir (h : s.Tables c a r) {x : Option Nat} (hp : p ≠ 0)
    (hempty : ∀ w, w / nptes = g → a p w = none) (hx : x = none ∨ x = some p) :
    (s.setDir p (g * c.ptes) c.ptes x).Tables c a r := by
  have hin : ∀ {q d}, q = p → d / c.ptes = g → (s.setDir p (g * c.ptes) c.ptes x).dir q d = x :=
    fun hq hd => if_pos ⟨hq, c.mem_group.mpr hd⟩
  have hout : ∀ {q d}, ¬ (q = p ∧ d / c.ptes = g) →
      (s.setDir p (g * c.ptes) c.ptes x).dir q d = s.dir q d :=
    fun hnot => if_neg fun hd => hnot ⟨hd.1, c.mem_group.mp hd.2⟩
  refine
    { page_ne := h.page_ne, own := h.own, present := ?_,
      mapped := fun q w m hm => (h.mapped q w m hm).congr fun _ _ => rfl, unmapped := h.unmapped,
      dirs := ?_, group := ?_, kernel := ?_, resident := h.resident, wired := h.wired,
      recorded := h.recorded }
  · intro q w m hm k hk
    refine (hout ?_).trans (h.present q w m hm k hk)
    rintro ⟨rfl, hw⟩
    rw [hempty w ((c.slot_div hk).symm.trans hw)] at hm
    cases hm
  · intro q d hq hd
    by_cases hd' : q = p ∧ d / c.ptes = g
    · rw [hin hd'.1 hd'.2, hd'.1]
      exact hx
    · rw [hout hd']
      exact h.dirs q d hq hd
  · intro q d d' hq hd heq hsome
    by_cases hd' : q = p ∧ d / c.ptes = g
    · rw [hin hd'.1 hd'.2] at hsome
      rw [hin hd'.1 (heq.symm.trans hd'.2), hsome]
    · rw [hout hd'] at hsome
      rw [hout (heq ▸ hd')]
      exact h.group q d d' hq hd heq hsome
  · intro d
    rw [hout fun hd => hp hd.1.symm]
    exact h.kernel d

theorem Tables.zeroEntries (h : s.Tables c a r) (hp : p ≠ 0) {e : Nat}
    (hempty : ∀ w, ∀ k < c.ptes, e ≤ w * c.ptes + k → w * c.ptes + k < e + n → a p w = none) :
    (s.setEntries p e n fun _ _ => Pte.zero).Tables c a r := by
  have hpte : ∀ q w, ∀ k < c.ptes, (s.setEntries p e n fun _ _ => .zero).pte q (w * c.ptes + k) =
      s.pte q (w * c.ptes + k) := by
    intro q w k hk
    refine ite_eq_right_iff.mpr ?_
    rintro ⟨rfl, hle, hlt⟩
    rw [h.unmapped q w (hempty w k hk hle hlt) (PmapConfig.usable_of_ne hp w) k hk]
  refine h.remap rfl (fun q w m hm => ⟨h.page_ne q w m hm, h.own q w m hm, h.present q w m hm,
    (h.mapped q w m hm).congr (hpte q w)⟩) (fun q w hm hw k hk => ?_) h.resident h.wired ?_
  · rw [hpte q w k hk, h.unmapped q w hm hw k hk]
  · intro f hf
    rw [h.recorded f hf]
    refine or_congr_right (exists_congr fun q => exists_congr fun w => ?_)
    rw [ModifiedAt, ModifiedAt, anyModified_congr (hpte q w)]

/-- Only modify bits change, and only of entries that are there. -/
theorem Tables.modifyBits (h : s.Tables c a r) {pte : Nat → Nat → Pte} {modified : Nat → Bool}
    (hpte : ∀ q x, ∃ b, pte q x = { s.pte q x with mod := b })
    (hzero : ∀ q x, s.pte q x = Pte.zero → pte q x = Pte.zero)
    (hrecorded : ∀ f, c.managed f = true →
      (r' f = true ↔ Recorded c { s with pte := pte, modified := modified } a f)) :
    Tables c { s with pte := pte, modified := modified } a r' := by
  refine h.remap rfl (fun q w m hm => ⟨h.page_ne q w m hm, h.own q w m hm, h.present q w m hm, ?_⟩)
    (fun q w hm hw k hk => hzero q _ (h.unmapped q w hm hw k hk)) h.resident h.wired hrecorded
  have hold := h.mapped q w m hm
  refine entriesOf_iff.mpr ⟨?_, fun k hk => ?_⟩
  · obtain ⟨b, hb⟩ := hpte q (w * c.ptes)
    exact (congrArg Pte.wired hb).trans hold.wired
  · obtain ⟨b, hb⟩ := hpte q (w * c.ptes + k)
    simp only [hb]
    exact ⟨hold.frame k hk, hold.valid k hk, hold.write k hk⟩

/-! ## Lists of mappings -/

theorem Listed.erase (h : s.Listed c a) (hm : a p v = some m) (hpage : c.managed m.page = true →
      (s'.pv m.page).toList = (s.pv m.page).toList.erase (p, v * c.ptes))
    (hother : ∀ f, f ≠ m.page → s'.pv f = s.pv f) : s'.Listed c (a.set p v none) := by
  intro f hf
  obtain ⟨hnodup, hmem⟩ := h f hf
  rcases eq_or_ne f m.page with rfl | hne
  · rw [hpage hf]
    refine ⟨hnodup.erase _, fun q g => ?_⟩
    rw [hnodup.mem_erase_iff, hmem, at_set]
    simp
  rw [hother f hne]
  refine ⟨hnodup, fun q g => ?_⟩
  rw [hmem, at_set]
  refine ⟨fun hat => .inr ⟨?_, hat⟩,
    fun hat => (hat.resolve_left fun hx => nomatch hx.2.choose_spec.1).2⟩
  rintro heq
  obtain ⟨rfl, rfl⟩ := Prod.mk.inj heq
  obtain ⟨m', hm', rfl⟩ := at_page.mp hat
  rw [hm] at hm'
  cases hm'
  exact hne rfl

theorem Listed.insert (h : s.Listed c a) (hnone : a p v = none) (hpage : c.managed m.page = true →
      (s'.pv m.page).toList.Perm ((p, v * c.ptes) :: (s.pv m.page).toList))
    (hother : ∀ f, f ≠ m.page → s'.pv f = s.pv f) : s'.Listed c (a.set p v (some m)) := by
  have hnot : ∀ f, ¬ a.At c f p (v * c.ptes) := by
    intro f hat
    obtain ⟨m', hm', -⟩ := at_page.mp hat
    rw [hnone] at hm'
    cases hm'
  intro f hf
  obtain ⟨hnodup, hmem⟩ := h f hf
  rcases eq_or_ne f m.page with rfl | hne
  · have hperm := hpage hf
    refine ⟨hperm.nodup_iff.mpr
      (List.nodup_cons.mpr ⟨fun hin => hnot _ ((hmem ..).mp hin), hnodup⟩),
      fun q g => ?_⟩
    rw [hperm.mem_iff, List.mem_cons, hmem, at_set]
    rcases eq_or_ne (q, g) (p, v * c.ptes) with heq | hneq
    · exact ⟨fun _ => .inl ⟨heq, m, rfl, rfl⟩, fun _ => .inl heq⟩
    · exact ⟨fun hat => .inr ⟨hneq, hat.resolve_left hneq⟩,
        fun hat => .inr (hat.resolve_left fun hx => hneq hx.1).2⟩
  · rw [hother f hne]
    refine ⟨hnodup, fun q g => ?_⟩
    rw [hmem, at_set]
    constructor
    · refine fun hat => .inr ⟨?_, hat⟩
      intro heq
      obtain ⟨rfl, rfl⟩ := Prod.mk.inj heq
      exact hnot f hat
    · rintro (⟨-, m', hm', rfl⟩ | ⟨-, hat⟩)
      · cases hm'
        exact absurd rfl hne
      · exact hat

theorem Listed.change (h : s.Listed c a) (hm : a p v = some m)
    (hpage : m'.page = m.page) (hpv : s'.pv = s.pv) : s'.Listed c (a.set p v (some m')) := by
  intro f hf
  obtain ⟨hnodup, hmem⟩ := h f hf
  rw [hpv]
  refine ⟨hnodup, fun q g => ?_⟩
  rw [hmem, at_set]
  rcases eq_or_ne (q, g) (p, v * c.ptes) with heq | hneq
  · obtain ⟨rfl, rfl⟩ := Prod.mk.inj heq
    rw [at_page, hm]
    simp [hpage]
  · exact ⟨fun hat => .inr ⟨hneq, hat⟩, fun hat => (hat.resolve_left fun hx => hneq hx.1).2⟩

theorem Represents.change (h : s.Represents c a r) {g : Nat → Nat → Mapping → Mapping}
    (hpage : ∀ q w m, (g q w m).page = m.page) (hwire : ∀ q w m, (g q w m).wired = m.wired)
    (hdir : s'.dir = s.dir) (hpv : s'.pv = s.pv) (hresident : s'.resident = s.resident)
    (hwired : s'.wired = s.wired) (hmodified : s'.modified = s.modified)
    (hmod : ∀ q x, (s'.pte q x).mod = (s.pte q x).mod)
    (hsome : ∀ q w m, a q w = some m → s'.EntriesOf c q w (g q w m))
    (hnone : ∀ q w, a q w = none → c.Usable q w →
      ∀ k < c.ptes, s'.pte q (w * c.ptes + k) = Pte.zero) :
    s'.Represents c (a.change g) r := by
  have hold : ∀ {q w m}, a.change g q w = some m → ∃ m₀, a q w = some m₀ ∧ g q w m₀ = m :=
    fun hm => Option.map_eq_some_iff.mp hm
  have hany : ∀ (kind : Mapping → Bool), (∀ q w m, kind (g q w m) = kind m) → ∀ q,
      (a.change g).num kind q = a.num kind q := by
    intro kind hkind q
    apply num_congr
    intro w
    cases hm : a q w with
    | none => simp [Mappings.change, hm]
    | some => simp [Mappings.change, hm, hkind]
  refine ⟨?_, ?_⟩
  · refine h.tables.remap hdir (fun q w m hm => ?_)
      (fun q w hm => hnone q w (Option.map_eq_none_iff.mp hm)) ?_ ?_ ?_
    · obtain ⟨m₀, hm₀, rfl⟩ := hold hm
      exact ⟨(hpage q w m₀).symm ▸ h.tables.page_ne q w m₀ hm₀, h.tables.own q w m₀ hm₀,
        h.tables.present q w m₀ hm₀, hsome q w m₀ hm₀⟩
    · intro q
      rw [hresident, h.tables.resident, hany _ fun _ _ _ => rfl]
    · intro q
      rw [hwired, h.tables.wired, hany _ hwire]
    · intro f hf
      rw [h.tables.recorded f hf, Recorded, Recorded, hmodified]
      refine or_congr_right (exists_congr fun q => exists_congr fun w => ?_)
      rw [ModifiedAt, ModifiedAt, anyModified, anyModified]
      simp only [hmod]
      cases hm : a q w with
      | none => simp [Mappings.change, hm]
      | some => simp [Mappings.change, hm, hpage]
  · intro f hf
    obtain ⟨hnodup, hmem⟩ := h.listed f hf
    rw [hpv]
    refine ⟨hnodup, fun q x => (hmem q x).trans ⟨?_, ?_⟩⟩
    · rintro ⟨w, hw, m, hm, rfl⟩
      exact ⟨w, hw, g q w m, by rw [Mappings.change, hm]; rfl, hpage q w m⟩
    · rintro ⟨w, hw, m, hm, rfl⟩
      obtain ⟨m₀, hm₀, rfl⟩ := hold hm
      exact ⟨w, hw, m₀, hm₀, (hpage q w m₀).symm⟩

end Pmaps

end Mach
