import Mach.Intel.PmapCalls
import Mathlib.Data.Set.Card

/-!
# Runs of the pmap system

`pmapContract` says what callers of the pmap system may do and what they get, and
`pmapStep_simulates` that the system keeps to it.  The callers use the addresses that a map has to
itself, and not those that the kernel map has mapped from the start.  The kernel map has page tables
from the start, and no others.  A page whose mappings `pmap_page_protect` changes has no wired
mapping, and `pmap_change_wiring` is for a mapping that there is.
-/

namespace Mach

open Function

/-- The mappings, and the pages that have been written to since their modify bits were cleared. -/
structure PmapSpec where
  maps : Mappings
  written : Nat → Bool

/-- A range of VM pages is in the part of the address space that the map has to itself. -/
structure PmapConfig.OwnRange (c : PmapConfig) (p first last : Nat) : Prop where
  le : last * c.ptes ≤ 1023 * nptes
  le_kernel : p ≠ 0 → last * c.ptes ≤ kernelDir * nptes
  usable : ∀ v, first ≤ v → v < last → c.Usable p v

/-- The hardware page is in the part of the address space that the map has to itself. -/
structure PmapConfig.OwnHardware (c : PmapConfig) (p h : Nat) : Prop where
  lt : h < 1023 * nptes
  lt_kernel : p ≠ 0 → h < kernelDir * nptes
  usable : c.Usable p (h / c.ptes)

/-- What callers may ask for, and what they get. -/
def pmapContract (c : PmapConfig) : Contract PmapOp PmapResult PmapSpec where
  legal op a :=
    match op with
    | .enter p v f _ _ => c.Own p v ∧ f ≠ 0 ∧ Pmaps.KernelPage c p v
    | .remove p first last => c.OwnRange p first last
    | .protect p first last _ => c.OwnRange p first last
    | .pageProtect f _ => ∀ p v m, a.maps p v = some m → m.page = f → m.wired = false
    | .changeWiring p v _ => a.maps p v ≠ none
    | .collect _ => True
    | .extract p h => c.OwnHardware p h
    | .clearModify _ => True
    | .isModified _ => True
    | .hardwareWrite p h => c.OwnHardware p h
  ok op a r :=
    match op with
    | .extract p h => r = .frame (a.maps.frame c p h)
    | .collect p => ∃ freed, r = .freed freed ∧
        ∀ v m, a.maps p v = some m → v / nptes ∈ freed → m.wired = false
    | _ => True
  next op a r :=
    match op with
    | .enter p v f prot wired => { a with maps := a.maps.enter p v f prot wired }
    | .remove p first last => { a with maps := a.maps.drop p fun w => first ≤ w ∧ w < last }
    | .protect p first last prot => { a with maps := a.maps.protect p first last prot }
    | .pageProtect f prot =>
      { a with maps := if c.managed f then a.maps.pageProtect f prot else a.maps }
    | .changeWiring p v wired => { a with maps := a.maps.changeWiring p v wired }
    | .collect p =>
      match r with
      | .freed gs => { a with maps := a.maps.drop p fun w => w / nptes ∈ gs }
      | _ => a
    | .clearModify f => { a with written := update a.written f false }
    | .hardwareWrite p h => { a with written := a.maps.noteWrite c a.written p h }
    | _ => a

/-- After `pmap_init` no caller has made a mapping, and there may be any number of free list
entries. -/
def pmapInit (c : PmapConfig) (s : Pmaps) (a : PmapSpec) : Prop :=
  ∃ pvFree, s = Pmaps.init c pvFree ∧ a = ⟨fun _ _ => none, fun _ => false⟩

namespace Pmaps

variable {c : PmapConfig} {s : Pmaps} {a : PmapSpec}

theorem init_represents (c : PmapConfig) (pvFree : Nat) :
    (init c pvFree).Represents c (fun _ _ => none) fun _ => false := by
  have hdir : ∀ p d, d < kernelDir → (init c pvFree).dir p d = none := fun p d hd =>
    if_neg fun htable => absurd (c.kernelDir_le d htable) (not_le.mpr hd)
  have hnum : ∀ (kind : Mapping → Bool) p, Mappings.num (fun _ _ => none) kind p = 0 := by
    simp [Mappings.num]
  refine ⟨?_, fun f _ => ⟨List.nodup_nil, fun p h => ⟨by rintro ⟨⟩, ?_⟩⟩⟩
  · refine
      { page_ne := by rintro _ _ _ ⟨⟩, own := by rintro _ _ _ ⟨⟩,
        present := by rintro _ _ _ ⟨⟩, mapped := by rintro _ _ _ ⟨⟩,
        unmapped := ?_, dirs := fun p d _ hd => .inl (hdir p d hd), group := ?_,
        kernel := fun _ => rfl, resident := ?_, wired := ?_, recorded := ?_ }
    · intro p v _ hv k hk
      have hpage : (v * c.ptes + k) / c.ptes = v := by
        rw [mul_comm, Nat.mul_add_div c.ptes_pos, Nat.div_eq_of_lt hk, add_zero]
      refine if_neg ?_
      rintro ⟨hp, hreserved⟩
      rw [hpage, hv hp] at hreserved
      cases hreserved
    · intro p d d' _ hd _ hsome
      cases (hdir p d hd).symm.trans hsome
    · intro p
      rw [hnum]
      exact (add_zero _).symm
    · intro p
      rw [hnum]
      exact (add_zero _).symm
    · rintro f -
      refine iff_of_false Bool.false_ne_true ?_
      rintro (hmod | ⟨p, v, m, hm, -⟩)
      · exact Bool.false_ne_true hmod
      · cases hm
  · rintro ⟨v, -, m, hm, -⟩
    cases hm

end Pmaps

open Pmaps

variable {c : PmapConfig} {s : Pmaps} {a : PmapSpec}

/-- Each step that callers may ask for succeeds and keeps to the mappings.  The record is that of
the pages that were written to, if a VM page has one entry. -/
theorem pmapStep_ok {r : Nat → Bool} (h : s.Represents c a.maps r) {op : PmapOp}
    (hlegal : (pmapContract c).legal op a) :
    ∃ s' x r', pmapStep c s op = .ok (s', x) ∧ (pmapContract c).ok op a x ∧
      s'.Represents c ((pmapContract c).next op a x).maps r' ∧
      (c.shift = 0 → (∀ f, c.managed f = true → r f = a.written f) →
        ∀ f, c.managed f = true → r' f = ((pmapContract c).next op a x).written f) := by
  cases op with
  | enter p v f prot wired =>
    obtain ⟨hown, hf, hkernel⟩ := hlegal
    obtain ⟨s', hs', h'⟩ := h.pmapEnter hown hf hkernel prot wired
    exact ⟨s', .none, r, by rw [pmapStep, hs']; rfl, trivial, h', fun _ hr => hr⟩
  | remove p first last =>
    obtain ⟨s', hs', h'⟩ := h.pmapRemove hlegal.le_kernel hlegal.usable
    exact ⟨s', .none, r, by rw [pmapStep, hs']; rfl, trivial, h', fun _ hr => hr⟩
  | protect p first last prot =>
    obtain ⟨s', hs', h'⟩ := h.pmapProtect hlegal.le_kernel hlegal.usable prot
    exact ⟨s', .none, r, by rw [pmapStep, hs']; rfl, trivial, h', fun _ hr => hr⟩
  | pageProtect f prot =>
    obtain ⟨s', hs', h'⟩ := h.pmapPageProtect hlegal prot
    exact ⟨s', .none, r, by rw [pmapStep, hs']; rfl, trivial, h', fun _ hr => hr⟩
  | changeWiring p v wired =>
    obtain ⟨m, hm⟩ := Option.ne_none_iff_exists'.mp hlegal
    obtain ⟨s', hs', h'⟩ := h.pmapChangeWiring hm wired
    exact ⟨s', .none, r, by rw [pmapStep, hs']; rfl, trivial, h', fun _ hr => hr⟩
  | collect p =>
    obtain ⟨s', freed, hs', h', hwired⟩ := h.pmapCollect p
    exact ⟨s', .freed freed, r, by rw [pmapStep, hs']; rfl, ⟨freed, rfl, hwired⟩, h',
      fun _ hr => hr⟩
  | extract p g =>
    have hframe := h.tables.pmapExtract hlegal.lt_kernel hlegal.usable
    exact ⟨s, _, r, rfl, congrArg PmapResult.frame hframe, h, fun _ hr => hr⟩
  | clearModify f =>
    obtain ⟨s', r', hs', h', hr'⟩ := h.pmapClearModify f
    refine ⟨s', .none, r', by rw [pmapStep, hs']; rfl, trivial, h', fun hshift hr f' hf' => ?_⟩
    rw [hr' hshift f' hf']
    change update r f false f' = update a.written f false f'
    rcases eq_or_ne f' f with rfl | hne
    · rw [update_self, update_self]
    · rw [update_of_ne hne, update_of_ne hne, hr f' hf']
  | isModified f =>
    obtain ⟨b, hb, -⟩ := h.pmapIsModified f
    exact ⟨s, .flag b, r, by rw [pmapStep, hb]; rfl, trivial, h, fun _ hr => hr⟩
  | hardwareWrite =>
    exact ⟨_, .none, _, rfl, trivial, h.hardwareWrite hlegal.lt_kernel hlegal.usable,
      fun _ hr f hf => Mappings.noteWrite_congr (hr f hf)⟩

theorem pmapStep_simulates (c : PmapConfig) :
    (pmapContract c).Simulates (pmapMachine c) fun s a => ∃ r, s.Represents c a.maps r := by
  rintro s a op ⟨r, h⟩ hlegal
  obtain ⟨s', x, r', hs', hok, h', -⟩ := pmapStep_ok h hlegal
  exact ⟨s', x, by rw [pmapMachine, hs']; rfl, hok, r', h'⟩

theorem pmapInit_represents (hinit : pmapInit c s a) : s.Represents c a.maps fun _ => false := by
  obtain ⟨pvFree, rfl, rfl⟩ := hinit
  exact init_represents c pvFree

/-! ## The page tables are mirrored -/

namespace Pmaps

/-- The page-table entries of the VM page map the physical page. -/
def Maps (c : PmapConfig) (s : Pmaps) (p v f : Nat) : Prop :=
  ∀ k < c.ptes, ∃ o, s.pmapPte p (v * c.ptes + k) = some o ∧
    (s.pte o (v * c.ptes + k)).valid = true ∧
    (s.pte o (v * c.ptes + k)).frame = f * c.ptes + k

/-- The VM page is mapped, and its first entry is wired. -/
def MapsWired (c : PmapConfig) (s : Pmaps) (p v : Nat) : Prop :=
  ∃ f o, s.Maps c p v f ∧ s.pmapPte p (v * c.ptes) = some o ∧ (s.pte o (v * c.ptes)).wired = true

/-- An entry of the VM page can be written through. -/
def MapsWritable (c : PmapConfig) (s : Pmaps) (p v : Nat) : Prop :=
  ∃ k < c.ptes, ∃ o, s.pmapPte p (v * c.ptes + k) = some o ∧
    (s.pte o (v * c.ptes + k)).valid = true ∧ (s.pte o (v * c.ptes + k)).write = true

variable {r : Nat → Bool} {a : Mappings} {p v : Nat} {f : Nat} {s' : Pmaps} {r' : Nat → Bool}

section

variable (h : s.Tables c a r)
include h

theorem Tables.maps_iff (hown : c.Own p v) : s.Maps c p v f ↔ ∃ m, a p v = some m ∧ m.page = f := by
  constructor
  · intro hmaps
    obtain ⟨o, hpte, hvalid, hframe⟩ := hmaps 0 c.ptes_pos
    obtain rfl := h.pmapPte_eq (fun hp => hown.entry_lt hp c.ptes_pos) hpte
    cases hm : a o v with
    | none =>
      rw [h.unmapped o v hm hown.usable 0 c.ptes_pos] at hvalid
      exact absurd hvalid Bool.false_ne_true
    | some m =>
      rw [(h.mapped o v m hm).frame 0 c.ptes_pos] at hframe
      exact ⟨m, rfl, Nat.mul_right_cancel c.ptes_pos hframe⟩
  · rintro ⟨m, hm, rfl⟩ k hk
    exact ⟨p, h.present p v m hm k hk, (h.mapped p v m hm).valid k hk,
      (h.mapped p v m hm).frame k hk⟩

theorem Tables.mapsWired_iff (hown : c.Own p v) :
    s.MapsWired c p v ↔ ∃ m, a p v = some m ∧ m.wired = true := by
  constructor
  · rintro ⟨f, o, hmaps, hpte, hwired⟩
    obtain rfl := h.pmapPte_eq (fun hp => hown.entry_lt hp c.ptes_pos) hpte
    obtain ⟨m, hm, -⟩ := (h.maps_iff hown).mp hmaps
    exact ⟨m, hm, (h.mapped o v m hm).wired.symm.trans hwired⟩
  · rintro ⟨m, hm, hwired⟩
    exact ⟨m.page, p, (h.maps_iff hown).mpr ⟨m, hm, rfl⟩, h.present p v m hm 0 c.ptes_pos,
      (h.mapped p v m hm).wired.trans hwired⟩

theorem Tables.mapsWritable_iff (hown : c.Own p v) :
    s.MapsWritable c p v ↔ ∃ m, a p v = some m ∧ m.write = true := by
  constructor
  · rintro ⟨k, hk, o, hpte, hvalid, hwrite⟩
    obtain rfl := h.pmapPte_eq (fun hp => hown.entry_lt hp hk) hpte
    cases hm : a o v with
    | none =>
      rw [h.unmapped o v hm hown.usable k hk] at hvalid
      exact absurd hvalid Bool.false_ne_true
    | some m => exact ⟨m, rfl, ((h.mapped o v m hm).write k hk).symm.trans hwrite⟩
  · rintro ⟨m, hm, hwrite⟩
    exact ⟨0, c.ptes_pos, p, h.present p v m hm 0 c.ptes_pos,
      (h.mapped p v m hm).valid 0 c.ptes_pos,
      ((h.mapped p v m hm).write 0 c.ptes_pos).trans hwrite⟩

theorem Tables.ncard_eq (kind : Mapping → Bool) {pages : Nat → Prop}
    (hpages : ∀ v, c.Own p v → (pages v ↔ ∃ m, a p v = some m ∧ kind m = true)) :
    {v | c.Own p v ∧ pages v}.ncard = a.num kind p := by
  have hset : {v | c.Own p v ∧ pages v} =
      ((Finset.range (1023 * nptes)).filter fun v => (a p v).any kind = true : Finset Nat) := by
    ext v
    rw [Finset.coe_filter, Set.mem_ofPred_eq, Set.mem_ofPred_eq, Finset.mem_range]
    constructor
    · rintro ⟨hown, hv⟩
      obtain ⟨m, hm, hkind⟩ := (hpages v hown).mp hv
      exact ⟨hown.lt, by rw [hm]; exact hkind⟩
    · rintro ⟨-, hany⟩
      cases hm : a p v with
      | none =>
        rw [hm] at hany
        exact nomatch hany
      | some m =>
        rw [hm] at hany
        exact ⟨h.own p v m hm, (hpages v (h.own p v m hm)).mpr ⟨m, hm, hany⟩⟩
  rw [hset, Set.ncard_coe_finset]
  rfl

end

theorem Represents.other_pages (h : s.Represents c a r) {a' : Mappings}
    (h' : s'.Represents c a' r') (hown : c.Own p v) {g : Nat}
    (hsame : ∀ m, m.page = g → (a' p v = some m ↔ a p v = some m)) :
    (s'.Maps c p v g ↔ s.Maps c p v g) ∧
      (s.Maps c p v g → (s'.MapsWritable c p v ↔ s.MapsWritable c p v)) := by
  rw [h'.tables.maps_iff hown, h.tables.maps_iff hown, h'.tables.mapsWritable_iff hown,
    h.tables.mapsWritable_iff hown]
  refine ⟨exists_congr fun m => and_congr_left fun hpage => hsame m hpage, ?_⟩
  rintro ⟨m, hm, hpage⟩
  rw [hm, (hsame m hpage).mpr hm]

theorem Represents.afterPageProtect (h : s.Represents c a r) {prot : Protection}
    (h' : s'.Represents c (a.pageProtect f prot) r')
    (hown : c.Own p v) :
    (¬ prot.ReadOnly → prot ≠ Protection.all → ¬ s'.Maps c p v f) ∧
      (prot.ReadOnly → s'.Maps c p v f → ¬ s'.MapsWritable c p v) ∧
      ∀ g, g ≠ f → (s'.Maps c p v g ↔ s.Maps c p v g) ∧
        (s.Maps c p v g → (s'.MapsWritable c p v ↔ s.MapsWritable c p v)) := by
  have hother : ∀ remove g, g ≠ f → ∀ m : Mapping, m.page = g →
      (a.lower remove f p v = some m ↔ a p v = some m) := by
    rintro remove _ hne m rfl
    refine ⟨fun hlow => ?_, fun hm => by rw [Mappings.lower, hm, Option.bind_some, if_neg hne]⟩
    rcases a.lower_cases hlow with ⟨-, hm⟩ | ⟨hpage, -⟩
    · exact hm
    · exact absurd hpage hne
  rw [Mappings.pageProtect] at h'
  by_cases hread : prot.ReadOnly
  · rw [if_pos hread] at h'
    refine ⟨fun hnot => absurd hread hnot, fun _ hmaps hwritable => ?_,
      fun g hne => h.other_pages h' hown (hother false g hne)⟩
    obtain ⟨m, hm, rfl⟩ := (h'.tables.maps_iff hown).mp hmaps
    obtain ⟨m', hm', hwrite⟩ := (h'.tables.mapsWritable_iff hown).mp hwritable
    obtain rfl := Option.some.inj (hm.symm.trans hm')
    rcases a.lower_cases hm with ⟨hne, -⟩ | ⟨-, -, hfalse⟩
    · exact hne rfl
    · exact Bool.false_ne_true (hfalse.symm.trans hwrite)
  · rw [if_neg hread] at h'
    by_cases hall : prot = .all
    · rw [if_pos hall] at h'
      exact ⟨fun _ hne => absurd hall hne, fun h => absurd h hread,
        fun g _ => h.other_pages h' hown fun _ _ => .rfl⟩
    rw [if_neg hall] at h'
    refine ⟨fun _ _ hmaps => ?_, fun h => absurd h hread,
      fun g hne => h.other_pages h' hown (hother true g hne)⟩
    obtain ⟨m, hm, rfl⟩ := (h'.tables.maps_iff hown).mp hmaps
    rcases a.lower_cases hm with ⟨hne, -⟩ | ⟨-, hfalse, -⟩
    · exact hne rfl
    · exact Bool.false_ne_true hfalse.symm

end Pmaps

/-- In every run the lists of the managed pages have the mappings that the page tables have, the
counts are the numbers of mappings, no call panics, `pmap_extract` gives the page that was entered
last, and `pmap_page_protect` lowers the mappings of its page and no others. -/
theorem pmap_mirrors (hrun : (pmapContract c).Run (pmapMachine c) (pmapInit c) s a) :
    (∀ f, c.managed f = true → (s.pv f).toList.Nodup ∧
      ∀ p h, (p, h) ∈ (s.pv f).toList ↔ ∃ v, h = v * c.ptes ∧ c.Own p v ∧ s.Maps c p v f) ∧
    (∀ p, s.resident p = c.residentAtStart p + {v | c.Own p v ∧ ∃ f, s.Maps c p v f}.ncard ∧
      s.wired p = c.wiredAtStart p + {v | c.Own p v ∧ s.MapsWired c p v}.ncard) ∧
    (∀ op, (pmapContract c).legal op a →
      ∃ s' x, pmapStep c s op = .ok (s', x) ∧ (pmapContract c).ok op a x) ∧
    ∀ f prot, c.managed f = true → (pmapContract c).legal (.pageProtect f prot) a →
      ∃ s', s.pmapPageProtect c f prot = .ok s' ∧ ∀ p v, c.Own p v →
        (¬ prot.ReadOnly → prot ≠ Protection.all → ¬ s'.Maps c p v f) ∧
        (prot.ReadOnly → s'.Maps c p v f → ¬ s'.MapsWritable c p v) ∧
        ∀ g, g ≠ f → (s'.Maps c p v g ↔ s.Maps c p v g) ∧
          (s.Maps c p v g → (s'.MapsWritable c p v ↔ s.MapsWritable c p v)) := by
  obtain ⟨r, h⟩ := (pmapStep_simulates c).run (fun s a hinit => ⟨_, pmapInit_represents hinit⟩) hrun
  refine ⟨fun f hf => ⟨(h.listed f hf).1, fun p g => ?_⟩, fun p => ⟨?_, ?_⟩, fun op hlegal => ?_,
    fun f prot hf hlegal => ?_⟩
  · rw [(h.listed f hf).2]
    refine exists_congr fun v => and_congr_right fun _ => ⟨?_, ?_⟩
    · rintro ⟨m, hm, hpage⟩
      have hown := h.tables.own p v m hm
      exact ⟨hown, (h.tables.maps_iff hown).mpr ⟨m, hm, hpage⟩⟩
    · exact fun ⟨hown, hmaps⟩ => (h.tables.maps_iff hown).mp hmaps
  · rw [h.tables.resident p, h.tables.ncard_eq (fun _ => true)]
    intro v hown
    simp only [h.tables.maps_iff hown]
    exact ⟨fun ⟨f, m, hm, _⟩ => ⟨m, hm, trivial⟩, fun ⟨m, hm, _⟩ => ⟨m.page, m, hm, rfl⟩⟩
  · rw [h.tables.wired p, h.tables.ncard_eq Mapping.wired fun v hown => h.tables.mapsWired_iff hown]
  · obtain ⟨s', x, r', hs', hok, -⟩ := pmapStep_ok h hlegal
    exact ⟨s', x, hs', hok⟩
  · obtain ⟨s', hs', h'⟩ := h.pmapPageProtect hlegal prot
    rw [if_pos hf] at h'
    exact ⟨s', hs', fun p v hown => h.afterPageProtect h' hown⟩

/-- All pages are managed, and the kernel has one table, whose second half maps physical memory from
the start. -/
def oneTable (shift : Fin 20) : PmapConfig where
  shift := shift
  shift_le := Nat.le_of_lt_succ shift.isLt
  managed := fun _ => true
  kernelTable := fun d => d == kernelDir
  kernelDir_le := fun _ hd => (beq_iff_eq.mp hd).symm.le
  reserved := fun v => kernelDir * nptes + 512 ≤ v * 2 ^ shift.val
  reservedPte := fun h => ⟨h - (kernelDir * nptes + 512), true, true, false, false⟩
  kernelResident := 0
  kernelWired := 0

/-- Page 5 is entered in map 1.  The kernel map has it from the start, and that is in no list. -/
theorem pmap_mirrors_enter : ∃ s a,
    (pmapContract (oneTable 1)).Run (pmapMachine (oneTable 1)) (pmapInit (oneTable 1)) s a ∧
      (s.pv 5).toList = [(1, 0)] ∧ s.pmapExtract 0 (kernelDir * nptes + 522) = 10 ∧
      (∃ v, 0 = v * 2 ∧ (oneTable 1).Own 1 v ∧ s.Maps (oneTable 1) 1 v 5) ∧
      ({v | (oneTable 1).Own 1 v ∧ ∃ f, s.Maps (oneTable 1) 1 v f}.ncard : Int) = 1 := by
  have hlegal : (pmapContract (oneTable 1)).legal (.enter 1 0 5 ⟨true, true, false⟩ false)
      ⟨fun _ _ => none, fun _ => false⟩ :=
    ⟨⟨by decide, fun _ => by decide, PmapConfig.usable_of_ne one_ne_zero 0⟩, by decide, nofun⟩
  have hrun : (pmapContract (oneTable 1)).Run (pmapMachine (oneTable 1))
      (pmapInit (oneTable 1)) _ _ :=
    .step (.start ⟨0, rfl, rfl⟩) hlegal rfl
  obtain ⟨hlists, hcounts, -⟩ := pmap_mirrors hrun
  refine ⟨_, _, hrun, rfl, rfl, ((hlists 5 rfl).2 1 0).mp List.mem_cons_self, ?_⟩
  exact (zero_add _).symm.trans (hcounts 1).1.symm

/-- Map 1 enters a page at an address of the kernel, and so in a table of the kernel.  The kernel
map then has a mapping that is in no list, and cannot remove it. -/
theorem not_mirrors_kernelAddress : (do
      let (s, _) ← pmapStep (oneTable 0) (init (oneTable 0) 0)
        (.enter 1 (kernelDir * nptes) 5 ⟨true, true, false⟩ false)
      pmapStep (oneTable 0) s (.remove 0 (kernelDir * nptes) (kernelDir * nptes + 1))) =
    .error .notInPvList := by
  rfl

/-! ## Modifications -/

/-- A write through the second entry of a VM page is not seen. -/
theorem not_isModified_second (shift : Fin 20) (hshift : shift ≠ 0) : ∃ s a,
    (pmapContract (oneTable shift)).Run (pmapMachine (oneTable shift)) (pmapInit (oneTable shift))
      s a ∧ s.pmapIsModified (oneTable shift) 5 = .ok false ∧ a.written 5 = true := by
  have hle : (oneTable shift).ptes ≤ 2 ^ 19 :=
    Nat.pow_le_pow_right two_pos (Nat.le_of_lt_succ shift.isLt)
  have hlt : 1 < (oneTable shift).ptes :=
    Nat.one_lt_two_pow fun hzero => hshift (Fin.val_injective hzero)
  have hlegal₁ : (pmapContract (oneTable shift)).legal (.enter 1 0 5 ⟨true, true, false⟩ false)
      ⟨fun _ _ => none, fun _ => false⟩ := by
    refine ⟨⟨?_, fun _ => ?_, PmapConfig.usable_of_ne one_ne_zero 0⟩, by decide, nofun⟩
    · rw [zero_add, one_mul]
      exact hle.trans (by decide)
    · rw [zero_add, one_mul]
      exact hle.trans (by decide)
  obtain ⟨s₁, hs₁, h₁⟩ := (init_represents (oneTable shift) 0).pmapEnter hlegal₁.1 hlegal₁.2.1
    hlegal₁.2.2 ⟨true, true, false⟩ false
  have hrun₁ : (pmapContract (oneTable shift)).Run (pmapMachine (oneTable shift))
      (pmapInit (oneTable shift)) s₁ _ :=
    .step (.start ⟨0, rfl, rfl⟩) hlegal₁ (by rw [pmapMachine, pmapStep, hs₁]; rfl)
  have hlegal₂ : ∀ a, (pmapContract (oneTable shift)).legal (.hardwareWrite 1 1) a :=
    fun _ => ⟨by decide, fun _ => by decide, PmapConfig.usable_of_ne one_ne_zero _⟩
  have hpage : 1 / (oneTable shift).ptes = 0 := Nat.div_eq_of_lt hlt
  refine ⟨_, _, .step hrun₁ (hlegal₂ _) rfl, ?_, ?_⟩
  · -- nothing was recorded before, and the write is recorded in an entry that is not looked at
    have hclean := mt (h₁.tables.recorded 5 rfl).mpr Bool.false_ne_true
    have hwrite := hlegal₂ ⟨fun _ _ => none, fun _ => false⟩
    have h₂ := h₁.hardwareWrite hwrite.lt_kernel hwrite.usable
    rw [h₂.pmapIsModified_eq rfl, hardwareWrite_modified]
    refine congrArg Except.ok (Bool.or_eq_false_iff.mpr ⟨?_, List.any_eq_false.mpr ?_⟩)
    · exact Bool.eq_false_of_not_eq_true fun hmod => hclean (.inl hmod)
    · rintro ⟨q, x⟩ hx hmod
      obtain ⟨w, rfl, m, hm, hm5⟩ := ((h₂.listed 5 rfl).2 q x).mp hx
      rcases Mappings.set_cases _ hm with ⟨rfl, rfl, -⟩ | ⟨-, hnone⟩
      · rw [hardwareWrite_pte (by omega)] at hmod
        refine hclean (.inr ⟨1, 0, m, hm, hm5, List.any_eq_true.mpr ⟨0, ?_, hmod⟩⟩)
        exact List.mem_range.mpr (oneTable shift).ptes_pos
      · exact nomatch hnone
  · change Mappings.noteWrite _ _ _ 1 1 5 = true
    rw [Mappings.noteWrite, hpage]
    rfl

/-- `pmap_is_modified` tells in every run whether a page was written to since its modify bits were
cleared, if and only if a VM page is a hardware page. -/
theorem isModified_exact_iff (shift : Fin 20) : (∀ c : PmapConfig, c.shift = shift → ∀ s a,
      (pmapContract c).Run (pmapMachine c) (pmapInit c) s a → ∀ f, c.managed f = true →
        s.pmapIsModified c f = .ok (a.written f)) ↔ shift = 0 := by
  constructor
  · intro hexact
    by_contra hshift
    obtain ⟨s, a, hrun, hfalse, htrue⟩ := not_isModified_second shift hshift
    rw [hexact _ rfl s a hrun 5 rfl, htrue] at hfalse
    exact nomatch hfalse
  · rintro rfl c hshift s a hrun f hf
    have hsimulates : (pmapContract c).Simulates (pmapMachine c) fun s a =>
        ∃ r, s.Represents c a.maps r ∧ ∀ f, c.managed f = true → r f = a.written f := by
      rintro s a op ⟨r, h, hr⟩ hlegal
      obtain ⟨s', x, r', hs', hok, h', hr'⟩ := pmapStep_ok h hlegal
      exact ⟨s', x, by rw [pmapMachine, hs']; rfl, hok, r', h', hr' hshift hr⟩
    obtain ⟨r, h, hr⟩ := hsimulates.run
      (fun s a hinit => ⟨_, pmapInit_represents hinit, fun f _ => by
        obtain ⟨pvFree, rfl, rfl⟩ := hinit
        rfl⟩) hrun
    obtain ⟨b, hb, hbr⟩ := h.pmapIsModified f
    rw [hb, hbr hshift hf, hr f hf]

/-- With two entries for a VM page, the second is written through. -/
theorem not_isModified_twoEntries : (do
      let (s, _) ← pmapStep (oneTable 1) (init (oneTable 1) 0)
        (.enter 1 0 5 ⟨true, true, false⟩ false)
      let (s, _) ← pmapStep (oneTable 1) s (.hardwareWrite 1 1)
      return ((s.pte 1 1).mod, ← s.pmapIsModified (oneTable 1) 5)) = .ok (true, false) := by
  rfl

end Mach
