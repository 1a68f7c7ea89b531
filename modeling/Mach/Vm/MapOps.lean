import Mach.Vm.MapEnter

/-!
# Operations on maps keep the invariant

The invariant of a map is that of `VmMap.Wf`, and for a main map that its size is the sum of the
lengths of its entries (`VmMap.Valid`).

`vm_map_protect` and `vm_map_inherit` cut the entries at the ends of a region and change those
inside, so that the same memory is there afterwards (`Kept`).  `vm_map_delete` takes the entries of
a region out of the list, after both hints have been moved before them.
-/

namespace Mach

open Ring Spans VmMapHeader
open List (mem_append_right mem_cons_self mem_cons_of_mem mem_cons mem_append append_cons)

/-- `vm_map_protect` may give the entry a protection. -/
def VmMapEntry.Permits (newProt : Nat) (v : VmMapEntry) : Prop :=
  v.isSubMap = false ∧ newProt &&& v.maxProtection = newProt

namespace VmMap

/-- The invariant, with the size of a main map. -/
structure Valid (m : VmMap) (l : List Nat) : Prop extends Wf m l where
  size : m.isMainMap = true → m.size = total (m.hdr.spans l)

/-- Entries have been cut or changed, and nothing else but the hint. -/
structure Kept (m : VmMap) (l : List Nat) (m' : VmMap) (l' : List Nat) : Prop where
  cut : Cut m.hdr l m'.hdr l'
  hint : m'.hint ∈ vmMapToEntry :: l'
  firstFree : m'.firstFree = m.firstFree
  size : m'.size = m.size
  isMainMap : m'.isMainMap = m.isMainMap

variable {m m' m'' : VmMap} {l l' l'' l₁ l₂ : List Nat} {a start stop : Nat}

theorem Kept.refl (hw : m.Wf l) : Kept m l m l := ⟨.refl hw.hdr, hw.hint, rfl, rfl, rfl⟩

theorem Kept.trans (hk : Kept m l m' l') (hk' : Kept m' l' m'' l'') : Kept m l m'' l'' :=
  ⟨hk.cut.trans hk'.cut, hk'.hint, hk'.firstFree.trans hk.firstFree, hk'.size.trans hk.size,
    hk'.isMainMap.trans hk.isMainMap⟩

theorem Kept.wf (hk : Kept m l m' l') (hw : m.Wf l) : m'.Wf l' where
  hdr := hk.cut.wf
  hint := hk.hint
  firstFree := hk.firstFree ▸ hk.cut.mem_cons hw.firstFree

theorem Kept.valid (hk : Kept m l m' l') (hv : m.Valid l) : m'.Valid l' where
  toWf := hk.wf hv.toWf
  size hmain := by
    rw [hk.size, hk.cut.total]
    exact hv.size (hk.isMainMap ▸ hmain)

variable {h : VmMapHeader} {e fuel size mask address : Nat}

theorem Wf.kept (hw : m.Wf l) (hc : Cut m.hdr l h l') : Kept m l { m with hdr := h } l' :=
  ⟨hc, hc.mem_cons hw.hint, rfl, rfl, rfl⟩

/-! ## Attributes -/

variable {u v : VmMapEntry} {b : Nat}

variable {x : Nat}

theorem attributes_cut (hw : m.Wf l) (he : e ∈ l)
    (hcut : Cut m.hdr l ((m.hdr.insert x u).setEntry e v) l') (hzone : m.hdr.zone ∈ l')
    (hparts : ∀ a, (m.hdr.entry e).Has a →
      u.Has a ∧ u.view a = (m.hdr.entry e).view a ∨ v.Has a ∧ v.view a = (m.hdr.entry e).view a)
    (a : Nat) :
    ({ m with hdr := (m.hdr.insert x u).setEntry e v } : VmMap).attributes a = m.attributes a := by
  have hne : m.hdr.zone ≠ e := fun hx =>
    hw.hdr.zone_not_mem (hx ▸ mem_cons_of_mem _ he)
  refine (attributes_congr hw ((hw.kept hcut).wf hw) (hcut.covered a).mp ?_).trans
    (Option.map_id_apply)
  intro y hy ha
  rcases eq_or_ne y e with rfl | hye
  · rcases hparts a ha with hpart | hpart
    · refine ⟨m.hdr.zone, hzone, ?_⟩
      rw [setEntry_of_ne _ _ hne, insert_entry_zone]
      exact hpart
    · refine ⟨y, hcut.mem y hy, ?_⟩
      rw [setEntry_self]
      exact hpart
  · refine ⟨y, hcut.mem y hy, ?_⟩
    rw [hw.hdr.cut_entry u v (mem_cons_of_mem _ hy) hye]
    exact ⟨ha, rfl⟩

theorem attributes_clipStart (hw : m.Wf (l₁ ++ e :: l₂)) (ha : (m.hdr.entry e).Has b) (a : Nat) :
    (m.clipStart e b).attributes a = m.attributes a := by
  rw [clipStart, VmMapHeader.clipStart]
  split
  next hlt =>
    have hcut := hw.hdr.splitStart hlt ha.2
    refine attributes_cut hw (mem_append_right l₁ mem_cons_self) hcut
      (mem_append_right l₁ mem_cons_self) (fun a ha => ?_) a
    rcases lt_or_ge a b with hb | hb
    · exact .inl ⟨⟨ha.1, hb⟩, rfl⟩
    refine .inr ⟨⟨hb, ha.2⟩, ?_⟩
    simp only [VmMapEntry.view]
    congr 1
    omega
  next => rfl

theorem attributes_clipEnd (hw : m.Wf (l₁ ++ e :: l₂)) (hb : (m.hdr.entry e).vmeStart < b)
    (a : Nat) : (m.clipEnd e b).attributes a = m.attributes a := by
  rw [clipEnd, VmMapHeader.clipEnd]
  split
  next hlt =>
    have hcut := hw.hdr.splitEnd hb hlt
    refine attributes_cut hw (mem_append_right l₁ mem_cons_self) hcut
      (mem_append_right l₁ (mem_cons_of_mem _ mem_cons_self)) (fun a ha => ?_) a
    rcases lt_or_ge a b with hlt | hge
    · exact .inr ⟨⟨ha.1, hlt⟩, rfl⟩
    refine .inl ⟨⟨hge, ha.2⟩, ?_⟩
    simp only [VmMapEntry.view]
    congr 1
    omega
  next => rfl

/-- A change of an entry, to the attributes of its addresses. -/
structure Alters (f : VmMapEntry → VmMapEntry) : Prop where
  vmeStart : ∀ v, (f v).vmeStart = v.vmeStart
  vmeEnd : ∀ v, (f v).vmeEnd = v.vmeEnd
  view : ∀ v a, (f v).view a = f (v.view a)

/-- The attributes of the addresses from `lo` up to `hi` are changed, and nothing else. -/
def Changes (f : VmMapEntry → VmMapEntry) (lo hi : Nat) (m m' : VmMap) : Prop :=
  ∀ a, m'.attributes a = if lo ≤ a ∧ a < hi then (m.attributes a).map f else m.attributes a

variable {f : VmMapEntry → VmMapEntry} {lo mid hi : Nat} {anywhere : Bool}

theorem Changes.trans (hc : Changes f lo mid m m') (hc' : Changes f mid hi m' m'')
    (hlo : lo ≤ mid) (hhi : mid ≤ hi) : Changes f lo hi m m'' := by
  intro a
  rw [hc', hc]
  split_ifs <;> first | rfl | omega

/-! ## Regions -/

/-- The entries `l₂` are those that start at an address or after it. -/
structure From (m : VmMap) (a : Nat) (l₁ l₂ : List Nat) : Prop where
  before : ∀ x ∈ l₁, (m.hdr.entry x).vmeEnd ≤ a
  after : ∀ x ∈ l₂, a ≤ (m.hdr.entry x).vmeStart

section

variable (hw : m.hdr.Wf (l₁ ++ e :: l₂))
include hw

theorem start_le_of_head (hle : a ≤ (m.hdr.entry e).vmeStart) :
    ∀ x ∈ e :: l₂, a ≤ (m.hdr.entry x).vmeStart := by
  intro x hx
  cases mem_cons.mp hx with
  | inl hx => exact hx ▸ hle
  | inr hx => exact hle.trans ((of_middle hw.sorted).2 x hx).le

theorem from_of_le (hbefore : ∀ x ∈ l₁, (m.hdr.entry x).vmeEnd ≤ a)
    (hle : a ≤ (m.hdr.entry e).vmeStart) : From m a l₁ (e :: l₂) where
  before := hbefore
  after := start_le_of_head hw hle

theorem from_of_start (hstart : (m.hdr.entry e).vmeStart = a) : From m a l₁ (e :: l₂) :=
  from_of_le hw (hstart ▸ (of_middle hw.sorted).1) hstart.symm.le

theorem from_of_end : From m (m.hdr.entry e).vmeEnd (l₁ ++ [e]) l₂ := by
  have hspans := hw.spans
  rw [spans_append, spans_cons, between_middle] at hspans
  obtain ⟨h₁, he, h₂⟩ := hspans
  refine ⟨fun x hx => ?_, fun x hx => (h₂.mem (List.mem_map_of_mem hx)).1⟩
  cases mem_append.mp hx with
  | inl hx => exact le_trans (h₁.mem (List.mem_map_of_mem hx)).2.2 he.le
  | inr hx => exact List.mem_singleton.mp hx ▸ le_rfl

end

/-- A loop over a region stops at an entry after it, and those that follow are also after it. -/
theorem past_stop (hw : m.hdr.Wf (l₁ ++ l₂)) (hout : ¬ (l₂.headD vmMapToEntry ≠ vmMapToEntry ∧
      (m.hdr.entry (l₂.headD vmMapToEntry)).vmeStart < stop)) :
    ∀ x ∈ l₂, stop ≤ (m.hdr.entry x).vmeStart := by
  cases l₂ with
  | nil => exact nofun
  | cons e =>
    have hne : e ≠ vmMapToEntry := hw.ne_header (mem_append_right l₁ mem_cons_self)
    exact start_le_of_head hw (not_lt.mp (not_and.mp hout hne))

theorem regionStart_spec (hw : m.Wf l) (start : Nat) :
    ∃ l₁ l₂, Kept m l (m.regionStart start).2 (l₁ ++ l₂) ∧
      (m.regionStart start).1 = l₂.headD vmMapToEntry ∧
      From (m.regionStart start).2 start l₁ l₂ ∧
      ∀ a, (m.regionStart start).2.attributes a = m.attributes a := by
  obtain ⟨hlookup, ⟨e, he, hm⟩, -⟩ := lookupEntry_spec hw start
  have hw' := hw.saveHint he
  have hattr (a : Nat) : (m.saveHint e).attributes a = m.attributes a :=
    (attributes_congr hw hw' id fun y hy ha => ⟨y, hy, ha, rfl⟩).trans Option.map_id_apply
  rw [regionStart]
  generalize m.lookupEntry start = r at hlookup hm
  obtain ⟨found, x, m₁⟩ := r
  subst hm
  cases hlookup with
  | found hl hstart hend =>
    rename_i l₁ l₂
    subst hl
    obtain ⟨l₁', hcut, hx⟩ := hw.hdr.clipStart hstart hend
    exact ⟨l₁', x :: l₂, ⟨hcut, hcut.mem_cons he, rfl, rfl, rfl⟩, rfl, from_of_start hcut.wf hx,
      fun a => (attributes_clipStart hw' ⟨hstart, hend⟩ a).trans (hattr a)⟩
  | between hl hbefore hafter =>
    rename_i l₁ l₂
    subst hl
    exact ⟨l₁, l₂, ⟨.refl hw.hdr, he, rfl, rfl, rfl⟩, hw.hdr.ring.split.1,
      ⟨hbefore, fun y hy => (hafter y hy).le⟩, hattr⟩

theorem attributes_gap (hw : m.Wf (l₁ ++ l₂)) (hfrom : From m lo l₁ l₂) (hlo : lo ≤ a)
    (hhi : ∀ x ∈ l₂, a < (m.hdr.entry x).vmeStart) : m.attributes a = none := by
  rcases attributes_cases hw a with ⟨hnone, -⟩ | ⟨e, he, ha, -⟩
  · exact hnone
  · cases mem_append.mp he with
    | inl he => exact absurd ha.2 ((hfrom.before e he).trans hlo).not_gt
    | inr he => exact absurd ha.1 (hhi e he).not_ge

theorem changes_refl (hw : m.Wf (l₁ ++ l₂)) (hfrom : From m lo l₁ l₂)
    (hdone : ∀ x ∈ l₂, hi ≤ (m.hdr.entry x).vmeStart) : Changes f lo hi m m := by
  intro a
  split
  next hin =>
    rw [attributes_gap hw hfrom hin.1 fun x hx => hin.2.trans_le (hdone x hx)]
    rfl
  next => rfl

theorem changes_setEntry (hf : Alters f) (hw : m.Wf (l₁ ++ e :: l₂))
    (hfrom : From m lo l₁ (e :: l₂)) :
    Changes f lo (m.hdr.entry e).vmeEnd m
      { m with hdr := m.hdr.setEntry e (f (m.hdr.entry e)) } := by
  intro a
  have he : e ∈ l₁ ++ e :: l₂ := mem_append_right l₁ mem_cons_self
  have hcut := hw.hdr.cut_setEntry he (hf.vmeStart _) (hf.vmeEnd _)
  have hw' := (hw.kept hcut).wf hw
  by_cases ha : (m.hdr.entry e).Has a
  · have ha' : ((m.hdr.setEntry e (f (m.hdr.entry e))).entry e).Has a := by
      rw [setEntry_self, VmMapEntry.Has, hf.vmeStart, hf.vmeEnd]
      exact ha
    rw [if_pos ⟨(hfrom.after e mem_cons_self).trans ha.1, ha.2⟩,
      attributes_of_mem hw he ha, attributes_of_mem hw' he ha']
    change some (((m.hdr.setEntry e (f (m.hdr.entry e))).entry e).view a) = _
    rw [setEntry_self, hf.view]
    rfl
  have hsame := attributes_congr hw hw' (f := id) (hcut.covered a).mp fun y hy hy' => by
    refine ⟨y, hy, ?_⟩
    have hne : y ≠ e := by
      rintro rfl
      exact ha hy'
    rw [setEntry_of_ne _ _ hne]
    exact ⟨hy', rfl⟩
  rw [hsame, Option.map_id_apply]
  split
  next hin =>
    have hlt : a < (m.hdr.entry e).vmeStart := Nat.lt_of_not_le fun hx => ha ⟨hx, hin.2⟩
    rw [attributes_gap hw hfrom hin.1 fun x hx => ?_]
    · rfl
    · exact hlt.trans_le (start_le_of_head hw.hdr le_rfl x hx)
  next => rfl

/-- The loop over a region, from the first entry of `l₂` on.  There is fuel for the entries of the
region. -/
theorem changeLoop_spec (hf : Alters f) (hw : m.Wf (l₁ ++ l₂)) (hfrom : From m lo l₁ l₂)
    (hfuel : ∀ x ∈ l₂.drop fuel, stop ≤ (m.hdr.entry x).vmeStart) :
    ∃ l', Kept m (l₁ ++ l₂) (changeLoop stop f fuel (l₂.headD vmMapToEntry) m) l' ∧
      Changes f lo stop m (changeLoop stop f fuel (l₂.headD vmMapToEntry) m) := by
  induction fuel generalizing m l₁ l₂ lo with
  | zero => exact ⟨_, .refl hw, changes_refl hw hfrom hfuel⟩
  | succ fuel ih =>
    rw [changeLoop]
    split
    next hin =>
      cases l₂ with
      | nil => exact absurd rfl hin.1
      | cons x l₂ =>
        have hlt : (m.hdr.entry x).vmeStart < stop := hin.2
        obtain ⟨l₂', hcut, hstart, hend, hkeep, hrest⟩ := hw.hdr.clipEnd hlt
        have hx : x ∈ l₁ ++ x :: l₂' := mem_append_right l₁ mem_cons_self
        have hw₁ := (hw.kept hcut).wf hw
        have hle : lo ≤ (m.hdr.entry x).vmeStart := hfrom.after x mem_cons_self
        have hfrom₁ : From (m.clipEnd x stop) lo l₁ (x :: l₂') :=
          from_of_le hw₁.hdr (fun y hy => (hkeep y (mem_cons_of_mem _
            (List.mem_append_left l₂ hy))).symm ▸ hfrom.before y hy) (hstart.symm ▸ hle)
        have hset := changes_setEntry hf hw₁ hfrom₁
        have hcut₂ := hcut.trans (hw₁.hdr.cut_setEntry hx (hf.vmeStart _) (hf.vmeEnd _))
        have hkept := hw.kept hcut₂
        have hw₂ := hkept.wf hw
        have hend₂ := congrArg VmMapEntry.vmeEnd (setEntry_self (m.hdr.clipEnd x stop) x
          (f ((m.hdr.clipEnd x stop).entry x))) |>.trans (hf.vmeEnd _)
        have hfrom₂ := from_of_end hw₂.hdr
        rw [hend₂] at hfrom₂
        have hfuel₂ : ∀ y ∈ l₂'.drop fuel, stop ≤ (((m.hdr.clipEnd x stop).setEntry x
            (f ((m.hdr.clipEnd x stop).entry x))).entry y).vmeStart := by
          intro y hy
          have hy' := mem_cons_of_mem vmMapToEntry (mem_append_right l₁ (List.mem_of_mem_drop hy))
          rw [setEntry_of_ne _ _ (hw₁.hdr.ne_of_mem_erase hy')]
          rcases hrest with rfl | hrest
          · exact hkeep y hy' ▸ hfuel y hy
          · exact hrest y (List.mem_of_mem_drop hy)
        have hnext := hw₂.hdr.ring.next_eq
        rw [append_cons] at hw₂
        obtain ⟨l', hloop, hchanges⟩ := ih hw₂ hfrom₂ hfuel₂
        rw [← append_cons, ← hnext] at hloop
        rw [← hnext] at hchanges
        refine ⟨l', hkept.trans hloop, .trans (fun a => ?_) hchanges ?_ hend⟩
        · rw [← attributes_clipEnd hw hlt]
          exact hset a
        · have hspan := (hw₁.hdr.spans.mem (List.mem_map_of_mem hx)).2.1
          exact hle.trans (le_of_lt (hstart ▸ hspan))
    next hout => exact ⟨_, .refl hw, changes_refl hw hfrom (past_stop hw.hdr hout)⟩

theorem changeRegion_spec (hf : Alters f) (hw : m.Wf l) (start stop : Nat) :
    ∃ l', Kept m l (changeLoop stop f ((m.regionStart start).2.hdr.nentries + 1)
        (m.regionStart start).1 (m.regionStart start).2) l' ∧
      Changes f start stop m (changeLoop stop f ((m.regionStart start).2.hdr.nentries + 1)
        (m.regionStart start).1 (m.regionStart start).2) := by
  obtain ⟨l₁, l₂, hkept, hentry, hfrom, hattr⟩ := regionStart_spec hw start
  have hw' := hkept.wf hw
  have hdrop : l₂.drop ((m.regionStart start).2.hdr.nentries + 1) = [] := by
    rw [List.drop_eq_nil_iff, hw'.hdr.count, List.length_append]
    omega
  have hover : ∀ x ∈ l₂.drop ((m.regionStart start).2.hdr.nentries + 1),
      stop ≤ ((m.regionStart start).2.hdr.entry x).vmeStart := by
    rw [hdrop]
    exact nofun
  obtain ⟨l', hloop, hchanges⟩ := changeLoop_spec hf hw' hfrom hover
  rw [← hentry] at hloop hchanges
  exact ⟨l', hkept.trans hloop, fun a => hattr a ▸ hchanges a⟩

/-! ## Protection and inheritance -/

variable {newProt : Nat}

/-- The first pass of `vm_map_protect` looks at each entry of the region. -/
theorem protectCheck_success (hw : m.hdr.Wf (l₁ ++ l₂)) (hfuel : l₂.length < fuel) :
    protectCheck m.hdr stop newProt fuel (l₂.headD vmMapToEntry) = .success ↔
      ∀ x ∈ l₂, (m.hdr.entry x).vmeStart < stop → (m.hdr.entry x).Permits newProt := by
  induction l₂ generalizing l₁ fuel with
  | nil =>
    refine iff_of_true ?_ (by simp)
    cases fuel <;> rfl
  | cons e l₂ ih =>
    cases fuel with
    | zero => cases hfuel
    | succ fuel =>
      have hnext : m.hdr.next e = l₂.headD vmMapToEntry := hw.ring.next_eq
      have hw' := hw
      rw [append_cons] at hw'
      rw [protectCheck, List.headD_cons, hnext]
      split
      next hin =>
        simp only [List.forall_mem_cons, hin.2, true_imp_iff]
        split
        next hsub => simp [VmMapEntry.Permits, hsub]
        next hsub =>
          split
          next hprot => simp [VmMapEntry.Permits, hprot]
          next hprot =>
            rw [ih hw' (Nat.lt_of_succ_lt_succ hfuel)]
            exact (and_iff_right ⟨Bool.not_eq_true _ ▸ hsub, not_not.mp hprot⟩).symm
      next hout =>
        exact iff_of_true rfl fun x hx hlt => absurd hlt (past_stop hw hout x hx).not_gt

/-- What `vm_map_protect` does to the attributes of addresses. -/
structure Protected (m : VmMap) (range : Nat × Nat) (newProt : Nat) (setMax : Bool)
    (r : VmReturn × VmMap) : Prop where
  success : r.1 = .success ↔
    ∀ a, range.1 ≤ a → a < range.2 → ∀ v ∈ m.attributes a, v.Permits newProt
  changes : r.1 = .success → Changes (protectEntry newProt setMax) range.1 range.2 m r.2
  failed : r.1 ≠ .success → ∀ a, r.2.attributes a = m.attributes a

theorem From.permits (hw : m.Wf (l₁ ++ l₂)) (hfrom : From m start l₁ l₂) (stop newProt : Nat) :
    (∀ x ∈ l₂, (m.hdr.entry x).vmeStart < stop → (m.hdr.entry x).Permits newProt) ↔
      ∀ a, start ≤ a → a < stop → ∀ v ∈ m.attributes a, v.Permits newProt := by
  constructor
  · intro h a hlo hhi v hv
    rcases attributes_cases hw a with ⟨hnone, -⟩ | ⟨e, he, ha, hsome⟩
    · rw [hnone] at hv
      cases hv
    rw [hsome] at hv
    cases hv
    have he₂ : e ∈ l₂ := (mem_append.mp he).resolve_left fun he₁ =>
      ((hfrom.before e he₁).trans hlo).not_gt ha.2
    exact h e he₂ (ha.1.trans_lt hhi)
  · intro h x hx hlt
    have hmem := mem_append_right l₁ hx
    have hhas : (m.hdr.entry x).Has (m.hdr.entry x).vmeStart :=
      ⟨le_rfl, (hw.hdr.spans.mem (List.mem_map_of_mem hmem)).2.1⟩
    exact h _ (hfrom.after x hx) hlt ((m.hdr.entry x).view _) (attributes_of_mem hw hmem hhas)

theorem protect_spec (hw : m.Wf l) (start stop newProt : Nat) (setMax : Bool) :
    (∃ l', Kept m l (m.protect start stop newProt setMax).2 l') ∧
      Protected m (m.rangeCheck start stop) newProt setMax
        (m.protect start stop newProt setMax) := by
  rw [protect]
  generalize m.rangeCheck start stop = range
  obtain ⟨start, stop⟩ := range
  obtain ⟨l₁, l₂, hkept, hentry, hfrom, hattr⟩ := regionStart_spec hw start
  obtain ⟨l', hloop, hchanges⟩ :=
    changeRegion_spec (f := protectEntry newProt setMax)
      (by cases setMax <;> exact ⟨fun _ => rfl, fun _ => rfl, fun _ _ => rfl⟩) hw start stop
  have hw' := hkept.wf hw
  have hpermits := hfrom.permits hw' stop newProt
  simp only [hattr] at hpermits ⊢
  generalize m.regionStart start = r at *
  obtain ⟨entry, m'⟩ := r
  subst hentry
  have hfuel : l₂.length < m'.hdr.nentries + 1 := by
    rw [hw'.hdr.count, List.length_append]
    omega
  rw [← protectCheck_success hw'.hdr hfuel] at hpermits
  split
  next hcheck =>
    exact ⟨⟨l', hloop⟩, iff_of_true rfl (hpermits.mp hcheck), fun _ => hchanges,
      fun hx => absurd rfl hx⟩
  next hcheck =>
    exact ⟨⟨_, hkept⟩, hpermits, fun hx => absurd hx hcheck, fun _ => hattr⟩

theorem inherit_spec (hw : m.Wf l) (start stop newInheritance : Nat) :
    (∃ l', Kept m l (m.inherit start stop newInheritance).2 l') ∧
      (2 < newInheritance → m.inherit start stop newInheritance = (.invalidArgument, m)) ∧
      (newInheritance ≤ 2 → (m.inherit start stop newInheritance).1 = .success ∧
        Changes (fun v => { v with inheritance := newInheritance }) (m.rangeCheck start stop).1
          (m.rangeCheck start stop).2 m (m.inherit start stop newInheritance).2) := by
  rw [inherit]
  split
  next hlt => exact ⟨⟨l, .refl hw⟩, fun _ => rfl, fun hle => absurd hlt hle.not_gt⟩
  next hle =>
    obtain ⟨l', hloop, hchanges⟩ := changeRegion_spec
      (f := fun v => { v with inheritance := newInheritance })
      ⟨fun _ => rfl, fun _ => rfl, fun _ _ => rfl⟩ hw (m.rangeCheck start stop).1
      (m.rangeCheck start stop).2
    exact ⟨⟨l', hloop⟩, fun hlt => absurd hlt hle, fun _ => ⟨rfl, hchanges⟩⟩

/-- The protection of each address is within the maximum. -/
def Within (m : VmMap) : Prop :=
  ∀ a, ∀ v ∈ m.attributes a, v.protection &&& v.maxProtection = v.protection

theorem Protected.within {range : Nat × Nat} {setMax : Bool}
    {r : VmReturn × VmMap} (h : Protected m range newProt setMax r) (hm : m.Within) :
    r.2.Within := by
  intro a v hv
  by_cases hr : r.1 = .success
  · rw [h.changes hr a] at hv
    split at hv
    next hin =>
      obtain ⟨u, hu, rfl⟩ := Option.mem_map.mp hv
      rw [protectEntry]
      split
      next => rw [Nat.and_right_comm, Nat.and_self]
      next => exact (h.success.mp hr a hin.1 hin.2 u hu).2
    next => exact hm a v hv
  · rw [h.failed hr a] at hv
    exact hm a v hv

/-- `vm_map_protect` and `vm_map_inherit` change the attributes of the mapped addresses of a range,
and those of no address if they fail.  They fail for a protection that is not permitted somewhere in
the range, and for what is no inheritance. -/
theorem rangeAttributes_exact (hw : m.Wf l) (start stop newProt newInheritance : Nat)
    (setMax : Bool) :
    let range := m.rangeCheck start stop
    let p := m.protect start stop newProt setMax
    let i := m.inherit start stop newInheritance
    (p.1 = .success ↔
        ∀ a, range.1 ≤ a → a < range.2 → ∀ v ∈ m.attributes a, v.Permits newProt) ∧
      (p.1 = .success → Changes (protectEntry newProt setMax) range.1 range.2 m p.2) ∧
      (p.1 ≠ .success → ∀ a, p.2.attributes a = m.attributes a) ∧
      (m.Within → p.2.Within) ∧
      (newInheritance ≤ 2 → i.1 = .success ∧
        Changes (fun v => { v with inheritance := newInheritance }) range.1 range.2 m i.2) ∧
      (2 < newInheritance → i.1 = .invalidArgument ∧
        ∀ a, i.2.attributes a = m.attributes a) := by
  intro range p i
  have hp : Protected m range newProt setMax p := (protect_spec hw start stop newProt setMax).2
  obtain ⟨-, hrefused, hdone⟩ := inherit_spec hw start stop newInheritance
  refine ⟨hp.success, hp.changes, hp.failed, hp.within, hdone, fun hlt => ?_⟩
  have hi : i = (.invalidArgument, m) := hrefused hlt
  rw [hi]
  exact ⟨rfl, fun _ => rfl⟩

/-- The middle of a page is made read-only and is shared, and the page cannot be given a protection
that is none. -/
theorem rangeAttributes_exact_onePage : onePage.Wf [1] ∧
      (Changes (protectEntry 1 false) 1024 2048 onePage (onePage.protect 1024 2048 1 false).2) ∧
      ((onePage.inherit 1024 2048 0).1 = .success ∧
        Changes (fun v => { v with inheritance := 0 }) 1024 2048 onePage
          (onePage.inherit 1024 2048 0).2) ∧
      ∀ a, (onePage.protect 0 4096 8 true).2.attributes a = onePage.attributes a := by
  obtain ⟨-, hprotect, -, -, hinherit, -⟩ := rangeAttributes_exact onePage_wf 1024 2048 1 0 false
  obtain ⟨-, -, hfailed, -⟩ := rangeAttributes_exact onePage_wf 0 4096 8 0 true
  exact ⟨onePage_wf, hprotect (by decide), hinherit (by decide), hfailed (by decide)⟩

/-! ## Deletion -/

theorem sub32_eq (hb : b ≤ a) (ha : a < 2 ^ 32) : sub32 a b = a - b := by
  rw [sub32]
  omega

/-- The entries of a region are taken out of the list, from the first entry of `l₂` on.  What is
before the region stays, with both hints. -/
structure Deleted (m : VmMap) (l₁ l₂ : List Nat) (stop : Nat) (m' : VmMap) (l₂' : List Nat) :
    Prop where
  wf : m'.hdr.Wf (l₁ ++ l₂')
  entry : ∀ x ∈ vmMapToEntry :: l₁, m'.hdr.entry x = m.hdr.entry x
  hint : m'.hint = m.hint
  firstFree : m'.firstFree = m.firstFree
  isMainMap : m'.isMainMap = m.isMainMap
  size : m.size = total (m.hdr.spans (l₁ ++ l₂)) → m'.size = total (m'.hdr.spans (l₁ ++ l₂'))
  covered : ∀ a, stop ≤ a → (Covered (m'.hdr.spans l₂') a ↔ Covered (m.hdr.spans l₂) a)

theorem Deleted.refl (hw : m.hdr.Wf (l₁ ++ l₂)) : Deleted m l₁ l₂ stop m l₂ :=
  ⟨hw, fun _ _ => rfl, rfl, rfl, rfl, id, fun _ _ => .rfl⟩

theorem Deleted.trans {l₂' l₂'' : List Nat} (hd : Deleted m l₁ l₂ stop m' l₂')
    (hd' : Deleted m' l₁ l₂' stop m'' l₂'') : Deleted m l₁ l₂ stop m'' l₂'' where
  wf := hd'.wf
  entry x hx := (hd'.entry x hx).trans (hd.entry x hx)
  hint := hd'.hint.trans hd.hint
  firstFree := hd'.firstFree.trans hd.firstFree
  isMainMap := hd'.isMainMap.trans hd.isMainMap
  size hsize := hd'.size (hd.size hsize)
  covered a ha := (hd'.covered a ha).trans (hd.covered a ha)

/-- One round of the loop: an entry is clipped to the end of the region, and taken out. -/
theorem delete_step (hw : m.hdr.Wf (l₁ ++ e :: l₂)) (hlt : (m.hdr.entry e).vmeStart < stop) :
    ∃ l₂', Deleted m l₁ (e :: l₂) stop ((m.clipEnd e stop).entryDelete e) l₂' ∧
      (m.clipEnd e stop).hdr.next e = l₂'.headD vmMapToEntry ∧
      (l₂' = l₂ ∨ ∀ y ∈ l₂', stop ≤ (((m.clipEnd e stop).entryDelete e).hdr.entry y).vmeStart) := by
  obtain ⟨l₂', hcut, hstart, hend, hkeep, hrest⟩ := hw.clipEnd hlt
  have hw' := hcut.wf
  refine ⟨l₂', ⟨hw'.unlink, fun x hx => ?_, rfl, rfl, rfl, fun hsize => ?_, fun a ha => ?_⟩,
    hw'.ring.next_eq, hrest⟩
  · refine hkeep x ?_
    cases mem_cons.mp hx with
    | inl hx => exact hx ▸ mem_cons_self
    | inr hx => exact mem_cons_of_mem _ (List.mem_append_left l₂ hx)
  · have htotal := hcut.total
    have hle := hw'.spans.total_le
    have hwidth := hw'.width
    change sub32 m.size _ = total ((m.hdr.clipEnd e stop).spans (l₁ ++ l₂'))
    change total ((m.hdr.clipEnd e stop).spans (l₁ ++ e :: l₂')) = _ at htotal
    rw [hsize, ← htotal]
    rw [spans_append, spans_cons, total_append, total_cons] at hle ⊢
    rw [spans_append, total_append]
    change sub32 _ (((m.hdr.clipEnd e stop).span e).2 - ((m.hdr.clipEnd e stop).span e).1) = _
    rw [sub32_eq (by omega) (by omega)]
    omega
  · -- What is before the region, and the entry that is taken out, end before `stop`.
    have hcovered := hcut.covered a
    have hnot := (between_middle.mp (spans_append _ _ _ ▸ hw.spans)).1.not_covered
      (.inr (by change (m.hdr.entry e).vmeStart ≤ a; omega))
    have hnot' := (between_middle.mp (spans_append _ _ _ ▸ hw'.spans)).1.not_covered
      (.inr (by change ((m.hdr.clipEnd e stop).entry e).vmeStart ≤ a; omega))
    rw [spans_append, spans_append, spans_cons, covered_append,
      covered_append, covered_cons, or_iff_right hnot, or_iff_right hnot',
      or_iff_right (by change ¬ (_ ∧ a < ((m.hdr.clipEnd e stop).entry e).vmeEnd); omega)]
      at hcovered
    exact hcovered

theorem deleteLoop_done (fuel : Nat) (h : ∀ y ∈ l₂, stop ≤ (m.hdr.entry y).vmeStart) :
    deleteLoop stop fuel (l₂.headD vmMapToEntry) m = m := by
  cases fuel with
  | zero => rfl
  | succ =>
    rw [deleteLoop, if_neg]
    cases l₂ with
    | nil => exact fun hx => hx.1 rfl
    | cons y => exact fun hx => (h y mem_cons_self).not_gt hx.2

theorem deleteLoop_spec (stop : Nat) (hw : m.hdr.Wf (l₁ ++ l₂)) (hfuel : l₂.length < fuel) :
    ∃ l₂', Deleted m l₁ l₂ stop (deleteLoop stop fuel (l₂.headD vmMapToEntry) m) l₂' ∧
      ∀ y ∈ l₂', stop ≤
        ((deleteLoop stop fuel (l₂.headD vmMapToEntry) m).hdr.entry y).vmeStart := by
  induction fuel generalizing m l₂ with
  | zero => cases hfuel
  | succ fuel ih =>
    rw [deleteLoop]
    split
    next hin =>
      cases l₂ with
      | nil => exact absurd rfl hin.1
      | cons e l₂ =>
        obtain ⟨l₂', hstep, hnext, hrest⟩ := delete_step hw hin.2
        simp only [List.headD_cons, hnext]
        rcases hrest with rfl | hrest
        · obtain ⟨l₂'', hloop, hdone⟩ := ih hstep.wf (Nat.lt_of_succ_lt_succ hfuel)
          exact ⟨l₂'', hstep.trans hloop, hdone⟩
        · rw [deleteLoop_done fuel hrest]
          exact ⟨l₂', hstep, hrest⟩
    next hout => exact ⟨l₂, .refl hw, past_stop hw hout⟩

/-- The start of a deletion: the entries `l₂` are those of the region and after it, and both hints
are before them. -/
structure DeleteFrom (m : VmMap) (l : List Nat) (start : Nat) (r : Nat × VmMap)
    (l₁ l₂ : List Nat) : Prop where
  cut : Cut m.hdr l r.2.hdr (l₁ ++ l₂)
  entry : r.1 = l₂.headD vmMapToEntry
  region : From r.2 start l₁ l₂
  hint : r.2.hint ∈ vmMapToEntry :: l₁
  firstFree : r.2.firstFree ∈ vmMapToEntry :: l₁
  /-- The free space hint is moved if it is in the region or after it. -/
  moved : r.2.firstFree = m.firstFree ∨
    start ≤ (r.2.hdr.entry m.firstFree).vmeStart ∧ r.2.firstFree = l₁.getLastD vmMapToEntry
  size : r.2.size = m.size
  isMainMap : r.2.isMainMap = m.isMainMap

theorem last_mem (l₁ : List Nat) : l₁.getLastD vmMapToEntry ∈ vmMapToEntry :: l₁ := by
  have hmem := getLastD_mem vmMapToEntry l₁ []
  rwa [List.append_nil] at hmem

theorem DeleteFrom.of_region (hw : m.Wf l) (hcut : Cut m.hdr l h (l₁ ++ l₂))
    (hregion : From { m with hdr := h, hint := e } start l₁ l₂) (he : e ∈ vmMapToEntry :: l₁) :
    DeleteFrom m l start (l₂.headD vmMapToEntry,
        if start ≤ (h.entry m.firstFree).vmeStart then
          { m with hdr := h, hint := e, firstFree := h.prev (l₂.headD vmMapToEntry) }
        else { m with hdr := h, hint := e }) l₁ l₂ := by
  split
  next hle =>
    have hprev : h.prev (l₂.headD vmMapToEntry) = l₁.getLastD vmMapToEntry :=
      hcut.wf.ring.split.2
    refine ⟨hcut, rfl, ⟨hregion.before, hregion.after⟩, he, ?_, .inr ⟨hle, hprev⟩, rfl, rfl⟩
    change h.prev (l₂.headD vmMapToEntry) ∈ _
    rw [hprev]
    exact last_mem l₁
  rename_i hgt
  refine ⟨hcut, rfl, ⟨hregion.before, hregion.after⟩, he, ?_, .inl rfl, rfl, rfl⟩
  cases mem_cons.mp (hcut.mem_cons hw.firstFree) with
  | inl hx =>
    change m.firstFree ∈ _
    exact hx ▸ mem_cons_self
  | inr hx =>
    cases mem_append.mp hx with
    | inl hx => exact mem_cons_of_mem _ hx
    | inr hx => exact absurd (hregion.after _ hx) hgt

theorem deleteStart_spec (hw : m.Wf l) (start : Nat) :
    ∃ l₁ l₂, DeleteFrom m l start (m.deleteStart start) l₁ l₂ := by
  obtain ⟨hlookup, ⟨e, -, hm⟩, hfailed⟩ := lookupEntry_spec hw start
  simp only [deleteStart]
  generalize m.lookupEntry start = r at hlookup hm hfailed
  obtain ⟨found, x, m₁⟩ := r
  cases hlookup with
  | found hl hstart hend =>
    rename_i l₁ l₂
    subst hm hl
    obtain ⟨l₁', hcut, hx⟩ := hw.hdr.clipStart hstart hend
    have hprev : (m.hdr.clipStart x start).prev x = l₁'.getLastD vmMapToEntry :=
      hcut.wf.ring.prev_eq
    refine ⟨l₁', x :: l₂, ?_⟩
    refine .of_region (e := (m.hdr.clipStart x start).prev x) hw hcut ?_ ?_
    · exact from_of_start hcut.wf hx
    · rw [hprev]
      exact last_mem l₁'
  | between hl hbefore hafter =>
    rename_i l₁ l₂
    have hm : m₁ = m.saveHint (l₁.getLastD vmMapToEntry) := hfailed rfl
    subst hm hl
    have hnext : m.hdr.next (l₁.getLastD vmMapToEntry) = l₂.headD vmMapToEntry :=
      hw.hdr.ring.split.1
    refine ⟨l₁, l₂, ?_⟩
    have h : DeleteFrom m (l₁ ++ l₂) start _ l₁ l₂ :=
      .of_region (e := l₁.getLastD vmMapToEntry) hw (.refl hw.hdr)
        ⟨hbefore, fun y hy => (hafter y hy).le⟩ (last_mem l₁)
    rw [← hnext] at h
    exact h

/-- `vm_map_delete` takes the entries of a region out of the list. -/
theorem delete_spec (hw : m.Wf l) (start stop : Nat) :
    ∃ l₁ l₂ l₂', DeleteFrom m l start (m.deleteStart start) l₁ l₂ ∧
      Deleted (m.deleteStart start).2 l₁ l₂ stop (m.delete start stop) l₂' ∧
      ∀ y ∈ l₂', stop ≤ ((m.delete start stop).hdr.entry y).vmeStart := by
  obtain ⟨l₁, l₂, hfrom⟩ := deleteStart_spec hw start
  have hfuel : l₂.length < (m.deleteStart start).2.hdr.nentries + 1 := by
    rw [hfrom.cut.wf.count, List.length_append]
    omega
  obtain ⟨l₂', hdeleted, hrest⟩ := deleteLoop_spec stop hfrom.cut.wf hfuel
  rw [← hfrom.entry] at hdeleted hrest
  exact ⟨l₁, l₂, l₂', hfrom, hdeleted, hrest⟩

theorem mem_left (l₂ : List Nat) (hx : x ∈ vmMapToEntry :: l₁) : x ∈ vmMapToEntry :: (l₁ ++ l₂) :=
  List.mem_append_left l₂ hx

theorem delete_valid (hv : m.Valid l) (start stop : Nat) :
    ∃ l', (m.delete start stop).Valid l' := by
  obtain ⟨l₁, l₂, l₂', hfrom, hdeleted, -⟩ := delete_spec hv.toWf start stop
  refine ⟨l₁ ++ l₂', ⟨hdeleted.wf, ?_, ?_⟩, fun hmain => hdeleted.size ?_⟩
  · rw [hdeleted.hint]
    exact mem_left l₂' hfrom.hint
  · rw [hdeleted.firstFree]
    exact mem_left l₂' hfrom.firstFree
  · rw [hfrom.size, hfrom.cut.total]
    exact hv.size (hfrom.isMainMap ▸ hdeleted.isMainMap ▸ hmain)

/-! ## Simplification -/

/-- What `vm_map_simplify` does: nothing but moving the hint, or an entry is joined to the one
before it. -/
inductive Simplified (m : VmMap) : List Nat → VmMap → List Nat → Prop
  | hint {l : List Nat} {e : Nat} (he : e ∈ vmMapToEntry :: l) : Simplified m l (m.saveHint e) l
  | join {l₁ l₂ : List Nat} {prev this : Nat}
      (hend : (m.hdr.entry prev).vmeEnd = (m.hdr.entry this).vmeStart) :
      Simplified m (l₁ ++ prev :: this :: l₂)
        { m with
            firstFree := if m.firstFree = this then prev else m.firstFree
            hint := prev
            hdr := (m.hdr.entryUnlink this).setEntry prev
              { m.hdr.entry prev with vmeEnd := (m.hdr.entry this).vmeEnd } }
        (l₁ ++ prev :: l₂)

theorem simplify_spec (hw : m.Wf l) (start : Nat) : ∃ l', Simplified m l (m.simplify start) l' := by
  obtain ⟨hlookup, ⟨e, he, hm⟩, -⟩ := lookupEntry_spec hw start
  rw [simplify]
  generalize m.lookupEntry start = r at hlookup hm
  obtain ⟨found, x, m₁⟩ := r
  subst hm
  cases hlookup with
  | found hl hstart hend =>
    rename_i l₁ l₂
    simp only
    split
    next hsimplify =>
      simp only [canSimplify, Bool.and_eq_true, decide_eq_true_eq] at hsimplify
      have hne : m.hdr.prev x ≠ vmMapToEntry := by tauto
      have hprev : (m.hdr.entry (m.hdr.prev x)).vmeEnd = start := by tauto
      subst hl
      have hlast : m.hdr.prev x = l₁.getLastD vmMapToEntry := hw.hdr.ring.prev_eq
      rcases List.eq_nil_or_concat' l₁ with rfl | ⟨l₀, p, rfl⟩
      · exact absurd hlast hne
      rw [List.getLastD_concat] at hlast
      change ∃ l', Simplified m (l₀ ++ [p] ++ x :: l₂)
        { m with
            firstFree := if m.firstFree = x then m.hdr.prev x else m.firstFree
            hint := m.hdr.prev x
            hdr := (m.hdr.entryUnlink x).setEntry (m.hdr.prev x)
              { m.hdr.entry (m.hdr.prev x) with vmeEnd := (m.hdr.entry x).vmeEnd } } l'
      rw [hlast] at hprev ⊢
      have hle := (of_middle hw.hdr.sorted).1 _ List.mem_concat_self
      rw [← append_cons]
      exact ⟨l₀ ++ p :: l₂, .join (hle.antisymm (hprev ▸ hstart))⟩
    next => exact ⟨l, .hint he⟩
  | between => exact ⟨l, .hint he⟩

theorem join_spans {prev this : Nat} (hw : m.hdr.Wf (l₁ ++ prev :: this :: l₂)) :
    ((m.hdr.entryUnlink this).setEntry prev
        { m.hdr.entry prev with vmeEnd := (m.hdr.entry this).vmeEnd }).spans (l₁ ++ prev :: l₂) =
      m.hdr.spans l₁ ++ ((m.hdr.entry prev).vmeStart, (m.hdr.entry this).vmeEnd) ::
        m.hdr.spans l₂ := by
  have hw' := hw
  rw [append_cons] at hw'
  have hlists := hw'.toLists.unlink
  rw [← append_cons] at hlists
  exact hlists.spans_setEntry _

theorem Simplified.wf (hs : Simplified m l m' l') (hw : m.Wf l) : m'.Wf l' := by
  cases hs with
  | hint he => exact hw.saveHint he
  | join hend =>
    rename_i l₁ l₂ prev this
    have hwh := hw.hdr
    have hbetween := hwh.spans
    rw [spans_append, spans_cons, spans_cons] at hbetween
    rw [append_cons] at hwh
    have hunlink := hwh.unlink
    rw [← append_cons] at hunlink
    have hsub : ∀ x ∈ vmMapToEntry :: (l₁ ++ prev :: this :: l₂), x ≠ this →
        x ∈ vmMapToEntry :: (l₁ ++ prev :: l₂) := by
      intro x hx hne
      simp only [mem_cons, mem_append] at hx ⊢
      tauto
    refine ⟨hunlink.setEntry hbetween.join, ?_, ?_⟩
    · exact mem_cons_of_mem _ (mem_append_right l₁ mem_cons_self)
    · change (if m.firstFree = this then prev else m.firstFree) ∈ _
      split
      next => exact mem_cons_of_mem _ (mem_append_right l₁ mem_cons_self)
      next hne => exact hsub _ hw.firstFree hne

theorem Simplified.valid (hs : Simplified m l m' l') (hv : m.Valid l) : m'.Valid l' := by
  refine ⟨hs.wf hv.toWf, fun hmain => ?_⟩
  cases hs with
  | hint => exact hv.size hmain
  | join hend =>
    rename_i l₁ l₂ prev this
    have hsize := hv.size hmain
    have hbetween := hv.hdr.spans
    rw [spans_append, spans_cons, spans_cons] at hbetween hsize
    obtain ⟨-, hprev, -, hthis, -⟩ := between_middle.mp hbetween
    change m.size = total (((m.hdr.entryUnlink this).setEntry prev
      { m.hdr.entry prev with vmeEnd := (m.hdr.entry this).vmeEnd }).spans (l₁ ++ prev :: l₂))
    rw [hsize, join_spans hv.hdr]
    simp only [total_append, total_cons, span] at *
    omega

/-! ## Entering -/

/-- The addresses that the search for a place rounds up. -/
def placeStarts (h : VmMapHeader) (size mask : Nat) : Nat → Nat → Nat → List Nat
  | 0, _, _ => []
  | fuel + 1, entry, start =>
    let stop := (roundMask mask start + size) % 2 ^ 32
    let next := h.next entry
    if h.maxOffset < stop ∨ stop < roundMask mask start ∨ next = vmMapToEntry ∨
        stop ≤ (h.entry next).vmeStart then [start]
    else start :: placeStarts h size mask fuel next (h.entry next).vmeEnd

/-- Rounding up does not wrap around when a place is searched from an address on. -/
def RoundsUp (address size mask : Nat) (m : VmMap) : Prop :=
  ∀ entry start m', m.placeStart address = (some (entry, start), m') →
    ∀ s ∈ placeStarts m'.hdr size mask (m'.hdr.nentries + 1) entry start, s + mask < 2 ^ 32

theorem placeLoop_after {entry entry' start' stop' : Nat} (hstart : h.endBefore entry ≤ start)
    (hrounds : ∀ s ∈ placeStarts h size mask fuel entry start, s + mask < 2 ^ 32)
    (hplace : placeLoop h size mask fuel entry start = some (entry', start', stop')) :
    h.endBefore entry' ≤ start' := by
  induction fuel generalizing entry start with
  | zero => cases hplace
  | succ fuel ih =>
    simp only [placeLoop] at hplace
    simp only [placeStarts] at hrounds
    have hround : start + mask < 2 ^ 32 := by
      refine hrounds start ?_
      split <;> exact mem_cons_self
    have hle := hstart.trans (le_roundMask hround)
    split at hplace
    next => cases hplace
    next =>
    split at hplace
    next => cases hplace; exact hle
    next hentry =>
    split at hplace
    next => cases hplace; exact hle
    next =>
      rw [if_neg (by tauto)] at hrounds
      refine ih ?_ (fun s hs => hrounds s (mem_cons_of_mem _ hs)) hplace
      rw [endBefore, if_neg hentry]

variable {place : Nat × Nat × Nat}

/-- If rounding up does not wrap around, then what is found is after the entry before it. -/
theorem RoundsUp.after (hw : m.Wf l) {wait : Bool} (hrounds : m.RoundsUp address size mask)
    (h : m.findPlace address size mask true wait = (.ok place, m')) :
    m.hdr.endBefore place.1 ≤ place.2.1 := by
  obtain ⟨entry, start, hstart, hplace⟩ := placeAnywhere_eq_ok h
  have hrounds := hrounds entry start m' hstart
  obtain ⟨-, hle, -, e, -, rfl⟩ := placeStart_some hw hstart
  exact placeLoop_after (hle ▸ le_max_right ..) hrounds hplace

theorem Wf.insertEntry_size (hw : m.Wf (l₁ ++ l₂)) (hsize : size = v.vmeEnd - v.vmeStart)
    (hw' : (m.insertEntry x size v).Wf (l₁ ++ m.hdr.zone :: l₂))
    (htotal : m.size = total (m.hdr.spans (l₁ ++ l₂))) :
    (m.insertEntry x size v).size =
      total ((m.insertEntry x size v).hdr.spans (l₁ ++ m.hdr.zone :: l₂)) := by
  have hspans := hw.hdr.toLists.spans_insert x v
  have hle := hw'.hdr.spans.total_le
  have hwidth := hw'.hdr.width
  change (m.size + size) % 2 ^ 32 = total ((m.hdr.insert x v).spans (l₁ ++ m.hdr.zone :: l₂))
  change _ + total ((m.hdr.insert x v).spans (l₁ ++ m.hdr.zone :: l₂)) ≤ _ at hle
  rw [hspans] at hle ⊢
  rw [spans_append] at htotal
  simp only [total_append, total_cons] at hle htotal ⊢
  omega

theorem Wf.extendEntry_size (hw : m.Wf (l₁ ++ e :: l₂))
    (hend : (m.hdr.entry e).vmeEnd ≤ stop) (hw' : (m.extendEntry e stop).Wf (l₁ ++ e :: l₂))
    (htotal : m.size = total (m.hdr.spans (l₁ ++ e :: l₂))) :
    (m.extendEntry e stop).size = total ((m.extendEntry e stop).hdr.spans (l₁ ++ e :: l₂)) := by
  have hspans := hw.hdr.toLists.spans_setEntry { m.hdr.entry e with vmeEnd := stop }
  have hbetween := hw.hdr.spans
  have hle := hw'.hdr.spans.total_le
  have hwidth := hw'.hdr.width
  change (m.size + (stop - (m.hdr.entry e).vmeEnd)) % 2 ^ 32 =
    total ((m.hdr.setEntry e { m.hdr.entry e with vmeEnd := stop }).spans (l₁ ++ e :: l₂))
  change _ + total ((m.hdr.setEntry e { m.hdr.entry e with vmeEnd := stop }).spans _) ≤ _ at hle
  rw [spans_append, spans_cons] at hbetween htotal
  obtain ⟨-, hlt, -⟩ := between_middle.mp hbetween
  rw [hspans] at hle ⊢
  simp only [total_append, total_cons, span] at hle htotal hlt ⊢
  omega

theorem Valid.saveHint (hv : m.Valid l) (he : e ∈ vmMapToEntry :: l) : (m.saveHint e).Valid l :=
  ⟨hv.toWf.saveHint he, hv.size⟩

theorem Place.insert_valid
    (hv : m.Valid l) (hp : Place m l size mask anywhere place m' l₁ l₂) (hsize : size ≠ 0)
    (hafter : m.hdr.endBefore place.1 ≤ place.2.1)
    (hstart : v.vmeStart = place.2.1) (hend : v.vmeEnd = place.2.2) :
    ∃ l', (m'.insertEntry place.1 size v).Valid l' := by
  obtain ⟨e, he, hm⟩ := hp.hint
  have hstop := hp.fits.stop_eq
  have hl := hp.list
  subst hl hm
  have hv' := hv.saveHint he
  rw [hp.entry, ← hstart] at hafter
  rw [hp.entry]
  have hw' := hv'.toWf.insertEntry hafter (by omega) (hend ▸ hp.fits.stop_le) size
  exact ⟨_, hw', fun hmain => hv'.toWf.insertEntry_size (by omega) hw' (hv'.size hmain)⟩

theorem Place.extend_valid {entry : Nat}
    (hv : m.Valid l) (hp : Place m l size mask anywhere (entry, start, stop) m' l₁ l₂)
    (hne : entry ≠ vmMapToEntry) (hend : (m.hdr.entry entry).vmeEnd = start) :
    (m'.extendEntry entry stop).Valid l := by
  obtain ⟨e, he, hm⟩ := hp.hint
  have hstop : stop = start + size := hp.fits.stop_eq
  have hle := hp.fits.stop_le
  have hentry : entry = l₁.getLastD vmMapToEntry := hp.entry
  have hl := hp.list
  subst hl hm
  have hv' := hv.saveHint he
  rcases List.eq_nil_or_concat' l₁ with rfl | ⟨l₀, x, rfl⟩
  · exact absurd hentry hne
  rw [List.getLastD_concat] at hentry
  subst hentry
  rw [← append_cons] at hv' ⊢
  have hext : (m.hdr.entry entry).vmeEnd ≤ stop := by omega
  have hw' := hv'.toWf.extendEntry hext hle
  exact ⟨hw', fun hmain => hv'.toWf.extendEntry_size hext hw' (hv'.size hmain)⟩

theorem lookupEntry_hint (hw : m.Wf l) (a : Nat) :
    ∃ e ∈ vmMapToEntry :: l, (m.lookupEntry a).2.2 = m.saveHint e :=
  (lookupEntry_spec hw a).hint

theorem placeStart_hint (hw : m.Wf l) (address : Nat) :
    ∃ e ∈ vmMapToEntry :: l, (m.placeStart address).2 = m.saveHint e := by
  simp only [placeStart]
  generalize (if address < m.minOffset then m.minOffset else address) = first
  split
  next => exact ⟨m.hint, hw.hint, rfl⟩
  next =>
  split
  next => exact ⟨m.hint, hw.hint, rfl⟩
  next =>
    obtain ⟨e, he, hm⟩ := lookupEntry_hint hw first
    generalize m.lookupEntry first = r at hm
    obtain ⟨found, x, m₁⟩ := r
    cases found with
    | true | false => exact ⟨e, he, hm⟩

theorem findPlace_hint (hw : m.Wf l) (address size mask : Nat) (anywhere wait : Bool) :
    ∃ e ∈ vmMapToEntry :: l, (m.findPlace address size mask anywhere wait).2 = m.saveHint e := by
  cases anywhere with
  | true =>
    obtain ⟨e, he, hm⟩ := placeStart_hint hw address
    refine ⟨e, he, ?_⟩
    simp only [findPlace, if_true, placeAnywhere]
    generalize m.placeStart address = r at hm ⊢
    obtain ⟨start, m₁⟩ := r
    subst hm
    cases start with
    | none => rfl
    | some =>
      simp only
      split
      next => rfl
      next => split <;> rfl
  | false =>
    simp only [findPlace, Bool.false_eq_true, if_false, placeFixed]
    split
    next => exact ⟨m.hint, hw.hint, rfl⟩
    next =>
    split
    next => exact ⟨m.hint, hw.hint, rfl⟩
    obtain ⟨e, he, hm⟩ := lookupEntry_hint hw address
    refine ⟨e, he, ?_⟩
    generalize m.lookupEntry address = r at hm
    obtain ⟨found, x, m₁⟩ := r
    cases found with
    | true => exact hm
    | false =>
      simp only
      split <;> exact hm

theorem enter_valid (hv : m.Valid l) {coalesce : Bool} {a : Entering}
    (haddress : address < 2 ^ 32) (hsize : size < 2 ^ 32) (hmask : mask < 2 ^ 32) (hpos : 0 < size)
    (hrounds : m.RoundsUp address size mask) :
    ∃ l', (m.enter coalesce address size mask true a).2.2.Valid l' := by
  cases hplace : m.findPlace address size mask true true with
  | mk r m' =>
  cases r with
  | error =>
    obtain ⟨e, he, hm⟩ := findPlace_hint hv.toWf address size mask true true
    rw [hplace] at hm
    rw [enter_error hplace]
    exact ⟨l, hm ▸ hv.saveHint he⟩
  | ok place =>
    obtain ⟨entry, start, stop⟩ := place
    obtain ⟨l₁, l₂, hp⟩ := findPlace_ok hv.toWf haddress hsize hmask hplace
    have hafter := hrounds.after hv.toWf hplace
    rw [enter_ok hplace]
    change ∃ l', Valid (if m'.canExtend a entry start && coalesce then m'.extendEntry entry stop
      else m'.insertEntry entry size (a.entry start stop)) l'
    split
    next hext =>
      obtain ⟨hne, hend⟩ := canExtend_iff (Bool.and_eq_true_iff.mp hext).1
      obtain ⟨e, -, rfl⟩ := hp.hint
      exact ⟨l, hp.extend_valid hv hne hend⟩
    next => exact hp.insert_valid hv hpos.ne' hafter rfl rfl

theorem findEntry_valid (hv : m.Valid l) {object offset : Nat}
    (haddress : address < 2 ^ 32) (hsize : size < 2 ^ 32) (hmask : mask < 2 ^ 32) (hpos : 0 < size)
    (hrounds : m.RoundsUp address size mask) :
    ∃ l', (m.findEntry address size mask true object offset).2.2.2.Valid l' := by
  rw [findEntry]
  cases hplace : m.findPlace address size mask true false with
  | mk r =>
  cases r with
  | error =>
    obtain ⟨e, he, hm⟩ := findPlace_hint hv.toWf address size mask true false
    rw [hplace] at hm
    exact ⟨l, hm ▸ hv.saveHint he⟩
  | ok =>
    obtain ⟨l₁, l₂, hp⟩ := findPlace_ok hv.toWf haddress hsize hmask hplace
    exact hp.insert_valid hv hpos.ne' (hrounds.after hv.toWf hplace) rfl rfl

end VmMap

end Mach
