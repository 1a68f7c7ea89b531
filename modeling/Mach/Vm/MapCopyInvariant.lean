import Mach.Vm.MapCopy

/-!
# Copying in keeps the invariant

A call of `vm_map_copyin` cuts entries of the map and of share maps, until other threads change
them while they are not locked.  What other threads do is assumed to keep the invariant.  Then each
round of the loop keeps it (`CopyinLoop.step_spec`), and the copy that results has entries without
gaps from the start of the region to its end.

If no other thread changes the maps then entries are cut and nothing else happens to them
(`VmSystem.Evolved`).
-/

universe u

namespace Mach

open Function Ring Spans VmMapHeader
open List (mem_append_right mem_cons_self mem_cons_of_mem mem_append mem_cons
  mem_append_left mem_map)

/-! ## Parts of entries -/

namespace VmMapEntry

/-- A part of an entry, for the same object or share map. -/
structure Part (v w : VmMapEntry) : Prop where
  start_le : v.vmeStart ≤ w.vmeStart
  end_le : w.vmeEnd ≤ v.vmeEnd
  object : w.object = v.object
  isAMap : w.isAMap = v.isAMap
  isSubMap : w.isSubMap = v.isSubMap
  protection : w.protection = v.protection
  inheritance : w.inheritance = v.inheritance
  offset : v.offset + (w.vmeStart - v.vmeStart) < 2 ^ 32 →
    w.offset = v.offset + (w.vmeStart - v.vmeStart)

variable {u v w : VmMapEntry}

theorem Part.refl (v : VmMapEntry) : v.Part v :=
  ⟨le_rfl, le_rfl, rfl, rfl, rfl, rfl, rfl, fun _ => by omega⟩

theorem Part.trans (h : u.Part v) (h' : v.Part w) : u.Part w where
  start_le := h.start_le.trans h'.start_le
  end_le := h'.end_le.trans h.end_le
  object := h'.object.trans h.object
  isAMap := h'.isAMap.trans h.isAMap
  isSubMap := h'.isSubMap.trans h.isSubMap
  protection := h'.protection.trans h.protection
  inheritance := h'.inheritance.trans h.inheritance
  offset hlt := by
    have hle := h.start_le
    have hle' := h'.start_le
    have hoffset := h.offset (by omega)
    have hoffset' := h'.offset (by omega)
    omega

end VmMapEntry

theorem VmMapHeader.Lists.part_cut {h : VmMapHeader} {l₁ l₂ : List Nat} {e y : Nat}
    (hl : h.Lists (l₁ ++ e :: l₂)) (x : Nat) {u v : VmMapEntry} (hu : (h.entry e).Part u)
    (hv : (h.entry e).Part v) (hy : y = h.zone ∨ y ∈ l₁ ++ e :: l₂) :
    ∃ z ∈ l₁ ++ e :: l₂, (h.entry z).Part (((h.insert x u).setEntry e v).entry y) := by
  have he : e ∈ l₁ ++ e :: l₂ := mem_append_right l₁ mem_cons_self
  rcases eq_or_ne y e with rfl | hne
  · refine ⟨y, he, ?_⟩
    rw [setEntry_self]
    exact hv
  rw [setEntry_of_ne _ _ hne]
  cases hy with
  | inl hy =>
    refine ⟨e, he, ?_⟩
    rw [hy, insert_entry_zone]
    exact hu
  | inr hy =>
    refine ⟨y, hy, ?_⟩
    rw [hl.insert_entry x u (mem_cons_of_mem _ hy)]
    exact .refl _

namespace VmMap

/-- Entries have been cut or marked.  An entry starts wherever one did, and each is a part of one
that was there. -/
structure Recut (m : VmMap) (l : List Nat) (m' : VmMap) (l' : List Nat) : Prop
    extends Kept m l m' l' where
  starts : ∀ s ∈ m.hdr.spans l, ∃ t ∈ m'.hdr.spans l', t.1 = s.1
  parts : ∀ x ∈ l', ∃ y ∈ l, (m.hdr.entry y).Part (m'.hdr.entry x)

variable {m m' m'' : VmMap} {l l' l'' l₁ l₂ : List Nat} {e a b : Nat}

theorem Recut.refl (hw : m.Wf l) : Recut m l m l :=
  ⟨.refl hw, fun s hs => ⟨s, hs, rfl⟩, fun x hx => ⟨x, hx, .refl _⟩⟩

theorem Recut.trans (hr : Recut m l m' l') (hr' : Recut m' l' m'' l'') : Recut m l m'' l'' where
  toKept := hr.toKept.trans hr'.toKept
  starts s hs := by
    obtain ⟨t, ht, hst⟩ := hr.starts s hs
    obtain ⟨u, hu, htu⟩ := hr'.starts t ht
    exact ⟨u, hu, htu.trans hst⟩
  parts x hx := by
    obtain ⟨y, hy, hxy⟩ := hr'.parts x hx
    obtain ⟨z, hz, hyz⟩ := hr.parts y hy
    exact ⟨z, hz, hyz.trans hxy⟩

theorem Wf.recut_saveHint (hw : m.Wf l) (he : e ∈ vmMapToEntry :: l) : Recut m l (m.saveHint e) l :=
  ⟨⟨.refl hw.hdr, he, rfl, rfl, rfl⟩, fun s hs => ⟨s, hs, rfl⟩, fun x hx => ⟨x, hx, .refl _⟩⟩

theorem starts_cut {l₁ l₂ : List (Nat × Nat)} {s t : Nat × Nat}
    (ht : t ∈ l₁ ++ s :: l₂) : ∃ u ∈ l₁ ++ (s.1, b) :: (b, s.2) :: l₂, u.1 = t.1 := by
  rw [mem_append, mem_cons] at ht
  rcases ht with ht | rfl | ht
  · exact ⟨t, mem_append_left _ ht, rfl⟩
  · exact ⟨(t.1, b), mem_append_right _ mem_cons_self, rfl⟩
  · exact ⟨t, mem_append_right _ (mem_cons_of_mem _ (mem_cons_of_mem _ ht)), rfl⟩

theorem Wf.recut_clipStart (hw : m.Wf (l₁ ++ e :: l₂)) (ha : (m.hdr.entry e).vmeStart ≤ a)
    (hb : a < (m.hdr.entry e).vmeEnd) :
    ∃ l₁', Recut m (l₁ ++ e :: l₂) (m.clipStart e a) (l₁' ++ e :: l₂) ∧
      ((m.clipStart e a).hdr.entry e).vmeStart = a ∧
      ((m.clipStart e a).hdr.entry e).vmeEnd = (m.hdr.entry e).vmeEnd := by
  rw [clipStart, VmMapHeader.clipStart]
  split
  next hlt =>
    obtain ⟨hstart, hend, -⟩ := hw.hdr.splitStart_entry a
    have hspans : (m.hdr.splitStart e a).spans (l₁ ++ m.hdr.zone :: e :: l₂) =
        m.hdr.spans l₁ ++ ((m.hdr.entry e).vmeStart, a) :: (a, (m.hdr.entry e).vmeEnd) ::
          m.hdr.spans l₂ := by
      exact (hw.hdr.toLists.spans_cut ..).1
    have hkept := hw.kept (hw.hdr.splitStart hlt hb)
    refine ⟨l₁ ++ [m.hdr.zone], ?_, hstart, hend⟩
    rw [← List.append_cons]
    refine ⟨hkept, fun t ht => ?_, fun y hy => ?_⟩
    · rw [hspans]
      rw [spans_append, spans_cons] at ht
      exact starts_cut ht
    · change ∃ z ∈ _, (m.hdr.entry z).Part ((m.hdr.splitStart e a).entry y)
      refine hw.hdr.toLists.part_cut _ ⟨le_rfl, hb.le, rfl, rfl, rfl, rfl, rfl, fun _ => by simp⟩
        ⟨hlt.le, le_rfl, rfl, rfl, rfl, rfl, rfl, Nat.mod_eq_of_lt⟩ ?_
      rw [mem_append, mem_cons] at hy
      rw [mem_append]
      tauto
  next hge => exact ⟨l₁, .refl hw, le_antisymm ha (not_lt.mp hge), rfl⟩

theorem Wf.recut_clipEnd (hw : m.Wf (l₁ ++ e :: l₂)) (hb : (m.hdr.entry e).vmeStart < b) :
    ∃ l₂', Recut m (l₁ ++ e :: l₂) (m.clipEnd e b) (l₁ ++ e :: l₂') ∧
      ((m.clipEnd e b).hdr.entry e).vmeStart = (m.hdr.entry e).vmeStart ∧
      ((m.clipEnd e b).hdr.entry e).vmeEnd = min b (m.hdr.entry e).vmeEnd := by
  rw [clipEnd, VmMapHeader.clipEnd]
  split
  next hlt =>
    obtain ⟨hstart, hend, -⟩ := hw.hdr.splitEnd_entry b
    have hspans : (m.hdr.splitEnd e b).spans (l₁ ++ e :: m.hdr.zone :: l₂) =
        m.hdr.spans l₁ ++ ((m.hdr.entry e).vmeStart, b) :: (b, (m.hdr.entry e).vmeEnd) ::
          m.hdr.spans l₂ := by
      exact (hw.hdr.toLists.spans_cut ..).2
    have hkept := hw.kept (hw.hdr.splitEnd hb hlt)
    refine ⟨m.hdr.zone :: l₂, ⟨hkept, fun t ht => ?_, fun y hy => ?_⟩, hstart, ?_⟩
    · rw [hspans]
      rw [spans_append, spans_cons] at ht
      exact starts_cut ht
    · change ∃ z ∈ _, (m.hdr.entry z).Part ((m.hdr.splitEnd e b).entry y)
      refine hw.hdr.toLists.part_cut _ ⟨hb.le, le_rfl, rfl, rfl, rfl, rfl, rfl, Nat.mod_eq_of_lt⟩
        ⟨le_rfl, hlt.le, rfl, rfl, rfl, rfl, rfl, fun _ => by simp⟩ ?_
      rw [mem_append, mem_cons, mem_cons] at hy
      rw [mem_append, mem_cons]
      tauto
    · rw [min_eq_left hlt.le]
      exact hend
  next hge =>
    refine ⟨l₂, .refl hw, rfl, ?_⟩
    rw [min_eq_right (not_lt.mp hge)]

theorem Wf.recut_setEntry (hw : m.Wf l) (he : e ∈ l) (needsCopy : Bool) : Recut m l
      { m with hdr := m.hdr.setEntry e { m.hdr.entry e with needsCopy := needsCopy } } l := by
  have hentry (x : Nat) :
      ∃ nc, (m.hdr.setEntry e { m.hdr.entry e with needsCopy := needsCopy }).entry x =
      { m.hdr.entry x with needsCopy := nc } := by
    rcases eq_or_ne x e with rfl | hne
    · exact ⟨needsCopy, setEntry_self ..⟩
    · exact ⟨(m.hdr.entry x).needsCopy, setEntry_of_ne _ _ hne⟩
  refine ⟨hw.kept (hw.hdr.cut_setEntry he rfl rfl), fun s hs => ?_, fun x hx => ⟨x, hx, ?_⟩⟩
  · obtain ⟨x, hx, rfl⟩ := mem_map.mp hs
    obtain ⟨nc, hx'⟩ := hentry x
    refine ⟨_, List.mem_map_of_mem hx, ?_⟩
    change ((m.hdr.setEntry e _).entry x).vmeStart = _
    rw [hx']
    rfl
  · obtain ⟨nc, hx'⟩ := hentry x
    change (m.hdr.entry x).Part ((m.hdr.setEntry e _).entry x)
    rw [hx']
    exact ⟨le_rfl, le_rfl, rfl, rfl, rfl, rfl, rfl, fun _ => by simp⟩

theorem Wf.unique (hw : m.Wf l) (hw' : m.Wf l') : l = l' :=
  hw.hdr.ring.unique hw'.hdr.ring

end VmMap

/-! ## What happens to the maps -/

/-- The invariant of a map and of the share maps.  A share map is made for a map that has entries,
so that its bounds differ. -/
structure MapsValid (m : VmMap) (shareMaps : Nat → VmMap) : Prop where
  map : ∃ l, m.Valid l
  share : ∀ n, ∃ l, (shareMaps n).Valid l
  bounds : ∀ n, (shareMaps n).minOffset < (shareMaps n).maxOffset

theorem MapsValid.setShareMap {m m' : VmMap} {shareMaps : Nat → VmMap} (hv : MapsValid m shareMaps)
    (n : Nat) (hm : ∃ l, m'.Valid l) (hbounds : m'.minOffset < m'.maxOffset) :
    MapsValid m (update shareMaps n m') where
  map := hv.map
  share := (forall_update_iff shareMaps fun _ (x : VmMap) => ∃ l, x.Valid l).mpr
    ⟨hm, fun k _ => hv.share k⟩
  bounds := (forall_update_iff shareMaps fun _ (x : VmMap) =>
    x.minOffset < x.maxOffset).mpr ⟨hbounds, fun k _ => hv.bounds k⟩

namespace ObjectOps

variable {σ : Type u}

/-- Other threads keep the invariant. -/
def Keeps (ops : ObjectOps σ) : Prop :=
  ∀ m shareMaps store m' shareMaps' store', MapsValid m shareMaps →
    ops.unlocked m shareMaps store = (some (m', shareMaps'), store') → MapsValid m' shareMaps'

/-- Other threads do not change the maps. -/
def Alone (ops : ObjectOps σ) : Prop :=
  ∀ m shareMaps store, (ops.unlocked m shareMaps store).1 = none

theorem Alone.keeps {ops : ObjectOps σ} (h : ops.Alone) : ops.Keeps := by
  intro m shareMaps store m' shareMaps' store' _ hunlocked
  have hnone := h m shareMaps store
  rw [hunlocked] at hnone
  cases hnone

end ObjectOps

namespace VmSystem

variable {σ : Type u} {ops : ObjectOps σ} {a : CopyinArgs} {s s' s'' : VmSystem σ}

/-- The maps have the invariant.  If other threads do not change them, then entries were cut. -/
structure Evolved (ops : ObjectOps σ) (s s' : VmSystem σ) : Prop where
  valid : MapsValid s'.map s'.shareMaps
  map : ops.Alone → ∀ l, s.map.Wf l → ∃ l', VmMap.Recut s.map l s'.map l'
  shareMaps : ops.Alone → ∀ n l, (s.shareMaps n).Wf l →
    ∃ l', VmMap.Recut (s.shareMaps n) l (s'.shareMaps n) l'

theorem Evolved.of_eq (hv : MapsValid s.map s.shareMaps) (hmap : s'.map = s.map)
    (hshare : s'.shareMaps = s.shareMaps) : Evolved ops s s' := by
  refine ⟨?_, fun _ l hl => ⟨l, ?_⟩, fun _ n l hl => ⟨l, ?_⟩⟩
  · rw [hmap, hshare]
    exact hv
  · rw [hmap]
    exact .refl hl
  · rw [hshare]
    exact .refl hl

theorem Evolved.trans (he : Evolved ops s s') (he' : Evolved ops s' s'') : Evolved ops s s'' where
  valid := he'.valid
  map halone l hl := by
    obtain ⟨l', hr⟩ := he.map halone l hl
    obtain ⟨l'', hr'⟩ := he'.map halone l' (hr.wf hl)
    exact ⟨l'', hr.trans hr'⟩
  shareMaps halone n l hl := by
    obtain ⟨l', hr⟩ := he.shareMaps halone n l hl
    obtain ⟨l'', hr'⟩ := he'.shareMaps halone n l' (hr.wf hl)
    exact ⟨l'', hr.trans hr'⟩

variable {l : List Nat} {srcEntry srcStart tmpEntry stop srcSize : Nat} {new old : VmMapEntry}
  {l' : List Nat}

theorem Evolved.of_map (hv : MapsValid s.map s.shareMaps) (hl : s.map.Wf l)
    (hr : VmMap.Recut s.map l s'.map l') (hshare : s'.shareMaps = s.shareMaps) :
    Evolved ops s s' where
  valid := by
    obtain ⟨l₀, hv₀⟩ := hv.map
    obtain rfl := hl.unique hv₀.toWf
    rw [hshare]
    exact ⟨⟨l', hr.toKept.valid hv₀⟩, hv.share, hv.bounds⟩
  map _ l₀ hl₀ := hl.unique hl₀ ▸ ⟨l', hr⟩
  shareMaps _ n l₀ hl₀ := by
    rw [hshare]
    exact ⟨l₀, .refl hl₀⟩

theorem Evolved.of_share (hv : MapsValid s.map s.shareMaps) {n : Nat} {m' : VmMap}
    (hl : (s.shareMaps n).Wf l) (hr : VmMap.Recut (s.shareMaps n) l m' l') (hmap : s'.map = s.map)
    (hshare : s'.shareMaps = update s.shareMaps n m') : Evolved ops s s' where
  valid := by
    obtain ⟨l₀, hv₀⟩ := hv.share n
    obtain rfl := hl.unique hv₀.toWf
    rw [hmap, hshare]
    refine hv.setShareMap n ⟨l', hr.toKept.valid hv₀⟩ ?_
    rw [VmMap.minOffset, VmMap.maxOffset, minOffset, maxOffset, hr.cut.header]
    exact hv.bounds n
  map _ l₀ hl₀ := by
    rw [hmap]
    exact ⟨l₀, .refl hl₀⟩
  shareMaps _ k l₀ hl₀ := by
    rw [hshare]
    rcases eq_or_ne k n with rfl | hk
    · rw [update_self]
      exact hl.unique hl₀ ▸ ⟨l', hr⟩
    · rw [update_of_ne hk]
      exact ⟨l₀, .refl hl₀⟩

theorem relock_evolved (hops : ops.Keeps) (hv : MapsValid s.map s.shareMaps) :
    Evolved ops s (s.relock ops).2 ∧ ((s.relock ops).1 = false →
        (s.relock ops).2.map = s.map ∧ (s.relock ops).2.shareMaps = s.shareMaps) ∧
      ((s.relock ops).1 = true → ¬ ops.Alone) := by
  rw [relock]
  cases hu : ops.unlocked s.map s.shareMaps s.store with
  | mk r =>
  cases r with
  | none => exact ⟨.of_eq hv rfl rfl, fun _ => ⟨rfl, rfl⟩, fun h => absurd h Bool.false_ne_true⟩
  | some =>
    have hnot (halone : ops.Alone) : False := by
      have hnone := halone s.map s.shareMaps s.store
      rw [hu] at hnone
      cases hnone
    exact ⟨⟨hops _ _ _ _ _ _ hv hu, fun h => (hnot h).elim, fun h => (hnot h).elim⟩,
      fun h => absurd h.symm Bool.false_ne_true, fun _ => hnot⟩

/-! ## Entries -/

/-- An entry of the map that starts at an address. -/
structure TopEntry (s : VmSystem σ) (e start : Nat) : Prop where
  mem : ∃ l, s.map.Wf l ∧ e ∈ l
  start : (s.map.hdr.entry e).vmeStart = start

/-- An entry of a share map. -/
def ShareEntry (s : VmSystem σ) (n e : Nat) : Prop := ∃ l, (s.shareMaps n).Wf l ∧ e ∈ l

variable {e start b n : Nat}

theorem bounds_of_mem {m : VmMap} (hw : m.Wf l) (he : e ∈ l) :
    m.minOffset ≤ (m.hdr.entry e).vmeStart ∧
      (m.hdr.entry e).vmeStart < (m.hdr.entry e).vmeEnd ∧ (m.hdr.entry e).vmeEnd < 2 ^ 32 := by
  obtain ⟨hmin, hlt, hmax⟩ := hw.hdr.spans.mem (List.mem_map_of_mem he)
  exact ⟨hmin, hlt, lt_of_le_of_lt hmax hw.hdr.width⟩

theorem TopEntry.bounds (ht : s.TopEntry e start) :
    start < (s.map.hdr.entry e).vmeEnd ∧ (s.map.hdr.entry e).vmeEnd < 2 ^ 32 := by
  obtain ⟨⟨l, hl, he⟩, hstart⟩ := ht
  exact hstart ▸ (bounds_of_mem hl he).2

theorem TopEntry.congr (ht : s.TopEntry e start) (hmap : s'.map = s.map) : s'.TopEntry e start := by
  obtain ⟨hmem, hstart⟩ := ht
  rw [← hmap] at hmem hstart
  exact ⟨hmem, hstart⟩

section

variable (ops : ObjectOps σ) (hv : MapsValid s.map s.shareMaps)
include hv

theorem TopEntry.clipEnd (ht : s.TopEntry e start) (hb : start < b) :
    Evolved ops s (s.clipEnd ops e b) ∧ (s.clipEnd ops e b).TopEntry e start ∧
      ((s.clipEnd ops e b).map.hdr.entry e).vmeEnd = min b (s.map.hdr.entry e).vmeEnd := by
  obtain ⟨⟨l, hl, he⟩, hstart⟩ := ht
  obtain ⟨l₁, l₂, rfl⟩ := List.append_of_mem he
  obtain ⟨l₂', hr, hstart', hend'⟩ := hl.recut_clipEnd (hstart ▸ hb)
  exact ⟨.of_map hv hl hr rfl,
    ⟨⟨_, hr.wf hl, mem_append_right l₁ mem_cons_self⟩, hstart'.trans hstart⟩, hend'⟩

/-- The map is looked up at an address.  If an entry is found then it is clipped to start there. -/
theorem lookupEntry_evolved (a : Nat) :
    Evolved ops s { s with map := (s.map.lookupEntry a).2.2 } ∧ ((s.map.lookupEntry a).1 = true →
        let s' := { s with map := (s.map.lookupEntry a).2.2 }.clipStart ops
            (s.map.lookupEntry a).2.1 a
        Evolved ops s s' ∧ s'.TopEntry (s.map.lookupEntry a).2.1 a) := by
  obtain ⟨l, hl⟩ := hv.map
  have hlookup := (VmMap.lookupEntry_spec hl.toWf a).lookup
  obtain ⟨x, hx, hm⟩ := VmMap.lookupEntry_hint hl.toWf a
  generalize s.map.lookupEntry a = r at hlookup hm ⊢
  obtain ⟨found, e, m⟩ := r
  subst hm
  have hwf : (s.map.saveHint x).Wf l := hl.toWf.saveHint hx
  have hev : Evolved ops s { s with map := s.map.saveHint x } :=
    .of_map hv hl.toWf (hl.toWf.recut_saveHint hx) rfl
  refine ⟨hev, fun hfound => ?_⟩
  cases hlookup with
  | between hl' => cases hfound
  | found hl' hstart hend =>
    subst hl'
    obtain ⟨l₁', hr, hstart', -⟩ := hwf.recut_clipStart hstart hend
    refine ⟨hev.trans (.of_map hev.valid hwf hr rfl), ⟨_, hr.wf hwf, ?_⟩, hstart'⟩
    exact mem_append_right l₁' mem_cons_self

theorem setShareMap_evolved (n offset : Nat) :
    Evolved ops s (s.setShareMap n ((s.shareMaps n).lookupEntry offset).2.2) := by
  obtain ⟨l, hl⟩ := hv.share n
  obtain ⟨x, hx, hm⟩ := VmMap.lookupEntry_hint hl.toWf offset
  rw [hm]
  exact .of_share hv hl.toWf (hl.toWf.recut_saveHint hx) rfl rfl

theorem clipShareStart_spec
    (hl : (s.shareMaps n).Wf l) (he : e ∈ l) (ha : ((s.shareMaps n).hdr.entry e).vmeStart ≤ b)
    (hb : b < ((s.shareMaps n).hdr.entry e).vmeEnd) :
    Evolved ops s (s.clipShareStart ops n e b) ∧ (s.clipShareStart ops n e b).ShareEntry n e ∧
      (((s.clipShareStart ops n e b).shareMaps n).hdr.entry e).vmeStart = b := by
  obtain ⟨l₁, l₂, rfl⟩ := List.append_of_mem he
  obtain ⟨l₁', hr, hstart, -⟩ := hl.recut_clipStart ha hb
  have hself : (s.clipShareStart ops n e b).shareMaps n = (s.shareMaps n).clipStart e b :=
    update_self ..
  refine ⟨.of_share hv hl hr rfl rfl, ⟨l₁' ++ e :: l₂, ?_, ?_⟩, ?_⟩
  · rw [hself]
    exact hr.wf hl
  · exact mem_append_right l₁' mem_cons_self
  · rw [hself]
    exact hstart

theorem ShareEntry.clipEnd
    (hs : s.ShareEntry n e) (hb : ((s.shareMaps n).hdr.entry e).vmeStart < b) :
    Evolved ops s (s.clipShareEnd ops n e b) ∧ (s.clipShareEnd ops n e b).ShareEntry n e := by
  obtain ⟨l, hl, he⟩ := hs
  obtain ⟨l₁, l₂, rfl⟩ := List.append_of_mem he
  obtain ⟨l₂', hr, -, -⟩ := hl.recut_clipEnd hb
  have hself : (s.clipShareEnd ops n e b).shareMaps n = (s.shareMaps n).clipEnd e b :=
    update_self ..
  refine ⟨.of_share hv hl hr rfl rfl, l₁ ++ e :: l₂', ?_, ?_⟩
  · rw [hself]
    exact hr.wf hl
  · exact mem_append_right l₁ mem_cons_self

end

/-- An entry is followed to its object. -/
structure Followed (ops : ObjectOps σ) (s : VmSystem σ) (srcEntry srcStart tmpEntry size : Nat)
    (s' : VmSystem σ) : Prop where
  evolved : Evolved ops s s'
  entry : s'.TopEntry srcEntry srcStart
  stop : (s'.map.hdr.entry srcEntry).vmeEnd = srcStart + size
  stop_le : (s'.map.hdr.entry srcEntry).vmeEnd ≤ (s.map.hdr.entry srcEntry).vmeEnd
  share : (s'.map.hdr.entry srcEntry).isAMap = true →
    s'.ShareEntry (s'.map.hdr.entry srcEntry).object tmpEntry

theorem followShareMap_spec (hv : MapsValid s.map s.shareMaps) {size : Nat}
    (ht : s.TopEntry srcEntry srcStart)
    (h : s.followShareMap ops srcEntry srcStart ((s.map.hdr.entry srcEntry).vmeEnd - srcStart) =
      some (tmpEntry, size, s')) :
    Followed ops s srcEntry srcStart tmpEntry size s' := by
  have hbounds := ht.bounds
  generalize hsize : (s.map.hdr.entry srcEntry).vmeEnd - srcStart = srcSize at h
  have hend : (s.map.hdr.entry srcEntry).vmeEnd = srcStart + srcSize := by omega
  simp only [followShareMap] at h
  split at h
  next hmap =>
    generalize hn : (s.map.hdr.entry srcEntry).object = n at h
    generalize hoffset : (s.map.hdr.entry srcEntry).offset = offset at h
    obtain ⟨l, hl⟩ := hv.share n
    have hlookup := (VmMap.lookupEntry_spec hl.toWf offset).lookup
    have hset := setShareMap_evolved ops hv n offset
    rw [show (s.lock (.share n)).shareMaps = s.shareMaps from rfl] at h
    obtain ⟨x, hx, hm⟩ := VmMap.lookupEntry_hint hl.toWf offset
    generalize (s.shareMaps n).lookupEntry offset = r at h hlookup hset hm
    obtain ⟨found, tmp, m⟩ := r
    have hm' : m = (s.shareMaps n).saveHint x := hm
    cases hlookup with
    | between hl => cases h
    | found hl' hstart hstop =>
      rename_i l₁ l₂
      have hmem : tmp ∈ l := hl' ▸ mem_append_right l₁ mem_cons_self
      simp only at h
      generalize hs₁ : (s.lock (.share n)).setShareMap n m = s₁ at h
      have hset : Evolved ops s s₁ := hs₁ ▸ hset.trans (.of_eq hset.valid rfl rfl)
      have hself : s₁.shareMaps n = m := by rw [← hs₁]; exact update_self ..
      have hmap₁ : s₁.map = s.map := by rw [← hs₁]; rfl
      have hwf₁ : (s₁.shareMaps n).Wf l := by rw [hself, hm']; exact hl.toWf.saveHint hx
      have hentry₁ : (s₁.shareMaps n).hdr.entry tmp = (s.shareMaps n).hdr.entry tmp := by
        rw [hself, hm']; rfl
      obtain ⟨hclip, hshare, hstart₂⟩ := clipShareStart_spec (b := offset) ops hset.valid hwf₁ hmem
        (by rw [hentry₁]; exact hstart) (by rw [hentry₁]; exact hstop)
      have hmap₂ : (s₁.clipShareStart ops n tmp offset).map = s.map := hmap₁
      generalize s₁.clipShareStart ops n tmp offset = s₂ at h hclip hshare hstart₂ hmap₂
      have hev := hset.trans hclip
      have hbounds₂ : offset < ((s₂.shareMaps n).hdr.entry tmp).vmeEnd ∧
          ((s₂.shareMaps n).hdr.entry tmp).vmeEnd < 2 ^ 32 := by
        obtain ⟨l, hl, he⟩ := hshare
        exact hstart₂ ▸ (bounds_of_mem hl he).2
      have hsame {s₃ : VmSystem σ} (hev₃ : Evolved ops s s₃) (hmap₃ : s₃.map = s.map)
          (hshare₃ : s₃.ShareEntry n tmp) : Followed ops s srcEntry srcStart tmp srcSize s₃ := by
        refine ⟨hev₃, ht.congr hmap₃, ?_, ?_, fun _ => ?_⟩ <;> rw [hmap₃]
        · exact hend
        · exact hn ▸ hshare₃
      simp only [hstart₂] at h
      generalize hsub : ((s₂.shareMaps n).hdr.entry tmp).vmeEnd - offset = subSize at h
      split at h
      next hlt =>
        cases h
        rw [Nat.mod_eq_of_lt (by omega : offset + size < 2 ^ 32)]
        obtain ⟨hclip', hshare'⟩ := hshare.clipEnd ops hev.valid (b := offset + size) (by omega)
        exact hsame (hev.trans hclip') hmap₂ hshare'
      next =>
      split at h
      next =>
        cases h
        rw [Nat.mod_eq_of_lt (by omega : srcStart + size < 2 ^ 32)]
        obtain ⟨hclip', ht', hend'⟩ :=
          (ht.congr hmap₂).clipEnd ops hev.valid (b := srcStart + size) (by omega)
        have hobject := (s₂.map.hdr.clipEnd_object srcEntry (srcStart + size)).2
        rw [hmap₂] at hend'
        refine ⟨hev.trans hclip', ht', by omega, ?_, fun _ => ?_⟩
        · rw [hend']
          exact min_le_right ..
        · change ShareEntry _ ((s₂.map.hdr.clipEnd srcEntry _).entry srcEntry).object tmpEntry
          rw [hobject, hmap₂, hn]
          exact hshare
      cases h
      exact hsame hev hmap₂ hshare
  next hmap =>
    cases h
    exact ⟨.of_eq hv rfl rfl, ht, hend, le_rfl, fun hx => absurd hx hmap⟩

/-! ## The copy of an object -/

/-- What the copy of an object does to the maps, for an entry that starts at `srcStart` and ends at
`stop`. -/
inductive CopiedFrom (ops : ObjectOps σ) (s : VmSystem σ) (srcStart stop : Nat) :
    EntryCopied σ → Prop
  | success {new : VmMapEntry} {srcEntry : Nat} {s' : VmSystem σ} (hev : Evolved ops s s')
      (ht : s'.TopEntry srcEntry srcStart) (hstart : new.vmeStart = srcStart)
      (hlt : srcStart < new.vmeEnd) (hle : new.vmeEnd ≤ (s'.map.hdr.entry srcEntry).vmeEnd)
      (hstop : new.vmeEnd ≤ stop) : CopiedFrom ops s srcStart stop (.success new srcEntry s')
  | again {srcEntry : Nat} {s' : VmSystem σ} (hev : Evolved ops s s')
      (ht : s'.TopEntry srcEntry srcStart) (halone : ¬ ops.Alone) : CopiedFrom ops s srcStart stop
      (.again srcEntry s')
  | fail {kr : VmReturn} {s' : VmSystem σ} (hev : Evolved ops s s') :
      CopiedFrom ops s srcStart stop (.fail kr s')

theorem CopiedFrom.trans {r : EntryCopied σ} (hev : Evolved ops s s')
    (hr : CopiedFrom ops s' srcStart stop r) : CopiedFrom ops s srcStart stop r := by
  cases hr with
  | success hev' ht hstart hlt hle hstop =>
    exact .success (hev.trans hev') ht hstart hlt hle hstop
  | again hev' ht halone => exact .again (hev.trans hev') ht halone
  | fail hev' => exact .fail (hev.trans hev')

theorem lookup_nonempty (hv : MapsValid s.map s.shareMaps) (n offset : Nat) :
    let r := (s.shareMaps n).lookupEntry offset
    (r.2.2.hdr.entry r.2.1).vmeStart < (r.2.2.hdr.entry r.2.1).vmeEnd := by
  intro r
  obtain ⟨l, hl⟩ := hv.share n
  have hmem := (VmMap.lookupEntry_spec hl.toWf offset).lookup.mem
  obtain ⟨x, -, hm⟩ := VmMap.lookupEntry_hint hl.toWf offset
  have hentry : r.2.2.hdr.entry r.2.1 = (s.shareMaps n).hdr.entry r.2.1 := by
    rw [hm]
    rfl
  rw [hentry]
  cases mem_cons.mp hmem with
  | inl hheader =>
    have hheader : r.2.1 = vmMapToEntry := hheader
    rw [hheader]
    exact hv.bounds n
  | inr he => exact (bounds_of_mem hl.toWf he).2.1

section

variable (halone : ¬ ops.Alone) (hv : MapsValid s.map s.shareMaps)
include halone hv

theorem copyAgain_spec (ht : s.TopEntry srcEntry srcStart) :
    CopiedFrom ops s srcStart stop (s.copyAgain ops new srcEntry) :=
  .again (.of_eq hv rfl rfl) (ht.congr rfl) halone

/-- An entry of a share map is found where the copy was made. -/
theorem verifyShare_spec (ht : s.TopEntry srcEntry srcStart)
    (hstart : new.vmeStart = srcStart) (hsize : new.vmeEnd = srcStart + srcSize)
    (hpos : 0 < srcSize) (hle : new.vmeEnd ≤ (s.map.hdr.entry srcEntry).vmeEnd)
    (hstop : new.vmeEnd ≤ stop) :
    CopiedFrom ops s srcStart stop (s.verifyShare ops srcEntry srcSize old new) := by
  have hshare := setShareMap_evolved ops hv (s.map.hdr.entry srcEntry).object
    (s.map.hdr.entry srcEntry).offset
  have hnonempty := lookup_nonempty hv (s.map.hdr.entry srcEntry).object
    (s.map.hdr.entry srcEntry).offset
  simp only [verifyShare]
  generalize (s.shareMaps (s.map.hdr.entry srcEntry).object).lookupEntry
    (s.map.hdr.entry srcEntry).offset = r at hshare hnonempty ⊢
  obtain ⟨found, tmp, m⟩ := r
  simp only at hnonempty ⊢
  have hlocked (n : Nat) (hev : Evolved ops s (s.setShareMap n m)) :
      Evolved ops s (((s.lock (.share n)).setShareMap n m).unlock (.share n)) :=
    hev.trans (.of_eq hev.valid rfl rfl)
  have hev := hlocked _ hshare
  split
  next => exact .trans hev (copyAgain_spec halone hev.valid (ht.congr rfl))
  split
  next hlt =>
    have hless : new.vmeStart + ((m.hdr.entry tmp).vmeEnd - (m.hdr.entry tmp).vmeStart) ≤
        new.vmeEnd := by
      omega
    refine .success hev (ht.congr rfl) hstart ?_ (hless.trans hle) (hless.trans hstop)
    change srcStart < new.vmeStart + _
    omega
  next => exact .success hev (ht.congr rfl) hstart (by omega) hle hstop

/-- An entry is found where the copy was made. -/
theorem verifyCopy_spec (hstart : new.vmeStart = srcStart)
    (hsize : new.vmeEnd = srcStart + srcSize) (hpos : 0 < srcSize) (hstop : new.vmeEnd ≤ stop) :
    CopiedFrom ops s srcStart stop (s.verifyCopy ops srcStart srcSize old new) := by
  obtain ⟨hmap, hclip⟩ := lookupEntry_evolved ops hv srcStart
  simp only [verifyCopy]
  generalize s.map.lookupEntry srcStart = r at hmap hclip ⊢
  obtain ⟨found, srcEntry, m⟩ := r
  cases found with
  | false => exact .fail hmap
  | true =>
    obtain ⟨hev, ht⟩ := hclip rfl
    simp only
    generalize { s with map := m }.clipStart ops srcEntry srcStart = s₁ at hev ht ⊢
    have hlt : srcStart < (s₁.map.hdr.entry srcEntry).vmeEnd := ht.bounds.1
    refine .trans hev ?_
    split
    next => exact copyAgain_spec halone hev.valid ht
    next =>
    generalize hsize' : (if (s₁.map.hdr.entry srcEntry).vmeEnd < new.vmeEnd then
      (s₁.map.hdr.entry srcEntry).vmeEnd - srcStart else srcSize) = size
    generalize hnew' : (if (s₁.map.hdr.entry srcEntry).vmeEnd < new.vmeEnd then
      { new with vmeEnd := (s₁.map.hdr.entry srcEntry).vmeEnd } else new) = new'
    have hnew : new'.vmeStart = srcStart ∧ new'.vmeEnd = srcStart + size ∧ 0 < size ∧
        new'.vmeEnd ≤ (s₁.map.hdr.entry srcEntry).vmeEnd ∧ new'.vmeEnd ≤ stop := by
      rw [← hsize', ← hnew']
      split
      next hclipped =>
        refine ⟨hstart, ?_, ?_, le_rfl, ?_⟩
        · change (s₁.map.hdr.entry srcEntry).vmeEnd = _
          omega
        · omega
        · exact (le_of_lt hclipped).trans hstop
      next hclipped => exact ⟨hstart, hsize, hpos, not_lt.mp hclipped, hstop⟩
    obtain ⟨hstart', hsize', hpos', hle', hstop'⟩ := hnew
    split
    next =>
      exact verifyShare_spec halone hev.valid ht hstart' hsize' hpos' hle' hstop'
    next =>
      split
      next => exact copyAgain_spec halone hev.valid ht
      next => exact .success (.of_eq hev.valid rfl rfl) ht hstart' (by omega) hle' hstop'

end

theorem unlockShare_maps (v : VmMapEntry) (s : VmSystem σ) :
    (s.unlockShare v).map = s.map ∧ (s.unlockShare v).shareMaps = s.shareMaps := by
  rw [unlockShare]
  split <;> exact ⟨rfl, rfl⟩

theorem newEntry_span (srcEntry tmpEntry : Nat) (s : VmSystem σ) :
    (s.newEntry srcEntry tmpEntry).vmeStart = (s.map.hdr.entry srcEntry).vmeStart ∧
      (s.newEntry srcEntry tmpEntry).vmeEnd = (s.map.hdr.entry srcEntry).vmeEnd := by
  simp only [newEntry]
  split <;> exact ⟨rfl, rfl⟩

theorem copyUnlocked_spec (hops : ops.Keeps)
    (hv : MapsValid s.map s.shareMaps) (ht : s.TopEntry srcEntry srcStart)
    (hend : (s.map.hdr.entry srcEntry).vmeEnd = srcStart + srcSize) (hpos : 0 < srcSize) :
    CopiedFrom ops s srcStart (s.map.hdr.entry srcEntry).vmeEnd
      (s.copyUnlocked ops a srcEntry tmpEntry srcStart srcSize) := by
  obtain ⟨hnewStart, hnewEnd⟩ := newEntry_span srcEntry tmpEntry s
  simp only [copyUnlocked]
  generalize hs₁ : ({ s with
    store := ops.reference (s.objectEntry srcEntry tmpEntry).object s.store }.unlockShare
      (s.map.hdr.entry srcEntry)).unlock .main = s₁
  obtain ⟨hmap, hshare⟩ : s₁.map = s.map ∧ s₁.shareMaps = s.shareMaps := by
    rw [← hs₁]
    exact unlockShare_maps ..
  have hv₁ : MapsValid s₁.map s₁.shareMaps := by rw [hmap, hshare]; exact hv
  split
  next store _ =>
    have hrelock := (relock_evolved (s := { s₁ with store := store }) hops hv₁).1
    have hstored : Evolved ops s { s₁ with store := store } := .of_eq hv hmap hshare
    exact .fail (hstored.trans hrelock)
  rename_i new store hnew
  obtain ⟨hstart', hend'⟩ : new.vmeStart = _ ∧ new.vmeEnd = _ := by
    rw [copyContents] at hnew
    split at hnew
    next =>
      cases hnew
      exact ⟨rfl, rfl⟩
    next =>
      split at hnew
      next => cases hnew
      next =>
        cases hnew
        exact ⟨rfl, rfl⟩
  obtain ⟨hrelock, hkeep, hchanged⟩ := relock_evolved
    (s := { s₁ with store := ops.deallocate (s.objectEntry srcEntry tmpEntry).object store })
    hops hv₁
  have hstart' : new.vmeStart = srcStart := hstart'.trans (hnewStart.trans ht.start)
  have hend' : new.vmeEnd = (s.map.hdr.entry srcEntry).vmeEnd := hend'.trans hnewEnd
  have hstored : Evolved ops s { s₁ with
      store := ops.deallocate (s.objectEntry srcEntry tmpEntry).object store } :=
    .of_eq hv hmap hshare
  have hev := hstored.trans hrelock
  generalize relock ops { s₁ with store := ops.deallocate _ store } = r at hev hkeep hchanged ⊢
  obtain ⟨changed, s₂⟩ := r
  cases changed with
  | false =>
    obtain ⟨hmap₂, -⟩ := hkeep rfl
    have hmap₂ : s₂.map = s.map := hmap₂.trans hmap
    refine .success hev (ht.congr hmap₂) hstart' (by omega) ?_ hend'.le
    rw [hmap₂]
    exact hend'.le
  | true =>
    exact .trans hev (verifyCopy_spec (hchanged rfl) hev.valid hstart' (hend'.trans hend) hpos
      hend'.le)

theorem setNeedsCopy_evolved (ops : ObjectOps σ)
    (hv : MapsValid s.map s.shareMaps) (ht : s.TopEntry srcEntry srcStart)
    (hshare : (s.map.hdr.entry srcEntry).isAMap = true →
      s.ShareEntry (s.map.hdr.entry srcEntry).object tmpEntry) :
    Evolved ops s (s.setNeedsCopy srcEntry tmpEntry) ∧
      (s.setNeedsCopy srcEntry tmpEntry).TopEntry srcEntry srcStart ∧
      ((s.setNeedsCopy srcEntry tmpEntry).map.hdr.entry srcEntry).vmeEnd =
        (s.map.hdr.entry srcEntry).vmeEnd := by
  obtain ⟨⟨l, hl, he⟩, hstart⟩ := ht
  simp only [setNeedsCopy]
  split
  next hmap =>
    obtain ⟨ls, hls, hes⟩ := hshare hmap
    have hr := hls.recut_setEntry hes true
    exact ⟨.of_share hv hls hr rfl rfl, ⟨⟨l, hl, he⟩, hstart⟩, rfl⟩
  have hr := hl.recut_setEntry he true
  refine ⟨.of_map hv hl hr rfl, ⟨⟨l, hr.wf hl, he⟩, ?_⟩, ?_⟩
  · change ((s.map.hdr.setEntry srcEntry _).entry srcEntry).vmeStart = srcStart
    rw [setEntry_self]
    exact hstart
  · change ((s.map.hdr.setEntry srcEntry _).entry srcEntry).vmeEnd = _
    rw [setEntry_self]

/-- The copy of an object keeps the invariant. -/
theorem copyEntry_spec (hops : ops.Keeps)
    (hv : MapsValid s.map s.shareMaps) (ht : s.TopEntry srcEntry srcStart)
    (hend : (s.map.hdr.entry srcEntry).vmeEnd = srcStart + srcSize)
    (hshare : (s.map.hdr.entry srcEntry).isAMap = true →
      s.ShareEntry (s.map.hdr.entry srcEntry).object tmpEntry) :
    CopiedFrom ops s srcStart (s.map.hdr.entry srcEntry).vmeEnd
      (s.copyEntry ops a srcEntry tmpEntry srcStart srcSize) := by
  obtain ⟨hnewStart, hnewEnd⟩ := newEntry_span srcEntry tmpEntry s
  have hlt := ht.bounds.1
  simp only [copyEntry]
  split
  next =>
    split <;> exact .success (.of_eq hv rfl rfl) (ht.congr rfl) (hnewStart.trans ht.start)
      (hnewEnd.symm ▸ hlt) hnewEnd.le hnewEnd.le
  split
  next needsCopy store _ =>
    generalize hs₁ : (if (needsCopy && !(s.objectEntry srcEntry tmpEntry).needsCopy) = true then
      { s with store := store }.setNeedsCopy srcEntry tmpEntry else { s with store := store }) = s₁
    have hmarked : Evolved ops s s₁ ∧ s₁.TopEntry srcEntry srcStart ∧
        (s₁.map.hdr.entry srcEntry).vmeEnd = (s.map.hdr.entry srcEntry).vmeEnd := by
      rw [← hs₁]
      split
      next =>
        obtain ⟨hev, ht', hend'⟩ := setNeedsCopy_evolved ops (s := { s with store := store }) hv
          (ht.congr rfl) hshare
        have hstored : Evolved ops s { s with store := store } := .of_eq hv rfl rfl
        exact ⟨hstored.trans hev, ht', hend'⟩
      next => exact ⟨.of_eq hv rfl rfl, ht.congr rfl, rfl⟩
    obtain ⟨hev, ht', hend'⟩ := hmarked
    obtain ⟨hmap, hshareMaps⟩ := unlockShare_maps (s.map.hdr.entry srcEntry) s₁
    refine .success (hev.trans (.of_eq hev.valid hmap hshareMaps)) (ht'.congr hmap)
      (hnewStart.trans ht.start) (hnewEnd.symm ▸ hlt) ?_ hnewEnd.le
    rw [hmap, hend']
    exact hnewEnd.le
  next => exact copyUnlocked_spec hops hv ht hend (by omega)

end VmSystem

/-! ## The loop -/

namespace CopyinLoop

variable {σ : Type u} {ops : ObjectOps σ} {a : CopyinArgs} {c : CopyinLoop σ}
  {s : VmSystem σ} {fuel : Nat}

/-- The entries of a copy, without gaps from the start of the region up to an address. -/
structure Chain (a : CopyinArgs) (copy : VmMapHeader) (l : List Nat) (stop : Nat) : Prop
    extends Lists copy l where
  filled : Filled a.srcStart stop (copy.spans l)
  header : copy.entry vmMapToEntry = a.copy.entry vmMapToEntry

theorem Chain.empty (a : CopyinArgs) : Chain a a.copy [] a.srcStart where
  ring := ⟨List.nodup_singleton _, List.isChain_cons_cons.mpr ⟨⟨rfl, rfl⟩, .singleton _⟩⟩
  count := rfl
  zone e he := by
    rw [List.mem_singleton.mp he]
    exact Nat.zero_lt_one
  filled := rfl
  header := rfl

theorem Chain.link {copy : VmMapHeader} {l : List Nat} {v : VmMapEntry}
    (hc : Chain a copy l v.vmeStart) (hlt : v.vmeStart < v.vmeEnd) :
    Chain a (copy.insert (copy.prev vmMapToEntry) v) (l ++ [copy.zone]) v.vmeEnd := by
  have hprev := hc.ring.prev_header
  have hl : copy.Lists (l ++ []) := (List.append_nil l).symm ▸ hc.toLists
  have hspans := hl.spans_insert (copy.prev vmMapToEntry) v
  refine ⟨hprev ▸ hl.insert v, ?_, ?_⟩
  · rw [hspans]
    exact hc.filled.concat hlt
  · rw [hc.toLists.insert_entry _ v mem_cons_self]
    exact hc.header

/-- The invariant of the loop. -/
structure Inv (a : CopyinArgs) (c : CopyinLoop σ) : Prop where
  valid : MapsValid c.sys.map c.sys.shareMaps
  entry : c.sys.TopEntry c.tmpEntry c.srcStart
  start_lt : c.srcStart < a.srcEnd
  chain : ∃ l, Chain a c.copy l c.srcStart

/-- What a round does. -/
inductive Stepped (ops : ObjectOps σ) (a : CopyinArgs) (c : CopyinLoop σ) : CopyinStep σ → Prop
  | next {c' : CopyinLoop σ} (hev : VmSystem.Evolved ops c.sys c'.sys) (hinv : Inv a c')
      (hlt : ops.Alone → c.srcStart < c'.srcStart) : Stepped ops a c (.next c')
  | finished {c' : CopyinLoop σ} {l : List Nat} (hev : VmSystem.Evolved ops c.sys c'.sys)
      (hchain : Chain a c'.copy l a.srcEnd) : Stepped ops a c (.finished c')
  | fail {kr : VmReturn} {c' : CopyinLoop σ} (hev : VmSystem.Evolved ops c.sys c'.sys) :
      Stepped ops a c (.fail kr c')
  | panicked : Stepped ops a c .panicked

theorem topEntry_next {e start stop : Nat} (ht : s.TopEntry e start)
    (hlt : start < stop) (hnext : (s.map.hdr.entry (s.map.hdr.next e)).vmeStart = stop) :
    s.TopEntry (s.map.hdr.next e) stop := by
  obtain ⟨⟨l, hl, he⟩, hstart⟩ := ht
  have hmin := (VmSystem.bounds_of_mem hl he).1
  obtain ⟨l₁, l₂, rfl⟩ := List.append_of_mem he
  have hnext_eq : s.map.hdr.next e = l₂.headD vmMapToEntry := hl.hdr.ring.next_eq
  refine ⟨⟨_, hl, ?_⟩, hnext⟩
  cases l₂ with
  | nil =>
    rw [hnext_eq] at hnext
    change s.map.minOffset = stop at hnext
    omega
  | cons =>
    rw [hnext_eq]
    exact mem_append_right l₁ (mem_cons_of_mem e mem_cons_self)

theorem linkEntry_spec (hinv : Inv a c) {new : VmMapEntry} {srcEntry : Nat}
    (hev : VmSystem.Evolved ops c.sys s) (ht : s.TopEntry srcEntry c.srcStart)
    (hstart : new.vmeStart = c.srcStart) (hlt : c.srcStart < new.vmeEnd)
    (hle : new.vmeEnd ≤ a.srcEnd) : Stepped ops a c (c.linkEntry a new srcEntry s) := by
  obtain ⟨l, hchain⟩ := hinv.chain
  have hlink := Chain.link (hstart ▸ hchain) (hstart ▸ hlt)
  simp only [linkEntry]
  split
  next hend =>
    have hend : new.vmeEnd = a.srcEnd := le_antisymm hle hend.1
    exact .finished hev (hend ▸ hlink)
  rename_i hend
  have hend : new.vmeEnd < a.srcEnd := by
    have hne : a.srcEnd ≠ 0 := by omega
    exact Nat.lt_of_not_le fun hx => hend ⟨hx, hne⟩
  split
  next => exact .fail hev
  next hnext =>
    have hnext := of_not_not hnext
    exact .next hev ⟨hev.valid, topEntry_next ht hlt hnext, hend, _, hlink⟩ fun _ => hlt

theorem step_spec (hops : ops.Keeps) (hinv : Inv a c) : Stepped ops a c (c.step ops a) := by
  obtain ⟨hclip, ht, hend⟩ := hinv.entry.clipEnd ops hinv.valid hinv.start_lt
  rw [step]
  split
  next => exact .fail (.of_eq hinv.valid rfl rfl)
  cases hfollow : c.follow ops a with
  | none => exact .panicked
  | some r =>
    obtain ⟨tmpEntry, size, s⟩ := r
    have hfollowed := VmSystem.followShareMap_spec hclip.valid ht hfollow
    have hev := hclip.trans hfollowed.evolved
    have hle : (s.map.hdr.entry c.tmpEntry).vmeEnd ≤ a.srcEnd := by
      have hle := hfollowed.stop_le
      rw [hend] at hle
      exact hle.trans (min_le_left ..)
    have hcopied : VmSystem.CopiedFrom ops s c.srcStart _
        (s.copyEntry ops a c.tmpEntry tmpEntry c.srcStart size) :=
      VmSystem.copyEntry_spec hops hev.valid hfollowed.entry hfollowed.stop hfollowed.share
    simp only
    generalize s.copyEntry ops a c.tmpEntry tmpEntry c.srcStart size = r at hcopied ⊢
    cases hcopied with
    | success hev' ht' hstart hlt hle' hstop =>
      exact linkEntry_spec hinv (hev.trans hev') ht' hstart hlt (hstop.trans hle)
    | again hev' ht' halone =>
      exact .next (hev.trans hev') ⟨hev'.valid, ht', hinv.start_lt, hinv.chain⟩
        fun h => absurd h halone
    | fail hev' => exact .fail (hev.trans hev')

theorem run_spec (hops : ops.Keeps) (hinv : Inv a c) {r : CopyinStep σ}
    (hr : c.run ops a fuel = some r) : Stepped ops a c r ∧ ∀ c', r ≠ .next c' := by
  induction fuel generalizing c with
  | zero => cases hr
  | succ fuel ih =>
    have hstep := step_spec hops hinv
    rcases run_succ ops a hr with ⟨c', hc, hr⟩ | ⟨hc, hnext⟩
    · rw [hc] at hstep
      cases hstep with
      | next hev hinv' _ =>
        obtain ⟨hrest, hnext⟩ := ih hinv' hr
        refine ⟨?_, hnext⟩
        cases hrest with
        | next _ _ _ => exact absurd rfl (hnext _)
        | finished hev' hchain => exact .finished (hev.trans hev') hchain
        | fail hev' => exact .fail (hev.trans hev')
        | panicked => exact .panicked
    · exact ⟨hc ▸ hstep, hnext⟩

/-- If other threads do not change the maps then the loop ends after as many rounds as the region
has addresses. -/
theorem run_ends (halone : ops.Alone) (hinv : Inv a c)
    (hfuel : a.srcEnd - c.srcStart ≤ fuel) : ∃ r, c.run ops a fuel = some r := by
  induction fuel generalizing c with
  | zero =>
    have hlt := hinv.start_lt
    omega
  | succ fuel ih =>
    have hstep := step_spec halone.keeps hinv
    rw [run]
    cases hc : c.step ops a with
    | next =>
      rw [hc] at hstep
      cases hstep with
      | next hev hinv' hlt =>
        have hlt := hlt halone
        exact ih hinv' (by omega)
    | _ => exact ⟨_, rfl⟩

end CopyinLoop

/-! ## The call -/

variable {pageMask : Nat} {x : Nat}

theorem truncPage_aligned (hmask : pageMask < 2 ^ 32) (hx : x < 2 ^ 32)
    (haligned : x &&& pageMask = 0) : truncPage pageMask x = x := by
  have hsum := land_add_land_not32 hx hmask
  rw [haligned, zero_add] at hsum
  exact hsum

theorem roundPage_aligned (hmask : pageMask < 2 ^ 32) (hx : x < 2 ^ 32)
    (haligned : x &&& pageMask = 0) : roundPage pageMask x = x := by
  have htrunc : x &&& not32 pageMask = x := truncPage_aligned hmask hx haligned
  have hself := land_add_land_not32 hmask hmask
  rw [Nat.and_self, Nat.add_eq_left] at hself
  have hlt : x ||| pageMask < 2 ^ 32 := Nat.or_lt_two_pow hx hmask
  have hsum := land_add_land_not32 hlt hmask
  simp only [Nat.and_or_distrib_right, haligned, htrunc, hself, Nat.and_self, Nat.zero_or,
    Nat.or_zero] at hsum
  rw [roundPage, roundMask, Nat.add_comm, hsum, Nat.mod_eq_of_lt hlt,
    Nat.and_or_distrib_right, htrunc,
    hself, Nat.or_zero]

namespace CopyinArgs

/-- The arguments have 32 bits, and the region starts and ends at page boundaries. -/
structure Aligned (a : CopyinArgs) : Prop where
  pageMask : a.pageMask < 2 ^ 32
  srcAddr : a.srcAddr < 2 ^ 32
  len : a.len < 2 ^ 32
  start : a.srcAddr &&& a.pageMask = 0
  stop : (a.srcAddr + a.len) % 2 ^ 32 &&& a.pageMask = 0

/-- The region is not empty if it passes the checks. -/
def Checked (a : CopyinArgs) : Prop :=
  a.len ≠ 0 → ¬ (a.srcEnd ≤ a.srcStart ∧ (a.srcEnd < a.srcStart ∨ a.srcStart ≠ 0)) →
    a.srcStart < a.srcEnd

theorem Aligned.checked {a : CopyinArgs} (ha : a.Aligned) : a.Checked := by
  intro hlen hcheck
  have hstart : a.srcStart = a.srcAddr := truncPage_aligned ha.pageMask ha.srcAddr ha.start
  have hstop : a.srcEnd = (a.srcAddr + a.len) % 2 ^ 32 :=
    roundPage_aligned ha.pageMask (Nat.mod_lt _ (Nat.two_pow_pos 32)) ha.stop
  have hlt := ha.len
  omega

end CopyinArgs

namespace VmSystem

variable {σ : Type u} {ops : ObjectOps σ} {a : CopyinArgs} {s s' : VmSystem σ} {m : VmMap}

/-- A share map that is destroyed has the invariant, like the others. -/
theorem mapDestroy_valid (ops : ObjectOps σ) (hv : MapsValid m s.shareMaps) (n : Nat) :
    MapsValid m (s.mapDestroy ops n).shareMaps := by
  obtain ⟨l, hl⟩ := hv.share n
  obtain ⟨_, _, _, hfrom, hdeleted, -⟩ :=
    VmMap.delete_spec hl.toWf (s.shareMaps n).minOffset (s.shareMaps n).maxOffset
  have hheader := (hdeleted.entry _ mem_cons_self).trans hfrom.cut.header
  refine hv.setShareMap n (VmMap.delete_valid hl ..) ?_
  change (_ : VmMapEntry).vmeStart < (_ : VmMapEntry).vmeEnd
  rw [hheader]
  exact hv.bounds n

theorem deleteLoop_shareMaps (ops : ObjectOps σ) (stop : Nat) (keepWired : Bool)
    (fuel entry : Nat) (hv : MapsValid m s.shareMaps) :
    MapsValid m (s.deleteLoop ops stop keepWired fuel entry).shareMaps := by
  induction fuel generalizing entry s with
  | zero => exact hv
  | succ fuel ih =>
    rw [deleteLoop]
    split
    next =>
      refine ih _ ?_
      simp only [entryDelete]
      split
      next => exact mapDestroy_valid ops hv _
      next => exact hv
    next => exact hv

theorem delete_valid (ops : ObjectOps σ) (hv : MapsValid s.map s.shareMaps) (start stop : Nat)
    (keepWired : Bool) :
    MapsValid (s.delete ops start stop keepWired).map
      (s.delete ops start stop keepWired).shareMaps := by
  obtain ⟨l, hl⟩ := hv.map
  refine deleteLoop_shareMaps ops stop keepWired _ _ (s := (s.deleteStart ops start).2)
    ⟨?_, hv.share, hv.bounds⟩
  rw [VmSystem.delete, (deleteLoop_keeps ..).1]
  exact VmMap.delete_valid hl start stop

/-- What `vm_map_copyin` returns. -/
structure Copiedin (ops : ObjectOps σ) (a : CopyinArgs) (s : VmSystem σ)
    (copy : Option VmMapHeader) (s' : VmSystem σ) : Prop where
  valid : MapsValid s'.map s'.shareMaps
  /-- A copy has the entries of the region, which is not empty. -/
  chain : ∀ h, copy = some h → a.srcStart < a.srcEnd ∧ ∃ l, CopyinLoop.Chain a h l a.srcEnd
  evolved : a.srcDestroy = false → Evolved ops s s'

variable {r : CopyinStep σ} {kr : VmReturn} {copy : Option VmMapHeader}

theorem copyinDone_spec {c : CopyinLoop σ} (hlt : a.srcStart < a.srcEnd) (hev : Evolved ops s c.sys)
    (hr : CopyinLoop.Stepped ops a c r) (hnext : ∀ c', r ≠ .next c')
    (h : copyinDone ops a (some r) = .returned kr copy s') : Copiedin ops a s copy s' := by
  cases hr with
  | next _ _ _ => exact absurd rfl (hnext _)
  | panicked => cases h
  | fail hev' =>
    rename_i c'
    cases h
    have hunlock : Evolved ops c'.sys { c'.sys.unlock .main with
      store := ops.copyDiscard c'.copy c'.sys.store } := .of_eq hev'.valid rfl rfl
    have hall := (hev.trans hev').trans hunlock
    exact ⟨hall.valid, nofun, fun _ => hall⟩
  | finished hev' hchain =>
    rename_i c' l
    cases h
    have hall := hev.trans hev'
    refine ⟨?_, fun h hh => ?_, fun hdestroy => ?_⟩
    · split
      next => exact delete_valid ops hall.valid a.srcStart a.srcEnd a.keepWired
      next => exact hall.valid
    · cases hh
      exact ⟨hlt, l, hchain⟩
    · rw [hdestroy]
      exact hall.trans (.of_eq hall.valid rfl rfl)

theorem copyin_cases (ops : ObjectOps σ) (ha : a.Checked) (hv : MapsValid s.map s.shareMaps)
    (fuel : Nat) :
    (∃ kr s', s.copyin ops a fuel = .returned kr none s' ∧ Evolved ops s s') ∨
      ∃ c, CopyinLoop.Inv a c ∧ Evolved ops s c.sys ∧ c.srcStart = a.srcStart ∧
        s.copyin ops a fuel = copyinDone ops a (c.run ops a fuel) := by
  simp only [copyin]
  split
  next => exact .inl ⟨_, _, rfl, .of_eq hv rfl rfl⟩
  next hlen =>
  split
  next => exact .inl ⟨_, _, rfl, .of_eq hv rfl rfl⟩
  rename_i hcheck
  have hlock : Evolved ops s (s.lock .main) := .of_eq hv rfl rfl
  obtain ⟨hlookup, hclip⟩ := lookupEntry_evolved ops hlock.valid a.srcStart
  generalize (s.lock .main).map.lookupEntry a.srcStart = r at hlookup hclip ⊢
  obtain ⟨found, tmpEntry, m⟩ := r
  cases found with
  | false =>
    have hev := hlock.trans hlookup
    exact .inl ⟨_, _, rfl, hev.trans (.of_eq hev.valid rfl rfl)⟩
  | true =>
    obtain ⟨hclip, ht⟩ := hclip rfl
    have hev := hlock.trans hclip
    exact .inr ⟨_, ⟨hev.valid, ht, ha hlen hcheck, [], .empty a⟩, hev, rfl, rfl⟩

/-- `vm_map_copyin` keeps the invariant, for a region that is not empty if it passes the checks. -/
theorem copyin_spec (hops : ops.Keeps) (ha : a.Checked) (hv : MapsValid s.map s.shareMaps)
    {fuel : Nat}
    (h : s.copyin ops a fuel = .returned kr copy s') : Copiedin ops a s copy s' := by
  obtain ⟨kr', s'', heq, hev⟩ | ⟨c, hinv, hev, hstart, heq⟩ := copyin_cases ops ha hv fuel
  · rw [heq] at h
    cases h
    exact ⟨hev.valid, nofun, fun _ => hev⟩
  rw [heq] at h
  cases hrun : c.run ops a fuel with
  | none =>
    rw [hrun] at h
    cases h
  | some =>
    rw [hrun] at h
    obtain ⟨hr, hnext⟩ := CopyinLoop.run_spec hops hinv hrun
    exact copyinDone_spec (hstart ▸ hinv.start_lt) hev hr hnext h

/-- If other threads do not change the maps then `vm_map_copyin` ends. -/
theorem copyin_ends (halone : ops.Alone) (ha : a.Checked) (hv : MapsValid s.map s.shareMaps) :
    s.copyin ops a (a.srcEnd - a.srcStart) ≠ .running := by
  obtain ⟨kr, s', heq, -⟩ | ⟨c, hinv, -, hstart, heq⟩ := copyin_cases ops ha hv
    (a.srcEnd - a.srcStart)
  · rw [heq]
    exact nofun
  · obtain ⟨r, hr⟩ := CopyinLoop.run_ends halone hinv ((congrArg (a.srcEnd - ·) hstart).le)
    rw [heq, hr]
    cases r with
    | next c => exact absurd rfl ((CopyinLoop.run_spec halone.keeps hinv hr).2 c)
    | _ => exact nofun

end VmSystem

/-! ## Copying out -/

namespace VmMapHeader

variable {h copy : VmMapHeader} {l l₁ l₂ : List Nat} {e start size adjustment : Nat}

/-- The entries `l₂` of a copy are adjusted, and nothing else. -/
structure Adjusted (adjustment : Nat) (copy : VmMapHeader) (l₁ l₂ : List Nat)
    (copy' : VmMapHeader) : Prop where
  next : copy'.next = copy.next
  prev : copy'.prev = copy.prev
  nentries : copy'.nentries = copy.nentries
  zone : copy'.zone = copy.zone
  before : ∀ x ∈ vmMapToEntry :: l₁, copy'.entry x = copy.entry x
  after : ∀ x ∈ l₂, copy'.entry x = (copy.entry x).adjust adjustment

theorem adjustFrom_spec (hl : copy.Lists (l₁ ++ l₂)) {fuel : Nat} (hfuel : l₂.length ≤ fuel) :
    Adjusted adjustment copy l₁ l₂ (copy.adjustFrom adjustment fuel (l₂.headD vmMapToEntry)) := by
  induction fuel generalizing copy l₁ l₂ with
  | zero =>
    cases l₂ with
    | nil => exact ⟨rfl, rfl, rfl, rfl, fun _ _ => rfl, nofun⟩
    | cons => cases hfuel
  | succ fuel ih =>
    cases l₂ with
    | nil =>
      exact ⟨rfl, rfl, rfl, rfl, fun _ _ => rfl, nofun⟩
    | cons x l₂ =>
      have hx : x ≠ vmMapToEntry := hl.ne_header (mem_append_right l₁ mem_cons_self)
      have hnext : copy.next x = l₂.headD vmMapToEntry := hl.ring.next_eq
      have hmem {y : Nat} (hy : y ∈ vmMapToEntry :: (l₁ ++ l₂)) : y ≠ x := hl.ne_of_mem_erase hy
      rw [List.headD_cons, adjustFrom, if_neg hx, hnext]
      have hl' := hl.setEntry x ((copy.entry x).adjust adjustment)
      rw [List.append_cons] at hl'
      have hrest := ih hl' (Nat.le_of_succ_le_succ hfuel)
      refine ⟨hrest.next, hrest.prev, hrest.nentries, hrest.zone, fun y hy => ?_, fun y hy => ?_⟩
      · rw [hrest.before y (mem_append_left [x] hy)]
        exact setEntry_of_ne _ _ (hmem (mem_append_left l₂ hy))
      · cases mem_cons.mp hy with
        | inl hy =>
          have hlast : x ∈ vmMapToEntry :: (l₁ ++ [x]) :=
            mem_cons_of_mem _ List.mem_concat_self
          rw [hy, hrest.before x hlast]
          exact setEntry_self ..
        | inr hy =>
          have hne := hmem (mem_cons_of_mem _ (mem_append_right l₁ hy))
          rw [hrest.after y hy, setEntry_of_ne _ _ hne]

theorem Lists.absorb_entry (hl : h.Lists l) (copy : VmMapHeader) {x : Nat}
    (hx : x ∈ vmMapToEntry :: l) :
    (h.absorb copy).next x = h.next x ∧ (h.absorb copy).prev x = h.prev x ∧
      (h.absorb copy).entry x = h.entry x := by
  have hlt := hl.zone x hx
  exact ⟨if_pos hlt, if_pos hlt, if_pos hlt⟩

theorem absorb_copy (h copy : VmMapHeader) (x : Nat) :
    (h.absorb copy).next (h.zone + x) = h.zone + copy.next x ∧
      (h.absorb copy).prev (h.zone + x) = h.zone + copy.prev x ∧
      (h.absorb copy).entry (h.zone + x) = copy.entry x := by
  simp [absorb]

theorem Lists.copyInsert (hl : h.Lists (l₁ ++ l₂)) {lc : List Nat} (hc : copy.Lists lc)
    (hne : lc ≠ []) :
    (h.copyInsert (l₁.getLastD vmMapToEntry) copy).Lists (l₁ ++ (lc.map (h.zone + ·) ++ l₂)) where
  ring := by
    have hring := hl.ring.congr (fun x hx => (hl.absorb_entry copy hx).1)
      fun x hx => (hl.absorb_entry copy hx).2.1
    have hcopy : IsRing (h.absorb copy).next (h.absorb copy).prev (h.zone + vmMapToEntry)
        (lc.map (h.zone + ·)) :=
      hc.ring.map (fun _ _ hx => add_left_cancel hx) (fun x _ => (absorb_copy h copy x).1)
        fun x _ => (absorb_copy h copy x).2.1
    have hsplice := hring.splice hcopy (by simpa using hne) (fun x hx hx' => ?_)
    · rw [(absorb_copy h copy vmMapToEntry).1, (absorb_copy h copy vmMapToEntry).2.1] at hsplice
      exact hsplice
    · have hlt := hl.zone x hx
      rw [← List.map_cons, mem_map] at hx'
      omega
  count := by
    change h.nentries + copy.nentries = _
    rw [hl.count, hc.count, List.length_append, List.length_append, List.length_append,
      List.length_map]
    omega
  zone x hx := by
    change x < h.zone + copy.zone
    rw [mem_cons, mem_append, mem_append] at hx
    have hzone {y : Nat} (hy : y ∈ vmMapToEntry :: (l₁ ++ l₂)) : y < h.zone + copy.zone :=
      lt_of_lt_of_le (hl.zone y hy) (Nat.le_add_right ..)
    rcases hx with hx | hx | hx | hx
    · exact hzone (hx ▸ mem_cons_self)
    · exact hzone (mem_cons_of_mem _ (mem_append_left l₂ hx))
    · obtain ⟨y, hy, rfl⟩ := mem_map.mp hx
      exact Nat.add_lt_add_left (hc.zone y (mem_cons_of_mem _ hy)) _
    · exact hzone (mem_cons_of_mem _ (mem_append_right l₁ hx))

theorem Lists.spans_copyInsert (hl : h.Lists (l₁ ++ l₂)) (x : Nat) (copy : VmMapHeader)
    (lc : List Nat) :
    (h.copyInsert x copy).spans (l₁ ++ (lc.map (h.zone + ·) ++ l₂)) =
      h.spans l₁ ++ (copy.spans lc ++ h.spans l₂) := by
  have hkeep {y : Nat} (hy : y ∈ l₁ ++ l₂) : (h.copyInsert x copy).entry y = h.entry y :=
    (hl.absorb_entry copy (mem_cons_of_mem _ hy)).2.2
  have h₁ : (h.copyInsert x copy).spans l₁ = h.spans l₁ :=
    spans_congr fun y hy => hkeep (mem_append_left l₂ hy)
  have h₂ : (h.copyInsert x copy).spans l₂ = h.spans l₂ :=
    spans_congr fun y hy => hkeep (mem_append_right l₁ hy)
  have hc : (h.copyInsert x copy).spans (lc.map (h.zone + ·)) = copy.spans lc := by
    rw [spans, List.map_map]
    refine List.map_congr_left fun y _ => ?_
    change ((h.absorb copy).entry (h.zone + y) |> fun v => (v.vmeStart, v.vmeEnd)) = _
    rw [(absorb_copy h copy y).2.2]
    rfl
  rw [spans_append, spans_append, h₁, h₂, hc]

end VmMapHeader

namespace VmMap

variable {m : VmMap} {l l₁ l₂ lc : List Nat} {copy : VmMapHeader} {a : CopyinArgs}

/-- A place that `vm_map_copyout` finds, right after an entry. -/
structure CopyPlace (m : VmMap) (l : List Nat) (size last start : Nat)
    (l₁ l₂ : List Nat) : Prop where
  list : l = l₁ ++ l₂
  last_eq : last = l₁.getLastD vmMapToEntry
  start_eq : start = m.hdr.endBefore last
  stop_le : start + size ≤ m.hdr.startAfter (l₂.headD vmMapToEntry)

variable {start : Nat} {last : Nat}

theorem copyoutLoop_some (hw : m.hdr.Wf (l₁ ++ l₂)) {fuel size : Nat} (hsize : size < 2 ^ 32)
    (hloop : copyoutLoop m.hdr size fuel (l₁.getLastD vmMapToEntry)
      (m.hdr.endBefore (l₁.getLastD vmMapToEntry)) = some (last, start)) :
    ∃ l₁' l₂', CopyPlace m (l₁ ++ l₂) size last start l₁' l₂' := by
  induction fuel generalizing l₁ l₂ with
  | zero => cases hloop
  | succ fuel ih =>
    have hnext : m.hdr.next (l₁.getLastD vmMapToEntry) = l₂.headD vmMapToEntry := hw.ring.split.1
    simp only [copyoutLoop, hnext] at hloop
    split at hloop
    next => cases hloop
    next hroom =>
    obtain ⟨hmax, -⟩ := not_or.mp hroom
    have hstop : (m.hdr.endBefore (l₁.getLastD vmMapToEntry) + size) % 2 ^ 32 =
        m.hdr.endBefore (l₁.getLastD vmMapToEntry) + size := by omega
    rw [hstop] at hmax hloop
    split at hloop
    next hplace =>
      cases hloop
      refine ⟨l₁, l₂, rfl, rfl, rfl, ?_⟩
      rw [startAfter]
      split
      next => exact not_lt.mp hmax
      next hentry => exact le_of_lt (hplace.resolve_left hentry)
    rename_i hplace
    cases l₂ with
    | nil => exact absurd (.inl rfl) hplace
    | cons x =>
      have hx : x ≠ vmMapToEntry := fun hx => hplace (.inl hx)
      have hlast : (l₁ ++ [x]).getLastD vmMapToEntry = x := List.getLastD_concat
      have hend : m.hdr.endBefore x = (m.hdr.entry x).vmeEnd := if_neg hx
      rw [List.append_cons] at hw ⊢
      change copyoutLoop m.hdr size fuel x (m.hdr.entry x).vmeEnd = _ at hloop
      rw [← hend, ← hlast] at hloop
      exact ih hw hloop

theorem adjusted_filled {copy' : VmMapHeader} (hc : CopyinLoop.Chain a copy lc a.srcEnd)
    (hadj : Adjusted (sub32 start a.srcStart) copy [] lc copy') (hlt : a.srcStart < a.srcEnd)
    (hstart : start + (a.srcEnd - a.srcStart) < 2 ^ 32) :
    Filled start (start + (a.srcEnd - a.srcStart)) (copy'.spans lc) := by
  have hspans : copy'.spans lc = (copy.spans lc).map fun s =>
      ((s.1 + sub32 start a.srcStart) % 2 ^ 32, (s.2 + sub32 start a.srcStart) % 2 ^ 32) := by
    rw [spans, spans, List.map_map]
    refine List.map_congr_left fun x hx => ?_
    rw [span, hadj.after x hx]
    rfl
  rw [hspans]
  refine hc.filled.move (f := fun p => (p + sub32 start a.srcStart) % 2 ^ 32) fun p hp hp' => ?_
  rw [sub32]
  omega

/-- The entries of a copy are linked into a map at a place. -/
theorem insertCopy_valid (hv : m.Valid l)
    (hc : CopyinLoop.Chain a copy lc a.srcEnd) (hlt : a.srcStart < a.srcEnd)
    (hp : CopyPlace m l (a.srcEnd - a.srcStart) last start l₁ l₂) :
    ∃ l', (m.insertCopy last (a.srcEnd - a.srcStart) start a.srcStart copy).Valid l' := by
  obtain ⟨hlist, hlast, hstart, hstop⟩ := hp
  subst hlist
  have hwidth := hv.hdr.width
  have hspans := hv.hdr.spans
  have hnot := hv.hdr.header_not_mem
  rw [mem_append, not_or] at hnot
  rw [spans_append] at hspans
  rw [← startOf_spans hnot.2] at hstop
  have hmax := hspans.startOf_le
  have hfirst : copy.next vmMapToEntry = lc.headD vmMapToEntry := hc.ring.next_header
  have hadj : Adjusted (sub32 start a.srcStart) copy [] lc
      (copy.adjustFrom (sub32 start a.srcStart) copy.nentries (copy.next vmMapToEntry)) := by
    rw [hfirst]
    exact adjustFrom_spec hc.toLists hc.count.symm.le
  have hne : lc ≠ [] := by
    rintro rfl
    exact absurd hc.filled (ne_of_lt hlt)
  simp only [insertCopy]
  generalize copy.adjustFrom (sub32 start a.srcStart) copy.nentries (copy.next vmMapToEntry) = copy'
    at hadj ⊢
  have hc' : copy'.Lists lc := by
    refine ⟨?_, hadj.nentries.trans hc.count, fun x hx => hadj.zone.symm ▸ hc.zone x hx⟩
    rw [hadj.next, hadj.prev]
    exact hc.ring
  have hfilled := adjusted_filled hc hadj hlt (by omega)
  have hlists := hv.hdr.toLists.copyInsert hc' hne
  have hinsert := hv.hdr.toLists.spans_copyInsert (l₁.getLastD vmMapToEntry) copy' lc
  have hheader : (m.hdr.copyInsert (l₁.getLastD vmMapToEntry) copy').entry vmMapToEntry =
      m.hdr.entry vmMapToEntry := (hv.hdr.toLists.absorb_entry copy' mem_cons_self).2.2
  have hlastEntry : m.hdr.zone + copy'.prev vmMapToEntry ∈
      vmMapToEntry :: (l₁ ++ (lc.map (m.hdr.zone + ·) ++ l₂)) := by
    have hprev : copy'.prev vmMapToEntry = lc.getLastD vmMapToEntry := hc'.ring.prev_header
    have hmem : lc.getLastD vmMapToEntry ∈ lc := by
      rw [List.getLastD_eq_getLast?, List.getLast?_eq_getLast_of_ne_nil hne]
      exact List.getLast_mem hne
    rw [hprev]
    exact mem_cons_of_mem _ (mem_append_right l₁ (mem_append_left l₂ (List.mem_map_of_mem hmem)))
  rw [hlast]
  have hendOf : endOf m.hdr.minOffset (m.hdr.spans l₁) ≤ start := by
    rw [endOf_spans hnot.1, hstart, hlast]
  have hbetween := hspans.fill hfilled hendOf hstop
  refine ⟨l₁ ++ (lc.map (m.hdr.zone + ·) ++ l₂), ⟨⟨hlists, ?_, ?_⟩, hlastEntry, ?_⟩,
    fun hmain => ?_⟩
  · rw [VmMapHeader.minOffset, VmMapHeader.maxOffset, hheader, hinsert]
    exact hbetween
  · rw [VmMapHeader.maxOffset, hheader]
    exact hwidth
  · change (if _ then m.hdr.zone + copy'.prev vmMapToEntry else m.firstFree) ∈ _
    split
    next => exact hlastEntry
    next =>
      have hmem := hv.firstFree
      rw [mem_cons, mem_append] at hmem
      rw [mem_cons, mem_append, mem_append]
      tauto
  · have hsize := hv.size hmain
    have htotal := hfilled.add_total
    have hle := hbetween.total_le
    change (m.size + (a.srcEnd - a.srcStart)) % 2 ^ 32 =
      total ((m.hdr.copyInsert (l₁.getLastD vmMapToEntry) copy').spans _)
    rw [hinsert, hsize, spans_append]
    simp only [total_append] at hle ⊢
    omega

/-- `vm_map_copyout` keeps the invariant, for a copy that `vm_map_copyin` has made. -/
theorem copyout_valid (hv : m.Valid l) (coalesce : Bool) (hlt : a.srcStart < a.srcEnd)
    (hc : CopyinLoop.Chain a copy lc a.srcEnd) :
    ∃ l', (m.copyout a.pageMask coalesce (.entryList copy)).2.2.Valid l' := by
  have hend : a.srcEnd < 2 ^ 32 := roundMask_lt ..
  have hmin : truncPage a.pageMask copy.minOffset = a.srcStart := by
    rw [VmMapHeader.minOffset, hc.header]
    rfl
  have hmax : roundPage a.pageMask copy.maxOffset = a.srcEnd := by
    rw [VmMapHeader.maxOffset, hc.header]
    rfl
  obtain ⟨l₁, l₂, hl, hlast⟩ := place_of_mem hv.firstFree
  subst hl
  simp only [copyout, hmin, hmax, sub32_eq (le_of_lt hlt) hend]
  have hfirst : (if m.firstFree = vmMapToEntry then m.minOffset
      else (m.hdr.entry m.firstFree).vmeEnd) = m.hdr.endBefore m.firstFree := rfl
  rw [hfirst]
  cases hloop : copyoutLoop m.hdr (a.srcEnd - a.srcStart) (m.hdr.nentries + 1) m.firstFree
      (m.hdr.endBefore m.firstFree) with
  | none =>
    simp only
    split <;> exact ⟨_, hv⟩
  | some =>
    rw [hlast] at hloop
    obtain ⟨l₁', l₂', hp⟩ := copyoutLoop_some hv.hdr (by omega) hloop
    exact insertCopy_valid hv hc hlt hp

end VmMap

end Mach
