import Mach.Ipc.EntryInvariant

/-!
# What the operations on entries do to the map

One lemma for each way an operation of `ipc/ipc_entry.c` changes a space: taking an entry
off the free list (`Rep.ripOut`), putting one on it (`Rep.freeSlot`), a name entering and
leaving the tree (`Rep.insertTree`, `Rep.deleteTree`), a slot passing to another name
(`Rep.reslot`, `Rep.migrate`), and a caller storing a right (`Rep.write`).  Each says what
becomes of the free list and of the map that the space represents.
-/

namespace Mach

open IpcEntry Option

open List hiding Chain mem_map

open Function (update update_self update_of_ne update_idem update_comm update_eq_self)

namespace IpcSpace

variable {its : IpcTableSizes} {s : IpcSpace} {free : List Nat}

/-! ## Changes to the table -/

variable {i : Nat}

/-- A new table under the same tree, in which one slot has changed: what it holds now and the
free list decide which names of its index are mapped. -/
theorem Rep.retable {m m' : Nat → Option IpcEntry} (h : s.Rep its free m) {table : Nat → IpcEntry}
    {free' : List Nat} (hpos : 0 < i) (hlt : i < s.isTableSize)
    (hfree : ∀ j, j ≠ i → (j ∈ free' ↔ j ∈ free))
    (hchain : Chain (fun j => (table j).ieNext) (table 0).ieNext free')
    (hother : ∀ j, j ≠ i → (table j).ieBits = (s.isTable j).ieBits ∧
      (table j).ieObject = (s.isTable j).ieObject)
    (hused : ∀ j, j ≠ i → 0 < j → j ∉ free → table j = s.isTable j)
    (hgen : (table i).ieBits.gen < 256)
    (hcol : (table i).ieBits.collision = (s.isTable i).ieBits.collision)
    (hclear : i ∈ free' →
      (table i).ieBits = .ofGen (table i).ieBits.gen ∧ (table i).ieObject = ioNull)
    (hshadow : ∀ e ∈ s.treeList, machPortIndex e.1 = i →
      i ∉ free' ∧ (table i).ieBits.gen ≠ machPortGen e.1)
    (hframe : ∀ name, machPortIndex name ≠ i → m' name = m name)
    (hmaps : ∀ name v, machPortIndex name = i →
      (((i ∉ free' ∧ (table i).ieBits.gen = machPortGen name) ∧ (table i).right = v) ∨
        (name, v) ∈ s.treeList ↔ m' name = some v)) :
    ({ s with isTable := table } : IpcSpace).Rep its free' m' :=
  { h.toCore with
    chain := hchain
    free_lt := fun j hj => by
      rcases eq_or_ne j i with rfl | hne
      · exact hlt
      · exact h.free_lt j ((hfree j hne).mp hj)
    free_bits := fun j hj => by
      rcases eq_or_ne j i with rfl | hne
      · exact (hclear hj).1
      · simp only [(hother j hne).1]
        exact h.free_bits j ((hfree j hne).mp hj)
    free_object := fun j hj => by
      rcases eq_or_ne j i with rfl | hne
      · exact (hclear hj).2
      · exact (hother j hne).2.trans (h.free_object j ((hfree j hne).mp hj))
    head_gen := by simpa only [(hother 0 hpos.ne).1] using h.head_gen
    head_type := by simpa only [(hother 0 hpos.ne).1] using h.head_type
    gen_lt := fun j hj => by
      rcases eq_or_ne j i with rfl | hne
      · exact hgen
      · simp only [(hother j hne).1]
        exact h.gen_lt j hj
    collision := fun j hj => by
      rcases eq_or_ne j i with rfl | hne
      · simp only [hcol]
        exact h.collision j hj
      · simp only [(hother j hne).1]
        exact h.collision j hj
    shadow := fun e he hidx hsize => by
      rcases eq_or_ne (machPortIndex e.1) i with heq | hne
      · rw [heq]
        exact hshadow e he heq
      · simp only [(hother _ hne).1, hfree _ hne]
        exact h.shadow e he hidx hsize
    maps := fun name v => by
      rcases eq_or_ne (machPortIndex name) i with rfl | hne
      · rw [← hmaps name v rfl]
        simp [Maps, InSlot, hpos, hlt]
      rw [hframe name hne, ← h.maps]
      simp only [Maps, InSlot, hfree _ hne]
      by_cases hin : 0 < machPortIndex name ∧ machPortIndex name ∉ free
      · rw [hused _ hne hin.1 hin.2]
      · tauto }

namespace Rep

variable {m : Nat → Option IpcEntry} {g : Nat}

theorem ripOut_table {p : Nat}
    (hwalk : Chain.pred (fun j => (s.isTable j).ieNext) i s.isTableSize 0 = some p)
    (hp : p ≠ i) :
    ∃ table : Nat → IpcEntry, s.ripOut i g = some { s with isTable := table } ∧
      table i = ⟨.ofGen g, (s.isTable i).ieObject, 0⟩ ∧
      (∀ j, j ≠ i → j ≠ p → table j = s.isTable j) ∧
      (∀ j, j ≠ i → (table j).ieBits = (s.isTable j).ieBits ∧
        (table j).ieObject = (s.isTable j).ieObject ∧
        (table j).ieNext = update (fun j => (s.isTable j).ieNext) p (s.isTable i).ieNext j) := by
  refine ⟨_, by rw [ripOut, hwalk]; rfl, ?_, fun j hj hjp => ?_, fun j hj => ?_⟩
  · rw [update_self, update_of_ne hp.symm]
  · rw [update_of_ne hj, update_of_ne hjp]
  · rw [update_of_ne hj]
    by_cases hjp : j = p
    · subst hjp
      rw [update_self, update_self]
      exact ⟨rfl, rfl, rfl⟩
    · rw [update_of_ne hjp, update_of_ne hjp]
      exact ⟨rfl, rfl, rfl⟩

variable (h : s.Rep its free m) {name : Nat}

include h

theorem ripOut (hi : i ∈ free) (hg : g < 256) : ∃ s' free', s.ripOut i g = some s' ∧
      s'.Rep its free' (update m (machPortMake i g) (some .zero)) ∧
      m (machPortMake i g) = none ∧
      s'.Refers free' (machPortMake i g) (.table i) := by
  have hpos : i ≠ 0 := h.chain.ne_zero i hi
  have hlt := h.free_lt i hi
  have hle := h.size_le
  have hnodup := h.chain.nodup
  have hocc := h.not_occurs_of_free hi
  have hbits := h.free_bits i hi
  have hobject := h.free_object i hi
  have hidx : machPortIndex (machPortMake i g) = i := machPortIndex_make (by omega) hg
  have hgen : machPortGen (machPortMake i g) = g := machPortGen_make (by omega) hg
  have hnone : ∀ name, machPortIndex name = i → m name = none :=
    fun name hname => h.none_of_free (hname ▸ hi)
  obtain ⟨l, l', rfl⟩ := append_of_mem hi
  have hnot : i ∉ l ++ l' := by
    rw [nodup_middle] at hnodup
    exact (nodup_cons.mp hnodup).1
  have hlast : l.getLastD 0 = 0 ∨ l.getLastD 0 ∈ l := by
    cases l with
    | nil => exact .inl rfl
    | cons => exact .inr (by simp [getLastD])
  have hpred : l.getLastD 0 ≠ i := by
    rintro heq
    rw [heq] at hlast
    rcases hlast with h0 | hmem
    · exact hpos h0
    · exact hnot (mem_append_left _ hmem)
  have hlen : l.length < s.isTableSize := by
    have hsub := (subperm_of_subset hnodup
      (fun a ha => mem_range.mpr (h.free_lt a ha))).length_le
    simp only [length_append, length_cons, length_range] at hsub
    omega
  obtain ⟨table, heq, hself, hsame, hother⟩ := ripOut_table (Chain.pred_eq h.chain hlen) hpred
  have hright : (table i).right = .zero := by
    rw [hself, hobject]
    rfl
  have hrep : ({ s with isTable := table } : IpcSpace).Rep its (l ++ l')
      (update m (machPortMake i g) (some .zero)) := by
    refine h.retable (Nat.pos_of_ne_zero hpos) hlt (fun j hj => by simp [hj]) ?_
      (fun j hj => ⟨(hother j hj).1, (hother j hj).2.1⟩) (fun j hj h0 hfree => ?_)
      (by rw [hself]; exact hg) (by rw [hself, hbits]; rfl) (fun hin => absurd hin hnot)
      (fun e he hei => absurd ⟨e, he, hei⟩ hocc) (fun name hname => ?_) fun name v hname => ?_
    · have hsplice := Chain.splice h.chain fun h0 => h.chain.ne_zero 0 h0 rfl
      rw [(hother 0 hpos.symm).2.2]
      exact hsplice.congr fun j hj => (hother j (fun hji => hnot (hji ▸ hj))).2.2
    · refine hsame j hj ?_
      rintro rfl
      rcases hlast with hz | hmem
      · exact h0.ne' hz
      · exact hfree (mem_append_left _ hmem)
    · exact update_of_ne (by rintro rfl; exact hname hidx) ..
    · have htree : (name, v) ∉ s.treeList := fun hin => hocc ⟨_, hin, hname⟩
      rw [hright, hself]
      by_cases hn : name = machPortMake i g
      · subst hn
        simp [htree, hnot, hgen, IeBits.ofGen]
      · have hne : g ≠ machPortGen name :=
          fun hng => hn (machPort_ext (hname.trans hidx.symm) (hng.symm.trans hgen.symm))
        simp [hn, htree, hnone name hname, IeBits.ofGen, hne]
  refine ⟨_, l ++ l', heq, hrep, hnone _ hidx, hidx.symm, ?_⟩
  unfold InSlot
  rw [hidx, hgen]
  exact ⟨Nat.pos_of_ne_zero hpos, hlt, hnot, congrArg (fun e => e.ieBits.gen) hself⟩

/-- `ipc_entry_get` takes the first free entry, under the next generation number. -/
theorem get : (free = [] ∧ ipcEntryGet s = (.error .noSpace, s)) ∨
      ∃ name ref s' free', ipcEntryGet s = (.ok (name, ref), s') ∧ MachPortValid name ∧
        0 < machPortIndex name ∧ s'.Rep its free' (update m name (some .zero)) ∧ m name = none ∧
        s'.Refers free' name ref := by
  have hchain := h.chain
  have hfree := h.free_lt
  have hbits := h.free_bits
  cases hf : free with
  | nil =>
    rw [hf] at hchain
    refine .inl ⟨rfl, ?_⟩
    rw [ipcEntryGet, if_pos (hchain.eq_nil_iff.mp rfl)]
  | cons i =>
    right
    rw [hf] at hchain hfree hbits
    have hlt : i < s.isTableSize := hfree i mem_cons_self
    have hle := h.size_le
    have hpos : i ≠ 0 := hchain.ne_zero i mem_cons_self
    have hfirst : (s.isTable 0).ieNext = i := by
      generalize hn : (s.isTable 0).ieNext = n at hchain
      cases hchain with
      | cons => rfl
    have hg : ((s.isTable i).ieBits.gen + 1) % 256 < 256 := Nat.mod_lt _ (by omega)
    obtain ⟨s', free', hrip, hrep, hnone, href⟩ :=
      h.ripOut (by rw [hf]; exact mem_cons_self) hg
    refine ⟨_, _, s', free', ?_, ?_, ?_, hrep, hnone, href⟩
    · -- The first cell of the free list is the one before the entry.
      have hwalk : Chain.pred (fun j => (s.isTable j).ieNext) i s.isTableSize 0 = some 0 :=
        Chain.pred_eq (l := []) hchain (by simpa using h.size_pos)
      have hs' : s' = { s with
          isTable := update (update s.isTable 0
            { s.isTable 0 with ieRequest := (s.isTable i).ieNext }) i
            ⟨.ofGen (((s.isTable i).ieBits.gen + 1) % 256), (s.isTable i).ieObject, 0⟩ } := by
        rw [IpcSpace.ripOut, hwalk] at hrip
        simp only [map_some, some.injEq] at hrip
        rw [← hrip, update_of_ne hpos]
      have hgenBits : ∀ gen, { (s.isTable i).ieBits with gen := gen } = .ofGen gen := by
        intro gen
        rw [hbits i mem_cons_self]
        rfl
      simp only [ipcEntryGet, hfirst, if_neg hpos, update_of_ne hpos, hs', hgenBits]
    · rw [machPortValid_iff, machPortMake_eq (by omega) hg, machPortDead]
      omega
    · rw [machPortIndex_make (by omega) hg]
      omega

theorem freeSlot (hslot : s.InSlot free name)
    (hobject : (s.isTable (machPortIndex name)).ieObject = ioNull)
    (hcol : (s.isTable (machPortIndex name)).ieBits.collision ≠ true) :
    (s.freeSlot (machPortIndex name)).Rep its (machPortIndex name :: free)
      (update m name none) := by
  obtain ⟨hpos, hlt, hfree, hgen⟩ := hslot
  generalize hi : machPortIndex name = i at *
  have hne : (0 : Nat) ≠ i := hpos.ne
  have hocc : ¬ Occurs s.treeList i := fun ho => hcol ((h.collision i hlt).mpr ho)
  obtain ⟨table, htable, hzero, hself, hother⟩ : ∃ table : Nat → IpcEntry,
      s.freeSlot i = { s with isTable := table } ∧
      table 0 = { s.isTable 0 with ieRequest := i } ∧
      table i = ⟨.ofGen (s.isTable i).ieBits.gen, (s.isTable i).ieObject, (s.isTable 0).ieNext⟩ ∧
      ∀ j, j ≠ 0 → j ≠ i → table j = s.isTable j := by
    refine ⟨_, rfl, ?_, ?_, fun j hj0 hji => ?_⟩
    · rw [update_self, update_of_ne hne]
    · rw [update_of_ne hne.symm, update_self]
    · rw [update_of_ne hj0, update_of_ne hji]
  have hin : ∀ j ∈ free, table j = s.isTable j := fun j hj =>
    hother j (h.chain.ne_zero j hj) fun hji => hfree (hji ▸ hj)
  rw [htable]
  refine h.retable hpos hlt (fun j hj => by simp [hj]) ?_ (fun j hj => ?_)
    (fun j hj h0 _ => hother j h0.ne' hj) ?_ ?_ (fun _ => ?_)
    (fun e he hei => absurd ⟨e, he, hei⟩ hocc)
    (fun n hn => update_of_ne (by rintro rfl; exact hn hi) ..) fun n v hn => ?_
  · rw [hzero]
    refine .cons hne.symm ?_
    show Chain _ (table i).ieNext free
    rw [hself]
    exact h.chain.congr fun j hj => by rw [hin j hj]
  · rcases eq_or_ne j 0 with rfl | h0
    · rw [hzero]
      exact ⟨rfl, rfl⟩
    · rw [hother j h0 hj]
      exact ⟨rfl, rfl⟩
  · rw [hself]
    exact h.gen_lt i hlt
  · rw [hself, Bool.eq_false_of_not_eq_true hcol]
    rfl
  · rw [hself]
    exact ⟨rfl, hobject⟩
  · -- Before, the slot stood for `name`; no name of its index is in the tree.
    refine iff_of_false (by simpa using fun hmem => hocc ⟨_, hmem, hn⟩) ?_
    by_cases heq : n = name
    · simp [heq]
    rw [update_of_ne heq, ← h.maps]
    rintro (⟨hslot, -⟩ | hmem)
    · have hg := hslot.2.2.2
      rw [hn, hgen] at hg
      exact heq (machPort_ext (hn.trans hi.symm) hg.symm)
    · exact hocc ⟨_, hmem, hn⟩

end Rep

/-! ## Changes to the tree -/

variable {tree : IpcSplayTree IpcEntry}

/-- A new tree, with the collision bits to match, over the same slots: one name, which has no
slot, is mapped anew. -/
theorem Rep.retree {m : Nat → Option IpcEntry} (h : s.Rep its free m) {name : Nat}
    {v : Option IpcEntry} {c : Nat → Bool} {total small : Nat} (hslot : ¬ s.InSlot free name)
    (hnew : ∀ e, v = some e → e.Bare ∧ 0 < name ∧ (0 < machPortIndex name →
      machPortIndex name < s.isTableSize → machPortIndex name ∉ free)) (hv : tree.Valid)
    (hmem : ∀ e, e ∈ tree.contents ↔
      (e.1 = name ∧ v = some e.2) ∨ (e ∈ s.treeList ∧ e.1 ≠ name))
    (hc : ∀ i, i < s.isTableSize → (c i = true ↔ Occurs tree.contents i))
    (htotal : total = tree.contents.length)
    (hsmall : small = (indicesIn tree.contents s.isTableSize (its.itsSize s.isTableNext)).card) :
    ({ s with
        isTable := fun i => (s.isTable i).setCollision (c i)
        isTree := tree, isTreeTotal := total, isTreeSmall := small } : IpcSpace).Rep its free
      (update m name v) := by
  have hall : ∀ e ∈ tree.contents, e.2.Bare ∧ 0 < e.1 ∧ (0 < machPortIndex e.1 →
      machPortIndex e.1 < s.isTableSize → machPortIndex e.1 ∉ free ∧
        (s.isTable (machPortIndex e.1)).ieBits.gen ≠ machPortGen e.1) := by
    intro e he
    rcases (hmem e).mp he with ⟨rfl, hve⟩ | ⟨he, -⟩
    · obtain ⟨hbare, hpos, hused⟩ := hnew _ hve
      exact ⟨hbare, hpos, fun hidx hlt => ⟨hused hidx hlt, fun hgen =>
        hslot ⟨hidx, hlt, hused hidx hlt, hgen⟩⟩⟩
    · exact ⟨h.bare e he, h.name_pos e he, h.shadow e he⟩
  have hmaps : ∀ n u, ((s.InSlot free n ∧ (s.isTable (machPortIndex n)).right = u) ∨
      (n, u) ∈ tree.contents) ↔ update m name v n = some u := by
    intro n u
    rw [hmem]
    by_cases hn : n = name
    · subst hn
      simp [hslot]
    · rw [update_of_ne hn, ← h.maps]
      simp [Maps, hn]
  exact { h.toCore with
    tree := hv
    bare := fun e he => (hall e he).1
    name_pos := fun e he => (hall e he).2.1
    free_bits := fun i hi => by
      have hfalse : c i = false := by
        refine Bool.eq_false_of_not_eq_true fun hci => ?_
        obtain ⟨e, he, rfl⟩ := (hc i (h.free_lt i hi)).mp hci
        exact ((hall e he).2.2 (Nat.pos_of_ne_zero (h.chain.ne_zero _ hi)) (h.free_lt _ hi)).1 hi
      simp only [setCollision, hfalse]
      rw [h.free_bits i hi]
      rfl
    collision := hc
    shadow := fun e he => (hall e he).2.2
    total := htotal
    small := hsmall
    maps := hmaps }

/-- `ipc_entry_tree_collision` says whether the index occurs in the tree.  The names of
one index are neighbours in the order of names, so it is enough to look at two. -/
theorem treeCollision_eq (htree : s.isTree.Valid) (hpos : ∀ e ∈ s.treeList, 0 < e.1) (name : Nat) :
    ∃ tree, tree.Valid ∧ tree.contents = s.treeList ∧
      (ipcEntryTreeCollision s name).2 = { s with isTree := tree } ∧
      ((ipcEntryTreeCollision s name).1 = true ↔ Occurs s.treeList (machPortIndex name)) := by
  obtain ⟨hl, hu, hv, hc⟩ := htree.bounds name
  refine ⟨(ipcSplayTreeBounds s.isTree name).2, hv, hc, rfl, ?_⟩
  generalize hlow : (ipcSplayTreeBounds s.isTree name).1.1 = lower at hl
  generalize hupp : (ipcSplayTreeBounds s.isTree name).1.2 = upper at hu
  have hres : (ipcEntryTreeCollision s name).1 =
      ((lower ≠ machPortDead && machPortIndex lower = machPortIndex name) ||
        (upper ≠ 0 && machPortIndex upper = machPortIndex name)) := by
    rw [← hlow, ← hupp]
    rfl
  have hmono : ∀ {a b : Nat}, a ≤ b → machPortIndex a ≤ machPortIndex b :=
    fun hab => Nat.div_le_div_right hab
  rw [hres, Bool.or_eq_true, Bool.and_eq_true, Bool.and_eq_true, decide_eq_true_iff,
    decide_eq_true_iff, decide_eq_true_iff, decide_eq_true_iff]
  constructor
  · rintro (⟨hne, hidx⟩ | ⟨hne, hidx⟩)
    · rcases hl with ⟨hdead, -⟩ | ⟨⟨v, hmem⟩, -, -⟩
      · exact absurd hdead hne
      · exact ⟨_, hmem, hidx⟩
    · rcases hu with ⟨hzero, -⟩ | ⟨⟨v, hmem⟩, -, -⟩
      · exact absurd hzero hne
      · exact ⟨_, hmem, hidx⟩
  · rintro ⟨e, he, hidx⟩
    rcases le_total e.1 name with hle | hle
    · left
      rcases hl with ⟨-, habove⟩ | ⟨⟨v, hmem⟩, hlow', hmax⟩
      · exact absurd (habove e he) hle.not_gt
      · refine ⟨(htree.below _ hmem).ne, (hmono hlow').antisymm ?_⟩
        rw [← hidx]
        exact hmono (hmax e he hle)
    · right
      rcases hu with ⟨-, hbelow⟩ | ⟨⟨v, hmem⟩, hupp', hmin⟩
      · exact absurd (hbelow e he) hle.not_gt
      · refine ⟨(hpos _ hmem).ne', le_antisymm ?_ (hmono hupp')⟩
        rw [← hidx]
        exact hmono (hmin e he hle)

namespace Rep

variable {m : Nat → Option IpcEntry}

variable (h : s.Rep its free m)

include h

variable {name : Nat} {v₀ : IpcEntry}

theorem tree_ne (hnone : m name = none) : ∀ e ∈ s.treeList, e.1 ≠ name := by
  rintro ⟨n, v⟩ he rfl
  rw [(h.maps n v).mp (.inr he)] at hnone
  cases hnone

theorem insertTree (hvalid : MachPortValid name) (hnone : m name = none)
    (hused : 0 < machPortIndex name → machPortIndex name < s.isTableSize →
      machPortIndex name ∉ free) :
    (s.insertTree its name).Rep its free (update m name (some .zero)) ∧
      (s.insertTree its name).Refers free name (.tree name) := by
  rw [machPortValid_iff] at hvalid
  obtain ⟨tree, c, small, hv, hcontents, heq, hc, hsmall⟩ :
      ∃ tree, ∃ c : Nat → Bool, ∃ small, tree.Valid ∧ tree.contents = s.treeList ∧
        s.insertTree its name = { s with
          isTable := fun i => (s.isTable i).setCollision (c i)
          isTree := ipcSplayTreeInsert tree name .zero
          isTreeTotal := s.isTreeTotal + 1
          isTreeSmall := small } ∧
        (∀ i, i < s.isTableSize → (c i = true ↔ Occurs s.treeList i ∨ i = machPortIndex name)) ∧
        ∀ l : List (Nat × IpcEntry),
          (∀ i, Occurs l i ↔ Occurs s.treeList i ∨ i = machPortIndex name) →
          small = (indicesIn l s.isTableSize (its.itsSize s.isTableNext)).card := by
    by_cases hsize : machPortIndex name < s.isTableSize
    · refine ⟨s.isTree,
        fun i => if i = machPortIndex name then true else (s.isTable i).ieBits.collision,
        s.isTreeSmall, h.tree, rfl, ?_, fun i hi => ?_, fun l hl => ?_⟩
      · simp only [IpcSpace.insertTree, if_pos hsize]
        congr 1
        exact update_setCollision ..
      · by_cases hidx : i = machPortIndex name
        · simp [hidx]
        · simp [hidx, h.collision i hi]
      · rw [h.small, indicesIn_of_occurs hl fun hlo _ => absurd hlo hsize.not_ge]
    have hc : ∀ i, i < s.isTableSize → ((s.isTable i).ieBits.collision = true ↔
        Occurs s.treeList i ∨ i = machPortIndex name) := by
      intro i hi
      rw [h.collision i hi, or_iff_left]
      omega
    by_cases hnext : machPortIndex name < its.itsSize s.isTableNext
    · obtain ⟨tree, hv, hcontents, hsplay, hocc⟩ :=
        treeCollision_eq (s := { s with isTreeTotal := s.isTreeTotal + 1 }) h.tree h.name_pos name
      rcases hres : ipcEntryTreeCollision { s with isTreeTotal := s.isTreeTotal + 1 } name with
        ⟨b, s'⟩
      rw [hres] at hsplay hocc
      subst hsplay
      refine ⟨tree, _, if b then s.isTreeSmall else s.isTreeSmall + 1, hv, hcontents, ?_, hc,
        fun l hl => ?_⟩
      · simp only [IpcSpace.insertTree, if_neg hsize, if_pos hnext, hres, setCollision_self]
        cases b <;> rfl
      cases b with
      | true => exact h.small.trans (by rw [indicesIn_of_occurs hl fun _ _ => hocc.mp rfl])
      | false =>
        refine (congrArg (· + 1) h.small).trans
          (card_indicesIn_succ (not_lt.mp hsize) hnext (fun ho => ?_) hl).symm
        exact absurd (hocc.mpr ho) (by simp)
    · refine ⟨s.isTree, _, s.isTreeSmall, h.tree, rfl, ?_, hc, fun l hl => ?_⟩
      · simp only [IpcSpace.insertTree, if_neg hsize, if_neg hnext, setCollision_self]
      · rw [h.small, indicesIn_of_occurs hl fun _ hhi => absurd hhi hnext]
  obtain ⟨hv', hmem, hlen⟩ :=
    hv.insert_mem zero hvalid.2 (by rw [hcontents]; exact h.tree_ne hnone)
  rw [hcontents] at hmem hlen
  have hocc := occurs_insert hmem
  have hne := h.tree_ne hnone
  have hslot : ¬ s.InSlot free name := fun hslot => by
    rw [(h.maps name _).mp (.inl ⟨hslot, rfl⟩)] at hnone
    cases hnone
  rw [heq]
  refine ⟨h.retree hslot (fun e he => ?_) hv' (fun e => ?_) (fun i hi => by rw [hc i hi, hocc])
    (by rw [hlen, h.total]) (hsmall _ hocc), rfl, _, (hmem _).mpr (.inl rfl)⟩
  · cases he
    exact ⟨⟨rfl, rfl⟩, hvalid.1, hused⟩
  · rw [hmem, Prod.ext_iff, and_iff_left_of_imp (hne e), some.injEq, eq_comm (a := zero)]

theorem retree_delete {c : Nat → Bool} {small : Nat} (hpres : (name, v₀) ∈ s.treeList)
    (hv : tree.Valid) (hmem : ∀ e, e ∈ tree.contents ↔ e ∈ s.treeList ∧ e.1 ≠ name)
    (hlen : tree.contents.length + 1 = s.treeList.length)
    (hc : ∀ i, i < s.isTableSize → (c i = true ↔ Occurs tree.contents i))
    (hsmall : small = (indicesIn tree.contents s.isTableSize (its.itsSize s.isTableNext)).card) :
    ({ s with
        isTable := fun i => (s.isTable i).setCollision (c i)
        isTree := tree
        isTreeTotal := s.isTreeTotal - 1
        isTreeSmall := small } : IpcSpace).Rep its free (update m name none) :=
  h.retree (fun hslot => h.not_mem_tree hslot v₀ hpres) nofun hv (by simpa using hmem) hc
    (by rw [h.total, ← hlen]; rfl) hsmall

theorem deleteTree (hpres : (name, v₀) ∈ s.treeList) :
    ∃ s', s.deleteTree its name = some s' ∧ s'.Rep its free (update m name none) ∧
      s'.isTableSize = s.isTableSize ∧ ∀ e, e ∈ s'.treeList ↔ e ∈ s.treeList ∧ e.1 ≠ name := by
  obtain ⟨tree, hdel, hv, hmem, hlen⟩ := h.tree.delete_mem hpres
  have hocc := occurs_delete hmem hpres
  simp only at hdel hmem hocc
  obtain ⟨tree', hv', hc', hsplay, hcol⟩ := treeCollision_eq
    (s := { s with isTree := tree, isTreeTotal := s.isTreeTotal - 1 }) hv
    (fun e he => h.name_pos e ((hmem e).mp he).1) name
  rcases hres : ipcEntryTreeCollision
    { s with isTree := tree, isTreeTotal := s.isTreeTotal - 1 } name with ⟨b, s'⟩
  rw [hres] at hsplay hcol
  subst hsplay
  have hcontents : tree'.contents = tree.contents := hc'
  obtain ⟨t, c, small, hvt, hct, heq, hc, hsmall⟩ :
      ∃ t, ∃ c : Nat → Bool, ∃ small, t.Valid ∧ t.contents = tree.contents ∧
        s.deleteTree its name = some { s with
          isTable := fun i => (s.isTable i).setCollision (c i)
          isTree := t
          isTreeTotal := s.isTreeTotal - 1
          isTreeSmall := small } ∧
        (∀ i, i < s.isTableSize → (c i = true ↔ Occurs tree.contents i)) ∧
        small = (indicesIn tree.contents s.isTableSize (its.itsSize s.isTableNext)).card := by
    by_cases hsize : machPortIndex name < s.isTableSize
    · have hsmall := h.small
      rw [indicesIn_of_occurs hocc fun hlo _ => absurd hlo hsize.not_ge] at hsmall
      cases b with
      | true =>
        refine ⟨tree', fun i => (s.isTable i).ieBits.collision, _, hv', hcontents, ?_,
          fun i hi => ?_, hsmall⟩
        · simp [IpcSpace.deleteTree, hdel, if_pos hsize, hres, setCollision_self]
        · rw [h.collision i hi, hocc, or_iff_left_of_imp]
          rintro rfl
          exact hcol.mp rfl
      | false =>
        have hnot : ¬ Occurs tree.contents (machPortIndex name) :=
          fun ho => absurd (hcol.mpr ho) (by simp)
        refine ⟨tree',
          fun i => if i = machPortIndex name then false else (s.isTable i).ieBits.collision, _, hv',
          hcontents, ?_, fun i hi => ?_, hsmall⟩
        · simp only [IpcSpace.deleteTree, hdel, map_some, if_pos hsize, hres]
          congr 2
          exact update_setCollision ..
        · by_cases hidx : i = machPortIndex name
          · subst hidx
            simpa using hnot
          · simp [hidx, h.collision i hi, hocc]
    · have hc : ∀ i, i < s.isTableSize →
          ((s.isTable i).ieBits.collision = true ↔ Occurs tree.contents i) := by
        intro i hi
        rw [h.collision i hi, hocc, or_iff_left]
        omega
      by_cases hnext : machPortIndex name < its.itsSize s.isTableNext
      · refine ⟨tree', _, if b then s.isTreeSmall else s.isTreeSmall - 1, hv',
          hcontents, ?_, hc, ?_⟩
        · simp only [IpcSpace.deleteTree, hdel, map_some, if_neg hsize, if_pos hnext, hres,
            setCollision_self]
          cases b <;> rfl
        rw [h.small]
        cases b with
        | true => rw [if_pos rfl, indicesIn_of_occurs hocc fun _ _ => hcol.mp rfl]
        | false =>
          rw [card_indicesIn_succ (not_lt.mp hsize) hnext
            (fun ho => absurd (hcol.mpr ho) (by simp)) hocc]
          rfl
      · refine ⟨tree, _, s.isTreeSmall, hv, rfl, ?_, hc, ?_⟩
        · simp [IpcSpace.deleteTree, hdel, if_neg hsize, if_neg hnext, setCollision_self]
        · rw [h.small, indicesIn_of_occurs hocc fun _ hhi => absurd hhi hnext]
  rw [← hct] at hmem hlen hc hsmall
  exact ⟨_, heq, h.retree_delete hpres hvt hmem hlen hc hsmall, rfl, hmem⟩

theorem reslot {name' : Nat} {e : IpcEntry}
    (hslot : s.InSlot free name) (hidx : machPortIndex name' = machPortIndex name)
    (hgen : e.ieBits.gen = machPortGen name')
    (hcol : e.ieBits.collision = (s.isTable (machPortIndex name)).ieBits.collision)
    (habs : name' ≠ name → m name' = none) :
    ({ s with isTable := update s.isTable (machPortIndex name) e } : IpcSpace).Rep its
      free (update (update m name none) name' (some e.right)) := by
  have hmem := h.not_mem_tree hslot
  obtain ⟨hpos, hlt, hfree, hold⟩ := hslot
  generalize hi : machPortIndex name = i at *
  have hother : ∀ j, j ≠ i → update s.isTable i e j = s.isTable j :=
    fun j hj => update_of_ne hj ..
  have hself : update s.isTable i e i = e := update_self ..
  have htree : ∀ x ∈ s.treeList, machPortIndex x.1 = i → machPortGen x.1 ≠ machPortGen name' := by
    intro x hx hxi hg
    have heq : x.1 = name' := machPort_ext (hxi.trans hidx.symm) hg
    by_cases hn : name' = name
    · exact hmem x.2 (hn ▸ heq ▸ hx)
    · exact h.tree_ne (habs hn) x hx heq
  refine h.retable hpos hlt (fun _ _ => .rfl) ?_ (fun j hj => ?_) (fun j hj _ _ => hother j hj)
    ?_ ?_ (fun hin => absurd hin hfree) (fun x hx hxi => ⟨hfree, ?_⟩) (fun n hn => ?_)
    fun n v hn => ?_
  · rw [hother 0 (by omega)]
    exact h.chain.congr fun j hj => by rw [hother j fun hji => hfree (hji ▸ hj)]
  · rw [hother j hj]
    exact ⟨rfl, rfl⟩
  · rw [hself, hgen]
    exact machPortGen_lt name'
  · rw [hself, hcol]
  · rw [hself, hgen]
    exact (htree x hx hxi).symm
  · rw [update_of_ne (by rintro rfl; exact hn hidx), update_of_ne (by rintro rfl; exact hn hi)]
  · rw [hself, hgen]
    by_cases hn' : n = name'
    · subst hn'
      have hmem : (n, v) ∉ s.treeList := fun hmem => htree _ hmem hidx rfl
      simp [hfree, hmem]
    have hg : machPortGen name' ≠ machPortGen n :=
      fun hg => hn' (machPort_ext (hn.trans hidx.symm) hg.symm)
    rw [update_of_ne hn']
    by_cases heq : n = name
    · subst heq
      simp [hg, hmem v]
    · have hslot : ¬ s.InSlot free n := fun hslot => by
        have hgn := hslot.2.2.2
        rw [hn, hold] at hgn
        exact heq (machPort_ext (hn.trans hi.symm) hgn.symm)
      rw [update_of_ne heq, ← h.maps, Maps]
      simp [hg, hslot]

end Rep

theorem split_index (h : tree.Valid) (hi : i < 2 ^ 24) :
    ∃ above below, ipcSplayTreeSplit tree (machPortMake i 0) istLocal = (above, below) ∧
      above.Valid ∧ below.Valid ∧ tree.contents = below.contents ++ above.contents ∧
      (∀ e ∈ below.contents, machPortIndex e.1 < i) ∧
      ∀ e ∈ above.contents, i ≤ machPortIndex e.1 := by
  obtain ⟨hv, hv', hlist, hbelow, habove⟩ := h.split (machPortMake i 0) istLocal
  refine ⟨_, _, rfl, hv, hv', hlist, fun e he => (lt_machPortMake_iff hi).mp (hbelow e he),
    fun e he => ?_⟩
  rw [← not_lt, ← lt_machPortMake_iff hi]
  exact (habove e he).not_gt

theorem join_index {above below : IpcSplayTree IpcEntry} (h : above.Valid) (h' : below.Valid)
    (hbelow : ∀ e ∈ below.contents, machPortIndex e.1 < i)
    (habove : ∀ e ∈ above.contents, i ≤ machPortIndex e.1) :
    (ipcSplayTreeJoin above below).1.Valid ∧
      (ipcSplayTreeJoin above below).1.contents = below.contents ++ above.contents := by
  obtain ⟨hv, hc, -⟩ := h.join h' fun a ha b hb => by
    have h1 := hbelow a ha
    have h2 := habove b hb
    unfold machPortIndex at h1 h2
    omega
  exact ⟨hv, hc⟩

/-- The names of one index, split off the tree. -/
theorem splitIndex_spec (htree : s.isTree.Valid) (hi : i + 1 < 2 ^ 24) :
    ∃ tree collisions small, s.splitIndex i = (tree, collisions, small) ∧ tree.Valid ∧
      collisions.Valid ∧ small.Valid ∧
      s.treeList = small.contents ++ collisions.contents ++ tree.contents ∧
      (∀ e ∈ small.contents, machPortIndex e.1 < i) ∧
      (∀ e ∈ collisions.contents, machPortIndex e.1 = i) ∧
      (∀ e ∈ tree.contents, i < machPortIndex e.1) := by
  obtain ⟨tree, coll, hres, hv₁, hv₂, hlist, hbelow, habove⟩ := split_index htree hi
  obtain ⟨collisions, small, hres', hv₃, hv₄, hlist', hbelow', habove'⟩ :=
    split_index hv₂ (i := i) (by omega)
  refine ⟨tree, collisions, small, ?_, hv₁, hv₃, hv₄, ?_, hbelow', fun e he => ?_, habove⟩
  · rw [splitIndex, hres]
    simp only [hres']
  · rw [treeList, hlist, hlist']
  · have h1 := hbelow e (by rw [hlist']; simp [he])
    have h2 := habove' e he
    omega

/-- The entry that `ipc_entry_dealloc` would move into a slot. -/
def picked (s : IpcSpace) (i : Nat) : Option (Nat × IpcEntry) :=
  ipcSplayTreePick (s.splitIndex i).2.1

/-- The calls into the reverse hash table for an entry that moves into a slot. -/
def migrateCalls (s : IpcSpace) (i tname : Nat) (tentry : IpcEntry) : List HashCall :=
  if tentry.ieBits.type = machPortTypeSend then
    [.globalDelete tentry.ieObject tname, .localInsert s.isTableSize tentry.ieObject i]
  else []

/-- The name that deallocating an entry moves from the tree into a slot. -/
def moved (s : IpcSpace) : EntryRef → Option Nat
  | .table index =>
    if (s.isTable index).ieBits.collision then (s.picked index).map Prod.fst else none
  | .tree _ => none

/-- The calls for the hash tables when an entry is deallocated. -/
def deallocCalls (s : IpcSpace) : EntryRef → List HashCall
  | .table index =>
    if (s.isTable index).ieBits.collision then
      match s.picked index with
      | some (tname, tentry) => s.migrateCalls index tname tentry
      | none => []
    else []
  | .tree _ => []

/-- What moving an entry into a slot does to the tree, and what it leaves in the slot. -/
theorem migrate_eq (htree : s.isTree.Valid) (hbare : ∀ e ∈ s.treeList, e.2.Bare)
    (hi : i + 1 < 2 ^ 24) (hocc : Occurs s.treeList i) :
    ∃ tname tentry tree c, s.picked i = some (tname, tentry) ∧ (tname, tentry) ∈ s.treeList ∧
      machPortIndex tname = i ∧ tree.Valid ∧
      (∀ e, e ∈ tree.contents ↔ e ∈ s.treeList ∧ e.1 ≠ tname) ∧
      tree.contents.length + 1 = s.treeList.length ∧ (c = true ↔ Occurs tree.contents i) ∧
      s.migrate i = some ({ s with
          isTable := update s.isTable i (tentry.inSlot (machPortGen tname) c)
          isTree := tree
          isTreeTotal := s.isTreeTotal - 1 },
        s.migrateCalls i tname tentry) := by
  obtain ⟨tree, collisions, small, hsplit, hv, hvc, hvs, hlist, hlow, hidx, hhigh⟩ :=
    splitIndex_spec htree hi
  have hasc := htree.ascending
  rw [← treeList, hlist, append_assoc, ascending_append, ascending_append] at hasc
  obtain ⟨-, ⟨-, -, hct⟩, hsc⟩ := hasc
  have hoccIff {l : List (Nat × IpcEntry)} (hl : ∀ e ∈ l, machPortIndex e.1 = i) :
      Occurs (small.contents ++ (l ++ tree.contents)) i ↔ l ≠ [] := by
    constructor
    · rintro ⟨e, he, hei⟩
      simp only [mem_append] at he
      rcases he with he | he | he
      · exact absurd (hlow e he) (by omega)
      · exact ne_nil_of_mem he
      · exact absurd (hhigh e he) (by omega)
    · intro hne
      obtain ⟨e, he⟩ := exists_mem_of_ne_nil _ hne
      exact ⟨e, by simp [he], hl e he⟩
  have hne : collisions.contents ≠ [] := by
    rw [hlist, append_assoc] at hocc
    exact (hoccIff hidx).mp hocc
  rcases ipcSplayTreePick_spec collisions with ⟨-, hnil⟩ | ⟨⟨tname, tentry⟩, hpick, hmem⟩
  · exact absurd hnil hne
  have hin : (tname, tentry) ∈ s.treeList := by
    rw [hlist]
    simp [hmem]
  obtain ⟨hcol, hgen⟩ := hbare _ hin
  have horGen : tentry.ieBits.orGen (machPortGen tname) =
      { tentry.ieBits with gen := machPortGen tname } := by
    rw [IeBits.orGen, hgen, Nat.zero_or]
  obtain ⟨collisions', hdel, hvc', hmem', hlen'⟩ := hvc.delete_mem hmem
  have hpicked : s.picked i = some (tname, tentry) := by
    rw [picked, hsplit]
    exact hpick
  have hjoin₁ : ∀ a ∈ collisions'.contents, ∀ b ∈ tree.contents, a.1 < b.1 :=
    fun a ha b hb => hct a ((hmem' a).mp ha).1 b hb
  have hmemIff : ∀ e, e ∈ small.contents ++ (collisions'.contents ++ tree.contents) ↔
      e ∈ s.treeList ∧ e.1 ≠ tname := by
    intro e
    rw [hlist]
    simp only [mem_append, hmem']
    have hother (hei : machPortIndex e.1 ≠ i) : e.1 ≠ tname := fun heq => hei (heq ▸ hidx _ hmem)
    have hs (he : e ∈ small.contents) := hother (hlow e he).ne
    have ht (he : e ∈ tree.contents) := hother (hhigh e he).ne'
    tauto
  have hlen : (small.contents ++ (collisions'.contents ++ tree.contents)).length + 1 =
      s.treeList.length := by
    rw [hlist]
    simp only [length_append]
    omega
  have hoccIff := hoccIff fun e he => hidx e ((hmem' e).mp he).1
  rcases ipcSplayTreePick_spec collisions' with ⟨hpick', hnil⟩ | ⟨e', hpick', he'⟩
  · obtain ⟨hvj, hcj, -⟩ := hv.join hvs fun a ha b hb => hsc a ha b (by simp [hb])
    rw [hnil, nil_append, ← hcj] at hmemIff hlen hoccIff
    refine ⟨tname, tentry, _, false, hpicked, hin, hidx _ hmem, hvj, hmemIff, hlen,
      by simp [hoccIff], ?_⟩
    · simp only [migrate, hsplit, hpick, bind_some, hdel, map_some, hpick', horGen]
      rw [inSlot, migrateCalls]
      rw [hcol]
  · obtain ⟨hv₁, hc₁, -⟩ := hv.join hvc' hjoin₁
    obtain ⟨hvj, hcj, -⟩ := hv₁.join hvs fun a ha b hb => by
      rw [hc₁, mem_append] at hb
      refine hsc a ha b ?_
      rcases hb with hb | hb
      · exact mem_append_left _ ((hmem' b).mp hb).1
      · exact mem_append_right _ hb
    rw [← hc₁, ← hcj] at hmemIff hlen hoccIff
    refine ⟨tname, tentry, _, true, hpicked, hin, hidx _ hmem, hvj, hmemIff, hlen,
      by simp [hoccIff, ne_nil_of_mem he'], ?_⟩
    · simp only [migrate, hsplit, hpick, bind_some, hdel, map_some, hpick', horGen]
      rfl

namespace Rep

variable {m : Nat → Option IpcEntry} {name : Nat} {ref : EntryRef}

/-- A slot with collisions passes to a name of the tree. -/
theorem migrate (h : s.Rep its free m) (hslot : s.InSlot free name)
    (hcol : (s.isTable (machPortIndex name)).ieBits.collision = true) :
    ∃ tname tentry s', s.picked (machPortIndex name) = some (tname, tentry) ∧
      (tname, tentry) ∈ s.treeList ∧ machPortIndex tname = machPortIndex name ∧
      s.migrate (machPortIndex name) = some (s', s.migrateCalls (machPortIndex name) tname tentry) ∧
      s'.Rep its free (update m name none) ∧ s'.isTableSize = s.isTableSize ∧
      ∀ e, e ∈ s'.treeList ↔ e ∈ s.treeList ∧ e.1 ≠ tname := by
  have hle := h.size_le
  have hlt := hslot.2.1
  obtain ⟨tname, tentry, tree, c, hpicked, hin, hidx, hv, hmem, hlen, hc, heq⟩ :=
    migrate_eq h.tree h.bare (by omega) ((h.collision _ hlt).mp hcol)
  refine ⟨tname, tentry, _, hpicked, hin, hidx, heq, ?_, rfl, hmem⟩
  have hne : tname ≠ name := by
    rintro rfl
    exact h.not_mem_tree hslot tentry hin
  have htm : m tname = some tentry := (h.maps tname tentry).mp (.inr hin)
  have hocc := occurs_delete hmem hin
  have h₁ := h.retree_delete hin hv hmem hlen
    (c := fun i => if i = machPortIndex name then c else (s.isTable i).ieBits.collision)
    (fun i hi => by
      by_cases hi' : i = machPortIndex name
      · subst hi'
        simpa using hc
      simp only [hi', if_false]
      rw [h.collision i hi, hocc, or_iff_left]
      simp only [hidx]
      exact hi')
    (h.small.trans (by
      rw [indicesIn_of_occurs hocc fun hlo _ => ?_]
      simp only [hidx] at hlo
      exact absurd hlo hlt.not_ge))
  have h₂ := h₁.reslot (e := tentry.inSlot (machPortGen tname) c)
    (show InSlot _ free name from hslot) hidx rfl
    (by
      show c = if machPortIndex name = machPortIndex name then c else _
      rw [if_pos rfl])
    (fun _ => update_self ..)
  have hmap : update (update (update m tname none) name none) tname
      (some (tentry.inSlot (machPortGen tname) c).right) = update m name none := by
    rw [right_inSlot, right_of_bare (h.bare _ hin), update_comm hne.symm, update_idem, ← htm,
      update_eq_self]
  rw [hmap] at h₂
  have htable : update (fun i => (s.isTable i).setCollision
        (if i = machPortIndex name then c else (s.isTable i).ieBits.collision))
        (machPortIndex name) (tentry.inSlot (machPortGen tname) c) =
      update s.isTable (machPortIndex name) (tentry.inSlot (machPortGen tname) c) := by
    rw [← update_setCollision, update_idem]
  rw [← htable]
  exact h₂

/-- `ipc_entry_dealloc` of an entry that the caller has cleared.  The names of the tree are
the same but for the name itself and the one that moves. -/
theorem dealloc (h : s.Rep its free m) (href : s.Refers free name ref)
    (hobject : ∀ e, s.deref ref = some e → e.ieObject = ioNull) :
    ∃ s' free', ipcEntryDealloc its s name ref = some (s', s.deallocCalls ref) ∧
      s'.Rep its free' (update m name none) ∧ s'.isTableSize = s.isTableSize ∧
      ∀ e, e ∈ s'.treeList ↔ e ∈ s.treeList ∧ e.1 ≠ name ∧ s.moved ref ≠ some e.1 := by
  cases ref with
  | table =>
    obtain ⟨rfl, hslot⟩ := href
    have hne : ∀ e ∈ s.treeList, e.1 ≠ name := by
      rintro e he rfl
      exact h.not_mem_tree hslot e.2 he
    by_cases hcol : (s.isTable (machPortIndex name)).ieBits.collision = true
    · obtain ⟨tname, tentry, s', hpicked, -, -, heq, hrep, hsize, hmem⟩ := h.migrate hslot hcol
      refine ⟨s', free, ?_, hrep, hsize, fun e => ?_⟩
      · rw [ipcEntryDealloc, if_pos ⟨hslot.2.1, rfl⟩, if_pos hcol, heq]
        simp only [deallocCalls, if_pos hcol, hpicked]
      · simp only [moved, if_pos hcol, hpicked, map_some, ne_eq, some.injEq]
        rw [hmem]
        exact ⟨fun he => ⟨he.1, hne e he.1, he.2.symm⟩, fun he => ⟨he.1, symm he.2.2⟩⟩
    · refine ⟨_, _, ?_, h.freeSlot hslot (hobject _ rfl) hcol, rfl, fun e => ?_⟩
      · rw [ipcEntryDealloc, if_pos ⟨hslot.2.1, rfl⟩, if_neg hcol]
        simp only [deallocCalls, if_neg hcol]
      · simp only [moved, if_neg hcol]
        exact ⟨fun he => ⟨he, hne e he, by simp⟩, fun he => he.1⟩
  | tree =>
    obtain ⟨rfl, v, hv⟩ := href
    obtain ⟨s', heq, hrep, hsize, hmem⟩ := h.deleteTree hv
    refine ⟨s', free, ?_, hrep, hsize, fun e => ?_⟩
    · simp [ipcEntryDealloc, heq, deallocCalls]
    · rw [hmem]
      simp [moved]

theorem write (h : s.Rep its free m) (href : s.Refers free name ref) (v : IpcEntry) :
    (s.write ref v).Rep its free (update m name (some v.right)) ∧
      (s.write ref v).Refers free name ref := by
  cases ref with
  | table =>
    obtain ⟨rfl, hslot⟩ := href
    have hrep := h.reslot (e := (s.isTable (machPortIndex name)).withRight v) hslot
      (show machPortIndex name = machPortIndex name from rfl) hslot.2.2.2 rfl
      fun hne => absurd rfl hne
    rw [right_withRight, update_idem] at hrep
    refine ⟨hrep, rfl, hslot.1, hslot.2.1, hslot.2.2.1, ?_⟩
    simp only [IpcSpace.write, deref, store, update_self]
    exact hslot.2.2.2
  | tree tname =>
    obtain ⟨rfl, w, hw⟩ := href
    have hbare := h.bare _ hw
    have heq : s.write (.tree tname) v =
        { s with isTree := s.isTree.modify tname fun _ => v.right } := by
      simp only [IpcSpace.write, deref, h.tree.ascending.lookup_of_mem hw, store]
      rw [withRight, right, hbare.1, hbare.2]
    have hmem : ∀ e, e ∈ (s.isTree.modify tname fun _ => v.right).contents ↔
        (e.1 = tname ∧ some v.right = some e.2) ∨ (e ∈ s.treeList ∧ e.1 ≠ tname) := by
      intro e
      rw [IpcSplayTree.contents_modify, List.mem_map]
      constructor
      · rintro ⟨a, ha, rfl⟩
        by_cases hat : a.1 = tname
        · simp [hat]
        · exact .inr ⟨by simpa [hat] using ha, hat⟩
      · rintro (⟨rfl, hu⟩ | ⟨he, hne⟩)
        · exact ⟨_, hw, by simpa using congrArg (e.1, ·) (some.inj hu)⟩
        · exact ⟨_, he, by simp [hne]⟩
    have hocc : ∀ i, Occurs (s.isTree.modify tname fun _ => v.right).contents i ↔
        Occurs s.treeList i := by
      simp [Occurs, IpcSplayTree.contents_modify]
    rw [heq]
    refine ⟨h.retree (c := fun i => (s.isTable i).ieBits.collision)
      (fun hslot => h.not_mem_tree hslot w hw) (fun e he => ?_) (h.tree.modify ..) hmem
      (fun i hi => by rw [hocc, h.collision i hi]) ?_ ?_, rfl, v.right, (hmem _).mpr ?_⟩
    · cases he
      exact ⟨v.right_bare, h.name_pos _ hw, fun hidx hlt => (h.shadow _ hw hidx hlt).1⟩
    · rw [h.total, IpcSplayTree.contents_modify, length_map]
    · rw [h.small, indicesIn_congr fun i _ _ => hocc i]
    · exact .inl ⟨rfl, rfl⟩

end Rep

end IpcSpace

end Mach
