import Mach.DefaultPager.DpagerMap
import Mach.Lib.Simulation

/-!
# Objects that share partitions

Any number of paging objects take their blocks from the same partitions.  The abstract state is the
block of each page of each object.  It is a partial map, which stays injective: a block is taken
from the bitmap of its partition when it is assigned, and its bit is set until it is released.
-/

namespace Mach

open Function Option

/-! ### Calls on one object -/

namespace Dpager

/-- An object whose partition is one of the list.  One without a partition has no blocks. -/
structure Sound (l : PartitionList) (d : Dpager) : Prop where
  ok : d.Ok
  current : ∀ k, d.currentPartition = some k → k < l.length
  unattached : d.currentPartition = none → d.lookup = fun _ => none

variable {c : PagerConfig} {l l' : PartitionList} {used : Nat → Nat → Prop} {d : Dpager}
  {page k n : Nat} {offset : BitVec 32} {kalloc : Bool}

theorem Sound.keeps (h : d.Sound l) (hkeeps : l.Keeps l') : d.Sound l' :=
  ⟨h.ok, hkeeps.length ▸ h.current, h.unattached⟩

theorem slot_of_takes (h : l.Takes c used l' k n) :
    Block.slot ⟨BitVec.ofNat 24 n, BitVec.ofNat 8 k⟩ = some (k, n) := by
  obtain ⟨part, hpart⟩ := h.ok.present k n (.inr ⟨rfl, rfl⟩)
  have hpartition := h.ok.ok k part hpart
  have hindex : k < 255 := h.ok.index k part hpart
  have hlt : n < part.totalSize := hpartition.lt n (.inr ⟨rfl, rfl⟩)
  have hsize : part.totalSize < 2 ^ 20 := by
    have hpages := (Nat.mul_le_mul_left part.totalSize
        (Nat.pow_le_pow_right two_pos c.shift_ge)).trans_lt hpartition.bound
    omega
  have hk : (BitVec.ofNat 8 k).toNat = k := by
    rw [BitVec.toNat_ofNat, Nat.mod_eq_of_lt (by omega)]
  have hn : (BitVec.ofNat 24 n).toNat = n := by
    rw [BitVec.toNat_ofNat, Nat.mod_eq_of_lt (by omega)]
  have hne : (⟨.ofNat 24 n, .ofNat 8 k⟩ : Block) ≠ noBlock := by
    intro heq
    have hk' := congrArg (fun b => b.index.toNat) heq
    simp only [noBlock, BitVec.toNat_allOnes] at hk'
    omega
  rw [Block.slot, if_neg hne, hk, hn]

/-- Every block of the partitions is in use. -/
def Exhausted (l : PartitionList) (used : Nat → Nat → Prop) : Prop :=
  ∀ k n, n < l.total k → used k n

/-- `pager_write_offset` takes a block, or there is none. -/
theorem allocBlock_spec (h : PartitionList.Ok c l used) (hk : k < l.length)
    (hcurrent : d.currentPartition = some k) :
    (d.allocBlock c l = .ok (d, l, none) ∧ Exhausted l used) ∨
    ∃ l' k' n, d.allocBlock c l = .ok ({ d with currentPartition := some k' }, l', some n) ∧
      k' < l.length ∧ l.Takes c used l' k' n := by
  obtain ⟨map, size, current⟩ := d
  cases hcurrent
  rcases h.alloc hk with ⟨halloc, hfull⟩ | ⟨l', n, halloc, htakes⟩
  · cases hchoose : choosePartition c (c.ptoa 1) (some k) l with
    | none =>
      left
      refine ⟨?_, ?_⟩
      · simp only [allocBlock, halloc, retryAlloc, hchoose, bind, Except.bind]
      · intro k' n hn
        rcases eq_or_ne k' k with rfl | hne
        · exact hfull n hn
        · exact choosePartition_none h hchoose (mt some.inj hne) n hn
    | some k' =>
      right
      obtain ⟨l', n, hretry, htakes⟩ := choosePartition_alloc h hchoose
      refine ⟨l', k', n, ?_, choosePartition_lt hchoose, htakes⟩
      simp only [allocBlock, halloc, retryAlloc, hchoose, hretry, bind, Except.bind, Except.map]
  · right
    refine ⟨l', k, n, ?_, hk, htakes⟩
    simp only [allocBlock, halloc, bind, Except.bind]

/-- What `pager_write_offset` does: the page has a block already, it gets one, or it fails. -/
inductive Writes (c : PagerConfig) (l : PartitionList) (used : Nat → Nat → Prop) (kalloc : Bool)
    (page : Nat) (f : Nat → Option (Nat × Nat)) :
    (Nat → Option (Nat × Nat)) → PartitionList → Block → Prop
  | present {b : Block} {x : Nat × Nat} : f page = some x → b.slot = some x →
      Writes c l used kalloc page f f l b
  | assigned {l' : PartitionList} {b : Block} {k n : Nat} : f page = none → b.slot = some (k, n) →
      l.Takes c used l' k n →
      Writes c l used kalloc page f (update f page (some (k, n))) l' b
  | failed : f page = none → kalloc = false ∨ Exhausted l used →
      Writes c l used kalloc page f f l noBlock

variable {f f' : Nat → Option (Nat × Nat)} {b : Block}

section

variable (h : Writes c l used kalloc page f f' l' b)
include h

theorem Writes.keeps : l.Keeps l' := by
  cases h with
  | present | failed => exact .refl l
  | assigned _ _ htakes => exact htakes.keeps

theorem Writes.lookup {p : Nat} {x : Nat × Nat} (hp : f p = some x) : f' p = some x := by
  cases h with
  | present | failed => exact hp
  | assigned hnone =>
    have hne : p ≠ page := by
      rintro rfl
      cases hnone.symm.trans hp
    rw [update_of_ne hne]
    exact hp

theorem Writes.ok (hl : PartitionList.Ok c l used) : ∃ used', PartitionList.Ok c l' used' := by
  cases h with
  | present | failed => exact ⟨used, hl⟩
  | assigned _ _ htakes => exact ⟨_, htakes.ok⟩

end

theorem assign_spec (kalloc : Bool) (h : PartitionList.Ok c l used) (hd : d.Ok)
    (hreach : d.Reaches page)
    (hnone : d.lookup page = none) (hk : k < l.length) (hcurrent : d.currentPartition = some k) :
    ∃ d' l' b, d.assign c page l = .ok (d', l', b) ∧ d'.Ok ∧ d'.size = d.size ∧
      (∃ k' < l.length, d'.currentPartition = some k') ∧
      Writes c l used kalloc page d.lookup d'.lookup l' b := by
  rcases allocBlock_spec h hk hcurrent with ⟨halloc, hfull⟩ | ⟨l', k', n, halloc, hk', htakes⟩
  · refine ⟨d, l, noBlock, ?_, hd, rfl, ⟨k, hk, hcurrent⟩, .failed hnone (.inr hfull)⟩
    simp only [assign, halloc, bind, Except.bind]
  have hd' : Ok { d with currentPartition := some k' } := ⟨hd.pos, hd.fits⟩
  have hreach' : Reaches { d with currentPartition := some k' } page := hreach
  obtain ⟨d', hstore, hok, hsize, hcur, hlookup⟩ :=
    hd'.store hreach' ⟨.ofNat 24 n, .ofNat 8 k'⟩
  refine ⟨d', l', ⟨.ofNat 24 n, .ofNat 8 k'⟩, ?_, hok, hsize, ⟨k', hk', hcur⟩, ?_⟩
  · simp only [assign, halloc, hstore, bind, Except.bind]
  · rw [hlookup, slot_of_takes htakes]
    exact .assigned hnone (slot_of_takes htakes) htakes

theorem eq_noBlock_of_slot (h : b.slot = none) : b = noBlock := by
  rw [Block.slot] at h
  split at h
  next heq => exact heq
  next => cases h

theorem writeEntry_spec (kalloc : Bool) (h : PartitionList.Ok c l used) (hd : d.Ok)
    (hpage : page < d.size) (hk : k < l.length) (hcurrent : d.currentPartition = some k) :
    ∃ d' l' b, d.writeEntry c kalloc page l = .ok (d', l', b) ∧ d'.Ok ∧ d'.size = d.size ∧
      (∃ k' < l.length, d'.currentPartition = some k') ∧
      Writes c l used kalloc page d.lookup d'.lookup l' b := by
  rcases hd.ensureMap hpage kalloc with ⟨hmap, hkalloc, hnone⟩ |
      ⟨d₁, hmap, hok, hreach, hsize, hcur, hlookup⟩
  · refine ⟨d, l, noBlock, ?_, hd, rfl, ⟨k, hk, hcurrent⟩, .failed hnone (.inl hkalloc)⟩
    simp only [writeEntry, hmap, bind, Except.bind]
  obtain ⟨b, hentry, hslot⟩ := hok.entry_of_reaches hreach
  cases hb : b.slot with
  | none =>
    have hnone : d₁.lookup page = none := hslot.symm.trans hb
    obtain ⟨d', l', b', hassign, hok', hsize', hcur', hwrites⟩ :=
      assign_spec kalloc h hok hreach hnone hk (hcur.trans hcurrent)
    refine ⟨d', l', b', ?_, hok', hsize'.trans hsize, hcur', hlookup ▸ hwrites⟩
    simp [writeEntry, hmap, hentry, eq_noBlock_of_slot hb, hassign, bind, Except.bind]
  | some =>
    have hne : b ≠ noBlock := by
      rintro rfl
      cases hb
    refine ⟨d₁, l, b, ?_, hok, hsize, ⟨k, hk, hcur.trans hcurrent⟩, ?_⟩
    · simp only [writeEntry, hmap, hentry, if_neg hne, bind, Except.bind]
    · rw [hlookup]
      exact .present ((congrFun hlookup page).symm.trans (hslot.symm.trans hb)) hb

/-- The partition that an object gets is one with a free block. -/
theorem attach_spec (page : Nat) (h : PartitionList.Ok c l used) (hd : d.Sound l) :
    (d.attach c page l).Ok ∧ (d.attach c page l).size = d.size ∧
      (d.attach c page l).lookup = d.lookup ∧
      ((d.attach c page l = d ∧ d.currentPartition = none ∧ Exhausted l used) ∨
        ∃ k < l.length, (d.attach c page l).currentPartition = some k) := by
  cases hcurrent : d.currentPartition with
  | some k =>
    have hattach : d.attach c page l = d := by rw [attach, hcurrent]
    rw [hattach]
    exact ⟨hd.ok, rfl, rfl, .inr ⟨k, hd.current k hcurrent, hcurrent⟩⟩
  | none =>
    have hattach : d.attach c page l =
        { d with currentPartition := (d.attach c page l).currentPartition } := by
      rw [attach, hcurrent]
    have hor : (d.attach c page l).currentPartition =
        (choosePartition c (c.ptoa (if d.size < page then page else d.size)) none l).or
          (choosePartition c (c.ptoa 1) none l) := by
      rw [attach, hcurrent]
    refine ⟨hattach ▸ ⟨hd.ok.pos, hd.ok.fits⟩, hattach ▸ rfl, hattach ▸ rfl, ?_⟩
    cases hnew : (d.attach c page l).currentPartition with
    | none =>
      left
      refine ⟨?_, rfl, ?_⟩
      · rw [hattach, hnew, ← hcurrent]
      · intro k n hn
        rw [hnew] at hor
        obtain ⟨-, hone⟩ := or_eq_none_iff.mp hor.symm
        exact choosePartition_none h hone (some_ne_none k) n hn
    | some k =>
      right
      rw [hnew] at hor
      rcases or_eq_some_iff.mp hor.symm with hsize | ⟨-, hone⟩
      · exact ⟨k, choosePartition_lt hsize, rfl⟩
      · exact ⟨k, choosePartition_lt hone, rfl⟩

theorem pagerWriteOffset_spec (h : PartitionList.Ok c l used) (hd : d.Sound l)
    (offset : BitVec 32) (kalloc : Bool) :
    ∃ d' l' b, d.pagerWriteOffset c kalloc offset l = .ok (d', l', b) ∧ d'.Sound l' ∧
      Writes c l used kalloc (c.atop offset) d.lookup d'.lookup l' b := by
  obtain ⟨hok, -, hlookup, ⟨hattach, hnone, hfull⟩ | ⟨k, hk, hcurrent⟩⟩ :=
    attach_spec (c.atop offset) h hd
  · refine ⟨d, l, noBlock, ?_, hd, .failed (congrFun (hd.unattached hnone) _) (.inr hfull)⟩
    simp [pagerWriteOffset, hattach, hnone]
  obtain ⟨d₁, hextend, hok₁, hpage, hcur₁, hlookup₁⟩ := hok.extendTo c (c.atop offset)
  obtain ⟨d', l', b, hwrite, hok', -, ⟨k', hk', hcur'⟩, hwrites⟩ :=
    writeEntry_spec kalloc h hok₁ hpage hk (hcur₁.trans hcurrent)
  rw [hlookup₁, hlookup] at hwrites
  refine ⟨d', l', b, ?_, ⟨hok', ?_, ?_⟩, hwrites⟩
  · simp [pagerWriteOffset, hcurrent, hextend, hwrite, bind, Except.bind]
  · intro k'' hk''
    cases hcur'.symm.trans hk''
    exact hk'.trans_eq hwrites.keeps.length.symm
  · intro hnone
    cases hcur'.symm.trans hnone

theorem pagerReadOffset_spec (hd : d.Sound l) :
    ∃ d' b, d.pagerReadOffset c offset = .ok (d', b) ∧ d'.Sound l ∧ d'.lookup = d.lookup ∧
      b.slot = d.lookup (c.atop offset) := by
  obtain ⟨d', hextend, hok, hpage, hcurrent, hlookup⟩ := hd.ok.extendTo c (c.atop offset)
  obtain ⟨b, hentry, hslot⟩ := hok.entry hpage
  refine ⟨d', b, ?_, ⟨hok, hcurrent ▸ hd.current, ?_⟩, hlookup, hlookup ▸ hslot⟩
  · simp only [pagerReadOffset, hextend, hentry, bind, Except.bind]
  · intro hnone
    rw [hlookup]
    exact hd.unattached (hcurrent ▸ hnone)

theorem slot_eq_some (h : b.slot = some (k, n)) :
    b ≠ noBlock ∧ b.index.toNat = k ∧ b.offset.toNat = n := by
  rw [Block.slot] at h
  split at h
  next => cases h
  next hne =>
    cases h
    exact ⟨hne, rfl, rfl⟩

variable (h : PartitionList.Ok c l used)

include h

theorem pagerReleaseOffset_spec (hd : d.Sound l)
    (hpage : d.lookup (c.atop offset) = some (k, n)) (hused : used k n) :
    ∃ d' l', d.pagerReleaseOffset c offset l = .ok (d', l') ∧ d'.Sound l' ∧ l.Keeps l' ∧
      d'.lookup = update d.lookup (c.atop offset) none ∧
      PartitionList.Ok c l' fun k' n' => used k' n' ∧ ¬ (k' = k ∧ n' = n) := by
  have hreach := reaches_of_lookup hpage
  obtain ⟨b, hentry, hslot⟩ := hd.ok.entry_of_reaches hreach
  obtain ⟨-, hk, hn⟩ := slot_eq_some (hslot.trans hpage)
  obtain ⟨d', hstore, hok, -, hcurrent, hlookup⟩ := hd.ok.store hreach noBlock
  obtain ⟨l', hdealloc, hkeeps, hok'⟩ := h.dealloc hused
  refine ⟨d', l', ?_, .keeps ⟨hok, hcurrent ▸ hd.current, ?_⟩ hkeeps, hkeeps, hlookup, hok'⟩
  · simp only [pagerReleaseOffset, hentry, hstore, hk, hn, hdealloc, bind, Except.bind]
  · intro hnone
    have hempty := hd.unattached (hcurrent ▸ hnone)
    rw [hempty] at hpage
    cases hpage

/-- Blocks that are in use and differ from each other are given back one by one. -/
theorem deallocBlocks_spec {bs : List Block} (hnodup : (bs.filterMap Block.slot).Nodup)
    (hused : ∀ x ∈ bs.filterMap Block.slot, used x.1 x.2) :
    ∃ l', deallocBlocks bs l = .ok l' ∧ l.Keeps l' ∧
      PartitionList.Ok c l' fun k n => used k n ∧ (k, n) ∉ bs.filterMap Block.slot := by
  induction bs generalizing l used with
  | nil => exact ⟨l, rfl, .refl l, by simpa using h⟩
  | cons b bs ih =>
    cases hslot : b.slot with
    | none =>
      rw [List.filterMap_cons_none hslot] at hnodup hused ⊢
      rw [deallocBlocks, if_pos (eq_noBlock_of_slot hslot)]
      exact ih h hnodup hused
    | some x =>
      obtain ⟨k, n⟩ := x
      obtain ⟨hne, hk, hn⟩ := slot_eq_some hslot
      rw [List.filterMap_cons_some hslot] at hnodup hused ⊢
      obtain ⟨hnot, hnodup⟩ := List.nodup_cons.mp hnodup
      obtain ⟨l₁, hdealloc, hkeeps, hok⟩ := h.dealloc (hused (k, n) List.mem_cons_self)
      have hrest : ∀ x ∈ bs.filterMap Block.slot, used x.1 x.2 ∧ ¬ (x.1 = k ∧ x.2 = n) := by
        rintro ⟨k', n'⟩ hmem
        refine ⟨hused _ (List.mem_cons_of_mem _ hmem), ?_⟩
        rintro ⟨rfl, rfl⟩
        exact hnot hmem
      obtain ⟨l', hbs, hkeeps', hok'⟩ := ih hok hnodup hrest
      refine ⟨l', ?_, hkeeps.trans hkeeps', ?_⟩
      · rw [deallocBlocks, if_neg hne, hk, hn, hdealloc]
        exact hbs
      · refine hok'.congr fun k' n' => ?_
        simp [Prod.mk.injEq, not_or, and_assoc]

theorem pagerDealloc_spec (hd : d.Ok) (hinj : d.Injective)
    (hused : ∀ p k n, d.lookup p = some (k, n) → used k n) :
    ∃ l', d.pagerDealloc l = .ok l' ∧ l.Keeps l' ∧
      PartitionList.Ok c l' fun k n => used k n ∧ ¬ ∃ p, d.lookup p = some (k, n) := by
  have hall : ∀ x ∈ d.allBlocks.filterMap Block.slot, used x.1 x.2 := by
    rintro ⟨k, n⟩ hmem
    obtain ⟨p, hp⟩ := hd.mem_allBlocks.mp hmem
    exact hused p k n hp
  obtain ⟨l', hdealloc, hkeeps, hok⟩ := deallocBlocks_spec h (hd.nodup_allBlocks hinj) hall
  simp only [hd.mem_allBlocks] at hok
  refine ⟨l', ?_, hkeeps, hok⟩
  simp only [pagerDealloc, hd.blocks_eq, hdealloc, bind, Except.bind]

end Dpager

/-! ### The blocks of all objects -/

variable {ι : Type}

/-- The block of each page of each object there is. -/
abbrev Assigned (ι : Type) := ι → Option (Nat → Option (Nat × Nat))

namespace Assigned

/-- The block of a page of an object. -/
def block (a : Assigned ι) (i : ι) (page : Nat) : Option (Nat × Nat) := (a i).bind fun f => f page

/-- Some page has the block. -/
def Used (a : Assigned ι) (k n : Nat) : Prop := ∃ i page, a.block i page = some (k, n)

/-- No block is assigned twice. -/
def Injective (a : Assigned ι) : Prop :=
  ∀ i j p q x, a.block i p = some x → a.block j q = some x → i = j ∧ p = q

variable {a : Assigned ι} {i : ι} {page : Nat} {f : Nat → Option (Nat × Nat)} {k n : Nat}

theorem block_eq (h : a i = some f) : a.block i page = f page := by
  rw [block, h]
  rfl

theorem injective_of_le {a' : Assigned ι} (h : a.Injective)
    (hle : ∀ i p x, a'.block i p = some x → a.block i p = some x) : a'.Injective :=
  fun i j p q x hp hq => h i j p q x (hle i p x hp) (hle j q x hq)

variable [DecidableEq ι]

/-- Change the block of a page. -/
def set (a : Assigned ι) (i : ι) (page : Nat) (x : Option (Nat × Nat)) : Assigned ι :=
  update a i ((a i).map fun f => update f page x)

theorem block_update (x : Option (Nat → Option (Nat × Nat))) (j : ι) (p : Nat) :
    block (update a i x) j p = if j = i then x.bind fun f => f p else a.block j p := by
  rcases eq_or_ne j i with rfl | hne
  · rw [if_pos rfl, block, update_self]
  · rw [if_neg hne, block, update_of_ne hne, block]

theorem set_eq (h : a i = some f) (x : Option (Nat × Nat)) :
    a.set i page x = update a i (some (update f page x)) := by
  rw [set, h]
  rfl

theorem block_set (h : a i = some f) (x : Option (Nat × Nat)) (j : ι) (p : Nat) :
    (a.set i page x).block j p = if j = i ∧ p = page then x else a.block j p := by
  rw [set_eq h, block_update]
  rcases eq_or_ne j i with rfl | hne
  · rw [if_pos rfl, block_eq h, bind_some, update_apply]
    simp
  · rw [if_neg hne, if_neg fun hj => hne hj.1]

theorem set_self (h : a i = some f) : a.set i page (f page) = a := by
  rw [set_eq h, update_eq_self, ← h, update_eq_self]

/-- A block that was not in use is assigned to a page that had none. -/
theorem Injective.assign (h : a.Injective) (hi : a i = some f) (page : Nat)
    (hfresh : ¬ a.Used k n) :
    (a.set i page (some (k, n))).Injective := by
  intro j j' p p' x hp hp'
  rw [block_set hi] at hp hp'
  split at hp
  next heq =>
    cases hp
    split at hp'
    next heq' => exact ⟨heq.1.trans heq'.1.symm, heq.2.trans heq'.2.symm⟩
    next => exact absurd ⟨j', p', hp'⟩ hfresh
  next =>
    split at hp'
    next =>
      cases hp'
      exact absurd ⟨j, p, hp⟩ hfresh
    next => exact h j j' p p' x hp hp'

theorem used_assign (hi : a i = some f) (hnone : f page = none) (k' n' : Nat) :
    (a.set i page (some (k, n))).Used k' n' ↔ a.Used k' n' ∨ (k' = k ∧ n' = n) := by
  constructor
  · rintro ⟨j, p, hp⟩
    rw [block_set hi] at hp
    split at hp
    next =>
      cases hp
      exact .inr ⟨rfl, rfl⟩
    next => exact .inl ⟨j, p, hp⟩
  · rintro (⟨j, p, hp⟩ | ⟨rfl, rfl⟩)
    · refine ⟨j, p, ?_⟩
      rw [block_set hi, if_neg]
      · exact hp
      · rintro ⟨rfl, rfl⟩
        rw [block_eq hi, hnone] at hp
        cases hp
    · exact ⟨i, page, by rw [block_set hi, if_pos ⟨rfl, rfl⟩]⟩

theorem Injective.release (h : a.Injective) (hi : a i = some f) (page : Nat) :
    (a.set i page none).Injective := by
  refine injective_of_le h fun j p x hp => ?_
  rw [block_set hi] at hp
  exact (ite_none_left_eq_some.mp hp).2

theorem used_release (h : a.Injective) (hi : a i = some f) (hpage : f page = some (k, n))
    (k' n' : Nat) : (a.set i page none).Used k' n' ↔ a.Used k' n' ∧ ¬ (k' = k ∧ n' = n) := by
  have hblock : a.block i page = some (k, n) := (block_eq hi).trans hpage
  constructor
  · rintro ⟨j, p, hp⟩
    rw [block_set hi] at hp
    obtain ⟨hne, hp⟩ := ite_none_left_eq_some.mp hp
    refine ⟨⟨j, p, hp⟩, ?_⟩
    rintro ⟨rfl, rfl⟩
    exact hne (h j i p page _ hp hblock)
  · rintro ⟨⟨j, p, hp⟩, hne⟩
    refine ⟨j, p, ?_⟩
    rw [block_set hi, if_neg]
    · exact hp
    · rintro ⟨rfl, rfl⟩
      cases hp.symm.trans hblock
      exact hne ⟨rfl, rfl⟩

theorem Injective.destroy (h : a.Injective) (i : ι) : Injective (update a i none) := by
  refine injective_of_le h fun j p x hp => ?_
  rw [block_update] at hp
  exact (ite_none_left_eq_some.mp hp).2

theorem used_destroy (h : a.Injective) (i : ι) (k n : Nat) :
    Used (update a i none) k n ↔ a.Used k n ∧ ¬ ∃ p, a.block i p = some (k, n) := by
  constructor
  · rintro ⟨j, p, hp⟩
    rw [block_update] at hp
    obtain ⟨hne, hp⟩ := ite_none_left_eq_some.mp hp
    refine ⟨⟨j, p, hp⟩, ?_⟩
    rintro ⟨q, hq⟩
    exact hne (h j i p q _ hp hq).1
  · rintro ⟨⟨j, p, hp⟩, hnot⟩
    refine ⟨j, p, ?_⟩
    rw [block_update, if_neg]
    · exact hp
    · rintro rfl
      exact hnot ⟨p, hp⟩

end Assigned

open Assigned

/-! ### Calls on all objects -/

/-- The partitions and the objects that take blocks from them. -/
structure PagerState (ι : Type) where
  partitions : PartitionList
  pagers : ι → Option Dpager

/-- A call, for one of the objects. -/
inductive PagerOp (ι : Type) where
  | alloc (i : ι) (size : BitVec 32)
  /-- `kalloc` tells if there is memory for a second-level map. -/
  | writeOffset (i : ι) (offset : BitVec 32) (kalloc : Bool)
  | readOffset (i : ι) (offset : BitVec 32)
  | releaseOffset (i : ι) (offset : BitVec 32)
  | dealloc (i : ι)

/-- What a call returns. -/
inductive PagerResult where
  | done
  | block (b : Block)
deriving DecidableEq

/-- The partition that `pager_port_alloc` chooses: one that is large enough, or else any. -/
def portPartition (c : PagerConfig) (size : BitVec 32) (partitions : PartitionList) : Option Nat :=
  (choosePartition c size.toNat none partitions).or (choosePartition c 0 none partitions)

namespace PagerState

/-- The maps of the objects have the blocks that are assigned, and the bitmaps have no others. -/
structure Represents (c : PagerConfig) (total : Nat → Nat) (s : PagerState ι) (a : Assigned ι) :
    Prop where
  pagers : ∀ i, a i = (s.pagers i).map Dpager.lookup
  sound : ∀ i d, s.pagers i = some d → d.Sound s.partitions
  partitions : PartitionList.Ok c s.partitions a.Used
  total : s.partitions.total = total
  injective : a.Injective

variable {c : PagerConfig} {s : PagerState ι} {a : Assigned ι}

theorem Represents.pager {total : Nat → Nat}
    {i : ι} {f : Nat → Option (Nat × Nat)} (h : s.Represents c total a) (hi : a i = some f) :
    ∃ d, s.pagers i = some d ∧ d.Sound s.partitions ∧ d.lookup = f := by
  rw [h.pagers i] at hi
  obtain ⟨d, hd, hlookup⟩ := map_eq_some_iff.mp hi
  exact ⟨d, hd, h.sound i d hd, hlookup⟩

/-- Partitions of these sizes, and no objects. -/
def Start (c : PagerConfig) (sizes : List (BitVec 32)) (s : PagerState ι) (a : Assigned ι) : Prop :=
  s = ⟨initPartitions c sizes, fun _ => none⟩ ∧ a = fun _ => none

theorem Start.represents {sizes : List (BitVec 32)} (hsizes : sizes.length < 255)
    (h : s.Start c sizes a) :
    s.Represents c (initPartitions c sizes).total a := by
  obtain ⟨rfl, rfl⟩ := h
  constructor
  case pagers => exact fun _ => rfl
  case sound => rintro i d ⟨⟩
  case partitions =>
    refine (initPartitions_ok hsizes).congr fun k n => ?_
    simp [Assigned.Used, block]
  case total => rfl
  case injective => rintro i j p q x ⟨⟩

end PagerState

variable [DecidableEq ι]

/-- A call on an object. -/
def pagerStep (c : PagerConfig) : Machine (PagerOp ι) PagerResult (PagerState ι)
  | .alloc i size, s =>
    some ({ s with
      pagers := update s.pagers i
        (some (pagerAlloc c (portPartition c size s.partitions) size)) }, .done)
  | .writeOffset i offset kalloc, s =>
    (s.pagers i).bind fun d =>
      (d.pagerWriteOffset c kalloc offset s.partitions).toOption.map fun x =>
        (⟨x.2.1, update s.pagers i (some x.1)⟩, .block x.2.2)
  | .readOffset i offset, s =>
    (s.pagers i).bind fun d =>
      (d.pagerReadOffset c offset).toOption.map fun x =>
        (⟨s.partitions, update s.pagers i (some x.1)⟩, .block x.2)
  | .releaseOffset i offset, s =>
    (s.pagers i).bind fun d =>
      (d.pagerReleaseOffset c offset s.partitions).toOption.map fun x =>
        (⟨x.2, update s.pagers i (some x.1)⟩, .done)
  | .dealloc i, s =>
    (s.pagers i).bind fun d =>
      (d.pagerDealloc s.partitions).toOption.map fun l =>
        (⟨l, update s.pagers i none⟩, .done)

/-- The results of the calls, with partitions of these sizes.  A page keeps the block it has.  One
without a block gets one that is not in use.  That fails if all blocks are in use, or if there is no
memory for the map. -/
def blockContract (c : PagerConfig) (total : Nat → Nat) :
    Contract (PagerOp ι) PagerResult (Assigned ι) where
  legal
    | .alloc i _, a => a i = none
    | .writeOffset i _ _, a => ∃ f, a i = some f
    | .readOffset i _, a => ∃ f, a i = some f
    | .releaseOffset i offset, a => ∃ x, a.block i (c.atop offset) = some x
    | .dealloc i, a => ∃ f, a i = some f
  ok
    | .alloc _ _, _, r => r = .done
    | .writeOffset i offset kalloc, a, r => ∃ b, r = .block b ∧
      match a.block i (c.atop offset), b.slot with
      | some x, y => y = some x
      | none, some (k, n) => n < total k ∧ ¬ a.Used k n
      | none, none => kalloc = false ∨ ∀ k n, n < total k → a.Used k n
    | .readOffset i offset, a, r => ∃ b, r = .block b ∧ b.slot = a.block i (c.atop offset)
    | .releaseOffset _ _, _, r => r = .done
    | .dealloc _, _, r => r = .done
  next
    | .alloc i _, a, _ => update a i (some fun _ => none)
    | .writeOffset i offset _, a, .block b => a.set i (c.atop offset) b.slot
    | .writeOffset _ _ _, a, .done => a
    | .readOffset _ _, a, _ => a
    | .releaseOffset i offset, a, _ => a.set i (c.atop offset) none
    | .dealloc i, a, _ => update a i none

namespace PagerState

namespace Represents

variable {c : PagerConfig} {total : Nat → Nat} {s : PagerState ι} {a : Assigned ι} {i : ι}
  {d : Dpager} {f : Nat → Option (Nat × Nat)} {offset : BitVec 32}

variable (h : s.Represents c total a)

include h

theorem assign {l : PartitionList} (x : Option Dpager)
    (hkeeps : s.partitions.Keeps l) (hsound : ∀ d, x = some d → d.Sound l)
    (hok : PartitionList.Ok c l (Assigned.Used (update a i (x.map Dpager.lookup))))
    (hinj : Assigned.Injective (update a i (x.map Dpager.lookup))) :
    Represents c total ⟨l, update s.pagers i x⟩ (update a i (x.map Dpager.lookup)) := by
  constructor
  case pagers =>
    intro j
    dsimp only
    rcases eq_or_ne j i with rfl | hne
    · rw [update_self, update_self]
    · rw [update_of_ne hne, update_of_ne hne]
      exact h.pagers j
  case sound =>
    intro j d hd
    dsimp only at hd
    rcases eq_or_ne j i with rfl | hne
    · rw [update_self] at hd
      exact hsound d hd
    · rw [update_of_ne hne] at hd
      exact (h.sound j d hd).keeps hkeeps
  case partitions => exact hok
  case total => exact hkeeps.total.trans h.total
  case injective => exact hinj

theorem same (hi : a i = some f) (hd : d.Sound s.partitions) (hlookup : d.lookup = f) :
    Represents c total ⟨s.partitions, update s.pagers i (some d)⟩ a := by
  have hsame : update a i ((some d).map Dpager.lookup) = a := by
    rw [map_some, hlookup, ← hi, update_eq_self]
  have hupdate := h.assign (some d) (.refl _) (by rintro _ ⟨⟩; exact hd)
    (hsame.symm ▸ h.partitions) (hsame.symm ▸ h.injective)
  rwa [hsame] at hupdate

theorem alloc (hi : a i = none) (size : BitVec 32) :
    Represents c total ⟨s.partitions, update s.pagers i
      (some (pagerAlloc c (portPartition c size s.partitions) size))⟩
      (update a i (some fun _ => none)) := by
  have hblock (j : ι) (p : Nat) :
      block (update a i (some fun _ => none)) j p = a.block j p := by
    rw [block_update]
    rcases eq_or_ne j i with rfl | hne
    · rw [if_pos rfl, block, hi]
      rfl
    · rw [if_neg hne]
  obtain ⟨hok, hlookup⟩ := Dpager.pagerAlloc_ok (portPartition c size s.partitions) size
  rw [← hlookup] at hblock ⊢
  apply h.assign (some (pagerAlloc c (portPartition c size s.partitions) size)) (.refl _)
  · rintro d ⟨⟩
    refine ⟨hok, ?_, fun _ => hlookup⟩
    intro k hk
    rcases or_eq_some_iff.mp hk with hsize | ⟨-, hany⟩
    · exact choosePartition_lt hsize
    · exact choosePartition_lt hany
  · refine h.partitions.congr fun k n => ?_
    simp [Assigned.Used, hblock]
  · exact injective_of_le h.injective fun j p x hp => (hblock j p).symm.trans hp

section

variable (hi : a i = some f)
include hi

theorem readOffset (offset : BitVec 32) :
    ∃ d d' b, s.pagers i = some d ∧ d.pagerReadOffset c offset = .ok (d', b) ∧
      b.slot = f (c.atop offset) ∧
      Represents c total ⟨s.partitions, update s.pagers i (some d')⟩ a := by
  obtain ⟨d, hd, hsound, hlookup⟩ := h.pager hi
  obtain ⟨d', b, hread, hsound', hlookup', hslot⟩ := Dpager.pagerReadOffset_spec hsound
  exact ⟨d, d', b, hd, hread, hlookup ▸ hslot, h.same hi hsound' (hlookup'.trans hlookup)⟩

theorem writeOffset (offset : BitVec 32) (kalloc : Bool) : ∃ d d' l' b, s.pagers i = some d ∧
      d.pagerWriteOffset c kalloc offset s.partitions = .ok (d', l', b) ∧
      (blockContract c total).ok (.writeOffset i offset kalloc) a (.block b) ∧
      Represents c total ⟨l', update s.pagers i (some d')⟩ (a.set i (c.atop offset) b.slot) := by
  obtain ⟨d, hd, hsound, hlookup⟩ := h.pager hi
  obtain ⟨d', l', b, hwrite, hsound', hwrites⟩ :=
    Dpager.pagerWriteOffset_spec h.partitions hsound offset kalloc
  have hblock : a.block i (c.atop offset) = f (c.atop offset) := block_eq hi
  rw [hlookup] at hwrites
  generalize hf' : d'.lookup = f' at hwrites
  refine ⟨d, d', l', b, hd, hwrite, ⟨b, rfl, ?_⟩, ?_⟩
  · rw [hblock]
    cases hwrites with
    | present hpage hslot => rw [hpage, hslot]
    | assigned hpage hslot htakes =>
      rw [hpage, hslot]
      exact ⟨h.total ▸ htakes.lt, htakes.fresh⟩
    | failed hpage hwhy =>
      rw [hpage]
      exact hwhy.imp_right fun hfull => h.total ▸ hfull
  · cases hwrites with
    | present hpage hslot =>
      rw [hslot, ← hpage, set_self hi]
      exact h.same hi hsound' hf'
    | failed hpage =>
      rw [Dpager.slot_noBlock, ← hpage, set_self hi]
      exact h.same hi hsound' hf'
    | @assigned l' b k n hpage hslot htakes =>
      have hinj := h.injective.assign hi (c.atop offset) htakes.fresh
      have hused := used_assign (k := k) (n := n) hi hpage
      rw [hslot]
      rw [set_eq hi, ← hf'] at hinj hused ⊢
      apply h.assign (some d') htakes.keeps
      · rintro _ ⟨⟩
        exact hsound'
      · exact htakes.ok.congr hused
      · exact hinj

theorem releaseOffset {k n : Nat} (hpage : f (c.atop offset) = some (k, n)) :
    ∃ d d' l', s.pagers i = some d ∧ d.pagerReleaseOffset c offset s.partitions = .ok (d', l') ∧
      Represents c total ⟨l', update s.pagers i (some d')⟩ (a.set i (c.atop offset) none) := by
  obtain ⟨d, hd, hsound, hlookup⟩ := h.pager hi
  have hused : a.Used k n := ⟨i, c.atop offset, (block_eq hi).trans hpage⟩
  obtain ⟨d', l', hrelease, hsound', hkeeps, hlookup', hok⟩ :=
    Dpager.pagerReleaseOffset_spec h.partitions hsound (hlookup ▸ hpage) hused
  refine ⟨d, d', l', hd, hrelease, ?_⟩
  have hinj := h.injective.release hi (c.atop offset)
  have hreleased := used_release h.injective hi hpage
  rw [hlookup] at hlookup'
  rw [set_eq hi, ← hlookup'] at hinj hreleased ⊢
  apply h.assign (some d') hkeeps
  · rintro _ ⟨⟩
    exact hsound'
  · exact hok.congr hreleased
  · exact hinj

theorem dealloc : ∃ d l', s.pagers i = some d ∧ d.pagerDealloc s.partitions = .ok l' ∧
      Represents c total ⟨l', update s.pagers i none⟩ (update a i none) := by
  obtain ⟨d, hd, hsound, hlookup⟩ := h.pager hi
  have hblock : ∀ p, a.block i p = d.lookup p := fun p => hlookup ▸ block_eq hi
  have hinj : d.Injective := fun p q x hp hq =>
    (h.injective i i p q x ((hblock p).trans hp) ((hblock q).trans hq)).2
  obtain ⟨l', hdealloc, hkeeps, hok⟩ := Dpager.pagerDealloc_spec h.partitions hsound.ok hinj
    fun p k n hp => ⟨i, p, (hblock p).trans hp⟩
  refine ⟨d, l', hd, hdealloc, h.assign none hkeeps ?_ ?_ (h.injective.destroy i)⟩
  · rintro _ ⟨⟩
  · simp only [← hblock] at hok
    exact hok.congr (used_destroy h.injective i)

end

end Represents

theorem pagerStep_simulates (c : PagerConfig) (total : Nat → Nat) :
    (blockContract (ι := ι) c total).Simulates (pagerStep c) (Represents c total) := by
  intro s a op h hlegal
  cases op with
  | alloc i size => exact ⟨_, _, rfl, rfl, h.alloc hlegal size⟩
  | readOffset i offset =>
    obtain ⟨f, hi⟩ := hlegal
    obtain ⟨d, d', b, hd, hread, hslot, hrep⟩ := h.readOffset hi offset
    refine ⟨_, .block b, ?_, ⟨b, rfl, hslot.trans (block_eq hi).symm⟩, hrep⟩
    simp [pagerStep, hd, hread, Except.toOption]
  | writeOffset i offset kalloc =>
    obtain ⟨f, hi⟩ := hlegal
    obtain ⟨d, d', l', b, hd, hwrite, hok, hrep⟩ := h.writeOffset hi offset kalloc
    refine ⟨_, .block b, ?_, hok, hrep⟩
    simp [pagerStep, hd, hwrite, Except.toOption]
  | releaseOffset i =>
    obtain ⟨⟨k, n⟩, hblock⟩ := hlegal
    obtain ⟨f, hi, hpage⟩ := bind_eq_some_iff.mp hblock
    obtain ⟨d, d', l', hd, hrelease, hrep⟩ := h.releaseOffset hi hpage
    refine ⟨_, .done, ?_, rfl, hrep⟩
    simp [pagerStep, hd, hrelease, Except.toOption]
  | dealloc =>
    obtain ⟨f, hi⟩ := hlegal
    obtain ⟨d, l', hd, hdealloc, hrep⟩ := h.dealloc hi
    refine ⟨_, .done, ?_, rfl, hrep⟩
    simp [pagerStep, hd, hdealloc, Except.toOption]

end PagerState

/-- After any calls on objects that share fewer than 255 partitions, no block is assigned to two
pages, and all are below the size of their partition.  The free counts are right.  The next call
does not panic and gives the block of the page, and a write fails only if there is no free block or
no memory.  `pager_dealloc` clears the bits of the blocks of its object and no others. -/
theorem pager_blocks_injective {c : PagerConfig} {sizes : List (BitVec 32)}
    (hsizes : sizes.length < 255) {s : PagerState ι} {a : Assigned ι}
    (hrun : (blockContract c (initPartitions c sizes).total).Run (pagerStep c)
      (PagerState.Start c sizes) s a) :
    (∀ i j p q x, a.block i p = some x → a.block j q = some x → i = j ∧ p = q) ∧
    (∀ i p k n, a.block i p = some (k, n) →
      ∃ part : Partition, s.partitions[k]? = some (some part) ∧ n < part.totalSize) ∧
    (∀ (k : Nat) (part : Partition), s.partitions[k]? = some (some part) →
      part.totalSize = (initPartitions c sizes).total k ∧
        part.free = {n | n < part.totalSize ∧ ¬ a.Used k n}.ncard) ∧
    (∀ op, (blockContract c (initPartitions c sizes).total).legal op a →
      ∃ s' r, pagerStep c op s = some (s', r) ∧
        (blockContract c (initPartitions c sizes).total).ok op a r) ∧
    ∀ i f, a i = some f → ∃ s', pagerStep c (.dealloc i) s = some (s', .done) ∧
      ∀ k n, s'.partitions.inUse k n = true ↔
        s.partitions.inUse k n = true ∧ ¬ ∃ p, f p = some (k, n) := by
  have hsim := PagerState.pagerStep_simulates (ι := ι) c (initPartitions c sizes).total
  have hrep := hsim.run (fun _ _ => PagerState.Start.represents hsizes) hrun
  refine ⟨hrep.injective, ?_, ?_, ?_, ?_⟩
  · intro i p k n hblock
    obtain ⟨part, hpart⟩ := hrep.partitions.present k n ⟨i, p, hblock⟩
    exact ⟨part, hpart, (hrep.partitions.ok k part hpart).lt n ⟨i, p, hblock⟩⟩
  · intro k part hpart
    refine ⟨?_, (hrep.partitions.ok k part hpart).free_eq⟩
    rw [← PartitionList.total_eq hpart, hrep.total]
  · intro op hlegal
    obtain ⟨s', r, hstep, hok, -⟩ := hsim s a op hrep hlegal
    exact ⟨s', r, hstep, hok⟩
  · intro i f hi
    obtain ⟨s', r, hstep, hok, hrep'⟩ := hsim s a (.dealloc i) hrep ⟨f, hi⟩
    cases hok
    refine ⟨s', hstep, fun k n => ?_⟩
    rw [hrep'.partitions.inUse_iff, hrep.partitions.inUse_iff]
    have hfreed := used_destroy hrep.injective i k n
    simp only [block_eq hi] at hfreed
    exact hfreed

/-- Pages of 4096 bytes. -/
def PagerConfig.small : PagerConfig := ⟨12, by decide, by decide⟩

/-- A page is written beyond the size of the object, which is extended. -/
theorem pager_blocks_injective_write : ∃ (s s' : PagerState Bool) (b : Block),
      pagerStep .small (.readOffset true 524288#32) s = some (s', .block b) ∧ b.slot = some (0, 0) ∧
        ∀ part : Partition, s.partitions[0]? = some (some part) → 0 < part.totalSize := by
  let C : Contract (PagerOp Bool) PagerResult (Assigned Bool) :=
    blockContract .small (initPartitions .small [65536#32]).total
  have hstart : PagerState.Start .small [65536#32]
      ⟨initPartitions .small [65536#32], fun _ : Bool => none⟩ fun _ => none := ⟨rfl, rfl⟩
  have hlegal₁ : C.legal (.alloc true 8192#32) fun _ => none := rfl
  have hrun₁ := Contract.Run.step (M := pagerStep .small) (.start hstart) hlegal₁ rfl
  have hlegal₂ : C.legal (.writeOffset true 524288#32 true)
      (update (fun _ => none) true (some fun _ => none)) := ⟨_, rfl⟩
  have hrun₂ := hrun₁.step hlegal₂ rfl
  obtain ⟨-, hbelow, -, hnext, -⟩ := pager_blocks_injective (by decide) hrun₂
  obtain ⟨s', r, hstep, b, rfl, hslot⟩ := hnext (.readOffset true 524288#32) ⟨_, rfl⟩
  obtain ⟨part, hpart, hlt⟩ := hbelow true 128 0 0 rfl
  refine ⟨_, s', b, hstep, hslot, ?_⟩
  intro part' hpart'
  cases hpart.symm.trans hpart'
  exact hlt

/-- The second-level map for the page cannot be allocated, and no block of the partition is in
use. -/
theorem not_exhausted_writeOffset : ∃ (s s' : PagerState Unit) (a : Assigned Unit),
      (blockContract .small (initPartitions .small [65536#32]).total).Run (pagerStep .small)
        (PagerState.Start .small [65536#32]) s a ∧
      pagerStep .small (.writeOffset () 0#32 false) s = some (s', .block noBlock) ∧
      ∃ part : Partition, s.partitions[0]? = some (some part) ∧ part.free = 16 := by
  let C : Contract (PagerOp Unit) PagerResult (Assigned Unit) :=
    blockContract .small (initPartitions .small [65536#32]).total
  have hstart : PagerState.Start .small [65536#32]
      ⟨initPartitions .small [65536#32], fun _ : Unit => none⟩ fun _ => none := ⟨rfl, rfl⟩
  have hlegal : C.legal (.alloc () 524288#32) fun _ => none := rfl
  have hrun := Contract.Run.step (M := pagerStep .small) (.start hstart) hlegal rfl
  exact ⟨_, _, _, hrun, rfl, _, rfl, rfl⟩

end Mach
