import Mach.Lib.Spans
import Mach.Vm.Map

/-!
# The invariant of a map

The entries of a map are a ring through its header (`Lists`), and their addresses are spans between
the bounds of the map (`VmMapHeader.Wf`).  Both hints are the header or an entry of the ring
(`VmMap.Wf`).  The list of the entries is an argument of the invariant.

An entry is put into the ring and taken out of it, cut in two and changed, with the invariant of
what results.  `vm_map_lookup_entry` finds the place of an address in the list
(`lookupEntry_spec`).
-/

namespace Mach

open Ring Spans List

/-! ## Headers -/

namespace VmMapHeader

/-- The range of an entry. -/
def span (h : VmMapHeader) (e : Nat) : Nat × Nat := ((h.entry e).vmeStart, (h.entry e).vmeEnd)

/-- The addresses of some entries. -/
def spans (h : VmMapHeader) (l : List Nat) : List (Nat × Nat) := l.map h.span

/-- Where a gap after an entry starts. -/
def endBefore (h : VmMapHeader) (e : Nat) : Nat :=
  if e = vmMapToEntry then h.minOffset else (h.entry e).vmeEnd

/-- Where a gap before an entry ends. -/
def startAfter (h : VmMapHeader) (e : Nat) : Nat :=
  if e = vmMapToEntry then h.maxOffset else (h.entry e).vmeStart

/-- The entries of the ring are those of a list. -/
structure Lists (h : VmMapHeader) (l : List Nat) : Prop where
  ring : IsRing h.next h.prev vmMapToEntry l
  count : h.nentries = l.length
  zone : ∀ e ∈ vmMapToEntry :: l, e < h.zone

/-- The entries of the ring are not empty, and in the order of their addresses. -/
structure Sorted (h : VmMapHeader) (l : List Nat) : Prop where
  ring : IsRing h.next h.prev vmMapToEntry l
  count : h.nentries = l.length
  spans : ∃ lo hi, Between lo hi (h.spans l)

/-- The addresses of the entries are between the bounds of the map. -/
structure Wf (h : VmMapHeader) (l : List Nat) : Prop extends Lists h l where
  spans : Between h.minOffset h.maxOffset (h.spans l)
  width : h.maxOffset < 2 ^ 32

variable {h h' : VmMapHeader} {l l₁ l₂ : List Nat} {e : Nat}

theorem Wf.sorted (hw : h.Wf l) : h.Sorted l := ⟨hw.ring, hw.count, _, _, hw.spans⟩

theorem Lists.ne_header (hl : h.Lists l) (he : e ∈ l) : e ≠ vmMapToEntry :=
  fun hx => (nodup_cons.mp hl.ring.nodup).1 (hx ▸ he)

theorem Lists.header_not_mem (hl : h.Lists l) : vmMapToEntry ∉ l :=
  (nodup_cons.mp hl.ring.nodup).1

theorem Lists.zone_not_mem (hl : h.Lists l) : h.zone ∉ vmMapToEntry :: l :=
  fun hx => lt_irrefl _ (hl.zone _ hx)

theorem spans_congr (hentry : ∀ e ∈ l, h'.entry e = h.entry e) : h'.spans l = h.spans l :=
  map_congr_left fun e he => by rw [span, span, hentry e he]

theorem endOf_spans (hl : vmMapToEntry ∉ l) :
    endOf h.minOffset (h.spans l) = h.endBefore (l.getLastD vmMapToEntry) := by
  rcases eq_nil_or_concat' l with rfl | ⟨l, x, rfl⟩
  · rfl
  have hx : x ≠ vmMapToEntry := fun hx => hl (hx ▸ mem_concat_self)
  rw [spans, map_append, map_singleton, endOf_concat, getLastD_concat, endBefore, if_neg hx]
  rfl

theorem startOf_spans (hl : vmMapToEntry ∉ l) :
    startOf h.maxOffset (h.spans l) = h.startAfter (l.headD vmMapToEntry) := by
  cases l with
  | nil => rfl
  | cons x =>
    have hx : x ≠ vmMapToEntry := fun hx => hl (hx ▸ mem_cons_self)
    change (h.entry x).vmeStart = h.startAfter x
    rw [startAfter, if_neg hx]

theorem spans_append (h : VmMapHeader) (l₁ l₂ : List Nat) :
    h.spans (l₁ ++ l₂) = h.spans l₁ ++ h.spans l₂ :=
  map_append

theorem spans_cons (h : VmMapHeader) (e : Nat) (l : List Nat) :
    h.spans (e :: l) = h.span e :: h.spans l :=
  rfl

theorem spans_middle (hentry : ∀ e ∈ l₁ ++ l₂, h'.entry e = h.entry e) (l : List Nat) :
    h'.spans (l₁ ++ (l ++ l₂)) = h.spans l₁ ++ (h'.spans l ++ h.spans l₂) := by
  rw [spans_append, spans_append, spans_congr fun e he => hentry e (mem_append_left l₂ he),
    spans_congr fun e he => hentry e (mem_append_right l₁ he)]

/-! ### One entry more or less -/

theorem setEntry_self (h : VmMapHeader) (e : Nat) (v : VmMapEntry) : (h.setEntry e v).entry e = v :=
  Function.update_self ..

variable {x y b : Nat} {v : VmMapEntry} {l' : List Nat}

theorem setEntry_of_ne (h : VmMapHeader) (v : VmMapEntry) (hx : x ≠ e) :
    (h.setEntry e v).entry x = h.entry x :=
  Function.update_of_ne hx ..

/-- A new entry is linked into the ring. -/
def insert (afterWhere : Nat) (v : VmMapEntry) (h : VmMapHeader) : VmMapHeader :=
  (h.entryCreate v).entryLink afterWhere h.zone

theorem insert_entry_zone (h : VmMapHeader) (x : Nat) (v : VmMapEntry) :
    (h.insert x v).entry h.zone = v :=
  h.setEntry_self h.zone v

theorem Lists.insert_entry (hl : h.Lists l) (x : Nat) (v : VmMapEntry)
    (hy : y ∈ vmMapToEntry :: l) : (h.insert x v).entry y = h.entry y :=
  h.setEntry_of_ne v fun hx => hl.zone_not_mem (hx ▸ hy)

theorem Lists.insert (hl : h.Lists (l₁ ++ l₂)) (v : VmMapEntry) :
    (h.insert (l₁.getLastD vmMapToEntry) v).Lists (l₁ ++ h.zone :: l₂) where
  ring := hl.ring.link hl.zone_not_mem
  count := by
    change h.nentries + 1 = _
    rw [hl.count, length_append, length_append, length_cons, add_assoc]
  zone x hx := by
    change x < h.zone + 1
    have hperm : (vmMapToEntry :: (l₁ ++ h.zone :: l₂)).Perm
        (h.zone :: (vmMapToEntry :: (l₁ ++ l₂))) :=
      (perm_middle.cons _).trans (.swap ..)
    cases mem_cons.mp (hperm.mem_iff.mp hx) with
    | inl hx => exact hx ▸ Nat.lt_succ_self _
    | inr hx => exact Nat.lt_succ_of_lt (hl.zone x hx)

theorem Lists.spans_insert (hl : h.Lists (l₁ ++ l₂)) (x : Nat) (v : VmMapEntry) :
    (h.insert x v).spans (l₁ ++ h.zone :: l₂) =
      h.spans l₁ ++ (v.vmeStart, v.vmeEnd) :: h.spans l₂ := by
  refine (spans_middle (fun y hy => hl.insert_entry x v (mem_cons_of_mem _ hy)) [h.zone]).trans ?_
  rw [spans_cons, span, insert_entry_zone]
  rfl

theorem Wf.insert (hw : h.Wf (l₁ ++ l₂))
    (hstart : h.endBefore (l₁.getLastD vmMapToEntry) ≤ v.vmeStart)
    (hspan : v.vmeStart < v.vmeEnd)
    (hend : v.vmeEnd ≤ h.startAfter (l₂.headD vmMapToEntry)) :
    (h.insert (l₁.getLastD vmMapToEntry) v).Wf (l₁ ++ h.zone :: l₂) := by
  have hheader := hw.insert_entry (l₁.getLastD vmMapToEntry) v mem_cons_self
  have hnot := hw.header_not_mem
  rw [mem_append, not_or] at hnot
  have hspans := hw.spans
  rw [spans_append] at hspans
  refine ⟨hw.toLists.insert v, ?_, ?_⟩
  · rw [minOffset, maxOffset, hheader, hw.spans_insert]
    refine hspans.insert ?_ hspan ?_
    · rw [endOf_spans hnot.1]
      exact hstart
    · rw [startOf_spans hnot.2]
      exact hend
  · rw [maxOffset, hheader]
    exact hw.width

theorem Lists.unlink (hl : h.Lists (l₁ ++ e :: l₂)) : (h.entryUnlink e).Lists (l₁ ++ l₂) where
  ring := hl.ring.unlink
  count := by
    change h.nentries - 1 = _
    rw [hl.count, length_append, length_append, length_cons, ← add_assoc, Nat.add_sub_cancel]
  zone x hx := hl.zone x
    (((sublist_cons_self e l₂).append_left l₁).cons_cons vmMapToEntry |>.subset hx)

theorem Wf.unlink (hw : h.Wf (l₁ ++ e :: l₂)) : (h.entryUnlink e).Wf (l₁ ++ l₂) where
  toLists := hw.toLists.unlink
  spans := by
    have hspans := hw.spans
    rw [spans_append, spans_cons] at hspans
    have herase := hspans.erase
    rw [← spans_append] at herase
    exact herase
  width := hw.width

theorem Lists.setEntry (hl : h.Lists l) (e : Nat) (v : VmMapEntry) : (h.setEntry e v).Lists l :=
  ⟨hl.ring, hl.count, hl.zone⟩

theorem Lists.spans_setEntry (hl : h.Lists (l₁ ++ e :: l₂)) (v : VmMapEntry) :
    (h.setEntry e v).spans (l₁ ++ e :: l₂) =
      h.spans l₁ ++ (v.vmeStart, v.vmeEnd) :: h.spans l₂ := by
  have hnodup := (nodup_cons.mp hl.ring.nodup).2
  have hmem : e ∉ l₁ ++ l₂ := (nodup_middle.mp hnodup |> nodup_cons.mp).1
  refine (spans_middle (fun y hy => h.setEntry_of_ne v (ne_of_mem_of_not_mem hy hmem)) [e]).trans ?_
  rw [spans_cons, span, setEntry_self]
  rfl

theorem Wf.setEntry (hw : h.Wf (l₁ ++ e :: l₂)) (hspans : Between h.minOffset h.maxOffset
      (h.spans l₁ ++ (v.vmeStart, v.vmeEnd) :: h.spans l₂)) :
    (h.setEntry e v).Wf (l₁ ++ e :: l₂) := by
  have hne : vmMapToEntry ≠ e := fun hx =>
    hw.ne_header (mem_append_right l₁ mem_cons_self) hx.symm
  have hheader := h.setEntry_of_ne v hne
  refine ⟨hw.toLists.setEntry e v, ?_, ?_⟩
  · rw [minOffset, maxOffset, hheader, hw.spans_setEntry]
    exact hspans
  · rw [maxOffset, hheader]
    exact hw.width

theorem Wf.setEntry_of_span (hw : h.Wf l) (he : e ∈ l)
    (hstart : v.vmeStart = (h.entry e).vmeStart) (hend : v.vmeEnd = (h.entry e).vmeEnd) :
    (h.setEntry e v).Wf l := by
  obtain ⟨l₁, l₂, rfl⟩ := append_of_mem he
  refine hw.setEntry ?_
  rw [hstart, hend]
  have hspans := hw.spans
  rw [spans_append, spans_cons] at hspans
  exact hspans

/-! ### Cuts -/

/-- Entries have been cut or changed, and the same memory is there. -/
structure Cut (h : VmMapHeader) (l : List Nat) (h' : VmMapHeader) (l' : List Nat) : Prop where
  wf : h'.Wf l'
  header : h'.entry vmMapToEntry = h.entry vmMapToEntry
  mem : ∀ x ∈ l, x ∈ l'
  ends : ∀ x ∈ l, (h'.entry x).vmeEnd ≤ (h.entry x).vmeEnd
  covered : ∀ a, Covered (h'.spans l') a ↔ Covered (h.spans l) a
  total : Spans.total (h'.spans l') = Spans.total (h.spans l)

theorem Cut.refl (hw : h.Wf l) : Cut h l h l :=
  ⟨hw, rfl, fun _ hx => hx, fun _ _ => le_rfl, fun _ => .rfl, rfl⟩

theorem Cut.trans {h'' : VmMapHeader} {l'' : List Nat} (hc : Cut h l h' l')
    (hc' : Cut h' l' h'' l'') : Cut h l h'' l'' where
  wf := hc'.wf
  header := hc'.header.trans hc.header
  mem x hx := hc'.mem x (hc.mem x hx)
  ends x hx := (hc'.ends x (hc.mem x hx)).trans (hc.ends x hx)
  covered a := (hc'.covered a).trans (hc.covered a)
  total := hc'.total.trans hc.total

theorem Cut.mem_cons (hc : Cut h l h' l')
    (hx : x ∈ vmMapToEntry :: l) : x ∈ vmMapToEntry :: l' := by
  cases List.mem_cons.mp hx with
  | inl hx => exact hx ▸ mem_cons_self
  | inr hx => exact mem_cons_of_mem _ (hc.mem x hx)

theorem Wf.cut_setEntry (hw : h.Wf l) (he : e ∈ l)
    (hstart : v.vmeStart = (h.entry e).vmeStart) (hend : v.vmeEnd = (h.entry e).vmeEnd) :
    Cut h l (h.setEntry e v) l := by
  have hentry (x : Nat) : (h.setEntry e v).span x = h.span x := by
    rcases eq_or_ne x e with rfl | hx
    · rw [span, setEntry_self, hstart, hend, span]
    · rw [span, h.setEntry_of_ne v hx, span]
  have hspans : (h.setEntry e v).spans l = h.spans l := map_congr_left fun x _ => hentry x
  refine ⟨hw.setEntry_of_span he hstart hend, ?_, fun _ hx => hx, fun x _ => ?_, fun a => ?_, ?_⟩
  · exact h.setEntry_of_ne v (hw.ne_header he).symm
  · exact (congrArg Prod.snd (hentry x)).le
  · rw [hspans]
  · rw [hspans]

/-- An entry is cut in two, and the new one is `u`. -/
theorem Lists.spans_cut (hl : h.Lists (l₁ ++ e :: l₂)) (x : Nat) (u v : VmMapEntry) :
    ((h.insert x u).setEntry e v).spans (l₁ ++ h.zone :: e :: l₂) =
        h.spans l₁ ++ (u.vmeStart, u.vmeEnd) :: (v.vmeStart, v.vmeEnd) :: h.spans l₂ ∧
      ((h.insert x u).setEntry e v).spans (l₁ ++ e :: h.zone :: l₂) =
        h.spans l₁ ++ (v.vmeStart, v.vmeEnd) :: (u.vmeStart, u.vmeEnd) :: h.spans l₂ := by
  have hnodup := (nodup_cons.mp hl.ring.nodup).2
  have hmem : e ∉ l₁ ++ l₂ := (nodup_middle.mp hnodup |> nodup_cons.mp).1
  have hzone : h.zone ≠ e := fun hx => hl.zone_not_mem
    (hx ▸ mem_cons_of_mem _ (mem_append_right l₁ mem_cons_self))
  have hkeep {y : Nat} (hy : y ∈ l₁ ++ l₂) : ((h.insert x u).setEntry e v).entry y = h.entry y := by
    have hne : y ≠ e := fun hx => hmem (hx ▸ hy)
    rw [setEntry_of_ne _ _ hne]
    exact hl.insert_entry x u
      (mem_cons_of_mem _ (((sublist_cons_self e l₂).append_left l₁).subset hy))
  have hnew : ((h.insert x u).setEntry e v).span h.zone = (u.vmeStart, u.vmeEnd) := by
    rw [span, setEntry_of_ne _ _ hzone, insert_entry_zone]
  have hold : ((h.insert x u).setEntry e v).span e = (v.vmeStart, v.vmeEnd) := by
    rw [span, setEntry_self]
  refine ⟨(spans_middle (fun _ => hkeep) [h.zone, e]).trans ?_,
    (spans_middle (fun _ => hkeep) [e, h.zone]).trans ?_⟩
  · rw [spans_cons, spans_cons, hnew, hold]
    rfl
  · rw [spans_cons, spans_cons, hnew, hold]
    rfl

theorem splitStart_eq (hl : h.Lists (l₁ ++ e :: l₂)) (a : Nat) : h.splitStart e a =
      (h.insert (l₁.getLastD vmMapToEntry) { h.entry e with vmeEnd := a }).setEntry e
        { h.entry e with
            offset := ((h.entry e).offset + (a - (h.entry e).vmeStart)) % 2 ^ 32
            vmeStart := a } := by
  rw [← hl.ring.prev_eq]
  rfl

theorem splitEnd_eq (h : VmMapHeader) (e b : Nat) : h.splitEnd e b = (h.insert e
        { h.entry e with
            vmeStart := b
            offset := ((h.entry e).offset + (b - (h.entry e).vmeStart)) % 2 ^ 32 }).setEntry e
        { h.entry e with vmeEnd := b } :=
  rfl

theorem clipEnd_object (h : VmMapHeader) (e b : Nat) :
    ((h.clipEnd e b).entry e).isAMap = (h.entry e).isAMap ∧
      ((h.clipEnd e b).entry e).object = (h.entry e).object := by
  rw [clipEnd]
  split
  next =>
    rw [splitEnd_eq, setEntry_self]
    exact ⟨rfl, rfl⟩
  next => exact ⟨rfl, rfl⟩

theorem Lists.cut_entry (hl : h.Lists l) (u v : VmMapEntry)
    (hy : y ∈ vmMapToEntry :: l) (hne : y ≠ e) :
    ((h.insert x u).setEntry e v).entry y = h.entry y := by
  rw [setEntry_of_ne _ _ hne]
  exact hl.insert_entry x u hy

theorem Wf.cut (hw : h.Wf (l₁ ++ e :: l₂)) {u : VmMapEntry}
    (hl : ((h.insert x u).setEntry e v).Lists l')
    (hspans : ((h.insert x u).setEntry e v).spans l' =
      h.spans l₁ ++ ((h.entry e).vmeStart, b) :: (b, (h.entry e).vmeEnd) :: h.spans l₂)
    (hstart : (h.entry e).vmeStart < b) (hend : b < (h.entry e).vmeEnd)
    (hmem : ∀ y ∈ l₁ ++ e :: l₂, y ∈ l') (hv : v.vmeEnd ≤ (h.entry e).vmeEnd) :
    Cut h (l₁ ++ e :: l₂) ((h.insert x u).setEntry e v) l' := by
  have hne : vmMapToEntry ≠ e :=
    (hw.ne_header (mem_append_right l₁ mem_cons_self)).symm
  have hheader := hw.toLists.cut_entry (x := x) u v mem_cons_self hne
  have hbetween := hw.spans
  rw [spans_append, spans_cons] at hbetween
  refine ⟨⟨hl, ?_, ?_⟩, hheader, hmem, fun y hy => ?_, fun a => ?_, ?_⟩
  · rw [minOffset, maxOffset, hheader, hspans]
    exact hbetween.cut hstart hend
  · rw [maxOffset, hheader]
    exact hw.width
  · rcases eq_or_ne y e with rfl | hye
    · rw [setEntry_self]
      exact hv
    · exact le_of_eq (congrArg VmMapEntry.vmeEnd
        (hw.toLists.cut_entry u v (mem_cons_of_mem _ hy) hye))
  · rw [hspans, spans_append, spans_cons]
    exact covered_cut (s := h.span e) hstart.le hend.le
  · rw [hspans, spans_append, spans_cons]
    simp only [total_append, total_cons, span]
    omega

variable {a : Nat}

theorem Wf.splitStart (hw : h.Wf (l₁ ++ e :: l₂)) (ha : (h.entry e).vmeStart < a)
    (hb : a < (h.entry e).vmeEnd) :
    Cut h (l₁ ++ e :: l₂) (h.splitStart e a) (l₁ ++ h.zone :: e :: l₂) := by
  rw [splitStart_eq hw.toLists]
  refine hw.cut ((hw.toLists.insert _).setEntry ..) (hw.toLists.spans_cut ..).1 ha hb
    (fun y hy => ?_) le_rfl
  exact ((sublist_cons_self h.zone _).append_left l₁).subset hy

theorem Wf.splitEnd (hw : h.Wf (l₁ ++ e :: l₂)) (ha : (h.entry e).vmeStart < b)
    (hb : b < (h.entry e).vmeEnd) :
    Cut h (l₁ ++ e :: l₂) (h.splitEnd e b) (l₁ ++ e :: h.zone :: l₂) := by
  have hl := hw.toLists
  rw [append_cons] at hl
  have hlink := hl.insert
    { h.entry e with
        vmeStart := b
        offset := ((h.entry e).offset + (b - (h.entry e).vmeStart)) % 2 ^ 32 }
  rw [getLastD_concat, ← append_cons] at hlink
  refine hw.cut (hlink.setEntry ..) (hw.toLists.spans_cut ..).2 ha hb (fun y hy => ?_) hb.le
  exact (((sublist_cons_self h.zone l₂).cons_cons e).append_left l₁).subset hy

theorem mem_of_mem_erase (hy : y ∈ vmMapToEntry :: (l₁ ++ l₂)) :
    y ∈ vmMapToEntry :: (l₁ ++ e :: l₂) :=
  ((sublist_cons_self e l₂).append_left l₁).cons_cons vmMapToEntry |>.subset hy

theorem Lists.ne_of_mem_erase (hl : h.Lists (l₁ ++ e :: l₂))
    (hy : y ∈ vmMapToEntry :: (l₁ ++ l₂)) : y ≠ e := by
  have hperm : (vmMapToEntry :: (l₁ ++ e :: l₂)).Perm (e :: vmMapToEntry :: (l₁ ++ l₂)) :=
    (perm_middle.cons _).trans (.swap ..)
  have hnodup := nodup_cons.mp (hperm.nodup_iff.mp hl.ring.nodup)
  exact fun hx => hnodup.1 (hx ▸ hy)

variable (hw : h.Wf (l₁ ++ e :: l₂))

include hw

theorem Wf.splitStart_entry (a : Nat) : ((h.splitStart e a).entry e).vmeStart = a ∧
      ((h.splitStart e a).entry e).vmeEnd = (h.entry e).vmeEnd ∧
      ∀ y ∈ vmMapToEntry :: (l₁ ++ l₂), (h.splitStart e a).entry y = h.entry y := by
  rw [splitStart_eq hw.toLists, setEntry_self]
  exact ⟨rfl, rfl, fun y hy => hw.toLists.cut_entry _ _ (mem_of_mem_erase hy)
    (hw.toLists.ne_of_mem_erase hy)⟩

theorem Wf.splitEnd_entry (b : Nat) : ((h.splitEnd e b).entry e).vmeStart = (h.entry e).vmeStart ∧
      ((h.splitEnd e b).entry e).vmeEnd = b ∧
      ∀ y ∈ vmMapToEntry :: (l₁ ++ l₂), (h.splitEnd e b).entry y = h.entry y := by
  rw [splitEnd_eq, setEntry_self]
  exact ⟨rfl, rfl, fun y hy => hw.toLists.cut_entry _ _ (mem_of_mem_erase hy)
    (hw.toLists.ne_of_mem_erase hy)⟩

/-- An entry is clipped to start at an address in it. -/
theorem Wf.clipStart (ha : (h.entry e).vmeStart ≤ a) (hb : a < (h.entry e).vmeEnd) :
    ∃ l₁', Cut h (l₁ ++ e :: l₂) (h.clipStart e a) (l₁' ++ e :: l₂) ∧
      ((h.clipStart e a).entry e).vmeStart = a := by
  rw [VmMapHeader.clipStart]
  split
  next hlt =>
    refine ⟨l₁ ++ [h.zone], ?_, (hw.splitStart_entry a).1⟩
    rw [← append_cons]
    exact hw.splitStart hlt hb
  next => exact ⟨l₁, .refl hw, by omega⟩

/-- An entry is clipped to end at an address after its start.  What follows it is what followed it
before, or starts there. -/
theorem Wf.clipEnd (hb : (h.entry e).vmeStart < b) :
    ∃ l₂', Cut h (l₁ ++ e :: l₂) (h.clipEnd e b) (l₁ ++ e :: l₂') ∧
      ((h.clipEnd e b).entry e).vmeStart = (h.entry e).vmeStart ∧
      ((h.clipEnd e b).entry e).vmeEnd ≤ b ∧
      (∀ y ∈ vmMapToEntry :: (l₁ ++ l₂), (h.clipEnd e b).entry y = h.entry y) ∧
      (l₂' = l₂ ∨ ∀ y ∈ l₂', b ≤ ((h.clipEnd e b).entry y).vmeStart) := by
  rw [VmMapHeader.clipEnd]
  split
  next hlt =>
    obtain ⟨hstart, hend, hkeep⟩ := hw.splitEnd_entry b
    have hcut := hw.splitEnd hb hlt
    refine ⟨h.zone :: l₂, hcut, hstart, hend.le, hkeep, .inr fun y hy => ?_⟩
    have hspans := hcut.wf.spans
    rw [spans_append, spans_cons, between_middle] at hspans
    have hmem := hspans.2.2.mem (mem_map_of_mem hy)
    exact (hend.symm.le).trans hmem.1
  next => exact ⟨l₂, .refl hw, rfl, by omega, fun _ _ => rfl, .inl rfl⟩

end VmMapHeader

/-! ## Maps -/

namespace VmMap

/-- The invariant of a map with the entries `l`. -/
structure Wf (m : VmMap) (l : List Nat) : Prop where
  hdr : m.hdr.Wf l
  hint : m.hint ∈ vmMapToEntry :: l
  firstFree : m.firstFree ∈ vmMapToEntry :: l

variable {m : VmMap} {l l₁ l₂ l₃ : List Nat} {a : Nat}

variable {e : Nat} {r : Bool × Nat}

theorem Wf.saveHint (hw : m.Wf l) (he : e ∈ vmMapToEntry :: l) : (m.saveHint e).Wf l :=
  ⟨hw.hdr, he, hw.firstFree⟩

/-- The place of an address among the entries. -/
inductive Lookup (m : VmMap) (l : List Nat) (a : Nat) : Bool × Nat → Prop
  | found {l₁ l₂ : List Nat} {e : Nat} (hl : l = l₁ ++ e :: l₂)
      (hstart : (m.hdr.entry e).vmeStart ≤ a) (hend : a < (m.hdr.entry e).vmeEnd) :
      Lookup m l a (true, e)
  | between {l₁ l₂ : List Nat} (hl : l = l₁ ++ l₂)
      (hbefore : ∀ x ∈ l₁, (m.hdr.entry x).vmeEnd ≤ a)
      (hafter : ∀ x ∈ l₂, a < (m.hdr.entry x).vmeStart) :
      Lookup m l a (false, l₁.getLastD vmMapToEntry)

variable {h : VmMapHeader} {x : Nat}

/-- The entries before one end before it, and those after it start after it. -/
theorem of_middle (hs : h.Sorted (l₁ ++ e :: l₂)) :
    (∀ x ∈ l₁, (h.entry x).vmeEnd ≤ (h.entry e).vmeStart) ∧
      ∀ x ∈ l₂, (h.entry e).vmeStart < (h.entry x).vmeStart := by
  obtain ⟨lo, hi, hspans⟩ := hs.spans
  rw [VmMapHeader.spans_append, VmMapHeader.spans_cons, between_middle] at hspans
  constructor
  · intro x hx
    exact (hspans.1.mem (mem_map_of_mem hx)).2.2
  · intro x hx
    exact hspans.2.1.trans_le (hspans.2.2.mem (mem_map_of_mem hx)).1

/-- The search from the first entry of `l₂` up to the one after it. -/
theorem lookupSearch_spec (hs : m.hdr.Sorted (l₁ ++ (l₂ ++ l₃)))
    (hbefore : ∀ x ∈ l₁, (m.hdr.entry x).vmeEnd ≤ a)
    (hafter : ∀ x ∈ l₃, a < (m.hdr.entry x).vmeStart) {fuel : Nat} (hfuel : l₂.length < fuel) :
    Lookup m (l₁ ++ (l₂ ++ l₃)) a
      (lookupSearch m.hdr a (l₃.headD vmMapToEntry) fuel ((l₂ ++ l₃).headD vmMapToEntry)) := by
  induction l₂ generalizing l₁ fuel with
  | nil =>
    obtain ⟨fuel, rfl⟩ := Nat.exists_eq_add_one_of_ne_zero (Nat.zero_lt_of_lt hfuel).ne'
    rw [nil_append] at hs ⊢
    rw [lookupSearch, if_pos rfl, hs.ring.split.2]
    exact .between rfl hbefore hafter
  | cons x l₂ ih =>
    obtain ⟨fuel, rfl⟩ := Nat.exists_eq_add_one_of_ne_zero (Nat.zero_lt_of_lt hfuel).ne'
    have hne : x ≠ l₃.headD vmMapToEntry := by
      have hnodup := nodup_after hs.ring.nodup
      rw [cons_append, cons_append, nodup_cons] at hnodup
      refine fun hx => hnodup.1 (hx ▸ ?_)
      cases l₃ with
      | nil => exact mem_append_right _ mem_cons_self
      | cons =>
        exact mem_append_left _ (mem_append_right l₂ mem_cons_self)
    have hprev : m.hdr.prev x = l₁.getLastD vmMapToEntry := hs.ring.prev_eq
    have hnext : m.hdr.next x = (l₂ ++ l₃).headD vmMapToEntry := hs.ring.next_eq
    change Lookup m _ a (lookupSearch m.hdr a (l₃.headD vmMapToEntry) (fuel + 1) x)
    rw [lookupSearch, if_neg hne]
    split
    next hend =>
      split
      next hstart => exact .found rfl hstart hend
      rw [hprev]
      refine .between rfl hbefore fun y hy => ?_
      cases mem_cons.mp hy with
      | inl hy => subst hy; omega
      | inr hy =>
        have hlt := (of_middle hs).2 y hy
        omega
    rw [hnext]
    rw [cons_append, append_cons] at hs ⊢
    refine ih hs (fun y hy => ?_) (Nat.lt_of_succ_lt_succ hfuel)
    cases mem_append.mp hy with
    | inl hy => exact hbefore y hy
    | inr hy =>
      rw [mem_singleton.mp hy]
      omega

theorem Lookup.mem (h : Lookup m l a r) : r.2 ∈ vmMapToEntry :: l := by
  cases h with
  | found hl _ _ =>
    subst hl
    exact mem_cons_of_mem _ (mem_append_right _ mem_cons_self)
  | between hl =>
    subst hl
    exact getLastD_mem ..

/-- A lookup of an address in an entry finds this entry. -/
theorem Lookup.eq_of_mem (h : Lookup m l a r) (hs : m.hdr.Sorted l)
    (he : e ∈ l) (hstart : (m.hdr.entry e).vmeStart ≤ a) (hend : a < (m.hdr.entry e).vmeEnd) :
    r = (true, e) := by
  cases h with
  | between hl hbefore hafter =>
    rw [hl] at he
    cases mem_append.mp he with
    | inl he => exact absurd hend (hbefore e he).not_gt
    | inr he => exact absurd hstart (hafter e he).not_ge
  | found hl hstart' hend' =>
    rename_i l₁ l₂ x
    subst hl
    rw [mem_append, mem_cons] at he
    rcases he with he | rfl | he
    · exact absurd (((of_middle hs).1 _ he).trans hstart') hend.not_ge
    · rfl
    obtain ⟨l₃, l₄, rfl⟩ := append_of_mem he
    rw [append_cons, ← append_assoc] at hs
    have hle := (of_middle hs).1 _ (mem_append_left l₃ mem_concat_self)
    exact absurd (hle.trans hstart) hend'.not_ge

theorem lookup_start (hs : m.hdr.Sorted l) (hhint : m.hint ∈ vmMapToEntry :: l) :
    let cur := if m.hint = vmMapToEntry then m.hdr.next m.hint else m.hint
    (cur = vmMapToEntry ∧ l = []) ∨ ∃ l₁ l₂, l = l₁ ++ cur :: l₂ := by
  intro cur
  rcases eq_or_ne m.hint vmMapToEntry with hx | hx
  · have hcur : cur = m.hdr.next m.hint := if_pos hx
    rw [hcur, hx, hs.ring.next_header]
    cases l with
    | nil => exact .inl ⟨rfl, rfl⟩
    | cons y l => exact .inr ⟨[], l, rfl⟩
  · have hcur : cur = m.hint := if_neg hx
    rw [hcur]
    exact .inr (append_of_mem ((mem_cons.mp hhint).resolve_left hx))

/-- A lookup finds the place of an address, and moves the hint at most.  If it fails, the hint is at
the entry before. -/
structure LookupDone (m : VmMap) (l : List Nat) (a : Nat) (r : Bool × Nat × VmMap) : Prop where
  lookup : Lookup m l a (r.1, r.2.1)
  hint : ∃ e, e ∈ vmMapToEntry :: l ∧ r.2.2 = m.saveHint e
  failed : r.1 = false → r.2.2 = m.saveHint r.2.1

theorem Lookup.done (h : Lookup m l a r) : LookupDone m l a (r.1, r.2, m.saveHint r.2) :=
  ⟨h, ⟨_, h.mem, rfl⟩, fun _ => rfl⟩

theorem lookupEntry_done (hs : m.hdr.Sorted l) (hhint : m.hint ∈ vmMapToEntry :: l) (a : Nat) :
    LookupDone m l a (m.lookupEntry a) := by
  have hcount := hs.count
  have hstart := lookup_start hs hhint
  simp only [lookupEntry]
  generalize (if m.hint = vmMapToEntry then m.hdr.next m.hint else m.hint) = cur at hstart ⊢
  rcases hstart with ⟨hcur, hl⟩ | ⟨l₁, l₂, hl⟩
  · subst hcur hl
    have hnext : m.hdr.next vmMapToEntry = vmMapToEntry := hs.ring.next_header
    have hsearch : Lookup m ([] ++ ([] ++ [])) a
        (lookupSearch m.hdr a vmMapToEntry (m.hdr.nentries + 1) vmMapToEntry) :=
      lookupSearch_spec hs (by intro _ hx; cases hx) (by intro _ hx; cases hx)
        (Nat.succ_pos m.hdr.nentries)
    split
    next =>
      exact hsearch.done
    next =>
      rw [hnext]
      exact hsearch.done
  subst hl
  obtain ⟨hend, hafter⟩ := of_middle hs
  split
  next hge =>
    split
    next hin =>
      exact ⟨.found rfl hge hin.2, ⟨m.hint, hhint, rfl⟩, nofun⟩
    have hs' := hs
    rw [← append_nil (cur :: l₂)] at hs'
    have hfuel : (cur :: l₂).length < m.hdr.nentries + 1 := by
      rw [hcount, length_append]
      omega
    have hsearch := lookupSearch_spec hs' (fun x hx => (hend x hx).trans hge)
      (fun _ hx => nomatch hx) hfuel
    rw [append_nil] at hsearch
    exact hsearch.done
  rename_i hlt
  have hlast : m.hdr.next cur = l₂.headD vmMapToEntry := hs.ring.next_eq
  have hfirst : m.hdr.next vmMapToEntry = (l₁ ++ cur :: l₂).headD vmMapToEntry :=
    hs.ring.next_header
  have hs' := hs
  rw [append_cons, ← nil_append (l₁ ++ [cur] ++ l₂)] at hs'
  have hfuel : (l₁ ++ [cur]).length < m.hdr.nentries + 1 := by
    rw [hcount, length_append, length_append, length_singleton, length_cons]
    omega
  have hsearch := lookupSearch_spec hs' (fun _ hx => nomatch hx)
    (fun x hx => (Nat.lt_of_not_le hlt).trans (hafter x hx)) hfuel
  rw [nil_append, ← append_cons, ← hlast, ← hfirst] at hsearch
  exact hsearch.done

theorem lookupEntry_spec (hw : m.Wf l) (a : Nat) : LookupDone m l a (m.lookupEntry a) :=
  lookupEntry_done hw.hdr.sorted hw.hint a

/-- What a lookup is for: the entry with an address in it, or the last one that ends before. -/
def located (h : VmMapHeader) (l : List Nat) (a : Nat) : Bool × Nat :=
  match l.find? fun e => (h.entry e).vmeStart ≤ a ∧ a < (h.entry e).vmeEnd with
  | some e => (true, e)
  | none => (false, (l.filter fun e => (h.entry e).vmeEnd ≤ a).getLastD vmMapToEntry)

theorem Lookup.eq_located (h : Lookup m l a r) (hs : m.hdr.Sorted l) : r = located m.hdr l a := by
  rw [located]
  split
  next e hfind =>
    have hin := find?_some hfind
    rw [decide_eq_true_eq] at hin
    exact h.eq_of_mem hs (mem_of_find?_eq_some hfind) hin.1 hin.2
  rename_i hfind
  rw [find?_eq_none] at hfind
  cases h with
  | found hl hstart hend =>
    rename_i l₁ l₂ e
    have he : e ∈ l := hl ▸ mem_append_right l₁ mem_cons_self
    exact absurd (decide_eq_true ⟨hstart, hend⟩) (hfind e he)
  | between hl hbefore hafter =>
    rename_i l₁ l₂
    subst hl
    have h₁ : (l₁.filter fun e => (m.hdr.entry e).vmeEnd ≤ a) = l₁ :=
      filter_eq_self.mpr fun x hx => decide_eq_true (hbefore x hx)
    have h₂ : (l₂.filter fun e => (m.hdr.entry e).vmeEnd ≤ a) = [] := by
      obtain ⟨lo, hi, hspans⟩ := hs.spans
      refine filter_eq_nil_iff.mpr fun x hx hle => ?_
      have hmem := hspans.mem (mem_map_of_mem (mem_append_right l₁ hx))
      have hlt := (hafter x hx).trans hmem.2.1
      exact (of_decide_eq_true hle).not_gt hlt
    rw [filter_append, h₁, h₂, append_nil]

/-- A lookup is right whatever the hint is, and leaves one that is as good. -/
theorem lookupEntry_exact (hs : m.hdr.Sorted l) {hint : Nat} (hhint : hint ∈ vmMapToEntry :: l)
    (a : Nat) :
    (∃ hint', hint' ∈ vmMapToEntry :: l ∧ (m.saveHint hint).lookupEntry a =
        ((located m.hdr l a).1, (located m.hdr l a).2, m.saveHint hint')) ∧
    ∀ e ∈ l, (m.hdr.entry e).vmeStart ≤ a → a < (m.hdr.entry e).vmeEnd →
      located m.hdr l a = (true, e) := by
  have hs' : (m.saveHint hint).hdr.Sorted l := hs
  obtain ⟨hlookup, ⟨hint', hmem, hm⟩, -⟩ := lookupEntry_done hs' hhint a
  have hloc := hlookup.eq_located hs'
  refine ⟨⟨hint', hmem, ?_⟩,
    fun e he hstart hend => hloc.symm.trans (hlookup.eq_of_mem hs' he hstart hend)⟩
  rw [← show (m.saveHint hint).hdr = m.hdr from rfl, ← hloc]
  exact Prod.ext rfl (Prod.ext rfl hm)

theorem lookupEntry_exact_page :
    let m := (create 0 8192).insertEntry vmMapToEntry 4096
      ⟨4096, 8192, vmObjectNull, 0, false, false, false, 3, 7, 1, 0, 0⟩
    m.hdr.Sorted [1] ∧ ∃ hint', hint' ∈ [vmMapToEntry, 1] ∧
      (m.saveHint 1).lookupEntry 100 = (false, vmMapToEntry, m.saveHint hint') := by
  intro m
  have hs : m.hdr.Sorted [1] :=
    { ring := ⟨by decide, isChain_cons_cons.mpr
        ⟨⟨rfl, rfl⟩, isChain_cons_cons.mpr ⟨⟨rfl, rfl⟩, .singleton _⟩⟩⟩
      count := rfl
      spans := ⟨0, 8192, by decide, by decide, le_refl 8192⟩ }
  exact ⟨hs, (lookupEntry_exact hs (mem_cons_of_mem _ mem_cons_self) 100).1⟩

end VmMap

end Mach
