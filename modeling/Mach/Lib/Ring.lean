import Mathlib.Data.List.Chain
import Mathlib.Data.List.Nodup

/-!
# Rings

A *ring* is a doubly linked list that is closed through a header.  Each node points to the one
after it and to the one before it, the last node points to the header, and so does the first
one back.  `IsRing next prev h l` says that the nodes of the ring with the header `h` are those
of `l`, in this order.

The pointers at a place of a ring are found by splitting its list there (`IsRing.split`).  Nodes are
put into a ring and taken out of it (`IsRing.link`, `IsRing.unlink`, `IsRing.splice`).
-/

universe u

namespace Ring

open Function List

variable {α : Type u}

/-- Two nodes follow each other. -/
def Joined (next prev : α → α) (a b : α) : Prop := next a = b ∧ prev b = a

/-- The nodes `l` are linked with each other and with the header `h`. -/
structure IsRing (next prev : α → α) (h : α) (l : List α) : Prop where
  nodup : (h :: l).Nodup
  linked : ((h :: l) ++ [h]).IsChain (Joined next prev)

variable {next prev next' prev' : α → α} {h : α} {l l₁ l₂ : List α} {x : α} {l' : List α}

/-- A chain depends on the pointers forward from all but the last node, and on those back from
all but the first. -/
theorem chain_congr (hchain : l.IsChain (Joined next prev))
    (hnext : ∀ a ∈ l.dropLast, next' a = next a) (hprev : ∀ a ∈ l.tail, prev' a = prev a) :
    l.IsChain (Joined next' prev') := by
  induction l with
  | nil => exact .nil
  | cons a l ih =>
    cases l with
    | nil => exact .singleton a
    | cons b =>
      rw [isChain_cons_cons] at hchain ⊢
      obtain ⟨⟨hab, hba⟩, hchain⟩ := hchain
      refine ⟨⟨?_, ?_⟩, ih hchain ?_ ?_⟩
      · rw [hnext a mem_cons_self, hab]
      · rw [hprev b mem_cons_self, hba]
      · exact fun c hc => hnext c (mem_cons_of_mem a hc)
      · exact fun c hc => hprev c (mem_cons_of_mem b hc)

theorem isRing_split : IsRing next prev h (l₁ ++ l₂) ↔
      (h :: (l₁ ++ l₂)).Nodup ∧ (h :: l₁).IsChain (Joined next prev) ∧
        (l₂ ++ [h]).IsChain (Joined next prev) ∧
        Joined next prev (l₁.getLastD h) (l₂.headD h) := by
  have hlast : (h :: l₁).getLast? = some (l₁.getLastD h) := by
    rw [getLast?_cons, getLastD_eq_getLast?]
  have hhead : (l₂ ++ [h]).head? = some (l₂.headD h) := by
    cases l₂ with
    | nil | cons => rfl
  have hsplit : (h :: (l₁ ++ l₂)) ++ [h] = (h :: l₁) ++ (l₂ ++ [h]) := by
    rw [cons_append, append_assoc, cons_append]
  have hchain : ((h :: (l₁ ++ l₂)) ++ [h]).IsChain (Joined next prev) ↔
      (h :: l₁).IsChain (Joined next prev) ∧ (l₂ ++ [h]).IsChain (Joined next prev) ∧
        Joined next prev (l₁.getLastD h) (l₂.headD h) := by
    rw [hsplit, isChain_append, hlast, hhead]
    simp [Option.mem_def, forall_eq']
  rw [← hchain]
  exact ⟨fun hr => ⟨hr.nodup, hr.linked⟩, fun hr => ⟨hr.1, hr.2⟩⟩

theorem IsRing.split (hr : IsRing next prev h (l₁ ++ l₂)) :
    Joined next prev (l₁.getLastD h) (l₂.headD h) :=
  (isRing_split.mp hr).2.2.2

theorem IsRing.next_eq (hr : IsRing next prev h (l₁ ++ x :: l₂)) :
    next x = l₂.headD h := by
  rw [append_cons] at hr
  have hjoined := hr.split
  rw [getLastD_concat] at hjoined
  exact hjoined.1

theorem IsRing.prev_eq (hr : IsRing next prev h (l₁ ++ x :: l₂)) : prev x = l₁.getLastD h :=
  hr.split.2

theorem IsRing.next_header (hr : IsRing next prev h l) : next h = l.headD h := by
  rw [← nil_append l] at hr
  exact hr.split.1

theorem IsRing.prev_header (hr : IsRing next prev h l) : prev h = l.getLastD h := by
  rw [← append_nil l] at hr
  exact hr.split.2

/-- The nodes up to a header are determined by the pointers. -/
theorem chain_unique {a : α} (hchain : (a :: l ++ [h]).IsChain (Joined next prev))
    (hchain' : (a :: l' ++ [h]).IsChain (Joined next prev)) (hh : h ∉ l) (hh' : h ∉ l') :
    l = l' := by
  induction l generalizing a l' with
  | nil =>
    cases l' with
    | nil => rfl
    | cons =>
      have hab := (isChain_cons_cons.mp hchain).1.1
      have hab' := (isChain_cons_cons.mp hchain').1.1
      exact absurd (hab.symm.trans hab' ▸ mem_cons_self) hh'
  | cons b l ih =>
    cases l' with
    | nil =>
      have hab := (isChain_cons_cons.mp hchain).1.1
      have hab' := (isChain_cons_cons.mp hchain').1.1
      exact absurd (hab'.symm.trans hab ▸ mem_cons_self) hh
    | cons b' =>
      obtain ⟨hab, hchain⟩ := isChain_cons_cons.mp hchain
      obtain ⟨hab', hchain'⟩ := isChain_cons_cons.mp hchain'
      obtain rfl : b = b' := hab.1.symm.trans hab'.1
      rw [ih hchain hchain' (not_mem_of_not_mem_cons hh) (not_mem_of_not_mem_cons hh')]

section

variable (hr : IsRing next prev h l)
include hr

theorem IsRing.unique (hr' : IsRing next prev h l') : l = l' :=
  chain_unique hr.linked hr'.linked (nodup_cons.mp hr.nodup).1 (nodup_cons.mp hr'.nodup).1

theorem IsRing.congr (hnext : ∀ a ∈ h :: l, next' a = next a)
    (hprev : ∀ a ∈ h :: l, prev' a = prev a) : IsRing next' prev' h l := by
  refine ⟨hr.nodup, chain_congr hr.linked (fun a ha => hnext a ?_) fun a ha => hprev a ?_⟩
  · rw [dropLast_concat] at ha
    exact ha
  · exact (perm_append_singleton h l).subset ha

theorem IsRing.map {β : Type u} {next' prev' : β → β} {f : α → β}
    (hf : Function.Injective f) (hnext : ∀ a ∈ h :: l, next' (f a) = f (next a))
    (hprev : ∀ a ∈ h :: l, prev' (f a) = f (prev a)) : IsRing next' prev' (f h) (l.map f) := by
  refine ⟨?_, ?_⟩
  · exact hr.nodup.map hf
  · -- The pointers of the other names, as pointers of the nodes.
    have hmap : (f h :: l.map f) ++ [f h] = ((h :: l) ++ [h]).map f := by
      rw [map_append, map_cons, map_singleton]
    rw [hmap, isChain_map]
    refine hr.linked.imp_of_mem_imp fun a b ha hb hab => ?_
    have hin {x : α} (hx : x ∈ (h :: l) ++ [h]) : x ∈ h :: l :=
      (mem_append.mp hx).elim id fun hx => mem_singleton.mp hx ▸ mem_cons_self
    exact ⟨(hnext a (hin ha)).trans (congrArg f hab.1), (hprev b (hin hb)).trans (congrArg f hab.2)⟩

end

theorem getLastD_mem (h : α) (l₁ l₂ : List α) : l₁.getLastD h ∈ h :: (l₁ ++ l₂) := by
  refine mem_append_left l₂ (?_ : l₁.getLastD h ∈ h :: l₁)
  rw [getLastD_eq_getLast?]
  exact mem_of_getLast? getLast?_cons

theorem headD_mem (h : α) (l₁ l₂ : List α) : l₂.headD h ∈ h :: (l₁ ++ l₂) := by
  cases l₂ with
  | nil => exact mem_cons_self
  | cons => exact mem_cons_of_mem h (mem_append_right l₁ mem_cons_self)

theorem getLastD_not_mem_dropLast (hnodup : (h :: l₁).Nodup) :
    l₁.getLastD h ∉ (h :: l₁).dropLast := by
  rcases eq_nil_or_concat' l₁ with rfl | ⟨l, x, rfl⟩
  · exact not_mem_nil
  rw [getLastD_concat, ← cons_append, dropLast_concat]
  rw [← cons_append, nodup_append] at hnodup
  exact fun hx => hnodup.2.2 x hx x mem_cons_self rfl

theorem headD_not_mem_tail (hnodup : (l₂ ++ [h]).Nodup) : l₂.headD h ∉ (l₂ ++ [h]).tail := by
  cases l₂ with
  | nil => exact not_mem_nil
  | cons => exact (nodup_cons.mp hnodup).1

section

variable (hnodup : (h :: (l₁ ++ l₂)).Nodup)

include hnodup

theorem nodup_before : (h :: l₁).Nodup := by
  rw [← cons_append, nodup_append] at hnodup
  exact hnodup.1

theorem nodup_after : (l₂ ++ [h]).Nodup := by
  have hperm : (l₂ ++ [h]).Perm (h :: l₂) := perm_append_singleton h l₂
  refine hperm.nodup_iff.mpr (hnodup.sublist ?_)
  exact (sublist_append_right l₁ l₂).cons_cons h

theorem headD_not_mem_before : l₂.headD h ∉ l₁ := by
  cases l₂ with
  | nil => exact fun hx => (nodup_cons.mp hnodup).1 (mem_append_left _ hx)
  | cons y =>
    rw [nodup_cons, nodup_append] at hnodup
    exact fun hx => hnodup.2.2.2 y hx y mem_cons_self rfl

theorem getLastD_not_mem_after : l₁.getLastD h ∉ l₂ := by
  have hmem : l₁.getLastD h ∈ h :: (l₁ ++ []) := getLastD_mem h l₁ []
  rw [← cons_append, nodup_append] at hnodup
  rw [append_nil] at hmem
  exact fun hx => hnodup.2.2 _ hmem _ hx rfl

end

/-- The parts of a ring keep their chains if pointers change only at the place between them. -/
theorem parts (hnodup : (h :: (l₁ ++ l₂)).Nodup) (hbefore : (h :: l₁).IsChain (Joined next prev))
    (hafter : (l₂ ++ [h]).IsChain (Joined next prev))
    (hnext : ∀ a ∈ h :: (l₁ ++ l₂), a ≠ l₁.getLastD h → next' a = next a)
    (hprev : ∀ a ∈ h :: (l₁ ++ l₂), a ≠ l₂.headD h → prev' a = prev a) :
    (h :: l₁).IsChain (Joined next' prev') ∧ (l₂ ++ [h]).IsChain (Joined next' prev') := by
  constructor
  · refine chain_congr hbefore (fun a ha => hnext a ?_ ?_) fun a ha => hprev a ?_ ?_
    · exact mem_append_left l₂ (dropLast_subset _ ha)
    · exact fun hx => getLastD_not_mem_dropLast (nodup_before hnodup) (hx ▸ ha)
    · exact mem_cons_of_mem h (mem_append_left l₂ ha)
    · exact fun hx => headD_not_mem_before hnodup (hx ▸ ha)
  · refine chain_congr hafter (fun a ha => hnext a ?_ ?_) fun a ha => hprev a ?_ ?_
    · rw [dropLast_concat] at ha
      exact mem_cons_of_mem h (mem_append_right l₁ ha)
    · rw [dropLast_concat] at ha
      exact fun hx => getLastD_not_mem_after hnodup (hx ▸ ha)
    · exact ((sublist_append_right l₁ l₂).cons_cons h).subset
        ((perm_append_singleton h l₂).subset (mem_of_mem_tail ha))
    · exact fun hx => headD_not_mem_tail (nodup_after hnodup) (hx ▸ ha)

section Update

variable [DecidableEq α]

/-- The pointers forward when `e` is put after `x`. -/
def linkNext (next : α → α) (x e : α) : α → α :=
  update (update next e (next x)) x e

/-- The pointers back when `e` is put after `x`. -/
def linkPrev (next prev : α → α) (x e : α) : α → α :=
  update (update prev e x) (next x) e

/-- The pointers forward when `e` is taken out. -/
def unlinkNext (next prev : α → α) (e : α) : α → α :=
  update next (prev e) (next e)

/-- The pointers back when `e` is taken out. -/
def unlinkPrev (next prev : α → α) (e : α) : α → α :=
  update prev (next e) (prev e)

/-- The pointers forward when the nodes from `f` to `g` are put after `x`. -/
def spliceNext (next : α → α) (x f g : α) : α → α :=
  update (update next g (next x)) x f

/-- The pointers back when the nodes from `f` to `g` are put after `x`. -/
def splicePrev (next prev : α → α) (x f g : α) : α → α :=
  update (update prev (next x) g) f x

variable {e : α}

theorem IsRing.unlink (hr : IsRing next prev h (l₁ ++ e :: l₂)) :
    IsRing (unlinkNext next prev e) (unlinkPrev next prev e) h (l₁ ++ l₂) := by
  have hnext := hr.next_eq
  have hprev := hr.prev_eq
  have hnodup : (h :: (l₁ ++ l₂)).Nodup :=
    hr.nodup.sublist (((sublist_cons_self e l₂).append_left l₁).cons_cons h)
  obtain ⟨-, hbefore, hafter, -⟩ := isRing_split.mp hr
  obtain ⟨hbefore, hafter⟩ : (h :: l₁).IsChain (Joined (unlinkNext next prev e)
      (unlinkPrev next prev e)) ∧ (l₂ ++ [h]).IsChain _ := by
    refine parts hnodup hbefore (isChain_cons.mp hafter).2 (fun a _ hx => ?_) fun a _ hx => ?_
    · rw [unlinkNext, hprev, update_of_ne hx]
    · rw [unlinkPrev, hnext, update_of_ne hx]
  refine isRing_split.mpr ⟨hnodup, hbefore, hafter, ?_, ?_⟩
  · rw [unlinkNext, hprev, update_self, hnext]
  · rw [unlinkPrev, hnext, update_self, hprev]

/-- A chain of other nodes is put into a ring. -/
theorem IsRing.insert {f : α} {l₃ : List α} (hr : IsRing next prev h (l₁ ++ l₂))
    (hchain : (f :: l₃).IsChain (Joined next prev)) (hnodup : (f :: l₃).Nodup)
    (hdisjoint : (h :: (l₁ ++ l₂)).Disjoint (f :: l₃)) :
    IsRing (spliceNext next (l₁.getLastD h) f (l₃.getLastD f))
      (splicePrev next prev (l₁.getLastD h) f (l₃.getLastD f)) h (l₁ ++ (f :: l₃ ++ l₂)) := by
  obtain ⟨hnodup', hbefore, hafter, hnext, -⟩ := isRing_split.mp hr
  have hapart {a b : α} (ha : a ∈ h :: (l₁ ++ l₂)) (hb : b ∈ f :: l₃) : a ≠ b := fun hx =>
    hdisjoint ha (hx ▸ hb)
  have hlastMem : l₃.getLastD f ∈ f :: l₃ := by
    have hmem := getLastD_mem f l₃ []
    rwa [append_nil] at hmem
  obtain ⟨hbefore, hafter⟩ : (h :: l₁).IsChain (Joined (spliceNext next (l₁.getLastD h) f
      (l₃.getLastD f)) (splicePrev next prev (l₁.getLastD h) f (l₃.getLastD f))) ∧
      (l₂ ++ [h]).IsChain _ := by
    refine parts hnodup' hbefore hafter (fun a ha hx => ?_) fun a ha hx => ?_
    · rw [spliceNext, update_of_ne hx, update_of_ne (hapart ha hlastMem)]
    · rw [splicePrev, hnext, update_of_ne (hapart ha mem_cons_self),
        update_of_ne hx]
  have hmiddle : (f :: l₃).IsChain (Joined (spliceNext next (l₁.getLastD h) f
      (l₃.getLastD f)) (splicePrev next prev (l₁.getLastD h) f (l₃.getLastD f))) := by
    refine chain_congr hchain (fun a ha => ?_) fun a ha => ?_
    · have hlastNe : a ≠ l₃.getLastD f := fun hx =>
        getLastD_not_mem_dropLast hnodup (hx ▸ ha)
      rw [spliceNext, update_of_ne (hapart (getLastD_mem h l₁ l₂) (dropLast_subset _ ha)).symm,
        update_of_ne hlastNe]
    · have hfirstNe : a ≠ f := fun hx => (nodup_cons.mp hnodup).1 (hx ▸ ha)
      rw [splicePrev, hnext, update_of_ne hfirstNe,
        update_of_ne (hapart (headD_mem h l₁ l₂) (mem_cons_of_mem f ha)).symm]
  have hhead : (l₂ ++ [h]).head? = some (l₂.headD h) := by
    cases l₂ with
    | nil | cons => rfl
  refine isRing_split.mpr ⟨?_, hbefore, ?_, ?_, ?_⟩
  · have hperm : (h :: (l₁ ++ (f :: l₃ ++ l₂))).Perm ((f :: l₃) ++ (h :: (l₁ ++ l₂))) := by
      rw [← append_assoc l₁]
      have hswap : (l₁ ++ (f :: l₃) ++ l₂).Perm ((f :: l₃) ++ (l₁ ++ l₂)) := by
        rw [← append_assoc (f :: l₃)]
        exact perm_append_comm.append_right l₂
      exact (hswap.cons h).trans perm_middle.symm
    exact hperm.nodup_iff.mpr (nodup_append.mpr ⟨hnodup, hr.nodup, fun a ha b hb =>
      (hapart hb ha).symm⟩)
  · rw [append_assoc, isChain_append]
    refine ⟨hmiddle, hafter, fun x hx y hy => ?_⟩
    rw [getLast?_cons, ← getLastD_eq_getLast?] at hx
    rw [hhead] at hy
    cases hx
    cases hy
    constructor
    · rw [spliceNext, update_of_ne (hapart (getLastD_mem h l₁ l₂) hlastMem).symm,
        update_self, hnext]
    · rw [splicePrev, hnext, update_of_ne (hapart (headD_mem h l₁ l₂)
        mem_cons_self), update_self]
  · exact update_self ..
  · exact update_self ..

theorem IsRing.link (hr : IsRing next prev h (l₁ ++ l₂)) (he : e ∉ h :: (l₁ ++ l₂)) :
    IsRing (linkNext next (l₁.getLastD h) e) (linkPrev next prev (l₁.getLastD h) e) h
      (l₁ ++ e :: l₂) := by
  have hne : e ≠ next (l₁.getLastD h) := by
    rw [hr.split.1]
    exact fun hx => he (hx ▸ headD_mem h l₁ l₂)
  have hprev : linkPrev next prev (l₁.getLastD h) e = splicePrev next prev (l₁.getLastD h) e e :=
    update_comm hne ..
  rw [hprev]
  exact hr.insert (.singleton e) (nodup_singleton e) (disjoint_singleton.mpr he)

/-- The nodes of one ring are put into another. -/
theorem IsRing.splice {c : α} {l₃ : List α} (hr : IsRing next prev h (l₁ ++ l₂))
    (hc : IsRing next prev c l₃) (hne : l₃ ≠ [])
    (hdisjoint : (h :: (l₁ ++ l₂)).Disjoint (c :: l₃)) :
    IsRing (spliceNext next (l₁.getLastD h) (next c) (prev c))
      (splicePrev next prev (l₁.getLastD h) (next c) (prev c)) h (l₁ ++ (l₃ ++ l₂)) := by
  cases l₃ with
  | nil => exact absurd rfl hne
  | cons f l₃ =>
  have hfirst : next c = f := hc.next_header
  have hlast : prev c = l₃.getLastD f := by
    rw [hc.prev_header, getLastD_cons]
  rw [hfirst, hlast]
  exact hr.insert (isChain_cons.mp (isChain_append.mp hc.linked).1).2 (nodup_cons.mp hc.nodup).2
    (disjoint_of_disjoint_cons_right hdisjoint)

end Update

end Ring
