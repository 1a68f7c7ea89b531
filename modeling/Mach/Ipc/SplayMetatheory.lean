import Mathlib.Tactic.Tauto
import Mach.Ipc.Splay

/-!
# What the splay tree operations do to the contents

The *contents* of a splay tree are its nodes in symmetric order, read off the left
tree, the middle tree and the right tree (`IpcSplayTree.contents`).  A tree is *valid*
when its contents ascend, stay below `~0`, and are cut at `ist_name`: the left tree is
below that name, the right tree above it, and the root of the middle tree either bears
the name or has nothing between itself and the name (`Focused`).  The last part is what
lets an operation with the same name skip the splay.

`ipc_splay_prim_lookup` keeps the list and establishes the cut (`ipcSplayPrimLookup_spec`).  Every
operation starts with `IpcSplayTree.focus`, and `IpcSplayTree.Valid.focus` hands each of them the
contents as a list cut at the name.  The rest is concatenation of lists.
-/

namespace Mach

open SearchTree Spine List

variable {β : Type}

/-! ## Contents and validity -/

/-- The nodes of the three trees in symmetric order. -/
def IpcSplayTree.contents (splay : IpcSplayTree β) : List (Nat × β) :=
  match splay.istRoot with
  | .nil => []
  | .node tname v l r =>
    leftList splay.istLtree ++ (node tname v l r).toList ++ rightList splay.istRtree

/-- The root bears the name, or the child on the side of the name is null. -/
def Focused (name : Nat) : SearchTree Nat β → Prop
  | .nil => False
  | .node tname _ l r => tname = name ∨ (name < tname ∧ l = .nil) ∨ (tname < name ∧ r = .nil)

/-- A splay tree in valid unassembled form.  The fields of an empty tree are not
initialized. -/
structure IpcSplayTree.Valid (splay : IpcSplayTree β) : Prop where
  /-- The names increase. -/
  ascending : Ascending splay.contents
  /-- No entry is named `~0`. -/
  below : Below machPortDead splay.contents
  /-- The left tree is below the last name. -/
  left : splay.istRoot ≠ .nil → Below splay.istName (leftList splay.istLtree)
  /-- The right tree is above the last name. -/
  right : splay.istRoot ≠ .nil → Above splay.istName (rightList splay.istRtree)
  /-- The middle tree is as a lookup of the last name leaves it. -/
  focused : splay.istRoot ≠ .nil → Focused splay.istName splay.istRoot

variable {splay : IpcSplayTree β} {tree : SearchTree Nat β} {name : Nat} {rt lt : Spine Nat β}

theorem IpcSplayTree.contents_nil (h : splay.istRoot = .nil) : splay.contents = [] := by
  simp [contents, h]

theorem IpcSplayTree.contents_eq (h : splay.istRoot ≠ .nil) : splay.contents =
      leftList splay.istLtree ++ splay.istRoot.toList ++ rightList splay.istRtree := by
  cases hroot : splay.istRoot with
  | nil => exact absurd hroot h
  | node => simp [contents, hroot]

theorem IpcSplayTree.valid_nil (h : splay.istRoot = .nil) : splay.Valid where
  ascending := by rw [contents_nil h]; exact ascending_nil
  below := by rw [contents_nil h]; exact below_nil _
  left := fun hne => absurd h hne
  right := fun hne => absurd h hne
  focused := fun hne => absurd h hne

/-! ## The primitives -/

theorem toList_assemble (lt rt : Spine Nat β) (h : tree ≠ .nil) :
    (ipcSplayPrimAssemble tree lt rt).toList = leftList lt ++ tree.toList ++ rightList rt := by
  cases tree with
  | nil => exact absurd rfl h
  | node => simp [ipcSplayPrimAssemble]

theorem assemble_ne_nil (lt rt : Spine Nat β) (h : tree ≠ .nil) :
    ipcSplayPrimAssemble tree lt rt ≠ .nil := by
  cases tree with
  | nil => exact absurd rfl h
  | node => simp [ipcSplayPrimAssemble]

/-- The tree that assembling the left, middle and right trees gives. -/
def IpcSplayTree.assembled (splay : IpcSplayTree β) : SearchTree Nat β :=
  ipcSplayPrimAssemble splay.istRoot splay.istLtree splay.istRtree

theorem IpcSplayTree.toList_assembled (splay : IpcSplayTree β) :
    splay.assembled.toList = splay.contents := by
  cases hroot : splay.istRoot with
  | nil => simp [assembled, contents, hroot, ipcSplayPrimAssemble]
  | node =>
    rw [assembled, toList_assemble _ _ (by simp [hroot]), contents_eq (by simp [hroot])]

/-- The three trees of a top-down search for `name` over the nodes `l`. -/
structure CutAt (name : Nat) (l : List (Nat × β))
    (res : SearchTree Nat β × Spine Nat β × Spine Nat β) : Prop where
  /-- No node is lost and the order is kept. -/
  list : leftList res.2.1 ++ res.1.toList ++ rightList res.2.2 = l
  /-- The left tree is below the name. -/
  left : Below name (leftList res.2.1)
  /-- The right tree is above the name. -/
  right : Above name (rightList res.2.2)
  /-- The name is at the root, or next to it. -/
  focused : Focused name res.1

variable {l : List (Nat × β)} {f : SpineFrame Nat β}

theorem above_frame (hasc : Ascending (l ++ rightList (f :: rt))) (h : name < f.key) :
    Above name (rightList (f :: rt)) := by
  rw [rightList_cons, cons_append, ascending_middle] at hasc
  obtain ⟨-, -, ha, -⟩ := hasc
  rw [rightList_cons, cons_append, above_cons]
  exact ⟨h, ha.mono h.le⟩

theorem below_frame (hasc : Ascending (leftList (f :: lt) ++ l)) (h : f.key < name) :
    Below name (leftList (f :: lt)) := by
  rw [leftList_cons, append_assoc, singleton_append, ascending_middle] at hasc
  obtain ⟨-, hb, -, -⟩ := hasc
  rw [leftList_cons, below_append]
  exact ⟨hb.mono h.le, by simp [h]⟩

theorem ne_nil_of_not_isNil {t : SearchTree Nat β} (h : ¬ t.isNil = true) : t ≠ .nil := by
  rintro rfl
  exact h rfl

/-- The loop of `ipc_splay_prim_lookup` cuts an ascending list at the name. -/
theorem ipcSplayPrimLookup_spec (name : Nat) (tree : SearchTree Nat β) (lt rt : Spine Nat β)
    (hne : tree ≠ .nil) (hasc : Ascending (leftList lt ++ tree.toList ++ rightList rt))
    (hl : Below name (leftList lt)) (hr : Above name (rightList rt)) :
    CutAt name (leftList lt ++ tree.toList ++ rightList rt)
      (ipcSplayPrimLookup name tree lt rt) := by
  -- In every recursive case the in-order list is the same, and only the new frames need
  -- to be shown on the right side of the name.
  fun_induction ipcSplayPrimLookup name tree lt rt with
  | case1 => exact absurd rfl hne
  | case2 v l r lt rt => exact ⟨rfl, hl, hr, .inl rfl⟩
  | case3 tname v r lt rt hname hlt => exact ⟨rfl, hl, hr, .inr (.inl ⟨hlt, rfl⟩)⟩
  | case4 tname v r lt rt hname hlt cname cv cl cr hc ih =>
    have hasc : Ascending (leftList lt ++ cl.toList ++
        rightList (⟨cname, cv, node tname v cr r⟩ :: rt)) := by simpa using hasc
    simpa using ih (ne_nil_of_not_isNil hc.2) hasc hl (above_frame hasc hc.1)
  | case5 tname v r lt rt hname hlt cname cv cl cr hc hc' ih =>
    have hasc : Ascending (leftList (⟨cname, cv, cl⟩ :: lt) ++ cr.toList ++
        rightList (⟨tname, v, r⟩ :: rt)) := by simpa using hasc
    have hl := below_frame (append_assoc .. ▸ hasc) hc'.1
    simpa using ih (ne_nil_of_not_isNil hc'.2) hasc hl (above_frame hasc hlt)
  | case6 tname v r lt rt hname hlt cname cv cl cr hc hc' ih =>
    have hasc : Ascending (leftList lt ++ (node cname cv cl cr).toList ++
        rightList (⟨tname, v, r⟩ :: rt)) := by simpa using hasc
    simpa using ih (by simp) hasc hl (above_frame hasc hlt)
  | case7 tname v l lt rt hname hlt =>
    exact ⟨rfl, hl, hr, .inr (.inr ⟨by omega, rfl⟩)⟩
  | case8 tname v l lt rt hname hlt cname cv cl cr hc ih =>
    have hasc : Ascending (leftList (⟨cname, cv, node tname v l cl⟩ :: lt) ++ cr.toList ++
        rightList rt) := by simpa using hasc
    have hl := below_frame (append_assoc .. ▸ hasc) hc.1
    simpa using ih (ne_nil_of_not_isNil hc.2) hasc hl hr
  | case9 tname v l lt rt hname hlt cname cv cl cr hc hc' ih =>
    have hasc : Ascending (leftList (⟨tname, v, l⟩ :: lt) ++ cl.toList ++
        rightList (⟨cname, cv, cr⟩ :: rt)) := by simpa using hasc
    have hl := below_frame (append_assoc .. ▸ hasc) (show tname < name by omega)
    simpa using ih (ne_nil_of_not_isNil hc'.2) hasc hl (above_frame hasc hc'.1)
  | case10 tname v l lt rt hname hlt cname cv cl cr hc hc' ih =>
    have hasc : Ascending (leftList (⟨tname, v, l⟩ :: lt) ++ (node cname cv cl cr).toList ++
        rightList rt) := by simpa using hasc
    have hl := below_frame (append_assoc .. ▸ hasc) (show tname < name by omega)
    simpa using ih (by simp) hasc hl hr

/-! ## The cut that an operation starts from -/

/-- An operation on a valid tree starts from the contents cut at its name. -/
theorem IpcSplayTree.Valid.focus (h : splay.Valid) (name : Nat)
    (hne : splay.istRoot ≠ .nil) : CutAt name splay.contents (splay.focus name) := by
  unfold IpcSplayTree.focus
  split
  next heq =>
    subst heq
    exact ⟨(contents_eq hne).symm, h.left hne, h.right hne, h.focused hne⟩
  have hcut := ipcSplayPrimLookup_spec name splay.assembled [] [] (assemble_ne_nil _ _ hne)
    (by simpa [toList_assembled] using h.ascending) (below_nil _) (above_nil _)
  rw [← assembled]
  simpa [toList_assembled] using hcut

variable {tname : Nat} {v : β} {lst : List (Nat × β)}

/-- The three ways a cut can end, as a list cut at the root of the middle tree: at the
name, just above it or just below it. -/
theorem CutAt.cases {l r : SearchTree Nat β} (h : CutAt name lst (node tname v l r, lt, rt))
    (hasc : Ascending lst) :
    lst = (leftList lt ++ l.toList) ++ (tname, v) :: (r.toList ++ rightList rt) ∧
      ((tname = name ∧ Below name (leftList lt ++ l.toList) ∧
          Above name (r.toList ++ rightList rt)) ∨
        (name < tname ∧ l = .nil ∧ Below name (leftList lt) ∧
          Above name ((tname, v) :: (r.toList ++ rightList rt))) ∨
        (tname < name ∧ r = .nil ∧ Below name ((leftList lt ++ l.toList) ++ [(tname, v)]) ∧
          Above name (rightList rt))) := by
  have hlist : lst = (leftList lt ++ l.toList) ++ (tname, v) :: (r.toList ++ rightList rt) := by
    rw [← h.list]
    simp
  refine ⟨hlist, ?_⟩
  rw [hlist, ascending_middle] at hasc
  obtain ⟨-, hb, ha, -⟩ := hasc
  rcases h.focused with heq | ⟨hlt, hnil⟩ | ⟨hlt, hnil⟩
  · subst heq
    exact .inl ⟨rfl, hb, ha⟩
  · refine .inr (.inl ⟨hlt, hnil, h.left, ?_⟩)
    rw [above_cons]
    exact ⟨hlt, ha.mono hlt.le⟩
  · refine .inr (.inr ⟨hlt, hnil, ?_, h.right⟩)
    rw [below_append, below_cons]
    exact ⟨hb.mono hlt.le, hlt, below_nil _⟩

theorem CutAt.lookup_eq {l r : SearchTree Nat β} (h : CutAt name lst (node tname v l r, lt, rt))
    (hasc : Ascending lst) : lst.lookup name = if name = tname then some v else none := by
  obtain ⟨hlist, hcase⟩ := h.cases hasc
  rw [hlist] at hasc ⊢
  rcases hcase with ⟨rfl, -, -⟩ | ⟨hlt, rfl, hb, ha⟩ | ⟨hlt, rfl, hb, ha⟩
  · rw [if_pos rfl, hasc.lookup_of_mem (mem_append_right _ mem_cons_self)]
  · rw [if_neg hlt.ne, lookup_append, toList_nil, append_nil, hb.lookup_eq_none, ha.lookup_eq_none]
    rfl
  · rw [if_neg hlt.ne', toList_nil, nil_append, append_cons, lookup_append, hb.lookup_eq_none,
      ha.lookup_eq_none]
    rfl

theorem IpcSplayTree.Valid.exists_focus (h : splay.Valid) (name : Nat)
    (hne : splay.istRoot ≠ .nil) :
    ∃ tname v l r lt rt, splay.focus name = (node tname v l r, lt, rt) ∧
      CutAt name splay.contents (node tname v l r, lt, rt) := by
  have hcut := h.focus name hne
  rcases hres : splay.focus name with ⟨tree, lt, rt⟩
  rw [hres] at hcut
  cases tree with
  | nil => exact absurd hcut.focused id
  | node tname v l r => exact ⟨tname, v, l, r, lt, rt, rfl, hcut⟩

theorem CutAt.valid {l r : SearchTree Nat β} (h : CutAt name lst (node tname v l r, lt, rt))
    (hasc : Ascending lst) (hdead : Below machPortDead lst) :
    (⟨name, node tname v l r, lt, rt⟩ : IpcSplayTree β).Valid ∧
      (⟨name, node tname v l r, lt, rt⟩ : IpcSplayTree β).contents = lst := by
  have hcon : (⟨name, node tname v l r, lt, rt⟩ : IpcSplayTree β).contents = lst := by
    rw [← h.list]
    rfl
  refine ⟨⟨?_, ?_, fun _ => h.left, fun _ => h.right, fun _ => h.focused⟩, hcon⟩
  · rw [hcon]
    exact hasc
  · rw [hcon]
    exact hdead

theorem IpcSplayTree.ofRoot_valid (splay : IpcSplayTree β) (tree : SearchTree Nat β)
    (hasc : Ascending tree.toList) (hdead : Below machPortDead tree.toList) :
    (splay.ofRoot tree).Valid ∧ (splay.ofRoot tree).contents = tree.toList := by
  cases tree with
  | nil => exact ⟨valid_nil rfl, rfl⟩
  | node =>
    refine CutAt.valid ⟨by simp, below_nil _, above_nil _, .inl rfl⟩ hasc hdead

/-! ## Lookup -/

/-- `ipc_splay_tree_lookup` returns the entry of the name, and keeps the contents. -/
theorem IpcSplayTree.Valid.lookup (h : splay.Valid) (name : Nat) :
    (ipcSplayTreeLookup splay name).1 = splay.contents.lookup name ∧
      (ipcSplayTreeLookup splay name).2.Valid ∧
      (ipcSplayTreeLookup splay name).2.contents = splay.contents := by
  cases hroot : splay.istRoot with
  | nil =>
    simp only [ipcSplayTreeLookup, hroot, contents_nil hroot]
    exact ⟨rfl, h, trivial⟩
  | node =>
    obtain ⟨tname, v, l, r, lt, rt, hres, hcut⟩ := h.exists_focus name (by simp [hroot])
    simp only [ipcSplayTreeLookup, hroot, hres]
    exact ⟨(hcut.lookup_eq h.ascending).symm, hcut.valid h.ascending h.below⟩

/-! ## Insertion and deletion -/

/-- `ipc_splay_tree_insert` puts an absent name where it belongs in the contents. -/
theorem IpcSplayTree.Valid.insert (h : splay.Valid)
    (entry : β) (hdead : name < machPortDead) (habs : splay.contents.lookup name = none) :
    (ipcSplayTreeInsert splay name entry).Valid ∧
      ∃ lo hi, splay.contents = lo ++ hi ∧ Below name lo ∧ Above name hi ∧
        (ipcSplayTreeInsert splay name entry).contents = lo ++ (name, entry) :: hi := by
  suffices hinsert : ∃ ltree rtree : SearchTree Nat β,
      splay.contents = ltree.toList ++ rtree.toList ∧ Below name ltree.toList ∧
      Above name rtree.toList ∧
      ipcSplayTreeInsert splay name entry = ⟨name, node name entry ltree rtree, [], []⟩ by
    obtain ⟨ltree, rtree, hlist, hb, ha, heq⟩ := hinsert
    have hasc := h.ascending
    have hbelow := h.below
    rw [hlist] at hasc hbelow
    rw [ascending_append] at hasc
    rw [below_append] at hbelow
    have hcut : CutAt name (ltree.toList ++ (name, entry) :: rtree.toList)
        (node name entry ltree rtree, [], []) :=
      ⟨by simp, below_nil _, above_nil _, .inl rfl⟩
    obtain ⟨hv, hc⟩ := hcut.valid (ascending_middle.mpr ⟨hasc.1, hb, ha, hasc.2.1⟩)
      (by simpa using ⟨hbelow.1, hdead, hbelow.2⟩)
    rw [heq]
    exact ⟨hv, _, _, hlist, hb, ha, hc⟩
  cases hroot : splay.istRoot with
  | nil =>
    exact ⟨.nil, .nil, contents_nil hroot, below_nil _, above_nil _,
      by simp only [ipcSplayTreeInsert, hroot]⟩
  | node =>
    obtain ⟨tname, v, l, r, lt, rt, hres, hcut⟩ := h.exists_focus name (by simp [hroot])
    obtain ⟨hlist, hcase⟩ := hcut.cases h.ascending
    rw [hcut.lookup_eq h.ascending] at habs
    rcases hcase with ⟨rfl, -, -⟩ | ⟨hlt, rfl, hb, ha⟩ | ⟨hlt, rfl, hb, ha⟩
    · simp at habs
    · refine ⟨closeLeft lt .nil, closeRight rt (node tname v .nil r),
        ?_, by simpa using hb, by simpa using ha, ?_⟩
      · rw [hlist]
        simp
      · simp only [ipcSplayTreeInsert, hroot, hres, if_pos hlt]
    · refine ⟨closeLeft lt (node tname v l .nil), closeRight rt .nil,
        ?_, by simpa using hb, by simpa using ha, ?_⟩
      · rw [hlist]
        simp
      · simp only [ipcSplayTreeInsert, hroot, hres, if_neg (show ¬ name < tname by omega)]

/-- Looking for `~0` brings the largest node to the root, with nothing to its right. -/
theorem assemble_largest (hne : tree ≠ .nil)
    (hasc : Ascending tree.toList) (hdead : Below machPortDead tree.toList) :
    ∃ root lt rt pname pval pl pr, ipcSplayPrimLookup machPortDead tree [] [] = (root, lt, rt) ∧
      ipcSplayPrimAssemble root lt rt = .node pname pval pl pr ∧
      tree.toList = pl.toList ++ [(pname, pval)] := by
  have hcut := ipcSplayPrimLookup_spec machPortDead tree [] [] hne (by simpa using hasc)
    (below_nil _) (above_nil _)
  rcases hres : ipcSplayPrimLookup machPortDead tree [] [] with ⟨root, lt, rt⟩
  rw [hres] at hcut
  have hlist := hcut.list
  simp only [leftList_nil, nil_append, rightList_nil, append_nil] at hlist
  cases root with
  | nil => exact absurd hcut.focused id
  | node tname v l r =>
    have hall := hdead
    rw [← hlist, below_append, below_append, toList_node, below_append, below_cons] at hall
    obtain ⟨⟨-, -, htname, -⟩, hright⟩ := hall
    have hrt : rightList rt = [] := by
      cases hrt : rightList rt with
      | nil => rfl
      | cons e =>
        have h1 := hright e (by simp [hrt])
        have h2 := hcut.right e (by simp [hrt])
        exact absurd h1 (lt_asymm h2)
    have hr : r = .nil := by
      rcases hcut.focused with heq | ⟨hlt, -⟩ | ⟨-, hnil⟩
      · exact absurd htname (by simp [heq])
      · exact absurd htname (lt_asymm hlt)
      · exact hnil
    refine ⟨_, lt, rt, tname, v, closeLeft lt l, closeRight rt r, rfl, rfl, ?_⟩
    rw [← hlist, hrt, hr]
    simp

/-- So the right tree of a deletion can be hung under the largest node of the left. -/
theorem toList_ipcSplayMerge {ltree rtree : SearchTree Nat β} (hasc : Ascending ltree.toList)
    (hdead : Below machPortDead ltree.toList) :
    (ipcSplayMerge ltree rtree).toList = ltree.toList ++ rtree.toList := by
  cases ltree with
  | nil => simp [ipcSplayMerge]
  | node =>
    cases rtree with
    | nil => simp [ipcSplayMerge]
    | node =>
      obtain ⟨root, lt, rt, pname, pval, pl, pr, hres, hasm, hlist⟩ :=
        assemble_largest (by simp) hasc hdead
      simp only [ipcSplayMerge, hres, hasm]
      rw [hlist]
      simp

/-- `ipc_splay_tree_delete` frees one node of a nonempty tree: the one of that name, if
there is one. -/
theorem IpcSplayTree.Valid.delete (h : splay.Valid) (name : Nat) (hne : splay.contents ≠ []) :
    ∃ splay' lo e hi, ipcSplayTreeDelete splay name = some splay' ∧ splay'.Valid ∧
      splay.contents = lo ++ e :: hi ∧ splay'.contents = lo ++ hi ∧
      (splay.contents.lookup name ≠ none → e.1 = name) := by
  have hroot : splay.istRoot ≠ .nil := fun hnil => hne (contents_nil hnil)
  obtain ⟨tname, v, l, r, lt, rt, hres, hcut⟩ := h.exists_focus name hroot
  obtain ⟨hlist, -⟩ := hcut.cases h.ascending
  have hasc := h.ascending
  have hdead := h.below
  rw [hlist] at hasc hdead
  obtain ⟨hasc₁, -, -, hasc₂⟩ := ascending_middle.mp hasc
  rw [below_append, below_cons] at hdead
  have hmerge : (ipcSplayMerge (closeLeft lt l) (closeRight rt r)).toList =
      (leftList lt ++ l.toList) ++ (r.toList ++ rightList rt) := by
    rw [toList_ipcSplayMerge]
    · simp
    · simpa using hasc₁
    · simpa using hdead.1
  have hascm : Ascending (ipcSplayMerge (closeLeft lt l) (closeRight rt r)).toList := by
    rw [hmerge]
    exact (ascending_append.mpr ⟨hasc₁, hasc₂, fun a ha b hb =>
      (ascending_append.mp hasc).2.2 a ha b (mem_cons_of_mem _ hb)⟩)
  have hdeadm : Below machPortDead (ipcSplayMerge (closeLeft lt l) (closeRight rt r)).toList := by
    rw [hmerge, below_append]
    exact ⟨hdead.1, hdead.2.2⟩
  obtain ⟨hv, hc⟩ := splay.ofRoot_valid _ hascm hdeadm
  refine ⟨_, leftList lt ++ l.toList, (tname, v), r.toList ++ rightList rt, ?_, hv, hlist,
    hc.trans hmerge, ?_⟩
  · cases hr : splay.istRoot with
    | nil => exact absurd hr hroot
    | node => simp only [ipcSplayTreeDelete, hr, hres]
  · rw [hcut.lookup_eq h.ascending]
    simp [eq_comm]

/-- Deleting from an empty tree dereferences the null root. -/
theorem ipcSplayTreeDelete_nil (h : splay.contents = [])
    (name : Nat) : ipcSplayTreeDelete splay name = none := by
  cases hroot : splay.istRoot with
  | nil => simp only [ipcSplayTreeDelete, hroot]
  | node => simp [IpcSplayTree.contents, hroot] at h

/-! ## Split and join -/

/-- `ipc_splay_tree_split` leaves the names from its argument up and puts the names
below it in `small`. -/
theorem IpcSplayTree.Valid.split (h : splay.Valid) (name : Nat) (small : IpcSplayTree β) :
    (ipcSplayTreeSplit splay name small).1.Valid ∧ (ipcSplayTreeSplit splay name small).2.Valid ∧
      splay.contents = (ipcSplayTreeSplit splay name small).2.contents ++
        (ipcSplayTreeSplit splay name small).1.contents ∧
      Below name (ipcSplayTreeSplit splay name small).2.contents ∧
      ∀ e ∈ (ipcSplayTreeSplit splay name small).1.contents, name ≤ e.1 := by
  have hasc := h.ascending
  have hdead := h.below
  cases hroot : splay.istRoot with
  | nil =>
    have hnil := contents_nil hroot
    have hsmall : (ipcSplayTreeInit small).contents = [] := contents_nil rfl
    simp only [ipcSplayTreeSplit, hroot, hnil, hsmall, append_nil]
    exact ⟨h, valid_nil rfl, trivial, below_nil _, by simp⟩
  | node =>
    obtain ⟨tname, v, l, r, lt, rt, hres, hcut⟩ := h.exists_focus name (by simp [hroot])
    obtain ⟨hlist, hcase⟩ := hcut.cases hasc
    rw [hlist] at hasc hdead
    obtain ⟨hasc₁, hb₁, ha₂, hasc₂⟩ := ascending_middle.mp hasc
    rw [below_append, below_cons] at hdead
    simp only [ipcSplayTreeSplit, hroot, hres]
    by_cases hlt : tname < name
    · -- The name is above the root, so the root has no right child.
      rw [if_pos hlt]
      rcases hcase with ⟨heq, -, -⟩ | ⟨hlt', -, -, -⟩ | ⟨-, rfl, hb, ha⟩
      · exact absurd hlt (by omega)
      · exact absurd hlt (by omega)
      obtain ⟨hv, hc⟩ := splay.ofRoot_valid (closeRight rt .nil)
        (by simpa using hasc₂) (by simpa using hdead.2.2)
      have hsmall : CutAt tname (leftList lt ++ l.toList ++ [(tname, v)])
          (node tname v (closeLeft lt l) .nil, [], []) :=
        ⟨by simp, below_nil _, above_nil _, .inl rfl⟩
      obtain ⟨hv', hc'⟩ := hsmall.valid
        (ascending_middle.mpr ⟨hasc₁, hb₁, above_nil _, ascending_nil⟩)
        (by
          rw [below_append, below_cons]
          exact ⟨hdead.1, hdead.2.1, below_nil _⟩)
      refine ⟨hv, hv', ?_, ?_, ?_⟩
      · rw [hc, hc', hlist]
        simp
      · rw [hc']
        exact hb
      · rw [hc]
        intro e he
        exact (ha e (by simpa using he)).le
    · -- The root stays, and its left child goes with the left tree.
      rw [if_neg hlt]
      obtain ⟨hv, hc⟩ := (ipcSplayTreeInit small).ofRoot_valid (closeLeft lt l)
        (by simpa using hasc₁) (by simpa using hdead.1)
      have hstay : CutAt name ((tname, v) :: (r.toList ++ rightList rt))
          (node tname v .nil r, [], rt) := by
        refine ⟨by simp, below_nil _, hcut.right, ?_⟩
        rcases lt_or_eq_of_le (not_lt.mp hlt) with hlt' | heq
        · exact .inr (.inl ⟨hlt', rfl⟩)
        · exact .inl heq.symm
      obtain ⟨hv', hc'⟩ := hstay.valid ((ascending_append.mp hasc).2.1)
        (by rw [below_cons]; exact hdead.2)
      refine ⟨hv', hv, ?_, ?_, ?_⟩
      · rw [hc, hc', hlist]
        simp
      · rw [hc]
        rcases hcase with ⟨-, hb, -⟩ | ⟨-, rfl, hb, -⟩ | ⟨hlt', -, -, -⟩
        · simpa using hb
        · simpa using hb
        · exact absurd hlt' hlt
      · intro e he
        rcases mem_cons.mp he with rfl | he
        · exact not_lt.mp hlt
        · exact (not_lt.mp hlt).trans (ha₂ e he).le

/-- Looking for 0 brings the smallest node to the root with a null left child. -/
theorem IpcSplayTree.Valid.focus_zero (h : splay.Valid) (hne : splay.istRoot ≠ .nil) :
    ∃ tname v r, (ipcSplayPrimAssemble (splay.focus 0).1 (splay.focus 0).2.1
      (splay.focus 0).2.2) = node tname v .nil r ∧ (tname, v) :: r.toList = splay.contents := by
  obtain ⟨tname, v, l, r, lt, rt, hres, hcut⟩ := h.exists_focus 0 hne
  have hlt : lt = [] := by
    cases lt with
    | nil => rfl
    | cons f fs =>
      have hmem : (f.key, f.val) ∈ leftList (f :: fs) := by simp
      exact absurd (hcut.left _ hmem) (Nat.not_lt_zero _)
  have hl : l.toList = [] := by
    rcases hcut.cases h.ascending with ⟨-, ⟨-, hb, -⟩ | ⟨-, rfl, -, -⟩ | ⟨hlt, -, -, -⟩⟩
    · cases hl : l.toList with
      | nil => rfl
      | cons e =>
        exact absurd (hb e (by simp [hl])) (Nat.not_lt_zero _)
    · rfl
    · exact absurd hlt (Nat.not_lt_zero _)
  rw [toList_eq_nil] at hl
  subst hlt
  subst hl
  refine ⟨tname, v, closeRight rt r, ?_, ?_⟩
  · rw [hres]
    rfl
  · rw [← hcut.list]
    simp

/-- `ipc_splay_tree_join` puts the entries of `small` before those of `splay`. -/
theorem IpcSplayTree.Valid.join {small : IpcSplayTree β} (h : splay.Valid)
    (hs : small.Valid) (hlt : ∀ a ∈ small.contents, ∀ b ∈ splay.contents, a.1 < b.1) :
    (ipcSplayTreeJoin splay small).1.Valid ∧
      (ipcSplayTreeJoin splay small).1.contents = small.contents ++ splay.contents ∧
      (ipcSplayTreeJoin splay small).2.istRoot = .nil := by
  have hasc : Ascending (small.contents ++ splay.contents) :=
    ascending_append.mpr ⟨hs.ascending, h.ascending, hlt⟩
  have hdead : Below machPortDead (small.contents ++ splay.contents) := by
    rw [below_append]
    exact ⟨hs.below, h.below⟩
  cases hsroot : small.istRoot with
  | nil =>
    simp only [ipcSplayTreeJoin, hsroot, contents_nil hsroot, nil_append]
    exact ⟨h, trivial, trivial⟩
  | node =>
    have hslist := small.toList_assembled
    cases hroot : splay.istRoot with
    | nil =>
      rw [contents_nil hroot, append_nil] at hasc hdead ⊢
      obtain ⟨hv, hc⟩ := splay.ofRoot_valid small.assembled
        (by rw [hslist]; exact hasc) (by rw [hslist]; exact hdead)
      simp only [ipcSplayTreeJoin, hsroot, hroot]
      rw [← hsroot]
      exact ⟨hv, hc.trans hslist, rfl⟩
    | node =>
      have hne : splay.istRoot ≠ .nil := by simp [hroot]
      obtain ⟨tname, v, r, hasm, hlist⟩ := h.focus_zero hne
      have hnew : (node tname v small.assembled r).toList = small.contents ++ splay.contents := by
        rw [toList_node, hslist, hlist]
      obtain ⟨hv, hc⟩ := splay.ofRoot_valid (node tname v small.assembled r)
        (by rw [hnew]; exact hasc) (by rw [hnew]; exact hdead)
      simp only [ipcSplayTreeJoin, hsroot, hroot, hasm]
      rw [← hsroot]
      exact ⟨hv, hc.trans hnew, rfl⟩

/-! ## Bounds and pick -/

/-- `lower` is the greatest name of the list that is at most `name`, or `~0`. -/
def IsLower (l : List (Nat × β)) (name lower : Nat) : Prop :=
  (lower = machPortDead ∧ Above name l) ∨
    ((∃ v, (lower, v) ∈ l) ∧ lower ≤ name ∧ ∀ e ∈ l, e.1 ≤ name → e.1 ≤ lower)

/-- `upper` is the least name of the list that is at least `name`, or 0. -/
def IsUpper (l : List (Nat × β)) (name upper : Nat) : Prop :=
  (upper = 0 ∧ Below name l) ∨
    ((∃ v, (upper, v) ∈ l) ∧ name ≤ upper ∧ ∀ e ∈ l, name ≤ e.1 → upper ≤ e.1)

section

variable {lo hi : List (Nat × β)} {x : Nat × β} (hasc : Ascending (lo ++ x :: hi))

include hasc

theorem isLower_middle (hx : x.1 ≤ name) (ha : Above name hi) :
    IsLower (lo ++ x :: hi) name x.1 := by
  obtain ⟨-, hb, -, -⟩ := ascending_middle.mp hasc
  refine .inr ⟨⟨x.2, by simp⟩, hx, fun e he hen => ?_⟩
  rw [mem_append, mem_cons] at he
  rcases he with he | rfl | he
  · exact (hb e he).le
  · exact le_rfl
  · exact absurd (ha e he) hen.not_gt

theorem isUpper_middle (hx : name ≤ x.1) (hb : Below name lo) :
    IsUpper (lo ++ x :: hi) name x.1 := by
  obtain ⟨-, -, ha, -⟩ := ascending_middle.mp hasc
  refine .inr ⟨⟨x.2, by simp⟩, hx, fun e he hen => ?_⟩
  rw [mem_append, mem_cons] at he
  rcases he with he | rfl | he
  · exact absurd (hb e he) hen.not_gt
  · exact le_rfl
  · exact (ha e he).le

end

/-- `ipc_splay_tree_bounds` returns the two neighbours of its argument. -/
theorem IpcSplayTree.Valid.bounds (h : splay.Valid) (name : Nat) :
    IsLower splay.contents name (ipcSplayTreeBounds splay name).1.1 ∧
      IsUpper splay.contents name (ipcSplayTreeBounds splay name).1.2 ∧
      (ipcSplayTreeBounds splay name).2.Valid ∧
      (ipcSplayTreeBounds splay name).2.contents = splay.contents := by
  cases hroot : splay.istRoot with
  | nil =>
    simp only [ipcSplayTreeBounds, hroot, contents_nil hroot]
    exact ⟨.inl ⟨rfl, above_nil _⟩, .inl ⟨rfl, below_nil _⟩, h, trivial⟩
  | node =>
    obtain ⟨tname, v, l, r, lt, rt, hres, hcut⟩ := h.exists_focus name (by simp [hroot])
    simp only [ipcSplayTreeBounds, hroot, hres]
    rw [← and_assoc]
    refine ⟨?_, hcut.valid h.ascending h.below⟩
    have hasc := h.ascending
    obtain ⟨hlist, hcase⟩ := hcut.cases hasc
    rw [hlist] at hasc ⊢
    rcases hcase with ⟨rfl, hb, ha⟩ | ⟨hlt, rfl, hb, ha⟩ | ⟨hlt, rfl, hb, ha⟩
    · rw [if_pos le_rfl, if_pos le_rfl]
      exact ⟨isLower_middle hasc le_rfl ha, isUpper_middle hasc le_rfl hb⟩
    · rw [if_neg hlt.not_ge, if_pos hlt.le]
      refine ⟨?_, isUpper_middle hasc hlt.le (by simpa using hb)⟩
      cases lt with
      | nil => exact .inl ⟨rfl, by simpa using ha⟩
      | cons f fs =>
        rw [leftList_cons, toList_nil, append_nil, append_assoc, singleton_append] at hasc ⊢
        exact isLower_middle hasc (hb (f.key, f.val) (by simp)).le ha
    · rw [if_pos hlt.le, if_neg hlt.not_ge]
      refine ⟨isLower_middle hasc hlt.le (by simpa using ha), ?_⟩
      cases rt with
      | nil => exact .inl ⟨rfl, by simpa using hb⟩
      | cons f fs =>
        rw [rightList_cons, toList_nil, nil_append, cons_append, append_cons] at hasc ⊢
        exact isUpper_middle hasc (ha (f.key, f.val) (by simp)).le hb

/-- `ipc_splay_tree_pick` finds an entry of every nonempty tree. -/
theorem ipcSplayTreePick_spec (splay : IpcSplayTree β) :
    (ipcSplayTreePick splay = none ∧ splay.contents = []) ∨
      ∃ e, ipcSplayTreePick splay = some e ∧ e ∈ splay.contents := by
  cases hroot : splay.istRoot with
  | nil => exact .inl ⟨by simp [ipcSplayTreePick, hroot], IpcSplayTree.contents_nil hroot⟩
  | node tname v =>
    refine .inr ⟨(tname, v), by simp [ipcSplayTreePick, hroot], ?_⟩
    rw [IpcSplayTree.contents_eq (by simp [hroot]), hroot]
    simp

/-! ## Membership -/

theorem IpcSplayTree.Valid.insert_mem (h : splay.Valid)
    (entry : β) (hdead : name < machPortDead) (habs : ∀ e ∈ splay.contents, e.1 ≠ name) :
    (ipcSplayTreeInsert splay name entry).Valid ∧
      (∀ e, e ∈ (ipcSplayTreeInsert splay name entry).contents ↔
        e = (name, entry) ∨ e ∈ splay.contents) ∧
      (ipcSplayTreeInsert splay name entry).contents.length = splay.contents.length + 1 := by
  obtain ⟨hv, lo, hi, hlist, -, -, hnew⟩ := h.insert entry hdead (lookup_eq_none_of_ne habs)
  refine ⟨hv, fun e => ?_, ?_⟩
  · rw [hnew, hlist]
    simp only [mem_append, mem_cons]
    tauto
  · rw [hnew, hlist]
    simp only [length_append, length_cons]
    omega

theorem IpcSplayTree.Valid.delete_mem (h : splay.Valid)
    {e₀ : Nat × β} (hpres : e₀ ∈ splay.contents) :
    ∃ splay', ipcSplayTreeDelete splay e₀.1 = some splay' ∧ splay'.Valid ∧
      (∀ e, e ∈ splay'.contents ↔ e ∈ splay.contents ∧ e.1 ≠ e₀.1) ∧
      splay'.contents.length + 1 = splay.contents.length := by
  have hlook := h.ascending.lookup_of_mem hpres
  obtain ⟨splay', lo, e₁, hi, hdel, hv, hlist, hnew, hname⟩ :=
    h.delete e₀.1 (ne_nil_of_mem hpres)
  have he₁ : e₁.1 = e₀.1 := hname (by rw [hlook]; simp)
  have hasc := h.ascending
  rw [hlist, ascending_middle, he₁] at hasc
  obtain ⟨-, hb, ha, -⟩ := hasc
  refine ⟨splay', hdel, hv, fun e => ?_, ?_⟩
  · rw [hnew, hlist, mem_append, mem_append, mem_cons]
    constructor
    · rintro (he | he)
      · exact ⟨.inl he, (hb e he).ne⟩
      · exact ⟨.inr (.inr he), (ha e he).ne'⟩
    · rintro ⟨he | rfl | he, hne⟩
      · exact .inl he
      · exact absurd he₁ hne
      · exact .inr he
  · rw [hnew, hlist]
    simp only [length_append, length_cons]
    omega

theorem IpcSplayTree.contents_modify (splay : IpcSplayTree β) (name : Nat) (f : β → β) :
    (splay.modify name f).contents =
      splay.contents.map fun e => (e.1, if e.1 = name then f e.2 else e.2) := by
  cases hroot : splay.istRoot with
  | nil => simp [contents, modify, hroot, SearchTree.modify]
  | node =>
    rw [contents_eq (by simp [modify, hroot, SearchTree.modify]), contents_eq (by simp [hroot])]
    simp [modify, lists_modify, toList_modify]

theorem IpcSplayTree.Valid.modify (h : splay.Valid) (name : Nat)
    (f : β → β) : (splay.modify name f).Valid := by
  have hnil : (splay.modify name f).istRoot ≠ .nil → splay.istRoot ≠ .nil := by
    intro hne hroot
    exact hne (by simp [IpcSplayTree.modify, hroot, SearchTree.modify])
  constructor
  · rw [contents_modify]
    exact .map _ (fun a b hab => hab) h.ascending
  · rw [contents_modify]
    intro e he
    obtain ⟨a, ha, rfl⟩ := mem_map.mp he
    exact h.below a ha
  · intro hne e he
    simp only [IpcSplayTree.modify, lists_modify] at he
    obtain ⟨a, ha, rfl⟩ := mem_map.mp he
    exact h.left (hnil hne) a ha
  · intro hne e he
    simp only [IpcSplayTree.modify, lists_modify] at he
    obtain ⟨a, ha, rfl⟩ := mem_map.mp he
    exact h.right (hnil hne) a ha
  · intro hne
    have hf := h.focused (hnil hne)
    cases hroot : splay.istRoot with
    | nil => exact absurd hroot (hnil hne)
    | node =>
      simp only [IpcSplayTree.modify, hroot] at hf ⊢
      rcases hf with heq | ⟨hlt, rfl⟩ | ⟨hlt, rfl⟩
      · exact .inl heq
      · exact .inr (.inl ⟨hlt, rfl⟩)
      · exact .inr (.inr ⟨hlt, rfl⟩)

end Mach
