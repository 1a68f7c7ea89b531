import Mach.Ipc.SplayMetatheory

/-!
# Symmetric order traversal of a splay tree

`ipc_splay_traverse_start`, `ipc_splay_traverse_next` and `ipc_splay_traverse_finish` of
`ipc/ipc_splay.c`.  The traversal walks the tree by pointer reversal: while it is inside a
subtree, the child field of the parent holds the grandparent.  The reversed path is a
list of frames here, the parent first.

A node does not record which of its two fields is reversed.  The source finds out by comparing
names, so a frame remembers the side, and `none` is a comparison that disagrees with it.  A tree in
symmetric order never gets there (`ipcSplayTraverseNext_spec`).

The caller may ask for the entry it has just seen to be deleted.  `ipcSplayTraverse` is the caller's
loop, and `ipcSplayTraverse_spec` says what it comes to: a fold over the entries in order, which
leaves those that were not deleted.
-/

namespace Mach

open SearchTree Spine List

variable {β σ : Type}

/-! ## The walk -/

/-- The child field of a node that holds the pointer to the grandparent. -/
inductive Side where
  | left
  | right
deriving Repr, DecidableEq

/-- A node on the reversed path, with its other child. -/
structure ParentFrame (β : Type) where
  /-- The field that is reversed. -/
  side : Side
  /-- `ite_name`. -/
  iteName : Nat
  /-- The entry. -/
  val : β
  /-- The child on the other side. -/
  sub : SearchTree Nat β

/-- Where a traversal stands: at a node, with its children and the reversed path, or
finished, with the root that is left. -/
inductive Traversal (β : Type) where
  | entry (name : Nat) (val : β) (lchild rchild : SearchTree Nat β)
      (parent : List (ParentFrame β))
  | finished (root : SearchTree Nat β)

/-- The label `traverse_left`, at a node. -/
def traverseLeft (name : Nat) (val : β) (lchild rchild : SearchTree Nat β)
    (parent : List (ParentFrame β)) : Traversal β :=
  match lchild with
  | .nil => .entry name val .nil rchild parent
  | .node cname cval cl cr => traverseLeft cname cval cl cr (⟨.left, name, val, rchild⟩ :: parent)
termination_by structural lchild

/-- The label `traverse_back`: `name` is the name of the subtree that was traversed. -/
def traverseBack (name : Nat) (current : SearchTree Nat β) :
    List (ParentFrame β) → Option (Traversal β)
  | [] => some (.finished current)
  | f :: parent =>
    if name < f.iteName then
      match f.side with
      | .left => some (.entry f.iteName f.val current f.sub parent)
      | .right => none
    else
      match f.side with
      | .left => none
      | .right => traverseBack f.iteName (.node f.iteName f.val f.sub current) parent

/-- The label `traverse_right`. -/
def traverseRight (name : Nat) (val : β) (lchild rchild : SearchTree Nat β)
    (parent : List (ParentFrame β)) : Option (Traversal β) :=
  match rchild with
  | .nil => traverseBack name (.node name val lchild .nil) parent
  | .node cname cval cl cr =>
    some (traverseLeft cname cval cl cr (⟨.right, name, val, lchild⟩ :: parent))

/-- `ipc_splay_traverse_start`. -/
def ipcSplayTraverseStart (splay : IpcSplayTree β) : Traversal β :=
  match ipcSplayPrimAssemble splay.istRoot splay.istLtree splay.istRtree with
  | .nil => .finished .nil
  | .node name val lchild rchild => traverseLeft name val lchild rchild []

/-- `ipc_splay_traverse_next` at a node. -/
def ipcSplayTraverseNext (name : Nat) (val : β) (lchild rchild : SearchTree Nat β)
    (parent : List (ParentFrame β)) (delete : Bool) : Option (Traversal β) :=
  if delete then
    match lchild, rchild with
    | .nil, .nil => traverseBack name .nil parent
    | .nil, .node rname rval rl rr => some (traverseLeft rname rval rl rr parent)
    | .node lname lval ll lr, .nil => traverseBack lname (.node lname lval ll lr) parent
    | .node lname lval ll lr, rchild =>
      match ipcSplayPrimLookup machPortDead (.node lname lval ll lr) [] [] with
      | (root, lt, rt) =>
        match ipcSplayPrimAssemble root lt rt with
        | .nil => none
        | .node pname pval pl _ => traverseRight pname pval pl rchild parent
  else traverseRight name val lchild rchild parent

/-- `ipc_splay_traverse_finish`. -/
def ipcSplayTraverseFinish (splay : IpcSplayTree β) (root : SearchTree Nat β) :
    IpcSplayTree β :=
  splay.ofRoot root

/-- The loop of a caller: `body` sees each entry and says whether to delete it. -/
def ipcSplayTraverseLoop (body : σ → Nat → β → σ × Bool) :
    Nat → Traversal β → σ → Option (σ × SearchTree Nat β)
  | _, .finished root, s => some (s, root)
  | 0, .entry .., _ => none
  | fuel + 1, .entry name val lchild rchild parent, s =>
    (ipcSplayTraverseNext name val lchild rchild parent (body s name val).2).bind fun st =>
      ipcSplayTraverseLoop body fuel st (body s name val).1

/-- `ipc_splay_traverse_start` to `ipc_splay_traverse_finish`, with a body. -/
def ipcSplayTraverse (body : σ → Nat → β → σ × Bool) (splay : IpcSplayTree β) (s : σ) :
    Option (σ × IpcSplayTree β) :=
  (ipcSplayTraverseLoop body splay.assembled.size (ipcSplayTraverseStart splay) s).map
    fun (s', root) => (s', ipcSplayTraverseFinish splay root)

/-! ## What a traversal has seen and has still to see -/

/-- What lies before the subtree that a reversed path leads to. -/
def pathBefore : List (ParentFrame β) → List (Nat × β)
  | [] => []
  | f :: fs =>
    match f.side with
    | .left => pathBefore fs
    | .right => pathBefore fs ++ f.sub.toList ++ [(f.iteName, f.val)]

/-- What comes after the path. -/
def pathAfter : List (ParentFrame β) → List (Nat × β)
  | [] => []
  | f :: fs =>
    match f.side with
    | .left => (f.iteName, f.val) :: f.sub.toList ++ pathAfter fs
    | .right => pathAfter fs

/-- The entries seen and kept so far. -/
@[local simp]
def Traversal.seen : Traversal β → List (Nat × β)
  | .entry _ _ lchild _ parent => pathBefore parent ++ lchild.toList
  | .finished root => root.toList

/-- The entries still to be seen, the current one first. -/
@[local simp]
def Traversal.rest : Traversal β → List (Nat × β)
  | .entry name val _ rchild parent => (name, val) :: (rchild.toList ++ pathAfter parent)
  | .finished _ => []

variable (lchild : SearchTree Nat β)

theorem traverseLeft_spec :
    ∀ (name : Nat) (val : β) (rchild : SearchTree Nat β) (parent : List (ParentFrame β)),
      (traverseLeft name val lchild rchild parent).seen = pathBefore parent ∧
      (traverseLeft name val lchild rchild parent).rest =
        (SearchTree.node name val lchild rchild).toList ++ pathAfter parent := by
  induction lchild with
  | nil => intro name val rchild parent; simp [traverseLeft]
  | node cname cval cl cr ih =>
    intro name val rchild parent
    rw [traverseLeft, (ih ..).1, (ih ..).2]
    exact ⟨rfl, by simp [pathAfter]⟩

/-- A name stands where the sides of the path say: above what lies before it and below
what lies after it. -/
def OnPath (name : Nat) (parent : List (ParentFrame β)) : Prop :=
  Below name (pathBefore parent) ∧ Above name (pathAfter parent)

/-- Going back up resumes with what lies after the subtree.  The invariant along the path
is that each comparison of names finds the side that is reversed. -/
theorem traverseBack_spec (parent : List (ParentFrame β)) :
    ∀ (name : Nat) (current : SearchTree Nat β), OnPath name parent →
      Ascending (pathBefore parent) → Ascending (pathAfter parent) →
      (∀ a ∈ pathBefore parent, ∀ b ∈ pathAfter parent, a.1 < b.1) →
      ∃ st, traverseBack name current parent = some st ∧
        st.seen = pathBefore parent ++ current.toList ∧ st.rest = pathAfter parent := by
  induction parent with
  | nil =>
    intro name current _ _ _ _
    exact ⟨_, rfl, by simp [pathBefore], rfl⟩
  | cons f parent ih =>
    intro name current hon hbef haft hlt
    obtain ⟨side, fname, fval, sub⟩ := f
    cases side with
    | left =>
      have hname : name < fname := hon.2 (fname, fval) (by simp [pathAfter])
      refine ⟨.entry fname fval current sub parent, ?_, rfl, by simp [pathAfter]⟩
      simp only [traverseBack]
      rw [if_pos hname]
    | right =>
      have hname : ¬ name < fname := by
        have := hon.1 (fname, fval) (by simp [pathBefore])
        exact lt_asymm this
      simp only [pathBefore] at hbef haft hlt
      have hf : OnPath fname parent := by
        refine ⟨?_, fun b hb => hlt (fname, fval) (by simp) b hb⟩
        rw [append_assoc, ascending_append] at hbef
        intro a ha
        exact hbef.2.2 a ha (fname, fval) (by simp)
      obtain ⟨st, hst, hseen, hrest⟩ := ih fname (.node fname fval sub current) hf
        (by rw [append_assoc, ascending_append] at hbef; exact hbef.1) haft
        fun a ha b hb => hlt a (by simp [ha]) b hb
      refine ⟨st, ?_, by rw [hseen]; simp [pathBefore], hrest⟩
      simp only [traverseBack]
      rw [if_neg hname]
      exact hst

variable {parent : List (ParentFrame β)} {name : Nat} {val : β}

theorem traverseBack_of_ascending {m : List (Nat × β)}
    {e : Nat × β} (hasc : Ascending (pathBefore parent ++ m ++ pathAfter parent)) (he : e ∈ m)
    (current : SearchTree Nat β) :
    ∃ st, traverseBack e.1 current parent = some st ∧
      st.seen = pathBefore parent ++ current.toList ∧ st.rest = pathAfter parent := by
  rw [append_assoc, ascending_append, ascending_append] at hasc
  obtain ⟨hbef, ⟨-, haft, hma⟩, hb⟩ := hasc
  refine traverseBack_spec parent e.1 current ⟨?_, fun b hb' => hma e he b hb'⟩ hbef haft ?_
  · intro a ha
    exact hb a ha e (by simp [he])
  · intro a ha b hb'
    exact hb a ha b (by simp [hb'])

theorem traverseRight_spec {lchild rchild : SearchTree Nat β}
    (hasc : Ascending (pathBefore parent ++ (SearchTree.node name val lchild rchild).toList ++
      pathAfter parent)) :
    ∃ st, traverseRight name val lchild rchild parent = some st ∧
      st.seen = pathBefore parent ++ lchild.toList ++ [(name, val)] ∧
      st.rest = rchild.toList ++ pathAfter parent := by
  cases rchild with
  | nil =>
    obtain ⟨st, hst, hseen, hrest⟩ :=
      traverseBack_of_ascending hasc (show (name, val) ∈ _ by simp) (.node name val lchild .nil)
    exact ⟨st, hst, by rw [hseen]; simp, by rw [hrest]; simp⟩
  | node =>
    refine ⟨_, rfl, ?_, ?_⟩
    · rw [(traverseLeft_spec ..).1]
      simp [pathBefore]
    · rw [(traverseLeft_spec ..).2]
      simp [pathAfter]

theorem ipcSplayTraverseNext_spec {lchild rchild : SearchTree Nat β} (delete : Bool)
    (hasc : Ascending (pathBefore parent ++ (SearchTree.node name val lchild rchild).toList ++
      pathAfter parent))
    (hdead : Below machPortDead lchild.toList) :
    ∃ st, ipcSplayTraverseNext name val lchild rchild parent delete = some st ∧
      st.seen = pathBefore parent ++ lchild.toList ++ (if delete then [] else [(name, val)]) ∧
      st.rest = rchild.toList ++ pathAfter parent := by
  cases delete with
  | false =>
    obtain ⟨st, hst, hseen, hrest⟩ := traverseRight_spec hasc
    exact ⟨st, hst, by simpa using hseen, hrest⟩
  | true =>
    cases lchild with
    | nil =>
      cases rchild with
      | nil =>
        obtain ⟨st, hst, hseen, hrest⟩ :=
          traverseBack_of_ascending hasc (show (name, val) ∈ _ by simp) .nil
        exact ⟨st, hst, by simpa using hseen, by simpa using hrest⟩
      | node =>
        refine ⟨_, rfl, ?_, ?_⟩
        · rw [(traverseLeft_spec ..).1]
          simp
        · rw [(traverseLeft_spec ..).2]
    | node lname lval ll lr =>
      cases rchild with
      | nil =>
        obtain ⟨st, hst, hseen, hrest⟩ := traverseBack_of_ascending hasc
          (show (lname, lval) ∈ _ by simp) (.node lname lval ll lr)
        exact ⟨st, hst, by simpa using hseen, by simpa using hrest⟩
      | node rname rval rl rr =>
        have hl : Ascending (node lname lval ll lr).toList :=
          hasc.sublist (by simp)
        obtain ⟨root, lt, rt, pname, pval, pl, pr, hres, hasm, hlist⟩ :=
          assemble_largest (by simp) hl hdead
        have hsub : Ascending (pathBefore parent ++
            (node pname pval pl (.node rname rval rl rr)).toList ++
            pathAfter parent) := by
          refine hasc.sublist ?_
          rw [toList_node, append_cons, ← hlist, toList_node]
          simp
        obtain ⟨st, hst, hseen, hrest⟩ := traverseRight_spec hsub
        refine ⟨st, ?_, ?_, hrest⟩
        · simp only [ipcSplayTraverseNext, hres, hasm]
          exact hst
        · rw [hseen, hlist]
          simp

/-! ## The loop -/

/-- A fold that also collects the elements it is not told to delete. -/
def foldKeep (body : σ → Nat → β → σ × Bool) : σ → List (Nat × β) → σ × List (Nat × β)
  | s, [] => (s, [])
  | s, e :: es =>
    let (s', kept) := foldKeep body (body s e.1 e.2).1 es
    (s', if (body s e.1 e.2).2 then kept else e :: kept)

variable (body : σ → Nat → β → σ × Bool)

theorem foldKeep_sublist (l : List (Nat × β)) : ∀ s, (foldKeep body s l).2.Sublist l := by
  induction l with
  | nil => intro s; exact .slnil
  | cons e es ih =>
    intro s
    simp only [foldKeep]
    split
    · exact (ih _).cons e
    · exact (ih _).cons_cons e

/-- The loop sees the entries in order and leaves those that were not deleted. -/
theorem ipcSplayTraverseLoop_spec (fuel : Nat) :
    ∀ (st : Traversal β) (s : σ), st.rest.length ≤ fuel → Ascending (st.seen ++ st.rest) →
      Below (2 ^ 32) (st.seen ++ st.rest) →
      ∃ root, ipcSplayTraverseLoop body fuel st s = some ((foldKeep body s st.rest).1, root) ∧
        root.toList = st.seen ++ (foldKeep body s st.rest).2 := by
  induction fuel with
  | zero =>
    intro st s hfuel _ _
    cases st with
    | entry => simp at hfuel
    | finished root => exact ⟨root, rfl, by simp [foldKeep]⟩
  | succ fuel ih =>
    intro st s hfuel hasc hwidth
    cases st with
    | finished root => exact ⟨root, rfl, by simp [foldKeep]⟩
    | entry name val lchild rchild parent =>
      have hwhole : (Traversal.entry name val lchild rchild parent).seen ++
          (Traversal.entry name val lchild rchild parent).rest = pathBefore parent ++
          (node name val lchild rchild).toList ++ pathAfter parent := by
        simp
      have hdead : Below machPortDead lchild.toList := by
        intro e he
        have hlt := (ascending_append.mp hasc).2.2 e (mem_append_right _ he) (name, val)
          mem_cons_self
        have hname : name < 2 ^ 32 :=
          hwidth (name, val) (mem_append_right _ mem_cons_self)
        exact hlt.trans_le (Nat.le_sub_one_of_lt hname)
      obtain ⟨st, hst, hseen, hrest⟩ := ipcSplayTraverseNext_spec (body s name val).2
        (by rw [← hwhole]; exact hasc) hdead
      have hsub : (st.seen ++ st.rest).Sublist
          ((Traversal.entry name val lchild rchild parent).seen ++
            (Traversal.entry name val lchild rchild parent).rest) := by
        rw [hseen, hrest]
        simp only [Traversal.seen, Traversal.rest]
        cases (body s name val).2 with
        | false | true => simp
      obtain ⟨root, hroot, hlist⟩ := ih st (body s name val).1 (by
          rw [hrest]
          simp only [Traversal.rest, length_cons] at hfuel
          omega)
        (hasc.sublist hsub) (fun e he => hwidth e (hsub.subset he))
      refine ⟨root, ?_, ?_⟩
      · simp only [ipcSplayTraverseLoop, hst, Option.bind_some, hroot, hrest]
        rfl
      · rw [hlist, hseen, hrest]
        simp only [Traversal.seen, Traversal.rest, foldKeep]
        cases (body s name val).2 with
        | false | true => simp

variable {splay : IpcSplayTree β}

/-- A traversal never fails: it folds over the entries in symmetric order and leaves a
tree of those that were not deleted. -/
theorem ipcSplayTraverse_spec (hasc : Ascending splay.contents)
    (hwidth : Below (2 ^ 32) splay.contents) (body : σ → Nat → β → σ × Bool) (s : σ) :
    ∃ root, ipcSplayTraverse body splay s =
        some ((foldKeep body s splay.contents).1, splay.ofRoot root) ∧
      root.toList = (foldKeep body s splay.contents).2 := by
  have hstart : (ipcSplayTraverseStart splay).seen = [] ∧
      (ipcSplayTraverseStart splay).rest = splay.contents := by
    rw [← IpcSplayTree.toList_assembled, IpcSplayTree.assembled, ipcSplayTraverseStart]
    cases ipcSplayPrimAssemble splay.istRoot splay.istLtree splay.istRtree with
    | nil => exact ⟨rfl, rfl⟩
    | node name val lchild rchild =>
      obtain ⟨hseen, hrest⟩ := traverseLeft_spec lchild name val rchild []
      exact ⟨hseen, hrest.trans (by simp [pathAfter])⟩
  obtain ⟨hseen, hrest⟩ := hstart
  obtain ⟨root, hloop, hlist⟩ := ipcSplayTraverseLoop_spec body splay.assembled.size
    (ipcSplayTraverseStart splay) s
    (by rw [hrest, ← IpcSplayTree.toList_assembled, length_toList])
    (by rw [hseen, hrest]; exact hasc) (by rw [hseen, hrest]; exact hwidth)
  rw [hseen, hrest, nil_append] at hlist
  rw [hrest] at hloop
  refine ⟨root, ?_, hlist⟩
  simp [ipcSplayTraverse, hloop, ipcSplayTraverseFinish]

theorem IpcSplayTree.Valid.traverse (h : splay.Valid) (body : σ → Nat → β → σ × Bool) (s : σ) :
    ∃ splay', ipcSplayTraverse body splay s = some ((foldKeep body s splay.contents).1, splay') ∧
      splay'.Valid ∧ splay'.contents = (foldKeep body s splay.contents).2 := by
  obtain ⟨root, htraverse, hlist⟩ := ipcSplayTraverse_spec h.ascending
    (fun e he => (h.below e he).trans_le (Nat.sub_le ..)) body s
  have hsub := foldKeep_sublist body splay.contents s
  obtain ⟨hv, hc⟩ := splay.ofRoot_valid root (by rw [hlist]; exact h.ascending.sublist hsub)
    (by rw [hlist]; exact fun e he => h.below e (hsub.subset he))
  exact ⟨splay.ofRoot root, htraverse, hv, hc.trans hlist⟩

/-! ## Any choice of the entries to delete -/

/-- A splay tree in valid unassembled form, with any names of 32 bits. -/
structure IpcSplayTree.Unassembled (splay : IpcSplayTree β) : Prop where
  ascending : Ascending splay.contents
  width : Below (2 ^ 32) splay.contents
  left : splay.istRoot ≠ .nil → Below splay.istName (leftList splay.istLtree)
  right : splay.istRoot ≠ .nil → Above splay.istName (rightList splay.istRtree)
  focused : splay.istRoot ≠ .nil → Focused splay.istName splay.istRoot

theorem IpcSplayTree.contents_ofRoot (splay : IpcSplayTree β) (tree : SearchTree Nat β) :
    (splay.ofRoot tree).contents = tree.toList := by
  cases tree with
  | nil => rfl
  | node =>
    rw [contents_eq (by simp [ofRoot])]
    simp [ofRoot]

theorem IpcSplayTree.ofRoot_unassembled (splay : IpcSplayTree β) (tree : SearchTree Nat β)
    (hasc : Ascending tree.toList) (hwidth : Below (2 ^ 32) tree.toList) :
    (splay.ofRoot tree).Unassembled := by
  rw [← splay.contents_ofRoot tree] at hasc hwidth
  refine ⟨hasc, hwidth, ?_, ?_, ?_⟩
  all_goals
    intro hne
    cases tree with
    | nil => exact absurd rfl hne
    | node => ?_
  · exact below_nil _
  · exact above_nil _
  · exact .inl rfl

/-- The body of a loop that lists the entries it is given.  Whether an entry is deleted may depend
on all of them up to it. -/
def choosing (delete : List (Nat × β) → Bool) (seen : List (Nat × β)) (name : Nat) (val : β) :
    List (Nat × β) × Bool :=
  (seen ++ [(name, val)], delete (seen ++ [(name, val)]))

/-- A traversal that lists the entries and deletes some. -/
def traverseChoosing (delete : List (Nat × β) → Bool) (splay : IpcSplayTree β) :
    Option (List (Nat × β) × IpcSplayTree β) :=
  ipcSplayTraverse (choosing delete) splay []

theorem foldKeep_choosing (delete : List (Nat × β) → Bool) {l : List (Nat × β)}
    (hl : l.Nodup) (seen : List (Nat × β)) :
    (foldKeep (choosing delete) seen l).1 = seen ++ l ∧ ∀ l₁ e l₂, l = l₁ ++ e :: l₂ →
        (e ∈ (foldKeep (choosing delete) seen l).2 ↔ delete (seen ++ l₁ ++ [e]) = false) := by
  induction l generalizing seen with
  | nil => exact ⟨(append_nil seen).symm, fun l₁ e l₂ h => by simp at h⟩
  | cons x l ih =>
    obtain ⟨hx, hl⟩ := nodup_cons.mp hl
    obtain ⟨hseen, hkept⟩ := ih hl (seen ++ [x])
    have hsub := foldKeep_sublist (choosing delete) l (seen ++ [x])
    refine ⟨?_, fun l₁ e l₂ h => ?_⟩
    · change (foldKeep (choosing delete) (seen ++ [x]) l).1 = _
      rw [hseen, append_assoc, singleton_append]
    · change e ∈ (if delete (seen ++ [x]) then (foldKeep (choosing delete) (seen ++ [x]) l).2
        else x :: (foldKeep (choosing delete) (seen ++ [x]) l).2) ↔ _
      cases l₁ with
      | nil =>
        obtain ⟨rfl, rfl⟩ := cons.inj h
        rw [append_nil]
        split
        next hd =>
          rw [hd]
          exact iff_of_false (fun he => hx (hsub.subset he)) (by simp)
        next hd => exact iff_of_true mem_cons_self (eq_false_of_ne_true hd)
      | cons y l₁ =>
        obtain ⟨rfl, hl₁⟩ := cons.inj h
        have he : e ≠ x := fun he => hx (by simp [hl₁, he])
        have hkept := hkept l₁ e l₂ hl₁
        rw [append_assoc seen] at hkept
        split
        next => exact hkept
        next => rw [mem_cons, or_iff_right he, hkept, singleton_append]

/-- The loop is given each entry once, in the order of the names.  What it leaves are the entries
that were not to be deleted. -/
theorem traverseChoosing_exact {splay : IpcSplayTree β} (h : splay.Unassembled)
    (delete : List (Nat × β) → Bool) :
    ∃ splay', traverseChoosing delete splay = some (splay.contents, splay') ∧
      splay'.Unassembled ∧ splay'.contents.Sublist splay.contents ∧
      ∀ l₁ e l₂, splay.contents = l₁ ++ e :: l₂ →
        (e ∈ splay'.contents ↔ delete (l₁ ++ [e]) = false) := by
  obtain ⟨root, htraverse, hlist⟩ := ipcSplayTraverse_spec h.ascending h.width (choosing delete) []
  have hnodup : splay.contents.Nodup := h.ascending.imp fun hlt heq => by
    rw [heq] at hlt
    exact lt_irrefl _ hlt
  obtain ⟨hseen, hkept⟩ := foldKeep_choosing delete hnodup []
  have hsub : root.toList.Sublist splay.contents := hlist ▸ foldKeep_sublist ..
  rw [hseen, nil_append] at htraverse
  refine ⟨splay.ofRoot root, htraverse, splay.ofRoot_unassembled root (h.ascending.sublist hsub)
    fun e he => h.width e (hsub.subset he), ?_⟩
  rw [splay.contents_ofRoot]
  refine ⟨hsub, fun l₁ e l₂ hl => ?_⟩
  rw [hlist]
  exact hkept l₁ e l₂ hl

/-- The second of three entries is deleted, one of which is named `~0`. -/
theorem traverseChoosing_exact_three :
    let splay : IpcSplayTree Nat :=
      ⟨7, .node 7 70 (.node 3 30 .nil .nil) (.node machPortDead 0 .nil .nil), [], []⟩
    splay.Unassembled ∧ ∃ splay',
      traverseChoosing (fun seen => seen.length = 2) splay = some (splay.contents, splay') ∧
      (7, 70) ∉ splay'.contents := by
  intro splay
  have h : splay.Unassembled := splay.ofRoot_unassembled splay.istRoot
    (by simp [splay, machPortDead]) (by simp [splay, machPortDead])
  obtain ⟨splay', htraverse, -, -, hkept⟩ :=
    traverseChoosing_exact h fun seen => decide (seen.length = 2)
  refine ⟨h, splay', htraverse, ?_⟩
  rw [hkept [(3, 30)] (7, 70) [(machPortDead, 0)] rfl]
  decide

end Mach
