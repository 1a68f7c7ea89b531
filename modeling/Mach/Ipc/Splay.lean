import Mach.Lib.SearchTree
import Mach.Ipc.Name

/-!
# Splay trees in unassembled form

The operations of `ipc/ipc_splay.c`.  A splay tree is kept as the middle tree of the
last top-down splay (`ist_root`), the name it looked for (`ist_name`), and the left and
right trees that the splay cut off.  The source stores a cut-off tree as a pointer to
its root (`ist_ltree`) and a pointer to the child field of its last node that is not
initialized (`ist_ltreep`).  The pair is a spine here: the list of nodes on the way to
the open field, the node that owns the open field first.  So `ist_ltreep` pointing at
`ist_ltree` itself is the empty spine, and storing through `ist_ltreep` is
`Spine.closeLeft`.

A node is owned by one pointer at a time, so trees are values.  The payload `β` of a
node stands for the translation entry.

`ipc_splay_prim_lookup` is one recursion.  The four macros of its loop appear as the
arguments of the recursive calls: `link_left` and `link_right` push a frame, a rotation
builds the subtree of the frame that is pushed next.

The assertions of the file are compiled out of a production kernel and left out here.  Dereferencing
the null root, which only `ipc_splay_tree_delete` can be made to do, is the result `none`.
-/

namespace Mach

open SearchTree Spine

variable {β : Type}

/-- `struct ipc_splay_tree`. -/
structure IpcSplayTree (β : Type) where
  /-- The name used in the last lookup. -/
  istName : Nat
  /-- The middle tree. -/
  istRoot : SearchTree Nat β
  /-- The left tree and the pointer into it. -/
  istLtree : Spine Nat β
  /-- The right tree and the pointer into it. -/
  istRtree : Spine Nat β
deriving Repr, DecidableEq

/-! ## The two primitives -/

/-- `ipc_splay_prim_lookup`: cut the tree at the path to `name`.  The left and right
trees found so far are the second and third argument. -/
def ipcSplayPrimLookup (name : Nat) :
    SearchTree Nat β → Spine Nat β → Spine Nat β →
      SearchTree Nat β × Spine Nat β × Spine Nat β
  | .nil, lt, rt => (.nil, lt, rt)
  | .node tname v lchild rchild, lt, rt =>
    if name = tname then (.node tname v lchild rchild, lt, rt)
    else if name < tname then
      match lchild with
      | .nil => (.node tname v .nil rchild, lt, rt)
      | .node cname cv cl cr =>
        if name < cname ∧ ¬ cl.isNil then
          -- rotate_right, link_right
          ipcSplayPrimLookup name cl lt (⟨cname, cv, .node tname v cr rchild⟩ :: rt)
        else if cname < name ∧ ¬ cr.isNil then
          -- link_right, link_left
          ipcSplayPrimLookup name cr (⟨cname, cv, cl⟩ :: lt) (⟨tname, v, rchild⟩ :: rt)
        else
          ipcSplayPrimLookup name (.node cname cv cl cr) lt (⟨tname, v, rchild⟩ :: rt)
    else
      match rchild with
      | .nil => (.node tname v lchild .nil, lt, rt)
      | .node cname cv cl cr =>
        if cname < name ∧ ¬ cr.isNil then
          -- rotate_left, link_left
          ipcSplayPrimLookup name cr (⟨cname, cv, .node tname v lchild cl⟩ :: lt) rt
        else if name < cname ∧ ¬ cl.isNil then
          -- link_left, link_right
          ipcSplayPrimLookup name cl (⟨tname, v, lchild⟩ :: lt) (⟨cname, cv, cr⟩ :: rt)
        else
          ipcSplayPrimLookup name (.node cname cv cl cr) (⟨tname, v, lchild⟩ :: lt) rt
termination_by structural t _ _ => t

/-- `ipc_splay_prim_assemble`. -/
def ipcSplayPrimAssemble (tree : SearchTree Nat β) (lt rt : Spine Nat β) :
    SearchTree Nat β :=
  match tree with
  | .nil => .nil
  | .node tname v lchild rchild =>
    .node tname v (closeLeft lt lchild) (closeRight rt rchild)

/-- What every operation does first: unless the last lookup was for the same name,
put the tree together and cut it again. -/
def IpcSplayTree.focus (splay : IpcSplayTree β) (name : Nat) :
    SearchTree Nat β × Spine Nat β × Spine Nat β :=
  if splay.istName = name then (splay.istRoot, splay.istLtree, splay.istRtree)
  else
    ipcSplayPrimLookup name
      (ipcSplayPrimAssemble splay.istRoot splay.istLtree splay.istRtree) [] []

/-- A tree that is put together, with its root as the last name looked for. -/
def IpcSplayTree.ofRoot (splay : IpcSplayTree β) : SearchTree Nat β → IpcSplayTree β
  | .nil => { splay with istRoot := .nil }
  | .node tname v lchild rchild => ⟨tname, .node tname v lchild rchild, [], []⟩

/-- A store through a pointer to the entry of a node. -/
def IpcSplayTree.modify (splay : IpcSplayTree β) (name : Nat) (f : β → β) : IpcSplayTree β :=
  { splay with
      istRoot := splay.istRoot.modify name f
      istLtree := Spine.modify name f splay.istLtree
      istRtree := Spine.modify name f splay.istRtree }

/-! ## The operations -/

/-- `ipc_splay_tree_init`.  The other fields are not initialized. -/
def ipcSplayTreeInit (splay : IpcSplayTree β) : IpcSplayTree β :=
  { splay with istRoot := .nil }

/-- `ipc_splay_tree_pick`. -/
def ipcSplayTreePick (splay : IpcSplayTree β) : Option (Nat × β) :=
  match splay.istRoot with
  | .nil => none
  | .node tname v _ _ => some (tname, v)

/-- `ipc_splay_tree_lookup`. -/
def ipcSplayTreeLookup (splay : IpcSplayTree β) (name : Nat) :
    Option β × IpcSplayTree β :=
  match splay.istRoot with
  | .nil => (none, splay)
  | .node .. =>
    match splay.focus name with
    | (.nil, lt, rt) => (none, ⟨name, .nil, lt, rt⟩)
    | (.node tname v lchild rchild, lt, rt) =>
      (if name = tname then some v else none, ⟨name, .node tname v lchild rchild, lt, rt⟩)

/-- `ipc_splay_tree_insert`. -/
def ipcSplayTreeInsert (splay : IpcSplayTree β) (name : Nat) (entry : β) :
    IpcSplayTree β :=
  match splay.istRoot with
  | .nil => ⟨name, .node name entry .nil .nil, [], []⟩
  | .node .. =>
    match splay.focus name with
    | (.nil, lt, rt) => ⟨name, .node name entry (closeLeft lt .nil) (closeRight rt .nil), [], []⟩
    | (.node tname v lchild rchild, lt, rt) =>
      if name < tname then
        ⟨name, .node name entry (closeLeft lt .nil)
          (closeRight rt (.node tname v lchild rchild)), [], []⟩
      else
        ⟨name, .node name entry (closeLeft lt (.node tname v lchild rchild))
          (closeRight rt .nil), [], []⟩

/-- The tail of `ipc_splay_tree_delete`: put the two trees left by a deletion together,
with the largest node of the left one at the root. -/
def ipcSplayMerge (ltree rtree : SearchTree Nat β) : SearchTree Nat β :=
  match ltree, rtree with
  | .nil, rtree => rtree
  | ltree, .nil => ltree
  | ltree, rtree =>
    match ipcSplayPrimLookup machPortDead ltree [] [] with
    | (root, lt, rt) =>
      match ipcSplayPrimAssemble root lt rt with
      | .nil => .nil
      | .node tname v lchild _ => .node tname v lchild rtree

/-- `ipc_splay_tree_delete`.  The root of the middle tree is freed, whatever its name
is. -/
def ipcSplayTreeDelete (splay : IpcSplayTree β) (name : Nat) :
    Option (IpcSplayTree β) :=
  match splay.istRoot with
  | .nil => none
  | .node .. =>
    match splay.focus name with
    | (.nil, _, _) => none
    | (.node _ _ lchild rchild, lt, rt) =>
      some (splay.ofRoot (ipcSplayMerge (closeLeft lt lchild) (closeRight rt rchild)))

/-- `ipc_splay_tree_split`: the tree that is left, and `small`. -/
def ipcSplayTreeSplit (splay : IpcSplayTree β) (name : Nat) (small : IpcSplayTree β) :
    IpcSplayTree β × IpcSplayTree β :=
  match splay.istRoot with
  | .nil => (splay, ipcSplayTreeInit small)
  | .node .. =>
    match splay.focus name with
    | (.nil, _, _) => (splay, ipcSplayTreeInit small)
    | (.node tname v lchild rchild, lt, rt) =>
      if tname < name then
        -- root goes into small, rtree goes into splay
        (splay.ofRoot (closeRight rt .nil),
          ⟨tname, .node tname v (closeLeft lt lchild) rchild, [], []⟩)
      else
        -- root stays in splay, ltree goes into small
        (⟨name, .node tname v .nil rchild, [], rt⟩,
          (ipcSplayTreeInit small).ofRoot (closeLeft lt lchild))

/-- `ipc_splay_tree_join`: `splay` with the entries of `small`, and `small` emptied. -/
def ipcSplayTreeJoin (splay small : IpcSplayTree β) : IpcSplayTree β × IpcSplayTree β :=
  match small.istRoot with
  | .nil => (splay, small)
  | .node .. =>
    let sroot := ipcSplayPrimAssemble small.istRoot small.istLtree small.istRtree
    let root :=
      match splay.istRoot with
      | .nil => sroot
      | .node .. =>
        match splay.focus 0 with
        | (tree, lt, rt) =>
          match ipcSplayPrimAssemble tree lt rt with
          | .nil => .nil
          | .node tname v _ rchild => .node tname v sroot rchild
    (splay.ofRoot root, ipcSplayTreeInit small)

/-- The name of the node that owns the open field of a spine, or the given word if
the spine is empty. -/
def spineName (dflt : Nat) : Spine Nat β → Nat
  | [] => dflt
  | f :: _ => f.key

/-- `ipc_splay_tree_bounds`: the values stored through `lowerp` and `upperp`. -/
def ipcSplayTreeBounds (splay : IpcSplayTree β) (name : Nat) :
    (Nat × Nat) × IpcSplayTree β :=
  match splay.istRoot with
  | .nil => ((machPortDead, 0), splay)
  | .node .. =>
    match splay.focus name with
    | (.nil, lt, rt) => ((machPortDead, 0), ⟨name, .nil, lt, rt⟩)
    | (.node rname v lchild rchild, lt, rt) =>
      ((if rname ≤ name then rname else spineName machPortDead lt,
        if name ≤ rname then rname else spineName 0 rt),
        ⟨name, .node rname v lchild rchild, lt, rt⟩)

end Mach
