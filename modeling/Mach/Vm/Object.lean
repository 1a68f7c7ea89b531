import Mach.Vm.Map

/-!
# Memory objects

An object holds pages.  A page of an object is in memory, or with the pager of the object, or it is
the page of the object's shadow at the same place.  If there is no shadow then the page is zero.
Pages that are in memory may be absent, which means that their contents are not there yet.

An object is a number, and `vmObjectNull` is no object.  Offsets have 32 bits.

Pages and objects have the fields that shadows, copies and references depend on.  The pages of an
object are the queue `memq`, which stands for the table of all pages as well: `vm_page_lookup` finds
the page of an object at an offset.  The number of resident pages is the length of the queue.

The count of references has 16 bits, and is negative from `2 ^ 15` on.
-/

universe u

namespace Mach

/-- `struct vm_page`. -/
structure VmPage (α : Type u) where
  offset : Nat
  absent : Bool
  /-- What is in the page. -/
  contents : α
deriving Repr, DecidableEq

/-- `struct vm_object`. -/
structure VmObject (α : Type u) where
  memq : List (VmPage α)
  size : Nat
  refCount : Nat
  /-- The copy object. -/
  copy : Nat
  shadow : Nat
  shadowOffset : Nat
  /-- The port of the pager. -/
  pager : Nat
  pagingOffset : Nat
  pagerRequest : Nat
  pagerName : Nat
  existenceInfo : Nat
  pagerCreated : Bool
  pagerInitialized : Bool
  pagerReady : Bool
  internal : Bool
  temporary : Bool
  alive : Bool
  pagingInProgress : Nat
  absentCount : Nat
deriving Repr, DecidableEq

/-- `MEMORY_OBJECT_NULL`, which is the null port. -/
def memoryObjectNull : Nat := 0

/-- The objects, and what the pagers hold. -/
structure VmObjects (α : Type u) where
  object : Nat → VmObject α
  held : Nat → Nat → Option α

variable {α : Type u}

/-- `vm_page_lookup`, among the pages of an object. -/
def vmPageLookup (offset : Nat) (memq : List (VmPage α)) : Option (VmPage α) :=
  memq.find? fun p => p.offset = offset

/-- `vm_page_insert`, into the queue of an object. -/
def vmPageInsert (offset : Nat) (p : VmPage α) (memq : List (VmPage α)) : List (VmPage α) :=
  memq ++ [{ p with offset := offset }]

namespace VmObjects

/-- The object behind. -/
def shadow (h : VmObjects α) (o : Nat) : Nat := (h.object o).shadow

/-- Change an object. -/
def set (o : Nat) (v : VmObject α) (h : VmObjects α) : VmObjects α :=
  { h with object := Function.update h.object o v }

/-! ## What is in an object -/

/-- What the pager of an object holds. -/
def paged (h : VmObjects α) (o x : Nat) : Option α :=
  if (h.object o).pager = memoryObjectNull then none
  else h.held (h.object o).pager ((x + (h.object o).pagingOffset) % 2 ^ 32)

/-- The contents of an object itself: its page, or what its pager holds. -/
def own (h : VmObjects α) (o x : Nat) : Option α :=
  match vmPageLookup x (h.object o).memq with
  | some p => if p.absent then h.paged o x else some p.contents
  | none => h.paged o x

/-- The visible contents, along a list of objects of which each is the shadow of the one before.  No
contents are zeros. -/
def read (h : VmObjects α) : List Nat → Nat → Option α
  | [], _ => none
  | o :: l, x => (h.own o x).or (h.read l ((x + (h.object o).shadowOffset) % 2 ^ 32))

/-- Where a page of the first object is in the one after a list. -/
def below (h : VmObjects α) : List Nat → Nat → Nat
  | [], x => x
  | o :: l, x => h.below l ((x + (h.object o).shadowOffset) % 2 ^ 32)

end VmObjects

end Mach
