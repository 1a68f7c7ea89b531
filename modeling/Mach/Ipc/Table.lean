import Mathlib.Algebra.GroupWithZero.Nat
import Mathlib.Data.Nat.Basic

/-!
# The sizes a table can have

`ipc_table_entries` is an array of table sizes (`ipc/ipc_table.c`), and a space points at
the element for the next larger size of its table.  `ipc/ipc_table.h` says what the array
must satisfy: it ends with two equal elements, increases strictly before that, and the
last element is at most `MACH_PORT_INDEX(MACH_PORT_DEAD)`.  `IpcTableSizes` is such an
array with the proofs, so the growth of a table needs no assumption of its own.

`ipcTableEntries` is the array of a machine with pages of 4096 bytes.
-/

namespace Mach

/-- An array that can serve as `ipc_table_entries`. -/
structure IpcTableSizes where
  /-- `ipc_table_entries_size`. -/
  num : Nat
  /-- The `its_size` of each element. -/
  itsSize : Nat → Nat
  /-- There are two last elements. -/
  two_le : 2 ≤ num
  /-- The smallest table has room for the head of the free list. -/
  pos : 0 < itsSize 0
  /-- The sizes increase strictly up to the terminating element. -/
  increasing : ∀ i, i + 2 < num → itsSize i < itsSize (i + 1)
  /-- The last two elements have the same size. -/
  last : itsSize (num - 1) = itsSize (num - 2)
  /-- `MACH_PORT_INDEX(MACH_PORT_DEAD)` isn't a valid index. -/
  bound : ∀ i, i < num → itsSize i ≤ 2 ^ 24 - 1

namespace IpcTableSizes

variable (its : IpcTableSizes)

theorem size_last {i : Nat} (h : i + 1 < its.num) (hge : ¬ i + 2 < its.num) :
    its.itsSize (i + 1) = its.itsSize i := by
  have h1 : its.num - 1 = i + 1 := by omega
  have h2 : its.num - 2 = i := by omega
  exact h1 ▸ h2 ▸ its.last

theorem pos_of_lt : ∀ i, i < its.num → 0 < its.itsSize i
  | 0, _ => its.pos
  | i + 1, h => by
    have ih := pos_of_lt i (by omega)
    by_cases hlt : i + 2 < its.num
    · exact lt_trans ih (its.increasing i hlt)
    rw [its.size_last h hlt]
    exact ih

/-- An element has the size of the one before it only at the end of the array. -/
theorem size_lt_iff {i : Nat} (h : i + 1 < its.num) :
    its.itsSize i < its.itsSize (i + 1) ↔ i + 2 < its.num := by
  constructor
  · by_contra hge
    have hlast := its.size_last h (by omega)
    omega
  · exact its.increasing i

theorem size_le_succ {i : Nat} (h : i + 1 < its.num) : its.itsSize i ≤ its.itsSize (i + 1) := by
  by_cases hlt : i + 2 < its.num
  · exact le_of_lt (its.increasing i hlt)
  exact Nat.le_of_eq (its.size_last h hlt).symm

end IpcTableSizes

/-! ## Filling the array -/

/-- The first loop of `ipc_table_fill`: powers of two, up to the page size.  The result is
the elements filled in and the size reached. -/
def ipcTableFillPowers (num minsize elemsize pageSize : Nat) :
    Nat → Nat → List Nat → List Nat × Nat
  | 0, size, filled => (filled, size)
  | fuel + 1, size, filled =>
    if filled.length < num ∧ size < pageSize then
      ipcTableFillPowers num minsize elemsize pageSize fuel (size * 2)
        (if minsize ≤ size then filled ++ [size / elemsize] else filled)
    else (filled, size)

/-- The second loop: fifteen increments of a page, then of two pages, and so on. -/
def ipcTableFillPages (num minsize elemsize : Nat) :
    Nat → Nat → Nat → Nat → List Nat → List Nat
  | 0, _, _, _, filled => filled
  | fuel + 1, period, size, incrsize, filled =>
    if filled.length < num then
      if period < 15 then
        ipcTableFillPages num minsize elemsize fuel (period + 1) (size + incrsize) incrsize
          (if minsize ≤ size then filled ++ [size / elemsize] else filled)
      else ipcTableFillPages num minsize elemsize fuel 0 size (incrsize * 2) filled
    else filled

/-- `ipc_table_fill`, with enough fuel for sizes of 32 bits. -/
def ipcTableFill (num min elemsize pageSize : Nat) : List Nat :=
  let (filled, size) := ipcTableFillPowers num (min * elemsize) elemsize pageSize 32 1 []
  ipcTableFillPages num (min * elemsize) elemsize (num * 2) 0 size pageSize filled

/-- `sizeof(struct ipc_entry)`. -/
def sizeofIpcEntry : Nat := 16

/-- `sizeof(struct ipc_tree_entry)`. -/
def sizeofIpcTreeEntry : Nat := 32

/-- `ipc_table_entries` as `ipc_table_init` leaves it, with pages of 4096 bytes. -/
def ipcTableEntriesList : List Nat :=
  let filled := ipcTableFill 127 4 sizeofIpcEntry 4096
  filled ++ [filled.getLastD 0]

/-- The array meets the requirements of `ipc/ipc_table.h`. -/
def ipcTableEntries : IpcTableSizes where
  num := 128
  itsSize i := ipcTableEntriesList.getD i 0
  two_le := by decide
  pos := by decide +kernel
  increasing := by
    have h : ∀ i : Fin 126,
        ipcTableEntriesList.getD i 0 < ipcTableEntriesList.getD (i + 1) 0 := by decide +kernel
    intro i hi
    exact h ⟨i, by omega⟩
  last := by decide +kernel
  bound := by
    have h : ∀ i : Fin 128, ipcTableEntriesList.getD i 0 ≤ 2 ^ 24 - 1 := by decide +kernel
    intro i hi
    exact h ⟨i, hi⟩

end Mach
