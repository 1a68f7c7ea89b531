import Mathlib.Algebra.GroupWithZero.Nat
import Mathlib.Data.Nat.Basic

/-!
# Port names

A `mach_port_t` is a 32-bit unsigned word: a table index in the high 24 bits and a
generation number in the low 8 (`ipc/port.h`).  Names are modelled as natural
numbers, and the places where the word could overflow reduce modulo `2 ^ 32`.

The source keeps a generation number shifted to the top of a word, as it is in `ie_bits`.  Here it
is its value below 256.
-/

namespace Mach

/-- `MACH_PORT_NULL`. -/
def machPortNull : Nat := 0

/-- `MACH_PORT_DEAD`, the word `~0`. -/
def machPortDead : Nat := 2 ^ 32 - 1

/-- `MACH_PORT_VALID`, for a value of the 32-bit type. -/
def MachPortValid (name : Nat) : Prop :=
  name < 2 ^ 32 ∧ name ≠ machPortNull ∧ name ≠ machPortDead

instance (name : Nat) : Decidable (MachPortValid name) := by
  unfold MachPortValid
  infer_instance

/-- `MACH_PORT_INDEX`. -/
def machPortIndex (name : Nat) : Nat := name / 256

/-- `MACH_PORT_GEN`. -/
def machPortGen (name : Nat) : Nat := name % 256

/-- `MACH_PORT_MAKE`. -/
def machPortMake (index gen : Nat) : Nat := (index * 256 + gen) % 2 ^ 32

variable {name : Nat}

theorem machPortValid_iff : MachPortValid name ↔ 0 < name ∧ name < machPortDead := by
  simp only [MachPortValid, machPortNull, machPortDead]
  omega

theorem machPortGen_lt (name : Nat) : machPortGen name < 256 :=
  Nat.mod_lt _ (by omega)

variable {index gen : Nat}

theorem machPortMake_eq (hi : index < 2 ^ 24) (hg : gen < 256) :
    machPortMake index gen = index * 256 + gen := by
  unfold machPortMake
  omega

theorem machPortIndex_make (hi : index < 2 ^ 24) (hg : gen < 256) :
    machPortIndex (machPortMake index gen) = index := by
  rw [machPortMake_eq hi hg]
  unfold machPortIndex
  omega

theorem machPortGen_make (hi : index < 2 ^ 24) (hg : gen < 256) :
    machPortGen (machPortMake index gen) = gen := by
  rw [machPortMake_eq hi hg]
  unfold machPortGen
  omega

theorem machPortMake_index_gen (h : name < 2 ^ 32) :
    machPortMake (machPortIndex name) (machPortGen name) = name := by
  rw [machPortMake_eq (by unfold machPortIndex; omega) (machPortGen_lt name)]
  unfold machPortIndex machPortGen
  omega

theorem machPort_ext {m n : Nat} (hi : machPortIndex m = machPortIndex n)
    (hg : machPortGen m = machPortGen n) : m = n := by
  unfold machPortIndex at hi
  unfold machPortGen at hg
  omega

/-- Names are ordered first by index: the names below `MACH_PORT_MAKE(index, 0)` are
those of a smaller index. -/
theorem lt_machPortMake_iff (hi : index < 2 ^ 24) :
    name < machPortMake index 0 ↔ machPortIndex name < index := by
  rw [machPortMake_eq hi (by omega)]
  unfold machPortIndex
  omega

end Mach
