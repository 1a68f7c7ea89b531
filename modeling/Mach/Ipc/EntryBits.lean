import Mathlib.Algebra.GroupWithZero.Nat
import Mathlib.Algebra.Ring.Int.Defs

/-!
# The bits of a translation entry

`ie_bits` is a word of 32 bits (`ipc/ipc_entry.h`): sixteen bits of user references, five of
capability type, one each for a pending msg-accepted request, for compatibility mode and for a
collision, and eight of generation number.

The source counts user references by arithmetic on the whole word, so a count that leaves
its sixteen bits would run into the type.  `IeBits.add` is that arithmetic, and
`IeBits.add_eq` says when it is arithmetic on the count.
-/

namespace Mach

/-- `IE_BITS_TYPE`: one bit per kind of right, as in `MACH_PORT_TYPE_`. -/
structure MachPortType where
  send : Bool
  receive : Bool
  sendOnce : Bool
  portSet : Bool
  deadName : Bool
deriving Repr, DecidableEq

/-- `MACH_PORT_TYPE_NONE`. -/
def machPortTypeNone : MachPortType := ⟨false, false, false, false, false⟩

/-- `MACH_PORT_TYPE_SEND`. -/
def machPortTypeSend : MachPortType := ⟨true, false, false, false, false⟩

/-- `MACH_PORT_TYPE_RECEIVE`. -/
def machPortTypeReceive : MachPortType := ⟨false, true, false, false, false⟩

/-- `MACH_PORT_TYPE_SEND_RECEIVE`. -/
def machPortTypeSendReceive : MachPortType := ⟨true, true, false, false, false⟩

/-- `MACH_PORT_TYPE_SEND_ONCE`. -/
def machPortTypeSendOnce : MachPortType := ⟨false, false, true, false, false⟩

/-- `MACH_PORT_TYPE_PORT_SET`. -/
def machPortTypePortSet : MachPortType := ⟨false, false, false, true, false⟩

/-- `MACH_PORT_TYPE_DEAD_NAME`. -/
def machPortTypeDeadName : MachPortType := ⟨false, false, false, false, true⟩

/-- Some bit of `MACH_PORT_TYPE_SEND_RIGHTS`. -/
abbrev MachPortType.sendRights (t : MachPortType) : Bool := t.send || t.sendOnce

/-- Some bit of `MACH_PORT_TYPE_PORT_RIGHTS`. -/
abbrev MachPortType.portRights (t : MachPortType) : Bool := t.send || t.receive || t.sendOnce

/-- Some bit of `MACH_PORT_TYPE_PORT_OR_DEAD`. -/
abbrev MachPortType.portOrDead (t : MachPortType) : Bool := t.portRights || t.deadName

/-- Some bit of `MACH_PORT_TYPE_SEND_RECEIVE`. -/
abbrev MachPortType.sendReceive (t : MachPortType) : Bool := t.send || t.receive

/-- `MACH_PORT_UREFS_MAX`. -/
def machPortUrefsMax : Nat := 2 ^ 16 - 1

/-- `MACH_PORT_UREFS_OVERFLOW`. -/
def machPortUrefsOverflow (urefs : Nat) (delta : Int) : Bool :=
  0 < delta && (machPortUrefsMax : Int) < urefs + delta

/-- `MACH_PORT_UREFS_UNDERFLOW`. -/
def machPortUrefsUnderflow (urefs : Nat) (delta : Int) : Bool :=
  delta < 0 && (urefs : Int) < -delta

variable {urefs : Nat} {delta : Int}

theorem machPortUrefsOverflow_iff (hle : urefs ≤ machPortUrefsMax) :
    machPortUrefsOverflow urefs delta = true ↔ (machPortUrefsMax : Int) < urefs + delta := by
  simp only [machPortUrefsOverflow, Bool.and_eq_true, decide_eq_true_eq]
  omega

theorem machPortUrefsUnderflow_iff :
    machPortUrefsUnderflow urefs delta = true ↔ (urefs : Int) + delta < 0 := by
  simp only [machPortUrefsUnderflow, Bool.and_eq_true, decide_eq_true_eq]
  omega

theorem le_of_not_overflow (hle : urefs ≤ machPortUrefsMax)
    (h : ¬ machPortUrefsOverflow urefs delta = true) :
    (urefs : Int) + delta ≤ machPortUrefsMax := by
  rw [machPortUrefsOverflow_iff hle] at h
  omega

theorem nonneg_of_not_underflow
    (h : ¬ machPortUrefsUnderflow urefs delta = true) : 0 ≤ (urefs : Int) + delta := by
  rw [machPortUrefsUnderflow_iff] at h
  omega

/-- The value of `ie_bits`, one field for each `IE_BITS_` mask. -/
structure IeBits where
  urefs : Nat
  type : MachPortType
  marequest : Bool
  compat : Bool
  collision : Bool
  gen : Nat
deriving Repr, DecidableEq

namespace IeBits

/-- A word with nothing but a generation number. -/
def ofGen (gen : Nat) : IeBits := ⟨0, machPortTypeNone, false, false, false, gen⟩

/-- The word 0. -/
def zero : IeBits := ofGen 0

/-- `bits | gen`. -/
def orGen (b : IeBits) (gen : Nat) : IeBits := { b with gen := b.gen ||| gen }

/-- `bits &~ IE_BITS_RIGHT_MASK`. -/
def clearRight (b : IeBits) : IeBits := { ofGen b.gen with collision := b.collision }

/-! ## Arithmetic on the word -/

/-- The bits as a word. -/
def word (b : IeBits) : Nat :=
  b.urefs + 2 ^ 16 * b.type.send.toNat + 2 ^ 17 * b.type.receive.toNat +
    2 ^ 18 * b.type.sendOnce.toNat + 2 ^ 19 * b.type.portSet.toNat +
    2 ^ 20 * b.type.deadName.toNat + 2 ^ 21 * b.marequest.toNat + 2 ^ 22 * b.compat.toNat +
    2 ^ 23 * b.collision.toNat + 2 ^ 24 * b.gen

/-- The bits of a word. -/
def ofWord (w : Nat) : IeBits where
  urefs := w % 2 ^ 16
  type := ⟨w / 2 ^ 16 % 2 = 1, w / 2 ^ 17 % 2 = 1, w / 2 ^ 18 % 2 = 1, w / 2 ^ 19 % 2 = 1,
    w / 2 ^ 20 % 2 = 1⟩
  marequest := w / 2 ^ 21 % 2 = 1
  compat := w / 2 ^ 22 % 2 = 1
  collision := w / 2 ^ 23 % 2 = 1
  gen := w / 2 ^ 24 % 2 ^ 8

/-- `bits + delta`. -/
def add (b : IeBits) (delta : Int) : IeBits := ofWord ((b.word + delta) % 2 ^ 32).toNat

/-- The fields fit into their bits. -/
structure Fits (b : IeBits) : Prop where
  urefs : b.urefs < 2 ^ 16
  gen : b.gen < 2 ^ 8

variable {n : Nat}

theorem decide_bit {c : Bool} (h : n = c.toNat) : decide (n = 1) = c := by
  subst h
  cases c <;> rfl

variable {b : IeBits}

theorem ofWord_word (h : b.Fits) : ofWord b.word = b := by
  obtain ⟨hu, hg⟩ := h
  obtain ⟨u, ⟨s, r, so, ps, dn⟩, ma, co, cl, g⟩ := b
  simp only at hu hg
  have h₁ := s.toNat_le
  have h₂ := r.toNat_le
  have h₃ := so.toNat_le
  have h₄ := ps.toNat_le
  have h₅ := dn.toNat_le
  have h₆ := ma.toNat_le
  have h₇ := co.toNat_le
  have h₈ := cl.toNat_le
  simp only [ofWord, word, mk.injEq, MachPortType.mk.injEq]
  exact ⟨by omega, ⟨decide_bit (by omega), decide_bit (by omega), decide_bit (by omega),
    decide_bit (by omega), decide_bit (by omega)⟩, decide_bit (by omega), decide_bit (by omega),
    decide_bit (by omega), by omega⟩

theorem word_lt (h : b.Fits) : b.word < 2 ^ 32 := by
  obtain ⟨hu, hg⟩ := h
  have h₁ := b.type.send.toNat_le
  have h₂ := b.type.receive.toNat_le
  have h₃ := b.type.sendOnce.toNat_le
  have h₄ := b.type.portSet.toNat_le
  have h₅ := b.type.deadName.toNat_le
  have h₆ := b.marequest.toNat_le
  have h₇ := b.compat.toNat_le
  have h₈ := b.collision.toNat_le
  unfold word
  omega

theorem add_eq (hg : b.gen < 2 ^ 8) (hn : (n : Int) = b.urefs + delta) (hlt : n < 2 ^ 16) :
    b.add delta = { b with urefs := n } := by
  have hfits : ({ b with urefs := n } : IeBits).Fits := ⟨hlt, hg⟩
  have hword : ((b.word : Int) + delta) = ({ b with urefs := n } : IeBits).word := by
    simp only [word]
    omega
  rw [add, hword, Int.emod_eq_of_lt (by omega) (by exact_mod_cast word_lt hfits),
    Int.toNat_natCast, ofWord_word hfits]

end IeBits

end Mach
