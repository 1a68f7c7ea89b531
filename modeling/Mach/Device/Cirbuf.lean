import Mathlib.Data.List.DropRight
import Mach.Lib.Simulation

/-!
# Circular buffers

The buffers of a terminal.  Characters are read at `c_cf` and written at `c_cl`, both of which go
round, and one slot is always free.  A buffer is a queue with room for one character less than its
size (`cirbuf_queue`), and no call panics in `cb_check`.
-/

namespace Mach

open List Option

/-- Characters. -/
abbrev Chars := List (BitVec 8)

/-- A `struct cirbuf`.  The pointers are counted from `c_start`. -/
structure Cirbuf where
  cEnd : Nat
  chars : Nat → BitVec 8
  cCf : Nat
  cCl : Nat
  cCc : Int

namespace Cirbuf

/-- What `cb_check` asks for. -/
def Checked (cb : Cirbuf) : Prop :=
  cb.cCf < cb.cEnd ∧ cb.cCl < cb.cEnd ∧
    cb.cCc = if cb.cCf ≤ cb.cCl then (cb.cCl : Int) - cb.cCf else cb.cEnd - cb.cCf + cb.cCl

instance : DecidablePred Checked := fun _ => inferInstanceAs (Decidable (_ ∧ _ ∧ _))

/-- `cb_check`, which may panic. -/
def cbCheck (cb : Cirbuf) : Option Cirbuf := if cb.Checked then some cb else none

/-- A pointer that was moved on. -/
@[grind]
def wrap (cb : Cirbuf) (p : Nat) : Nat := if p = cb.cEnd then 0 else p

/-- Characters are removed at `c_cf`. -/
def remove (cb : Cirbuf) (i : Nat) : Option Cirbuf :=
  cbCheck { cb with cCf := cb.wrap (cb.cCf + i), cCc := cb.cCc - i }

/-- Characters are written at `c_cl`. -/
def write (cb : Cirbuf) (cp : Chars) : Option Cirbuf :=
  cbCheck
    { cb with
      chars := fun p => if p < cb.cCl then cb.chars p else (cp[p - cb.cCl]?).getD (cb.chars p)
      cCl := cb.wrap (cb.cCl + cp.length)
      cCc := cb.cCc + cp.length }

/-- `getc`.  It is -1 if there is no character. -/
def getc (cb : Cirbuf) : Option (Cirbuf × Int) :=
  if cb.cCf = cb.cCl then cb.cbCheck.map (·, -1)
  else (cb.remove 1).map (·, (cb.chars cb.cCf).toInt)

/-- `putc`.  It is 1 if there is no room. -/
def putc (c : BitVec 8) (cb : Cirbuf) : Option (Cirbuf × Nat) :=
  if cb.wrap (cb.cCl + 1) = cb.cCf then some (cb, 1) else (cb.write [c]).map (·, 0)

/-- The end of the characters at `c_cf` that are in one piece. -/
@[grind]
def lim (cb : Cirbuf) : Nat := if cb.cCl < cb.cCf then cb.cEnd else cb.cCl

/-- The loop of `q_to_b`, and without the copy that of `ndflush`. -/
def qToBFrom : Nat → Cirbuf → Nat → Option (Cirbuf × Chars)
  | 0, _, _ => none
  | fuel + 1, cb, count =>
    if count = 0 ∨ cb.cCl = cb.cCf then cb.cbCheck.map (·, [])
    else
      let i := min (cb.lim - cb.cCf) count
      (cb.remove i).bind fun cb' =>
        (qToBFrom fuel cb' (count - i)).map fun r => (r.1, (range' cb.cCf i).map cb.chars ++ r.2)

/-- `q_to_b`. -/
def qToB (cb : Cirbuf) (count : Nat) : Option (Cirbuf × Chars) := qToBFrom (count + 1) cb count

/-- `ndflush`. -/
def ndflush (cb : Cirbuf) (count : Nat) : Option Cirbuf := (cb.qToB count).map Prod.fst

/-- The slot before `c_cf`, which stays free. -/
@[grind]
def limit (cb : Cirbuf) : Nat := if cb.cCf = 0 then cb.cEnd - 1 else cb.cCf - 1

/-- The loop of `b_to_q`. -/
def bToQFrom : Nat → Chars → Cirbuf → Option (Cirbuf × Nat)
  | 0, _, _ => none
  | fuel + 1, cp, cb =>
    if cp.length = 0 ∨ cb.cCl = cb.limit then cb.cbCheck.map (·, cp.length)
    else
      let i := min (if cb.cCl < cb.limit then cb.limit - cb.cCl else cb.cEnd - cb.cCl) cp.length
      (cb.write (cp.take i)).bind (bToQFrom fuel (cp.drop i))

/-- `b_to_q`.  It returns how many characters are left. -/
def bToQ (cp : Chars) (cb : Cirbuf) : Option (Cirbuf × Nat) := bToQFrom (cp.length + 1) cp cb

/-- `ndqb`. -/
def ndqb (cb : Cirbuf) (mask : BitVec 32) : Nat :=
  if mask = 0 then cb.lim - cb.cCf
  else ((range' cb.cCf (cb.lim - cb.cCf)).takeWhile fun p =>
    (cb.chars p).signExtend 32 &&& mask = 0).length

/-- `cb_alloc`. -/
def cbAlloc (chars : Nat → BitVec 8) (bufSize : Nat) : Option Cirbuf :=
  cbCheck ⟨bufSize, chars, 0, 0, 0⟩

/-! ## What a buffer holds -/

/-- The slot that is some way after `c_cf`. -/
@[grind]
def slot (cb : Cirbuf) (k : Nat) : Nat :=
  if cb.cCf + k < cb.cEnd then cb.cCf + k else cb.cCf + k - cb.cEnd

/-- A buffer of some size with the characters of a queue. -/
structure Holds (size : Nat) (cb : Cirbuf) (q : Chars) : Prop where
  cEnd : cb.cEnd = size
  room : q.length < size
  cf : cb.cCf < size
  cl : cb.cCl = cb.slot q.length
  cc : cb.cCc = q.length
  chars (k : Nat) : k < q.length → q[k]? = some (cb.chars (cb.slot k))

variable {size i fuel count : Nat} {cb : Cirbuf} {q cp : Chars} {c : BitVec 8}

section

variable (h : cb.Holds size q)
include h

theorem Holds.checked : cb.cbCheck = some cb := by
  obtain ⟨rfl, hroom, hcf, hcl, hcc, -⟩ := h
  refine if_pos ⟨hcf, ?_, ?_⟩
  · grind
  · grind

theorem Holds.exists_checked : ∃ cb', cb.cbCheck = some cb' ∧ cb'.Holds size q := ⟨cb, h.checked, h⟩

theorem Holds.empty_iff : cb.cCf = cb.cCl ↔ q = [] := by
  obtain ⟨rfl, hroom, hcf, hcl, -, -⟩ := h
  rw [← length_eq_zero_iff]
  grind

theorem Holds.lim_sub : cb.lim - cb.cCf = min q.length (size - cb.cCf) := by
  obtain ⟨rfl, hroom, hcf, hcl, -, -⟩ := h
  grind

theorem Holds.full_iff : cb.cCl = cb.limit ↔ size - 1 - q.length = 0 := by
  obtain ⟨rfl, hroom, hcf, hcl, -, -⟩ := h
  grind

theorem Holds.limit_sub (hfull : size - 1 - q.length ≠ 0) :
    (if cb.cCl < cb.limit then cb.limit - cb.cCl else cb.cEnd - cb.cCl) =
      min (size - 1 - q.length) (size - cb.cCl) ∧ cb.cCl < size := by
  obtain ⟨rfl, hroom, hcf, hcl, -, -⟩ := h
  grind

theorem Holds.read (hi : i ≤ q.length) (hcf : cb.cCf + i ≤ size) :
    (range' cb.cCf i).map cb.chars = q.take i := by
  obtain ⟨rfl, -, -, -, -, hchars⟩ := h
  refine ext_getElem (by simp [hi]) fun k hk _ => ?_
  rw [length_map, length_range'] at hk
  have hchar := hchars k (by omega)
  grind

theorem Holds.remove (hi : i ≤ q.length) (hcf : cb.cCf + i ≤ size) :
    ∃ cb', cb.remove i = some cb' ∧ cb'.Holds size (q.drop i) := by
  refine exists_checked ?_
  obtain ⟨rfl, hroom, hcf', hcl, hcc, hchars⟩ := h
  constructor
  case chars =>
    intro k hk
    rw [length_drop] at hk
    rw [getElem?_drop, hchars _ (by omega)]
    grind
  all_goals grind

theorem Holds.write (hroom : q.length + cp.length < size) (hcl : cb.cCl + cp.length ≤ size) :
    ∃ cb', cb.write cp = some cb' ∧ cb'.Holds size (q ++ cp) := by
  refine exists_checked ?_
  obtain ⟨rfl, -, hcf, hcl', hcc, hchars⟩ := h
  constructor
  case chars =>
    intro k hk
    by_cases hlt : k < q.length
    · have hchar := hchars k hlt
      grind
    · grind
  all_goals grind

theorem Holds.qToBFrom (hcount : count < fuel) :
    ∃ cb', cb.qToBFrom fuel count = some (cb', q.take count) ∧ cb'.Holds size (q.drop count) := by
  induction fuel generalizing cb q count with
  | zero => omega
  | succ fuel ih =>
    have hempty := h.empty_iff
    rw [Cirbuf.qToBFrom, h.lim_sub]
    split
    next hend =>
      have hq : q.take count = [] ∧ q.drop count = q := by grind
      rw [h.checked, hq.1, hq.2]
      exact ⟨cb, rfl, h⟩
    next hend =>
      have hlen : 0 < q.length := length_pos_iff.mpr fun hq => hend (.inr (hempty.mpr hq).symm)
      have hcf := h.cf
      generalize hi : min (min q.length (size - cb.cCf)) count = i
      have hread := h.read (i := i) (by omega) (by omega)
      obtain ⟨cb₁, hcb₁, h₁⟩ := h.remove (i := i) (by omega) (by omega)
      obtain ⟨cb₂, hcb₂, h₂⟩ := ih h₁ (by omega : count - i < fuel)
      have hadd : i + (count - i) = count := by omega
      rw [drop_drop, hadd] at h₂
      refine ⟨cb₂, ?_, h₂⟩
      simp only [hcb₁, bind_some, hcb₂, Option.map_some, hread, ← take_add, hadd]

theorem Holds.bToQFrom (hcount : cp.length < fuel) :
    ∃ cb', Cirbuf.bToQFrom fuel cp cb = some (cb', cp.length - (size - 1 - q.length)) ∧
      cb'.Holds size (q ++ cp.take (size - 1 - q.length)) := by
  induction fuel generalizing cb q cp with
  | zero => omega
  | succ fuel ih =>
    rw [Cirbuf.bToQFrom]
    split
    next hend =>
      rw [h.full_iff] at hend
      have hq : cp.take (size - 1 - q.length) = [] := by grind
      have hleft : cp.length - (size - 1 - q.length) = cp.length := by omega
      rw [h.checked, hq, append_nil, hleft]
      exact ⟨cb, rfl, h⟩
    next hend =>
      rw [not_or, h.full_iff] at hend
      obtain ⟨hfree, hcl⟩ := h.limit_sub hend.2
      rw [hfree]
      generalize hi : min (min (size - 1 - q.length) (size - cb.cCl)) cp.length = i
      have htake : (cp.take i).length = i := by grind
      obtain ⟨cb₁, hcb₁, h₁⟩ := h.write (by omega : q.length + (cp.take i).length < size) (by omega)
      have hdrop : (cp.drop i).length = cp.length - i := length_drop
      obtain ⟨cb₂, hcb₂, h₂⟩ := ih h₁ (by omega : (cp.drop i).length < fuel)
      rw [length_append, htake] at hcb₂ h₂
      have hadd : i + (size - 1 - (q.length + i)) = size - 1 - q.length := by omega
      rw [append_assoc, ← take_add, hadd] at h₂
      refine ⟨cb₂, ?_, h₂⟩
      simp only [hcb₁, bind_some, hcb₂, hdrop]
      congr 2
      omega

end

theorem Holds.getc_nil (h : cb.Holds size []) : cb.getc = some (cb, -1) := by
  rw [getc, if_pos (h.empty_iff.mpr rfl), h.checked]
  rfl

theorem Holds.getc_cons (h : cb.Holds size (c :: q)) :
    ∃ cb', cb.getc = some (cb', c.toInt) ∧ cb'.Holds size q := by
  have hone : 1 ≤ (c :: q).length := Nat.le_add_left ..
  obtain ⟨cb', hcb', h'⟩ := h.remove hone h.cf
  refine ⟨cb', ?_, h'⟩
  rw [getc, if_neg (mt h.empty_iff.mp nofun), hcb', (cons.inj (h.read hone h.cf)).1]
  rfl

/-! ## The queue -/

/-- The calls.  `ndqb` has no mask. -/
inductive Op where
  | putc (c : BitVec 8)
  | getc
  | qToB (count : Nat)
  | bToQ (cp : Chars)
  | ndqb
  | ndflush (count : Nat)

/-- A call, with the value that it returns and the characters that it stores. -/
def step : Machine Op (Int × Chars) Cirbuf
  | .putc c, cb => (cb.putc c).map fun r => (r.1, r.2, [])
  | .getc, cb => cb.getc.map fun r => (r.1, r.2, [])
  | .qToB count, cb => (cb.qToB count).map fun r => (r.1, r.2.length, r.2)
  | .bToQ cp, cb => (cb.bToQ cp).map fun r => (r.1, r.2, [])
  | .ndqb, cb => some (cb, cb.ndqb 0, [])
  | .ndflush count, cb => (cb.ndflush count).map (·, 0, [])

/-- A queue with room for one character less than the size. -/
def queue (size : Nat) : Contract Op (Int × Chars) Chars where
  legal _ _ := True
  ok
    | .putc _, q, r => r = (if q.length = size - 1 then 1 else 0, [])
    | .getc, q, r => r = ((q.head?.map BitVec.toInt).getD (-1), [])
    | .qToB count, q, r => r = (↑(min count q.length), q.take count)
    | .bToQ cp, q, r => r = (↑(cp.length - (size - 1 - q.length)), [])
    | .ndqb, q, r => ∃ n ≤ q.length, (q ≠ [] → n ≠ 0) ∧ r = (↑n, [])
    | .ndflush _, _, r => r = (0, [])
  next
    | .putc c, q, _ => if q.length = size - 1 then q else q ++ [c]
    | .getc, q, _ => q.tail
    | .qToB count, q, _ => q.drop count
    | .bToQ cp, q, _ => q ++ cp.take (size - 1 - q.length)
    | .ndqb, q, _ => q
    | .ndflush count, q, _ => q.drop count

theorem queue_simulates (size : Nat) : (queue size).Simulates step (Holds size) := by
  intro cb q op h _
  cases op with
  | putc c =>
    obtain ⟨rfl, hroom, hcf, hcl, -, -⟩ := id h
    have hfull : cb.wrap (cb.cCl + 1) = cb.cCf ↔ q.length = cb.cEnd - 1 := by grind
    by_cases hlen : q.length = cb.cEnd - 1
    · refine ⟨cb, _, ?_, rfl, ?_⟩
      · rw [step, putc, if_pos (hfull.mpr hlen), if_pos hlen]
        rfl
      · exact (congrArg (cb.Holds _) (if_pos hlen)).mpr h
    · obtain ⟨cb', hcb', h'⟩ := h.write (by grind : q.length + [c].length < cb.cEnd) (by grind)
      refine ⟨cb', _, ?_, rfl, ?_⟩
      · rw [step, putc, if_neg (mt hfull.mp hlen), if_neg hlen, hcb']
        rfl
      · exact (congrArg (cb'.Holds _) (if_neg hlen)).mpr h'
  | getc =>
    cases q with
    | nil => exact ⟨cb, _, by rw [step, h.getc_nil]; rfl, rfl, h⟩
    | cons c q =>
      obtain ⟨cb', hcb', h'⟩ := h.getc_cons
      exact ⟨cb', _, by rw [step, hcb']; rfl, rfl, h'⟩
  | qToB count =>
    obtain ⟨cb', hcb', h'⟩ := h.qToBFrom count.lt_succ_self
    refine ⟨cb', (_, _), ?_, rfl, h'⟩
    rw [step, qToB, hcb', Option.map_some, length_take]
  | bToQ cp =>
    obtain ⟨cb', hcb', h'⟩ := h.bToQFrom cp.length.lt_succ_self
    refine ⟨cb', (_, _), ?_, rfl, h'⟩
    rw [step, bToQ, hcb', Option.map_some]
  | ndqb =>
    have hcf := h.cf
    refine ⟨cb, _, rfl, ⟨cb.lim - cb.cCf, ?_, ?_, rfl⟩, h⟩
    · rw [h.lim_sub]
      omega
    · grind [h.lim_sub]
  | ndflush count =>
    obtain ⟨cb', hcb', h'⟩ := h.qToBFrom count.lt_succ_self
    refine ⟨cb', _, ?_, rfl, h'⟩
    rw [step, ndflush, qToB, hcb', Option.map_some, Option.map_some]

/-- A buffer is a bounded queue: `cb_alloc` makes an empty one, and after any calls the next call
does not panic, returns what the queue asks for, and `c_cc` is the length. -/
theorem cirbuf_queue (hsize : 0 < size) (chars : Nat → BitVec 8) :
    (cbAlloc chars size).isSome ∧
      ∀ cb q, (queue size).Run step (fun cb q => cbAlloc chars size = some cb ∧ q = []) cb q →
        q.length ≤ size - 1 ∧ cb.cCc = q.length ∧
          ∀ op, ∃ cb' r, step op cb = some (cb', r) ∧ (queue size).ok op q r := by
  have hnew : Holds size ⟨size, chars, 0, 0, 0⟩ [] :=
    ⟨rfl, hsize, hsize, (if_pos hsize).symm, rfl, nofun⟩
  have halloc : cbAlloc chars size = some _ := hnew.checked
  refine ⟨isSome_of_mem halloc, fun cb q hrun => ?_⟩
  have h : cb.Holds size q := by
    refine (queue_simulates size).run ?_ hrun
    rintro cb q ⟨hcb, rfl⟩
    cases halloc.symm.trans hcb
    exact hnew
  refine ⟨Nat.le_sub_one_of_lt h.room, h.cc, fun op => ?_⟩
  obtain ⟨cb', r, hstep, hok, -⟩ := queue_simulates size cb q op h trivial
  exact ⟨cb', r, hstep, hok⟩

/-- A character is put into a new buffer, and can be got from it. -/
theorem cirbuf_queue_four : ∃ cb cb' cb'', cbAlloc (fun _ => 0) 4 = some cb ∧
    step (.putc 7) cb = some (cb', 0, []) ∧ step .getc cb' = some (cb'', 7, []) := by
  have hrun := (cirbuf_queue (Nat.succ_pos 3) fun _ => 0).2 _ _
    (.step (.start ⟨rfl, rfl⟩) trivial (rfl : step (.putc 7) _ = some _))
  obtain ⟨cb'', r, hget, rfl⟩ := hrun.2.2 .getc
  exact ⟨_, _, cb'', rfl, rfl, hget⟩

end Cirbuf

end Mach
