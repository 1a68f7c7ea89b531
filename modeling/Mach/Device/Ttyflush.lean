import Mach.Device.Cirbuf

/-!
# Flushing a terminal

`ttyflush` takes characters out with `getc` until it returns a negative value, which stands for an
empty buffer.  But a `char` is signed, so a character from 128 on ends the loop, too.  What is
behind it stays in the buffer (`ttyflush_empties_iff`).
-/

namespace Mach

open List

namespace Cirbuf

/-- `getc` as long as it does not return a negative value. -/
def drain : Nat → Cirbuf → Option Cirbuf
  | 0, _ => none
  | fuel + 1, cb => cb.getc.bind fun (cb, c) => if 0 ≤ c then drain fuel cb else some cb

/-- What is behind the first character that is negative. -/
def drained (q : Chars) : Chars := (q.dropWhile (0 ≤ ·.toInt)).tail

variable {size : Nat} {cb : Cirbuf} {q q' : Chars}

theorem drained_cons (c : BitVec 8) (q : Chars) :
    drained (c :: q) = if 0 ≤ c.toInt then drained q else q := by
  simp [drained, dropWhile_cons, apply_ite List.tail, tail_cons]

theorem Holds.drain (h : cb.Holds size q) {fuel : Nat} (hfuel : q.length < fuel) :
    ∃ cb', cb.drain fuel = some cb' ∧ cb'.Holds size (drained q) := by
  induction fuel generalizing cb q with
  | zero => omega
  | succ fuel ih =>
    unfold Cirbuf.drain
    cases q with
    | nil =>
      rw [h.getc_nil]
      exact ⟨cb, rfl, h⟩
    | cons c q =>
      obtain ⟨cb₁, hgetc, h₁⟩ := h.getc_cons
      rw [hgetc, Option.bind_some, drained_cons]
      dsimp only
      split
      · exact ih h₁ (Nat.lt_of_succ_lt_succ hfuel)
      · exact ⟨cb₁, rfl, h₁⟩

theorem drained_sublist (h : q' <+ q) : drained q' <+ drained q := by
  induction h with
  | slnil => exact .slnil
  | cons c h ih =>
    rw [drained_cons]
    split
    · exact ih
    · exact ((tail_sublist _).trans (dropWhile_sublist _)).trans h
  | cons_cons c h ih =>
    rw [drained_cons, drained_cons]
    split
    · exact ih
    · exact h

end Cirbuf

open Cirbuf

/-- A `struct tty`: the buffers and `TS_TTSTOP`. -/
structure TtyBuffers where
  tInq : Cirbuf
  tOutq : Cirbuf
  ttStop : Bool

namespace TtyBuffers

/-- All characters are taken from the input queue. -/
def drainIn (tp : TtyBuffers) : Option TtyBuffers :=
  (tp.tInq.drain tp.tInq.cEnd).map fun cb => { tp with tInq := cb }

/-- All characters are taken from the output queue. -/
def drainOut (tp : TtyBuffers) : Option TtyBuffers :=
  (tp.tOutq.drain tp.tOutq.cEnd).map fun cb => { tp with tOutq := cb }

/-- `ttyflush`.  The requests that wait are not here. -/
def ttyflush (stop : TtyBuffers → TtyBuffers) (read write : Bool) (tp : TtyBuffers) :
    Option TtyBuffers :=
  (if read then tp.drainIn else some tp).bind fun tp =>
    (if write then (stop { tp with ttStop := false }).drainOut else some tp).bind fun tp =>
      if read then tp.drainIn else some tp

/-- The two buffers hold two queues. -/
def Holds (tp : TtyBuffers) (inq outq : Chars) : Prop :=
  (∃ size, tp.tInq.Holds size inq) ∧ ∃ size, tp.tOutq.Holds size outq

variable {R : Chars → Chars → Prop} {stop : TtyBuffers → TtyBuffers} {tp : TtyBuffers}
  {inq outq : Chars}

/-- A `t_stop` routine that leaves of each buffer something related to what was there. -/
def Stops (R : Chars → Chars → Prop) (stop : TtyBuffers → TtyBuffers) : Prop :=
  ∀ tp inq outq, tp.Holds inq outq →
    ∃ inq' outq', R inq' inq ∧ R outq' outq ∧ (stop tp).Holds inq' outq'

theorem Holds.drainIn (h : tp.Holds inq outq) :
    ∃ tp', tp.drainIn = some tp' ∧ tp'.Holds (drained inq) outq := by
  obtain ⟨⟨size, hin⟩, hout⟩ := h
  obtain ⟨cb, hcb, h'⟩ := hin.drain (hin.cEnd ▸ hin.room)
  exact ⟨_, congrArg _ hcb, ⟨size, h'⟩, hout⟩

theorem Holds.drainOut (h : tp.Holds inq outq) :
    ∃ tp', tp.drainOut = some tp' ∧ tp'.Holds inq (drained outq) := by
  obtain ⟨hin, size, hout⟩ := h
  obtain ⟨cb, hcb, h'⟩ := hout.drain (hout.cEnd ▸ hout.room)
  exact ⟨_, congrArg _ hcb, hin, size, h'⟩

theorem stops_id (hrefl : ∀ q, R q q) : Stops R id :=
  fun _ inq outq h => ⟨inq, outq, hrefl inq, hrefl outq, h⟩

theorem Holds.ttyflush (h : tp.Holds inq outq) (read write : Bool) (hrefl : ∀ q, R q q)
    (hdrained : ∀ {q q'}, R q' q → R (drained q') (drained q)) (hstop : Stops R stop) :
    ∃ tp' inq' outq', tp.ttyflush stop read write = some tp' ∧ tp'.Holds inq' outq' ∧
      (read = true → R inq' (drained (drained inq))) ∧ (write = true → R outq' (drained outq)) := by
  obtain ⟨tp₁, htp₁, h₁⟩ : ∃ tp₁, (if read then tp.drainIn else some tp) = some tp₁ ∧
      tp₁.Holds (if read then drained inq else inq) outq := by
    cases read with
    | false => exact ⟨tp, rfl, h⟩
    | true => exact h.drainIn
  obtain ⟨tp₂, inq₂, outq₂, htp₂, h₂, hin, hout⟩ : ∃ tp₂ inq₂ outq₂,
      (if write then (stop { tp₁ with ttStop := false }).drainOut else some tp₁) = some tp₂ ∧
      tp₂.Holds inq₂ outq₂ ∧ R inq₂ (if read then drained inq else inq) ∧
        (write = true → R outq₂ (drained outq)) := by
    cases write with
    | false => exact ⟨tp₁, _, _, rfl, h₁, hrefl _, nofun⟩
    | true =>
      obtain ⟨inq', outq', hin, hout, h'⟩ := hstop { tp₁ with ttStop := false } _ _ h₁
      obtain ⟨tp₂, htp₂, h₂⟩ := h'.drainOut
      exact ⟨tp₂, _, _, htp₂, h₂, hin, fun _ => hdrained hout⟩
  rw [TtyBuffers.ttyflush, htp₁, Option.bind_some, htp₂, Option.bind_some]
  cases read with
  | false => exact ⟨tp₂, _, _, rfl, h₂, nofun, hout⟩
  | true =>
    obtain ⟨tp₃, htp₃, h₃⟩ := h₂.drainIn
    exact ⟨tp₃, _, _, htp₃, h₃, fun _ => hdrained hin, hout⟩

/-- `ttyflush` returns with the buffers empty that it is to flush, for every driver that adds no
characters, exactly if nothing is behind the first negative character of the output and behind the
second one of the input. -/
theorem ttyflush_empties_iff (h : tp.Holds inq outq) (read write : Bool) :
    (∀ stop, Stops Sublist stop → ∃ tp', tp.ttyflush stop read write = some tp' ∧
      (read = true → tp'.tInq.cCc = 0) ∧ (write = true → tp'.tOutq.cCc = 0)) ↔
      (read = true → drained (drained inq) = []) ∧ (write = true → drained outq = []) := by
  have hempty {cb : Cirbuf} {q : Chars} (h : ∃ size, cb.Holds size q) : cb.cCc = 0 ↔ q = [] := by
    obtain ⟨size, hcb⟩ := h
    rw [hcb.cc, Int.natCast_eq_zero, length_eq_zero_iff]
  constructor
  · intro hall
    obtain ⟨tp₁, inq', outq', htp₁, h', hin, hout⟩ :=
      h.ttyflush read write (fun _ => rfl) (congrArg _) (stops_id fun _ => rfl)
    obtain ⟨tp', htp', hinq, houtq⟩ := hall id (stops_id Sublist.refl)
    obtain rfl : tp₁ = tp' := Option.some.inj (htp₁.symm.trans htp')
    exact ⟨fun hr => hin hr ▸ (hempty h'.1).mp (hinq hr),
      fun hw => hout hw ▸ (hempty h'.2).mp (houtq hw)⟩
  · rintro ⟨hin, hout⟩ stop hstop
    obtain ⟨tp', inq', outq', htp', h', hinq, houtq⟩ :=
      h.ttyflush read write Sublist.refl drained_sublist hstop
    exact ⟨tp', htp', fun hr => (hempty h'.1).mpr (eq_nil_of_sublist_nil (hin hr ▸ hinq hr)),
      fun hw => (hempty h'.2).mpr (eq_nil_of_sublist_nil (hout hw ▸ houtq hw))⟩

/-- A terminal with two characters to be written, which are negative. -/
def twoOut : TtyBuffers := ⟨⟨1, fun _ => 0, 0, 0, 0⟩, ⟨3, fun _ => 128, 0, 2, 2⟩, false⟩

theorem twoOut_holds : twoOut.Holds [] [128, 128] := by
  refine ⟨⟨1, rfl, by decide, by decide, rfl, rfl, nofun⟩, 3,
    rfl, by decide, by decide, rfl, rfl, ?_⟩
  decide

theorem ttyflush_empties_iff_twoOut : ¬ ∀ stop, Stops Sublist stop →
    ∃ tp', twoOut.ttyflush stop false true = some tp' ∧
      (false = true → tp'.tInq.cCc = 0) ∧ (true = true → tp'.tOutq.cCc = 0) :=
  fun hall => absurd (((ttyflush_empties_iff twoOut_holds false true).mp hall).2 rfl) (by decide)

/-- The second character stays in the buffer. -/
theorem not_ttyflush_empties : twoOut.Holds [] [128, 128] ∧ Stops Sublist id ∧
    (twoOut.ttyflush id false true).map (·.tOutq.cCc) = some 1 :=
  ⟨twoOut_holds, stops_id Sublist.refl, by decide⟩

end TtyBuffers

end Mach
