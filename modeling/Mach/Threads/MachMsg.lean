import Mach.Lib.Runs
import Mach.Lib.Tally
import Mathlib.Algebra.GroupWithZero.Nat
import Mathlib.Algebra.Order.BigOperators.Group.Finset
import Mathlib.Algebra.Order.Group.Int
import Mathlib.Algebra.Ring.Int.Defs
import Mathlib.Data.List.Nodup

/-!
# The cthreads that receive on a port

`cthread_mach_msg` (`cprocs.c`) receives on a port if the cthread has one of the `max` places of the
port.  A cthread keeps its place when it has received, until `cthread_msg_busy`.  A cthread that
finds no place sends its message separately and is parked.

The places are counted in the port's entry (`held`), under its lock.  Who has a place is in the
field `busy` of each cthread, which is written outside the lock.  The two agree in every run, and
the message of a call is sent once (`machMsg_bounded`).
-/

namespace Mach

open Function

/-- The arguments `min` and `max`, the same in all calls. -/
structure MsgLimits where
  min : Int
  max : Int
  min_nonneg : 0 ≤ min
  min_le_max : min ≤ max

/-- Where a cthread is in `cthread_mach_msg`. -/
inductive MsgPhase where
  | outside
  /-- Before it locks the entry. -/
  | enters
  /-- It sends the message separately. -/
  | sends
  | parked
  /-- It has a place that `busy` may not show yet. -/
  | placed
  /-- In the last `mach_msg`, before the receive. -/
  | calls
  | receives
deriving Repr, DecidableEq

/-- A thread, with the options of its call. -/
structure MsgThread where
  phase : MsgPhase := .outside
  /-- `MACH_SEND_MSG` in the option of the call. -/
  send : Bool := false
  /-- `MACH_RCV_MSG`. -/
  rcv : Bool := false
  sent : Bool := false
  /-- How often the message of the call has been sent. -/
  sends : Nat := 0
  /-- `busy` designates the entry. -/
  busy : Bool := false

/-- The entry of the port, and the cthreads. -/
structure MsgSystem (ι : Type) where
  held : Int
  queue : List ι
  thread : ι → MsgThread

/-- What a thread does next. -/
inductive MsgOp where
  /-- `cthread_mach_msg`, until it locks the entry. -/
  | machMsg (send rcv : Bool)
  /-- The test of the limit. -/
  | lock
  /-- The separate `mach_msg` returns, and the limit is tested again. -/
  | sendDone (ok : Bool)
  /-- `busy` is written. -/
  | record
  /-- The last `mach_msg` has sent the message, if it was to, or failed. -/
  | message (ok : Bool)
  | received
  | msgBusy
  | msgActive

namespace MsgSystem

variable {ι : Type}

/-- No thread is in a call. -/
def init : MsgSystem ι := ⟨0, [], fun _ => {}⟩

variable [DecidableEq ι]

/-- Change a cthread. -/
def set (t : ι) (th : MsgThread) (s : MsgSystem ι) : MsgSystem ι :=
  { s with thread := update s.thread t th }

/-- With the lock: the cthread is parked or gets a place. -/
def getPlace (l : MsgLimits) (t : ι) (th : MsgThread) (s : MsgSystem ι) : MsgSystem ι :=
  if l.max ≤ s.held then { s.set t { th with phase := .parked } with queue := t :: s.queue }
  else { s.set t { th with phase := .placed } with held := s.held + 1 }

/-- `cthread_msg_busy` by a cthread that is busy. -/
def msgBusy (l : MsgLimits) (t : ι) (s : MsgSystem ι) : MsgSystem ι :=
  let s := s.set t { s.thread t with busy := false }
  if s.held ≤ l.min then
    match s.queue with
    | new :: queue => { s.set new { s.thread new with phase := .placed } with queue := queue }
    | [] => { s with held := s.held - 1 }
  else { s with held := s.held - 1 }

/-- A thread goes on. -/
def step (l : MsgLimits) : Machine (ι × MsgOp) Unit (MsgSystem ι)
  | (t, op), s =>
    let th := s.thread t
    let goto (phase : MsgPhase) := some (s.set t { th with phase := phase }, ())
    match op, th.phase with
    | .machMsg send rcv, .outside =>
      some (s.set t { th with
        phase := .enters, send := send, rcv := rcv, sent := false, sends := 0 }, ())
    | .lock, .enters =>
      if th.busy then goto .placed
      else if l.max ≤ s.held ∧ th.send then goto .sends
      else some (s.getPlace l t th, ())
    | .sendDone ok, .sends =>
      if ok then some (s.getPlace l t { th with sent := true, sends := th.sends + 1 }, ())
      else goto .outside
    | .record, .placed => some (s.set t { th with phase := .calls, busy := true }, ())
    | .message ok, .calls =>
      let next : MsgPhase := if th.rcv then .receives else .outside
      if th.send ∧ ¬ th.sent then
        if ok then some (s.set t { th with phase := next, sends := th.sends + 1 }, ())
        else goto .outside
      else goto next
    | .received, .receives => goto .outside
    | .msgBusy, .outside => some (if th.busy then s.msgBusy l t else s, ())
    | .msgActive, .outside =>
      some (if ¬ th.busy ∧ s.held < l.max then
        { s.set t { th with busy := true } with held := s.held + 1 } else s, ())
    | _, _ => none

end MsgSystem

/-- The cthread's place in the count. -/
@[grind] def MsgThread.place (th : MsgThread) : Int :=
  if th.busy ∨ th.phase = .placed then 1 else 0

/-- What holds of a cthread wherever it is. -/
@[mk_iff] structure MsgThread.Ok (th : MsgThread) : Prop where
  once : th.sends ≤ 1
  reached : th.phase = .receives → th.send = true → th.sends = 1
  unsent : th.phase = .enters ∨ th.phase = .sends → th.sent = false
  counted : th.phase ≠ .outside → th.phase ≠ .receives → th.sends = if th.sent then 1 else 0
  waits : th.phase = .sends ∨ th.phase = .parked → th.busy = false

attribute [grind =] MsgThread.ok_iff

namespace MsgSystem

variable {ι : Type} [DecidableEq ι] {l : MsgLimits} {t : ι} {op : MsgOp} {s s' : MsgSystem ι}
  {th : MsgThread}

/-- What one operation does. -/
inductive Stepped (l : MsgLimits) (t : ι) (op : MsgOp) (s : MsgSystem ι) : MsgSystem ι → Prop where
  | moves {th : MsgThread} {n : Int} : th.Ok → th.phase ≠ .parked →
      (s.thread t).place + n = th.place + s.held → (s.held ≤ l.max → n ≤ l.max) →
      (s.queue ≠ [] → l.min ≤ s.held → l.min ≤ n) →
      Stepped l t op s ⟨n, s.queue, update s.thread t th⟩
  | parks {th : MsgThread} : th.Ok → th.phase = .parked → (s.thread t).place = th.place →
      l.max ≤ s.held → Stepped l t op s ⟨s.held, t :: s.queue, update s.thread t th⟩
  | hands {th : MsgThread} {new : ι} {queue : List ι} : op = .msgBusy → th.Ok →
      th.phase ≠ .parked → (s.thread t).place = 1 → th.place = 0 → s.queue = new :: queue →
      Stepped l t op s ⟨s.held, queue, update (update s.thread t th) new
        { update s.thread t th new with phase := .placed }⟩

theorem set_stepped (hth : th.Ok ∧ th.phase ≠ .parked ∧ (s.thread t).place = th.place) :
    Stepped l t op s (s.set t th) :=
  .moves hth.1 hth.2.1 (congrArg (· + s.held) hth.2.2) id fun _ => id

theorem getPlace_stepped (hth : { th with phase := .placed }.Ok ∧ th.busy = false)
    (hplace : (s.thread t).place = 0) : Stepped l t op s (s.getPlace l t th) := by
  rw [getPlace]
  split
  next hmax => exact .parks (by grind) rfl (by grind) hmax
  next hmax => exact .moves hth.1 (by simp) (by grind) (fun _ => not_le.mp hmax) (by grind)

theorem msgBusy_stepped (hok : (s.thread t).Ok) (hphase : (s.thread t).phase = .outside)
    (hbusy : (s.thread t).busy = true) : Stepped l t .msgBusy s (s.msgBusy l t) := by
  have hleaves : (s.queue ≠ [] → l.min < s.held) → Stepped l t .msgBusy s
      { s.set t { s.thread t with busy := false } with held := s.held - 1 } :=
    fun hheld => .moves (by grind) (by simp [hphase]) (by grind) (by omega) (by grind)
  simp only [msgBusy]
  split
  next =>
    split
    next hqueue => exact .hands rfl (by grind) (by simp [hphase]) (by grind) (by grind) hqueue
    next hqueue => exact hleaves fun hne => absurd hqueue hne
  next hmin => exact hleaves fun _ => not_le.mp hmin

theorem step_stepped (hok : (s.thread t).Ok) (hstep : step l (t, op) s = some (s', ())) :
    (s.thread t).phase ≠ .parked ∧ Stepped l t op s s' := by
  have hstay : (s.thread t).phase ≠ .parked → Stepped l t op s s := by
    intro hphase
    have h : Stepped l t op s (s.set t (s.thread t)) := set_stepped ⟨hok, hphase, rfl⟩
    rwa [set, update_eq_self] at h
  cases op with
  | machMsg send rcv =>
    cases hphase : (s.thread t).phase with
    | outside =>
      simp only [step, hphase] at hstep
      refine ⟨by simp, ?_⟩
      cases hstep
      exact set_stepped (by grind)
    | _ => simp [step, hphase] at hstep
  | lock =>
    cases hphase : (s.thread t).phase with
    | enters =>
      simp only [step, hphase] at hstep
      refine ⟨by simp, ?_⟩
      split at hstep
      next => cases hstep; exact set_stepped (by grind)
      next =>
        split at hstep
        next => cases hstep; exact set_stepped (by grind)
        next => cases hstep; exact getPlace_stepped (by grind) (by grind)
    | _ => simp [step, hphase] at hstep
  | sendDone ok =>
    cases hphase : (s.thread t).phase with
    | sends =>
      simp only [step, hphase] at hstep
      refine ⟨by simp, ?_⟩
      split at hstep
      next => cases hstep; exact getPlace_stepped (by grind) (by grind)
      next => cases hstep; exact set_stepped (by grind)
    | _ => simp [step, hphase] at hstep
  | record =>
    cases hphase : (s.thread t).phase with
    | placed =>
      simp only [step, hphase] at hstep
      refine ⟨by simp, ?_⟩
      cases hstep
      exact set_stepped (by grind)
    | _ => simp [step, hphase] at hstep
  | message ok =>
    cases hphase : (s.thread t).phase with
    | calls =>
      simp only [step, hphase] at hstep
      refine ⟨by simp, ?_⟩
      split at hstep
      next =>
        split at hstep
        next => cases hstep; exact set_stepped (by grind)
        next => cases hstep; exact set_stepped (by grind)
      next => cases hstep; exact set_stepped (by grind)
    | _ => simp [step, hphase] at hstep
  | received =>
    cases hphase : (s.thread t).phase with
    | receives =>
      simp only [step, hphase] at hstep
      refine ⟨by simp, ?_⟩
      cases hstep
      exact set_stepped (by grind)
    | _ => simp [step, hphase] at hstep
  | msgBusy =>
    cases hphase : (s.thread t).phase with
    | outside =>
      simp only [step, hphase] at hstep
      refine ⟨by simp, ?_⟩
      cases hstep
      split
      next hbusy => exact msgBusy_stepped hok hphase hbusy
      next => exact hstay (by simp [hphase])
    | _ => simp [step, hphase] at hstep
  | msgActive =>
    cases hphase : (s.thread t).phase with
    | outside =>
      simp only [step, hphase] at hstep
      refine ⟨by simp, ?_⟩
      cases hstep
      split
      next hnot => exact .moves (by grind) (by grind) (by grind) (fun _ => hnot.2) (by grind)
      next => exact hstay (by simp [hphase])
    | _ => simp [step, hphase] at hstep

variable [Fintype ι]

/-- The count and the queue agree with the cthreads. -/
structure Core (s : MsgSystem ι) : Prop where
  held : s.held = ∑ t, (s.thread t).place
  ok : ∀ t, (s.thread t).Ok
  nodup : s.queue.Nodup
  parked : ∀ t, t ∈ s.queue ↔ (s.thread t).phase = .parked

theorem Core.update (h : s.Core) {n : Int} {queue : List ι} (hth : th.Ok)
    (hheld : (s.thread t).place + n = th.place + s.held) (hnodup : queue.Nodup)
    (hqueue : ∀ u, u ∈ queue ↔ if u = t then th.phase = .parked else u ∈ s.queue) :
    Core ⟨n, queue, Function.update s.thread t th⟩ where
  held := by
    have hsum := Fintype.sum_update_add MsgThread.place s.thread t th
    rw [← h.held] at hsum
    exact add_left_cancel (hheld.trans hsum.symm)
  ok := (forall_update_iff s.thread fun _ x => x.Ok).mpr ⟨hth, fun u _ => h.ok u⟩
  nodup := hnodup
  parked u := by
    simp only [hqueue, h.parked, update_apply]
    split <;> rfl

/-- The number of places in use is within the limits. -/
structure Inv (l : MsgLimits) (s : MsgSystem ι) : Prop extends Core s where
  le_max : s.held ≤ l.max
  min_le : s.queue ≠ [] → l.min ≤ s.held

omit [DecidableEq ι] in
theorem inv_init (l : MsgLimits) : (init : MsgSystem ι).Inv l where
  held := by simp [init, MsgThread.place]
  ok _ := by simp [init, MsgThread.ok_iff]
  nodup := List.nodup_nil
  parked _ := by simp [init]
  le_max := l.min_nonneg.trans l.min_le_max
  min_le h := absurd rfl h

theorem Inv.stepped (h : s.Inv l) (hne : (s.thread t).phase ≠ .parked)
    (hs : Stepped l t op s s') : s'.Inv l := by
  have ht : t ∉ s.queue := mt (h.parked t).mp hne
  have hnodup := h.nodup
  cases hs with
  | moves hth hphase hplace hle hge =>
    exact ⟨h.update hth hplace hnodup (by grind), hle h.le_max, fun hq => hge hq (h.min_le hq)⟩
  | parks hth hphase hplace hfull =>
    refine ⟨h.update hth (by rw [hplace]) (List.nodup_cons.mpr ⟨ht, hnodup⟩)
      (by grind), h.le_max, ?_⟩
    exact fun _ => l.min_le_max.trans hfull
  | @hands th new queue hop hth hphase hold hplace hqueue =>
    have hnew := (h.parked new).mp (by simp [hqueue])
    have hok := h.ok new
    rw [hqueue] at ht hnodup
    have hleft : Core ⟨s.held - 1, s.queue, update s.thread t th⟩ :=
      h.update hth (by omega) h.nodup (by grind)
    refine ⟨hleft.update ?_ ?_ hnodup.of_cons ?_, h.le_max, fun _ => h.min_le (by simp [hqueue])⟩
    all_goals grind

omit [DecidableEq ι] in
theorem Inv.held_nonneg (h : s.Inv l) : 0 ≤ s.held :=
  h.held ▸ Finset.sum_nonneg fun t _ => by grind

/-- Who is parked resumes with the place of a cthread that goes busy. -/
def Resumes (l : MsgLimits) (s : MsgSystem ι) : Prop :=
  ∀ t u op s', (s.thread t).phase = .parked → step l (u, op) s = some (s', ()) →
    (s'.thread t).phase = .parked ∨ op = .msgBusy ∧ (s'.thread t).phase = .placed ∧
      (s.thread u).place = 1 ∧ (s'.thread u).place = 0 ∧ s'.held = s.held

theorem Inv.resumes (h : s.Inv l) : s.Resumes l := by
  intro t u op s' ht hstep
  obtain ⟨hne, hs⟩ := step_stepped (h.ok u) hstep
  have htu : t ≠ u := by
    rintro rfl
    exact hne ht
  cases hs with
  | moves => exact .inl (by simpa [htu] using ht)
  | parks => exact .inl (by simpa [htu] using ht)
  | @hands th new queue hop hth hphase hold hplace hqueue =>
    rcases eq_or_ne t new with rfl | hnew
    · exact .inr ⟨hop, by simp, hold, by simpa [htu.symm] using hplace, rfl⟩
    · exact .inl (by simpa [hnew, htu] using ht)

/-- In every run the places are counted and within the limits, and each message is sent once. -/
theorem machMsg_bounded (l : MsgLimits) (ops : List (ι × MsgOp)) :
    Machine.Always (step l) (fun s => s.Inv l ∧ 0 ≤ s.held ∧ s.Resumes l) ops init := by
  have hinv : Machine.Always (step l) (Inv l) ops init := by
    apply Machine.Always.of_keeps _ (inv_init l)
    intro s op s' r h hstep
    obtain ⟨hne, hs⟩ := step_stepped (h.ok op.1) hstep
    exact h.stepped hne hs
  exact hinv.mono fun _ h => ⟨h, h.held_nonneg, h.resumes⟩

/-- A port with one place. -/
def onePlace : MsgLimits := ⟨1, 1, by decide, by decide⟩

/-- The second cthread sends its message separately and is parked, until the first one is busy. -/
def handOver : List (Bool × MsgOp) :=
  [(false, .machMsg false true), (false, .lock), (false, .record), (true, .machMsg true true),
    (true, .lock), (true, .sendDone true), (false, .message true), (false, .received),
    (false, .msgBusy)]

theorem machMsg_bounded_handOver : ∃ s, Machine.run (step onePlace) handOver init = some s ∧
      (s.thread true).phase = .placed ∧ (s.thread true).sends = 1 ∧ s.held = 1 ∧
      s.Inv onePlace ∧ 0 ≤ s.held ∧ s.Resumes onePlace :=
  ⟨_, rfl, rfl, rfl, rfl, (machMsg_bounded onePlace handOver).last rfl⟩

end MsgSystem

end Mach
