import Mach.Lib.Pending
import Mach.Lib.Runs

/-!
# Suspension of a task and its threads

A task and each of its threads have a count of the calls of users that stop them, `user_stop_count`.
The thread has a second count, `suspend_count`, of all reasons to be stopped: its own stop count is
one reason, that of its task is another, and each `thread_halt` is one more.  The flag `TH_SUSP` is
set when the second count is incremented, and cleared when it becomes 0.

`task_suspend` and `task_resume` change the count of the task in one critical section.  If it became
1 or 0, they hold or release all threads, in others.  A thread that suspends its own task is held
after all others have stopped.  So a release may come before the hold that it answers.  Then the
count of a thread is negative for some time, and becomes 0 by a hold, which sets `TH_SUSP`.

A state has the list of calls in progress.  A step is what a call does between two points where it
releases the lock of a thread or of the task.  What the scheduler does with a thread otherwise is
any change of `TH_RUN` and `TH_WAIT` after which a thread without `TH_SUSP` has one of them.  The
task stays active, and its processor set is not empty.
-/

namespace Mach

open Function Option List

/-- The value of an `int`. -/
def int32 (n : Int) : Int := n.bmod (2 ^ 32)

variable {n : Int}

theorem int32_eq (hle : -2 ^ 31 ≤ n) (hlt : n < 2 ^ 31) : int32 n = n := by
  rw [int32, Int.bmod_eq_iff (by decide)]
  exact ⟨by omega, by omega, by simp⟩

theorem int32_succ (h : 0 ≤ n ∧ n < 2 ^ 31 - 1) : int32 (n + 1) = n + 1 :=
  int32_eq (by omega) (by omega)

theorem int32_pred (h : 0 ≤ n ∧ n < 2 ^ 31 - 1) : int32 (n - 1) = n - 1 :=
  int32_eq (by omega) (by omega)

/-- `struct thread`, with what suspension uses. -/
structure SuspThread where
  suspendCount : Int
  userStopCount : Int
  /-- `TH_SUSP`. -/
  susp : Bool
  /-- `TH_RUN`. -/
  run : Bool
  /-- `TH_WAIT`. -/
  wait : Bool
  halted : Bool
  /-- `AST_HALT`. -/
  astHalt : Bool
  /-- The thread has seen `AST_HALT` and calls `thread_halt_self`. -/
  noticed : Bool
  /-- The number of calls of `thread_halt` that succeeded, without a `thread_release` yet. -/
  halts : Nat
deriving Repr, DecidableEq

/-- Where a call is, when it has no lock or only that of the task. -/
inductive SuspCall where
  /-- `task_suspend` will call `task_hold`.  The current thread is in the task, or is not. -/
  | holdTask (cur : Option Nat)
  /-- In the loop of `task_hold`, with the task locked. -/
  | holdThreads (cur : Option Nat) (rest : List Nat)
  /-- `task_suspend` is in `task_dowait`. -/
  | waitTask (cur : Option Nat)
  /-- In `thread_dowait`, with all holds done. -/
  | waitThread
  /-- `task_resume` will call `task_release`. -/
  | releaseTask
  /-- In the loop of `task_release`, with the task locked. -/
  | releaseThreads (rest : List Nat)
  /-- `thread_halt` has held the thread.  `sets` says that it has set `AST_HALT`. -/
  | halting (t : Nat) (mustHalt sets : Bool)
  /-- `thread_halt` has failed and will call `thread_release`. -/
  | haltFailed (t : Nat)
  | returned
deriving Repr, DecidableEq

/-- An operation.  The calls in progress have numbers. -/
inductive SuspOp where
  | taskSuspend (cur : Option Nat)
  | taskResume
  | threadSuspend (t : Nat)
  | threadResume (t : Nat)
  | threadCreate
  /-- `curHalt` says that the caller has `AST_HALT` itself. -/
  | threadHalt (t : Nat) (mustHalt curHalt : Bool)
  /-- `thread_release` after a `thread_halt`. -/
  | threadRelease (t : Nat)
  /-- A call goes on. -/
  | proceed (i : Nat)
  /-- The wait in `thread_halt` is interrupted. -/
  | interrupt (i : Nat)
  /-- The thread tests `thread_should_halt`. -/
  | notice (t : Nat)
  | threadHaltSelf (t : Nat)
  /-- The scheduler changes the state of the thread. -/
  | schedule (t : Nat) (run wait : Bool)
deriving Repr, DecidableEq

/-- What a call returned, if it did. -/
inductive SuspResult where
  | success
  | failure
  | goesOn
deriving Repr, DecidableEq

namespace SuspThread

/-- The thread that `thread_create` makes. -/
def create (taskSuspendCount : Int) : SuspThread where
  suspendCount := int32 (taskSuspendCount + 1)
  userStopCount := 1
  susp := true
  run := false
  wait := false
  halted := false
  astHalt := false
  noticed := false
  halts := 0

/-- `thread_hold`. -/
def hold (th : SuspThread) : SuspThread :=
  { th with suspendCount := int32 (th.suspendCount + 1), susp := true }

/-- `thread_release`. -/
def release (th : SuspThread) : SuspThread :=
  let th := { th with suspendCount := int32 (th.suspendCount - 1) }
  if th.suspendCount = 0 then
    { th with halted := false, susp := false, run := th.run || !th.wait }
  else th

/-- `thread_suspend`, until it waits. -/
def suspend (th : SuspThread) : SuspThread :=
  let stopped := { th with userStopCount := int32 (th.userStopCount + 1) }
  if th.userStopCount = 0 then stopped.hold else stopped

/-- `thread_resume`, for a thread that is stopped. -/
def resume (th : SuspThread) : SuspThread :=
  let th := { th with userStopCount := int32 (th.userStopCount - 1) }
  if th.userStopCount = 0 then th.release else th

end SuspThread

open SuspThread

/-- A task, its threads, and the calls in progress. -/
structure Suspension where
  userStopCount : Int
  suspendCount : Int
  /-- The threads have the numbers below this one. -/
  created : Nat
  thread : Nat → SuspThread
  calls : List SuspCall

/-- The call has the task locked. -/
def SuspCall.locks : SuspCall → Bool
  | .holdThreads _ _ => true
  | .releaseThreads _ => true
  | _ => false

namespace Suspension

/-- A new task. -/
def init : Suspension := ⟨0, 0, 0, fun _ => SuspThread.create 0, []⟩

/-- The task is locked. -/
def locked (s : Suspension) : Bool := s.calls.any SuspCall.locks

/-- Change a thread. -/
def set (t : Nat) (th : SuspThread) (s : Suspension) : Suspension :=
  { s with thread := update s.thread t th }

/-- A call begins. -/
def begin (c : SuspCall) (s : Suspension) : Suspension := { s with calls := s.calls ++ [c] }

/-- A call is at another point. -/
def goto (i : Nat) (c : SuspCall) (s : Suspension) : Suspension :=
  { s with calls := s.calls.set i c }

/-- `task_suspend`, until it has counted. -/
def taskSuspend (cur : Option Nat) (s : Suspension) : Suspension × SuspResult :=
  let counted := { s with userStopCount := int32 (s.userStopCount + 1) }
  if s.userStopCount = 0 then (counted.begin (.holdTask cur), .goesOn) else (counted, .success)

/-- `task_resume`, until it has counted. -/
def taskResume (s : Suspension) : Suspension × SuspResult :=
  if 0 < s.userStopCount then
    let s := { s with userStopCount := int32 (s.userStopCount - 1) }
    if s.userStopCount = 0 then (s.begin .releaseTask, .goesOn) else (s, .success)
  else (s, .failure)

/-- `thread_suspend`, until it waits. -/
def threadSuspend (t : Nat) (s : Suspension) : Suspension × SuspResult :=
  let suspended := s.set t (s.thread t).suspend
  if (s.thread t).userStopCount = 0 then (suspended.begin .waitThread, .goesOn)
  else (suspended, .success)

/-- `thread_resume`. -/
def threadResume (t : Nat) (s : Suspension) : Suspension × SuspResult :=
  if 0 < (s.thread t).userStopCount then (s.set t (s.thread t).resume, .success) else (s, .failure)

/-- `thread_create`. -/
def threadCreate (s : Suspension) : Suspension :=
  { s.set s.created (SuspThread.create s.suspendCount) with created := s.created + 1 }

/-- `thread_halt`, until it unlocks the thread.  A thread that is halted already is held without a
change of its state. -/
def threadHalt (t : Nat) (mustHalt curHalt : Bool) (s : Suspension) : Suspension × SuspResult :=
  let th := s.thread t
  if th.halted then
    (s.set t { th with
      suspendCount := int32 (th.suspendCount + 1), halts := th.halts + 1 }, .success)
  else if !mustHalt && curHalt then (s, .failure)
  else if th.astHalt then ((s.set t th.hold).begin (.halting t mustHalt false), .goesOn)
  else ((s.set t { th.hold with astHalt := true }).begin (.halting t mustHalt true), .goesOn)

/-- The end of `thread_halt`, or of its sleep.  Otherwise it still waits. -/
def halting (i t : Nat) (mustHalt sets : Bool) (s : Suspension) :
    Option (Suspension × SuspResult) :=
  let th := s.thread t
  if th.halted then some ((s.set t { th with halts := th.halts + 1 }).goto i .returned, .success)
  else if sets || th.astHalt then none
  else some ((s.set t { th with astHalt := true }).goto i (.halting t mustHalt true), .goesOn)

/-- A call goes on, up to where it gives up a lock. -/
def proceed (i : Nat) (s : Suspension) : SuspCall → Option (Suspension × SuspResult)
  | .holdTask cur =>
    if s.locked then none
    else
      some
        ({ s with suspendCount := int32 (s.suspendCount + 1) }.goto i
          (.holdThreads cur (List.range s.created)), .goesOn)
  | .holdThreads cur (t :: rest) =>
    some ((if cur = some t then s else s.set t (s.thread t).hold).goto i (.holdThreads cur rest),
      .goesOn)
  | .holdThreads cur [] => some (s.goto i (.waitTask cur), .goesOn)
  | .waitTask none => some (s.goto i .returned, .success)
  | .waitTask (some t) => some ((s.set t (s.thread t).hold).goto i .waitThread, .goesOn)
  | .waitThread => some (s.goto i .returned, .success)
  | .releaseTask =>
    if s.locked then none
    else
      some
        ({ s with suspendCount := int32 (s.suspendCount - 1) }.goto i
          (.releaseThreads (List.range s.created)), .goesOn)
  | .releaseThreads (t :: rest) =>
    some ((s.set t (s.thread t).release).goto i (.releaseThreads rest), .goesOn)
  | .releaseThreads [] => some (s.goto i .returned, .success)
  | .halting t mustHalt sets => s.halting i t mustHalt sets
  | .haltFailed t => some ((s.set t (s.thread t).release).goto i .returned, .failure)
  | .returned => none

/-- The wait of a call is interrupted.  Only `thread_halt` fails for it. -/
def interrupt (i : Nat) (s : Suspension) : SuspCall → Option (Suspension × SuspResult)
  | .halting t false true =>
    some ((s.set t { s.thread t with astHalt := false }).goto i (.haltFailed t), .goesOn)
  | .halting t false false =>
    if (s.thread t).halted then none else some (s.goto i (.haltFailed t), .goesOn)
  | _ => none

/-- A call begins, or goes on. -/
def step : Machine SuspOp SuspResult Suspension
  | .taskSuspend cur, s =>
    if s.locked ∨ ∃ t ∈ cur, s.created ≤ t then none else some (s.taskSuspend cur)
  | .taskResume, s => if s.locked then none else some s.taskResume
  | .threadSuspend t, s => if t < s.created then some (s.threadSuspend t) else none
  | .threadResume t, s => if t < s.created then some (s.threadResume t) else none
  | .threadCreate, s => if s.locked then none else some (s.threadCreate, .success)
  | .threadHalt t mustHalt curHalt, s =>
    if t < s.created then some (s.threadHalt t mustHalt curHalt) else none
  | .threadRelease t, s =>
    let th := s.thread t
    if t < s.created ∧ 0 < th.halts then
      some (s.set t { th with halts := th.halts - 1 }.release, .success)
    else none
  | .proceed i, s => s.calls[i]?.bind (s.proceed i)
  | .interrupt i, s => s.calls[i]?.bind (s.interrupt i)
  | .notice t, s =>
    let th := s.thread t
    if t < s.created ∧ th.run ∧ th.astHalt then some (s.set t { th with noticed := true }, .goesOn)
    else none
  | .threadHaltSelf t, s =>
    let th := s.thread t
    if t < s.created ∧ th.noticed then
      some (s.set t { th with halted := true, astHalt := false, noticed := false }, .goesOn)
    else none
  | .schedule t run wait, s =>
    let th := s.thread t
    if t < s.created ∧ (th.susp ∨ run ∨ wait) then
      some (s.set t { th with run := run, wait := wait }, .goesOn)
    else none

end Suspension

/-! ### The balance -/

namespace SuspCall

/-- What the call has still to add to the `suspend_count` of the task. -/
def task : SuspCall → Int
  | .holdTask _ => 1
  | .releaseTask => -1
  | _ => 0

/-- What the call has still to add to the `suspend_count` of a thread. -/
def pending (t : Nat) : SuspCall → Int
  | .holdThreads cur rest => if cur = some t ∨ t ∈ rest then 1 else 0
  | .waitTask cur => if cur = some t then 1 else 0
  | .releaseThreads rest => if t ∈ rest then -1 else 0
  | .halting u _ _ => if u = t then -1 else 0
  | .haltFailed u => if u = t then -1 else 0
  | _ => 0

/-- The threads of the call are threads of the task. -/
def Wf (n : Nat) : SuspCall → Prop
  | .holdTask cur => ∀ t ∈ cur, t < n
  | .holdThreads cur rest => (∀ t ∈ cur, t < n) ∧ rest.Nodup ∧ ∀ t ∈ rest, t < n
  | .waitTask cur => ∀ t ∈ cur, t < n
  | .releaseThreads rest => rest.Nodup ∧ ∀ t ∈ rest, t < n
  | .halting t _ _ => t < n
  | .haltFailed t => t < n
  | _ => True

variable {c : SuspCall}

theorem Wf.mono {n : Nat} (h : c.Wf n) : c.Wf (n + 1) := by
  cases c with
  | holdTask cur | waitTask => exact fun t ht => Nat.lt_succ_of_lt (h t ht)
  | holdThreads cur rest =>
    exact ⟨fun t ht => Nat.lt_succ_of_lt (h.1 t ht), h.2.1,
      fun t ht => Nat.lt_succ_of_lt (h.2.2 t ht)⟩
  | releaseThreads => exact ⟨h.1, fun t ht => Nat.lt_succ_of_lt (h.2 t ht)⟩
  | halting t | haltFailed => exact Nat.lt_succ_of_lt h
  | _ => trivial

theorem Wf.pending_eq_zero {n : Nat} (h : c.Wf n) (hlocks : ¬ c.locks = true) :
    c.pending n = 0 := by
  cases c with
  | holdThreads cur rest | releaseThreads => exact absurd rfl hlocks
  | waitTask => exact if_neg fun heq => Nat.lt_irrefl n (h n heq)
  | halting t | haltFailed => exact if_neg (Nat.ne_of_lt h)
  | _ => rfl

end SuspCall

open SuspCall

/-- What `user_stop_count` stands for in `suspend_count`. -/
def stops (userStopCount : Int) : Int := if 0 < userStopCount then 1 else 0

/-- `TH_SUSP` says whether there is a reason to be stopped, and a thread without it runs or
waits. -/
structure SuspThread.Agrees (th : SuspThread) : Prop where
  stop : 0 ≤ th.userStopCount
  susp : th.susp = true ↔ 0 < th.suspendCount
  runs : th.susp = true ∨ th.run = true ∨ th.wait = true

theorem stops_of_pos (h : 0 < n) : stops n = 1 := if_pos h

theorem stops_of_le (h : n ≤ 0) : stops n = 0 := if_neg (Int.not_lt.mpr h)

namespace SuspThread

variable {th : SuspThread}

/-- The reasons to be stopped that the thread knows itself, and those that it does not know. -/
def rest (th : SuspThread) : Int := th.suspendCount - stops th.userStopCount - th.halts

theorem release_userStopCount : th.release.userStopCount = th.userStopCount := by
  rw [release]
  split <;> rfl

theorem release_halts : th.release.halts = th.halts := by
  rw [release]
  split <;> rfl

theorem create_rest (h : 0 ≤ n ∧ n < 2 ^ 31 - 1) : (create n).rest = n := by
  dsimp only [create, rest]
  rw [int32_succ h, stops_of_pos (by decide)]
  omega

theorem agrees_create (h : 0 ≤ n ∧ n < 2 ^ 31 - 1) : (create n).Agrees where
  stop := (by decide : (0 : Int) ≤ 1)
  susp := by
    have hnext := int32_succ h
    dsimp only [create]
    exact iff_of_true rfl (by omega)
  runs := .inl rfl

variable (hc : 0 ≤ th.suspendCount ∧ th.suspendCount < 2 ^ 31 - 1)

include hc

theorem release_suspendCount : th.release.suspendCount = th.suspendCount - 1 := by
  rw [release]
  split <;> exact int32_pred hc

theorem hold_rest : th.hold.rest = th.rest + 1 := by
  have hcount : th.hold.suspendCount = th.suspendCount + 1 := int32_succ hc
  rw [rest, rest, hcount]
  change _ - stops th.userStopCount - (th.halts : Int) = _
  omega

theorem release_rest : th.release.rest = th.rest - 1 := by
  rw [rest, rest, release_suspendCount hc, release_userStopCount, release_halts]
  omega

theorem Agrees.hold (h : th.Agrees) : th.hold.Agrees where
  stop := h.stop
  susp := by
    have hnext := int32_succ hc
    exact iff_of_true rfl (by dsimp only [SuspThread.hold]; omega)
  runs := .inl rfl

theorem Agrees.release (h : th.Agrees) (hnext : 0 ≤ th.release.suspendCount) :
    th.release.Agrees := by
  have hcount := release_suspendCount hc
  have hpred := int32_pred hc
  rw [SuspThread.release]
  dsimp only
  split
  next =>
    refine ⟨h.stop, ?_, ?_⟩
    · dsimp only
      exact iff_of_false Bool.false_ne_true (by omega)
    · cases th.wait <;> simp
  next =>
    refine ⟨h.stop, ?_, h.runs⟩
    dsimp only
    rw [h.susp]
    omega

variable (hstoplt : th.userStopCount < 2 ^ 31 - 1)

include hstoplt

theorem suspend_rest (hstop : 0 ≤ th.userStopCount) : th.suspend.rest = th.rest := by
  have hstops : stops (th.userStopCount + 1) = 1 := stops_of_pos (by omega)
  rw [suspend, int32_succ ⟨hstop, hstoplt⟩]
  split
  next =>
    dsimp only [hold, rest]
    rw [int32_succ hc, hstops, stops_of_le (by omega)]
    omega
  next =>
    dsimp only [rest]
    rw [hstops, stops_of_pos (by omega)]

theorem Agrees.suspend (h : th.Agrees) : th.suspend.Agrees := by
  have hstop := h.stop
  have hstopped : { th with userStopCount := th.userStopCount + 1 }.Agrees :=
    ⟨by dsimp only; omega, h.susp, h.runs⟩
  rw [SuspThread.suspend, int32_succ ⟨hstop, hstoplt⟩]
  split
  · exact hstopped.hold hc
  · exact hstopped

variable (hpos : 0 < th.userStopCount)

include hpos

theorem resume_rest : th.resume.rest = th.rest := by
  have hstops : stops th.userStopCount = 1 := stops_of_pos hpos
  rw [resume, int32_pred ⟨Int.le_of_lt hpos, hstoplt⟩]
  dsimp only
  split
  next hzero =>
    have hrelease : { th with userStopCount := th.userStopCount - 1 }.release.rest =
        { th with userStopCount := th.userStopCount - 1 }.rest - 1 := release_rest hc
    rw [hrelease]
    dsimp only [rest]
    rw [hstops, hzero, stops_of_le (Int.le_refl 0)]
    omega
  next =>
    dsimp only [rest]
    rw [hstops, stops_of_pos (by omega)]

theorem Agrees.resume (h : th.Agrees) (hcount : 0 ≤ th.resume.suspendCount) : th.resume.Agrees := by
  have hresumed : { th with userStopCount := th.userStopCount - 1 }.Agrees :=
    ⟨by dsimp only; omega, h.susp, h.runs⟩
  rw [SuspThread.resume, int32_pred ⟨Int.le_of_lt hpos, hstoplt⟩] at hcount ⊢
  split at hcount
  next hzero =>
    rw [if_pos hzero]
    exact hresumed.release hc hcount
  next hne =>
    rw [if_neg hne]
    exact hresumed

end SuspThread

namespace Suspension

/-- The counts, with what the calls in progress have still to do. -/
structure Inv (s : Suspension) : Prop where
  wf : ∀ c ∈ s.calls, c.Wf s.created
  stop : 0 ≤ s.userStopCount
  task : s.suspendCount + Pending.total SuspCall.task s.calls = stops s.userStopCount
  thread : ∀ t < s.created,
    (s.thread t).rest + Pending.total (SuspCall.pending t) s.calls = s.suspendCount
  agrees : ∀ t < s.created, (s.thread t).Agrees

/-- The counts are in the range that is meant for them: no hold is missing, a thread that has halted
is held, and no count is as large as an `int` can be. -/
structure InRange (s : Suspension) : Prop where
  stop : s.userStopCount < 2 ^ 31 - 1
  task : 0 ≤ s.suspendCount ∧ s.suspendCount < 2 ^ 31 - 1
  threadStop : ∀ t < s.created, (s.thread t).userStopCount < 2 ^ 31 - 1
  thread : ∀ t < s.created,
    0 ≤ (s.thread t).suspendCount ∧ (s.thread t).suspendCount < 2 ^ 31 - 1
  halted : ∀ t < s.created, (s.thread t).halted = true → 0 < (s.thread t).suspendCount

theorem InRange.counted {s : Suspension} {t : Nat} {th : SuspThread} (h : s.InRange)
    (ht : t < s.created) (heq : s.thread t = th) : 0 ≤ th.suspendCount :=
  heq ▸ (h.thread t ht).1

theorem inv_init : init.Inv where
  wf _ h := nomatch h
  stop := Int.le_refl 0
  task := rfl
  thread _ h := nomatch h
  agrees _ h := nomatch h

namespace Inv

variable {s : Suspension}

variable {t i : Nat} {th : SuspThread} {c c' : SuspCall} {cur : Option Nat} {s' : Suspension}
  {r : SuspResult}

variable (h : s.Inv) {calls : List SuspCall} {m : Int}

include h

theorem changed {thread : Nat → SuspThread} (hmem : ∀ d ∈ calls, d ∈ s.calls ∨ d = c')
    (htotal : ∀ f, f .returned = 0 → Pending.total f calls + f c = Pending.total f s.calls + f c')
    (hwf : c'.Wf s.created) (hn : 0 ≤ n)
    (htask : m + c'.task + stops s.userStopCount = s.suspendCount + c.task + stops n)
    (hthread : ∀ t < s.created,
      (thread t).rest + c'.pending t + s.suspendCount = (s.thread t).rest + c.pending t + m)
    (hagrees : ∀ t < s.created, (thread t).Agrees) :
    Inv { s with userStopCount := n, suspendCount := m, thread := thread, calls := calls } where
  wf d hd := (hmem d hd).elim (h.wf d) fun heq => heq ▸ hwf
  stop := hn
  task := by
    have hcalls := htotal SuspCall.task rfl
    have hold := h.task
    dsimp only
    omega
  thread t ht := by
    have hcalls := htotal (pending t) rfl
    have hold := h.thread t ht
    have hstep := hthread t ht
    dsimp only
    omega
  agrees := hagrees

theorem changedThread (hmem : ∀ d ∈ calls, d ∈ s.calls ∨ d = c')
    (htotal : ∀ f, f .returned = 0 → Pending.total f calls + f c = Pending.total f s.calls + f c')
    (hwf : c'.Wf s.created) (htask : c'.task = c.task)
    (hpending : ∀ u, u ≠ t → c'.pending u = c.pending u)
    (hrest : th.rest + c'.pending t = (s.thread t).rest + c.pending t) (hagrees : th.Agrees) :
    Inv { s.set t th with calls := calls } := by
  refine h.changed hmem htotal hwf h.stop (by rw [htask]; rfl) ?_ ?_
  · apply (forall_update_iff s.thread fun u (x : SuspThread) => u < s.created →
      x.rest + c'.pending u + s.suspendCount = (s.thread u).rest + c.pending u + s.suspendCount).mpr
    exact ⟨fun _ => by rw [hrest], fun u hu _ => by rw [hpending u hu]⟩
  · apply (forall_update_iff s.thread fun u (x : SuspThread) => u < s.created → x.Agrees).mpr
    exact ⟨fun _ => hagrees, fun u _ => h.agrees u⟩

theorem set (hrest : th.rest = (s.thread t).rest) (hagrees : th.Agrees) : (s.set t th).Inv :=
  h.changedThread (c := .returned) (fun _ => .inl) (fun _ _ => rfl) trivial rfl (fun _ _ => rfl)
    (by rw [hrest]) hagrees

section

variable (hc : s.calls[i]? = some c)
include hc

theorem setGoto (hwf : c'.Wf s.created) (htask : c'.task = c.task)
    (hpending : ∀ u, u ≠ t → c'.pending u = c.pending u)
    (hrest : th.rest + c'.pending t = (s.thread t).rest + c.pending t) (hagrees : th.Agrees) :
    ((s.set t th).goto i c').Inv :=
  h.changedThread (fun _ => mem_or_eq_of_mem_set) (fun _ _ => Pending.total_set hc c') hwf
    htask hpending hrest hagrees

theorem countGoto (hwf : c'.Wf s.created) (htask : m + c'.task = s.suspendCount + c.task)
    (hpending : ∀ t < s.created, c'.pending t + s.suspendCount = c.pending t + m) :
    ({ s with suspendCount := m }.goto i c').Inv := by
  refine h.changed (fun _ => mem_or_eq_of_mem_set) (fun _ _ => Pending.total_set hc c') hwf
    h.stop (by dsimp only; omega) (fun t ht => ?_) h.agrees
  have hp := hpending t ht
  dsimp only
  omega

theorem goto (hwf : c'.Wf s.created) (htask : c'.task = c.task)
    (hpending : ∀ t < s.created, c'.pending t = c.pending t) : (s.goto i c').Inv :=
  h.countGoto hc hwf (by rw [htask]) fun t ht => by rw [hpending t ht]

end

omit h in
theorem mem_or_eq_of_mem_begin {d : SuspCall} (hd : d ∈ s.calls ++ [c]) : d ∈ s.calls ∨ d = c :=
  (mem_append.mp hd).imp_right mem_singleton.mp

omit h in
theorem total_begin {f : SuspCall → Int} (hf : f .returned = 0) :
    Pending.total f (s.calls ++ [c]) + f .returned = Pending.total f s.calls + f c := by
  rw [Pending.total_append, hf, add_zero]

theorem setBegin (hwf : c.Wf s.created)
    (htask : c.task = 0) (hpending : ∀ u, u ≠ t → c.pending u = 0)
    (hrest : th.rest + c.pending t = (s.thread t).rest) (hagrees : th.Agrees) :
    ((s.set t th).begin c).Inv :=
  h.changedThread (fun _ => mem_or_eq_of_mem_begin) (fun _ => total_begin) hwf htask
    hpending (hrest.trans (add_zero _).symm) hagrees

theorem countBegin (hn : 0 ≤ n) (hwf : c.Wf s.created)
    (htask : stops s.userStopCount + c.task = stops n) (hpending : ∀ t, c.pending t = 0) :
    ({ s with userStopCount := n }.begin c).Inv :=
  h.changed (fun _ => mem_or_eq_of_mem_begin) (fun _ => total_begin) hwf hn
    (by change s.suspendCount + _ + _ = s.suspendCount + 0 + stops n; omega)
    (fun t _ => by rw [hpending]; rfl) h.agrees

theorem count (hn : 0 ≤ n) (hstops : stops s.userStopCount = stops n) :
    { s with userStopCount := n }.Inv where
  wf := h.wf
  stop := hn
  task := h.task.trans hstops
  thread := h.thread
  agrees := h.agrees

theorem halting {mustHalt sets : Bool} (hc : s.calls[i]? = some (.halting t mustHalt sets))
    (hstep : s.halting i t mustHalt sets = some (s', r)) : s'.Inv := by
  have ht : t < s.created := h.wf _ (mem_of_getElem? hc)
  rw [Suspension.halting] at hstep
  split at hstep
  · cases hstep
    refine h.setGoto hc trivial rfl ?_ ?_ ?_
    · exact fun u hu => (if_neg hu.symm).symm
    · dsimp only [pending, rest]
      omega
    · exact { h.agrees t ht with }
  · split at hstep
    · cases hstep
    cases hstep
    refine h.setGoto hc ht rfl ?_ ?_ ?_
    · exact fun u hu => rfl
    · rfl
    · exact { h.agrees t ht with }

theorem interrupt (hc : s.calls[i]? = some c) (hstep : s.interrupt i c = some (s', r)) :
    s'.Inv := by
  cases c with
  | halting t mustHalt sets =>
    have ht : t < s.created := h.wf _ (mem_of_getElem? hc)
    cases mustHalt with
    | true => cases hstep
    | false =>
      cases sets with
      | true =>
        cases hstep
        refine h.setGoto hc ht rfl ?_ ?_ ?_
        · exact fun u hu => rfl
        · rfl
        · exact { h.agrees t ht with }
      | false =>
        obtain ⟨-, hstep⟩ := ite_none_left_eq_some.mp hstep
        cases hstep
        exact h.goto hc ht rfl fun _ _ => rfl
  | _ => cases hstep

variable (hr : s.InRange)

include hr

theorem taskSuspend (hcur : ∀ t ∈ cur, t < s.created) : (s.taskSuspend cur).1.Inv := by
  have hstop := h.stop
  have hstops : stops (s.userStopCount + 1) = 1 := stops_of_pos (by omega)
  rw [Suspension.taskSuspend, int32_succ ⟨hstop, hr.stop⟩]
  split
  next =>
    apply h.countBegin
    · omega
    · exact hcur
    · rw [hstops, stops_of_le (by omega)]
      rfl
    · exact fun _ => rfl
  next =>
    apply h.count
    · omega
    · rw [hstops, stops_of_pos (by omega)]

theorem taskResume : s.taskResume.1.Inv := by
  rw [Suspension.taskResume]
  split
  next hpos =>
    have hnext := int32_pred ⟨h.stop, hr.stop⟩
    dsimp only
    split
    next =>
      apply h.countBegin
      · omega
      · trivial
      · rw [stops_of_pos hpos, stops_of_le (by omega)]
        rfl
      · exact fun _ => rfl
    next =>
      apply h.count
      · omega
      · rw [stops_of_pos hpos, stops_of_pos (by omega)]
  next => exact h

theorem threadSuspend (ht : t < s.created) : (s.threadSuspend t).1.Inv := by
  have hagrees := h.agrees t ht
  have hsuspend := hagrees.suspend (hr.thread t ht) (hr.threadStop t ht)
  have hrest := suspend_rest (hr.thread t ht) (hr.threadStop t ht) hagrees.stop
  rw [Suspension.threadSuspend]
  split
  next =>
    apply h.setBegin
    · trivial
    · rfl
    · exact fun _ _ => rfl
    · rw [hrest]
      exact add_zero _
    · exact hsuspend
  next => exact h.set hrest hsuspend

theorem threadResume (ht : t < s.created)
    (hnext : (s.threadResume t).1.InRange) : (s.threadResume t).1.Inv := by
  have hagrees := h.agrees t ht
  have hc := hr.thread t ht
  have hstoplt := hr.threadStop t ht
  rw [Suspension.threadResume] at hnext ⊢
  split
  next hpos =>
    rw [if_pos hpos] at hnext
    exact h.set (resume_rest hc hstoplt hpos)
      (hagrees.resume hc hstoplt hpos (hnext.counted ht (update_self ..)))
  next => exact h

theorem threadCreate (hlocked : s.locked = false) : s.threadCreate.Inv where
  wf c hc := (h.wf c hc).mono
  stop := h.stop
  task := h.task
  thread := by
    apply (forall_update_iff s.thread fun u (x : SuspThread) => u < s.created + 1 →
      x.rest + Pending.total (pending u) s.calls = s.suspendCount).mpr
    constructor
    · intro _
      rw [create_rest hr.task, Pending.total_eq_zero, add_zero]
      intro c hc
      refine (h.wf c hc).pending_eq_zero ?_
      exact (any_eq_false.mp hlocked) c hc
    · intro u hu hlt
      exact h.thread u (by omega)
  agrees := by
    apply (forall_update_iff s.thread fun u (x : SuspThread) => u < s.created + 1 → x.Agrees).mpr
    refine ⟨fun _ => agrees_create hr.task, fun u hu hlt => ?_⟩
    exact h.agrees u (by omega)

theorem threadHalt (ht : t < s.created)
    (mustHalt curHalt : Bool) : (s.threadHalt t mustHalt curHalt).1.Inv := by
  have hagrees := h.agrees t ht
  have hc := hr.thread t ht
  have hcount := int32_succ hc
  rw [Suspension.threadHalt]
  split
  next hhalted =>
    have hpos := hr.halted t ht hhalted
    apply h.set
    · dsimp only [rest]
      omega
    · refine ⟨hagrees.stop, ?_, hagrees.runs⟩
      dsimp only
      rw [hcount, hagrees.susp]
      omega
  have hhold := hold_rest hc
  split
  · exact h
  split
  · apply h.setBegin
    · exact ht
    · rfl
    · exact fun u hu => if_neg hu.symm
    · rw [pending, if_pos rfl, hhold]
      omega
    · exact hagrees.hold hc
  · apply h.setBegin
    · exact ht
    · rfl
    · exact fun u hu => if_neg hu.symm
    · rw [pending, if_pos rfl]
      change (s.thread t).hold.rest + -1 = _
      omega
    · exact { hagrees.hold hc with }

theorem threadRelease (ht : t < s.created) (hpos : 0 < (s.thread t).halts)
    (hnext : (s.set t { s.thread t with halts := (s.thread t).halts - 1 }.release).InRange) :
    (s.set t { s.thread t with halts := (s.thread t).halts - 1 }.release).Inv := by
  have hc := hr.thread t ht
  have hrelease : { s.thread t with halts := (s.thread t).halts - 1 }.release.rest =
      { s.thread t with halts := (s.thread t).halts - 1 }.rest - 1 :=
    release_rest hc
  have hsame : { s.thread t with halts := (s.thread t).halts - 1 }.Agrees :=
    { h.agrees t ht with }
  apply h.set
  · rw [hrelease]
    dsimp only [rest]
    omega
  · exact hsame.release hc (hnext.counted ht (update_self ..))

theorem holdTask (hc : s.calls[i]? = some (.holdTask cur)) :
    ({ s with suspendCount := int32 (s.suspendCount + 1) }.goto i
      (.holdThreads cur (List.range s.created))).Inv := by
  have hnext := int32_succ hr.task
  refine h.countGoto hc ?_ (by dsimp only [SuspCall.task]; omega) fun t ht => ?_
  · exact ⟨h.wf _ (mem_of_getElem? hc), nodup_range, fun t ht => mem_range.mp ht⟩
  · have hmem : cur = some t ∨ t ∈ range s.created := .inr (mem_range.mpr ht)
    dsimp only [pending]
    rw [if_pos hmem]
    omega

theorem releaseTask (hc : s.calls[i]? = some .releaseTask) :
    ({ s with suspendCount := int32 (s.suspendCount - 1) }.goto i
      (.releaseThreads (List.range s.created))).Inv := by
  have hnext := int32_pred hr.task
  refine h.countGoto hc ?_ (by dsimp only [SuspCall.task]; omega) fun t ht => ?_
  · exact ⟨nodup_range, fun t ht => mem_range.mp ht⟩
  · dsimp only [pending]
    rw [if_pos (mem_range.mpr ht)]
    omega

theorem holdThreads {rest : List Nat} (hc : s.calls[i]? = some (.holdThreads cur (t :: rest))) :
    ((if cur = some t then s else s.set t (s.thread t).hold).goto i
    (.holdThreads cur rest)).Inv := by
  obtain ⟨hcur, hnodup, hlt⟩ := h.wf _ (mem_of_getElem? hc)
  obtain ⟨hnot, hnodup⟩ := nodup_cons.mp hnodup
  have hwf : (SuspCall.holdThreads cur rest).Wf s.created :=
    ⟨hcur, hnodup, fun u hu => hlt u (mem_cons_of_mem t hu)⟩
  have hothers : ∀ u, u ≠ t →
      (SuspCall.holdThreads cur rest).pending u =
        (SuspCall.holdThreads cur (t :: rest)).pending u := by
    intro u hu
    simp [pending, hu]
  have ht := hlt t mem_cons_self
  split
  next heq =>
    refine h.goto hc hwf rfl ?_
    intro u _
    rcases eq_or_ne u t with rfl | hu
    · simp [pending, heq]
    · exact hothers u hu
  next hne =>
    refine h.setGoto hc hwf rfl hothers ?_ ?_
    · rw [hold_rest (hr.thread t ht)]
      simp [pending, hne, hnot]
    · exact (h.agrees t ht).hold (hr.thread t ht)

theorem releaseGoto (hc : s.calls[i]? = some c) (ht : t < s.created) (hwf : c'.Wf s.created)
    (htask : c'.task = c.task) (hpending : ∀ u, u ≠ t → c'.pending u = c.pending u)
    (hdone : c'.pending t = c.pending t + 1)
    (hnext : ((s.set t (s.thread t).release).goto i c').InRange) :
    ((s.set t (s.thread t).release).goto i c').Inv := by
  apply h.setGoto hc hwf htask hpending
  · rw [release_rest (hr.thread t ht)]
    omega
  · exact (h.agrees t ht).release (hr.thread t ht) (hnext.counted ht (update_self ..))

theorem proceed (hc : s.calls[i]? = some c) (hstep : s.proceed i c = some (s', r))
    (hnext : s'.InRange) : s'.Inv := by
  have hwf := h.wf _ (mem_of_getElem? hc)
  cases c with
  | holdTask cur =>
    obtain ⟨-, hstep⟩ := ite_none_left_eq_some.mp hstep
    cases hstep
    exact h.holdTask hr hc
  | holdThreads cur rest =>
    cases rest with
    | nil =>
      cases hstep
      refine h.goto hc hwf.1 rfl ?_
      simp [pending]
    | cons =>
      cases hstep
      exact h.holdThreads hr hc
  | waitTask cur =>
    cases cur with
    | none =>
      cases hstep
      exact h.goto hc trivial rfl fun _ _ => rfl
    | some t =>
      cases hstep
      have ht := hwf t rfl
      refine h.setGoto hc trivial rfl ?_ ?_ ?_
      · intro u hu
        simp [pending, hu.symm]
      · rw [hold_rest (hr.thread t ht)]
        simp [pending]
      · exact (h.agrees t ht).hold (hr.thread t ht)
  | waitThread =>
    cases hstep
    exact h.goto hc trivial rfl fun _ _ => rfl
  | releaseTask =>
    obtain ⟨-, hstep⟩ := ite_none_left_eq_some.mp hstep
    cases hstep
    exact h.releaseTask hr hc
  | releaseThreads rest =>
    cases rest with
    | nil =>
      cases hstep
      refine h.goto hc trivial rfl ?_
      simp [pending]
    | cons t =>
      cases hstep
      obtain ⟨hnodup, hlt⟩ := hwf
      obtain ⟨hnot, hnodup⟩ := nodup_cons.mp hnodup
      refine h.releaseGoto hr hc (hlt t mem_cons_self) ?_ rfl ?_ ?_ hnext
      · exact ⟨hnodup, fun u hu => hlt u (mem_cons_of_mem t hu)⟩
      · intro u hu
        simp [pending, hu]
      · simp [pending, hnot]
  | halting t => exact h.halting hc hstep
  | haltFailed =>
    cases hstep
    refine h.releaseGoto hr hc hwf trivial rfl ?_ ?_ hnext
    · exact fun u hu => (if_neg hu.symm).symm
    · simp [pending]
  | returned => cases hstep

/-- Every step keeps the balance, as long as the counts are in range. -/
theorem step {op : SuspOp}
    (hnext : s'.InRange) (hstep : Suspension.step op s = some (s', r)) : s'.Inv := by
  cases op with
  | taskSuspend cur =>
    obtain ⟨hnot, hstep⟩ := ite_none_left_eq_some.mp hstep
    obtain rfl := Machine.state_eq hstep
    apply h.taskSuspend hr
    intro t ht
    by_contra hlt
    exact hnot (.inr ⟨t, ht, Nat.not_lt.mp hlt⟩)
  | taskResume =>
    obtain ⟨-, hstep⟩ := ite_none_left_eq_some.mp hstep
    obtain rfl := Machine.state_eq hstep
    exact h.taskResume hr
  | threadSuspend t =>
    obtain ⟨ht, hstep⟩ := ite_none_right_eq_some.mp hstep
    obtain rfl := Machine.state_eq hstep
    exact h.threadSuspend hr ht
  | threadResume t =>
    obtain ⟨ht, hstep⟩ := ite_none_right_eq_some.mp hstep
    obtain rfl := Machine.state_eq hstep
    exact h.threadResume hr ht hnext
  | threadCreate =>
    obtain ⟨hlocked, hstep⟩ := ite_none_left_eq_some.mp hstep
    cases hstep
    exact h.threadCreate hr (Bool.not_eq_true _ ▸ hlocked)
  | threadHalt t mustHalt curHalt =>
    obtain ⟨ht, hstep⟩ := ite_none_right_eq_some.mp hstep
    obtain rfl := Machine.state_eq hstep
    exact h.threadHalt hr ht mustHalt curHalt
  | threadRelease t =>
    obtain ⟨⟨ht, hpos⟩, hstep⟩ := ite_none_right_eq_some.mp hstep
    cases hstep
    exact h.threadRelease hr ht hpos hnext
  | proceed i =>
    obtain ⟨c, hc, hstep⟩ := bind_eq_some_iff.mp hstep
    exact h.proceed hr hc hstep hnext
  | interrupt =>
    obtain ⟨c, hc, hstep⟩ := bind_eq_some_iff.mp hstep
    exact h.interrupt hc hstep
  | notice t =>
    obtain ⟨⟨ht, -, -⟩, hstep⟩ := ite_none_right_eq_some.mp hstep
    cases hstep
    exact h.set rfl { h.agrees t ht with }
  | threadHaltSelf t =>
    obtain ⟨⟨ht, -⟩, hstep⟩ := ite_none_right_eq_some.mp hstep
    cases hstep
    exact h.set rfl { h.agrees t ht with }
  | schedule t =>
    obtain ⟨⟨ht, hruns⟩, hstep⟩ := ite_none_right_eq_some.mp hstep
    cases hstep
    exact h.set rfl { h.agrees t ht with runs := hruns }

end Inv

/-! ### What the counts say -/

/-- All calls have returned. -/
def Quiet (s : Suspension) : Prop := ∀ c ∈ s.calls, c = .returned

instance (s : Suspension) : Decidable s.Quiet :=
  inferInstanceAs (Decidable (∀ c ∈ s.calls, c = .returned))

/-- The accounting is exact. -/
structure Accounts (s : Suspension) : Prop where
  stop : 0 ≤ s.userStopCount
  threadStop : ∀ t < s.created, 0 ≤ (s.thread t).userStopCount
  count : s.Quiet → ∀ t < s.created, (s.thread t).suspendCount =
    stops s.userStopCount + stops (s.thread t).userStopCount + (s.thread t).halts
  susp : s.Quiet → ∀ t < s.created,
    ((s.thread t).susp = true ↔ 0 < (s.thread t).suspendCount)
  /-- The thread runs or waits if it was resumed as often as it was suspended. -/
  runs : s.Quiet → ∀ t < s.created,
    ((s.thread t).susp = false ∧ ((s.thread t).run = true ∨ (s.thread t).wait = true) ↔
      s.userStopCount = 0 ∧ (s.thread t).userStopCount = 0 ∧ (s.thread t).halts = 0)

variable {s : Suspension}

theorem Inv.count_eq (h : s.Inv) (hquiet : s.Quiet) {t : Nat}
    (ht : t < s.created) : (s.thread t).suspendCount =
      stops s.userStopCount + stops (s.thread t).userStopCount + (s.thread t).halts := by
  have htask := h.task
  have hthread := h.thread t ht
  rw [Pending.total_eq_zero fun c hc => by rw [hquiet c hc]; rfl] at htask hthread
  rw [rest] at hthread
  omega

theorem stops_nonneg (n : Int) : 0 ≤ stops n := by
  rw [stops]
  split <;> decide

theorem stops_eq_zero (hn : 0 ≤ n) : stops n = 0 ↔ n = 0 := by
  rw [stops]
  split <;> omega

theorem Inv.accounts (h : s.Inv) : s.Accounts where
  stop := h.stop
  threadStop t ht := (h.agrees t ht).stop
  count hquiet _ ht := h.count_eq hquiet ht
  susp _ t ht := (h.agrees t ht).susp
  runs hquiet t ht := by
    obtain ⟨hstop, hsusp, hruns⟩ := h.agrees t ht
    have hcount := h.count_eq hquiet ht
    have htask := stops_nonneg s.userStopCount
    have hthread := stops_nonneg (s.thread t).userStopCount
    rw [← stops_eq_zero h.stop, ← stops_eq_zero hstop]
    cases hflag : (s.thread t).susp with
    | true =>
      have hpos := hsusp.mp hflag
      refine iff_of_false (fun hf => nomatch hf.1) ?_
      omega
    | false =>
      have hzero : ¬ 0 < (s.thread t).suspendCount := by
        rw [← hsusp, hflag]
        exact Bool.false_ne_true
      rw [hflag] at hruns
      refine iff_of_true ⟨rfl, hruns.resolve_left Bool.false_ne_true⟩ ?_
      omega

/-- Along every run of any number of calls, as long as the counts are in range, the accounting is
exact. -/
theorem suspension_exact {ops : List SuspOp} (h : Machine.Always step InRange ops init) :
    Machine.Always step Accounts ops init := by
  have hinv : Machine.Always step Inv ops init :=
    h.invariant (fun s op s' r hs hr hnext hstep => hs.step hr hnext hstep) inv_init
  exact hinv.mono fun _ hs => hs.accounts

instance (s : Suspension) : Decidable s.InRange :=
  decidable_of_iff (s.userStopCount < 2 ^ 31 - 1 ∧
      (0 ≤ s.suspendCount ∧ s.suspendCount < 2 ^ 31 - 1) ∧
      (∀ t < s.created, (s.thread t).userStopCount < 2 ^ 31 - 1) ∧
      (∀ t < s.created,
        0 ≤ (s.thread t).suspendCount ∧ (s.thread t).suspendCount < 2 ^ 31 - 1) ∧
      ∀ t < s.created, (s.thread t).halted = true → 0 < (s.thread t).suspendCount)
    ⟨fun ⟨h₁, h₂, h₃, h₄, h₅⟩ => ⟨h₁, h₂, h₃, h₄, h₅⟩,
      fun h => ⟨h.stop, h.task, h.threadStop, h.thread, h.halted⟩⟩

/-- A thread is made and resumed, and its task is suspended by a call from outside. -/
def suspendOutside : List SuspOp :=
  [.threadCreate, .threadResume 0, .taskSuspend none, .proceed 0, .proceed 0, .proceed 0,
    .schedule 0 false false, .proceed 0]

theorem suspension_exact_outside : Machine.Always step InRange suspendOutside init ∧
      ∃ s, Machine.run step suspendOutside init = some s ∧ s.Accounts := by
  have h : Machine.Always step InRange suspendOutside init := by
    repeat refine .cons (by decide +kernel) rfl ?_
    exact .nil (by decide +kernel)
  exact ⟨h, _, rfl, (suspension_exact h).last rfl⟩

/-- The task is resumed before the call that suspends it has held the thread. -/
def resumeFirst : List SuspOp :=
  [.threadCreate, .threadResume 0, .taskSuspend none, .taskResume, .proceed 1,
    .proceed 1, .proceed 1,
    .proceed 0, .proceed 0, .proceed 0, .schedule 0 false false, .proceed 0]

/-- The thread stays suspended. -/
theorem not_accounts_resumeFirst : ¬ Machine.Always step Accounts resumeFirst init := by
  intro h
  have hlast := (h.last rfl).susp (by decide) 0 (by decide)
  exact absurd hlast (by decide)

end Suspension

end Mach
