import Mathlib.Data.List.Basic

/-!
# Kernel stacks of threads

A thread that blocks with a continuation does not need its kernel stack, and `thread_swapout`
discards it.  The thread resumes at the continuation, on a new stack.  A thread that blocks without
a continuation needs its stack, and resumes after the call of `thread_block`.

An operation of the scheduler is what one processor does while it holds the lock of a thread.  A
function that releases this lock and takes it again is more than one operation, and others come in
between.

Two places call `thread_swapout`.  `thread_continue` does so for a thread that has blocked with a
continuation.  `thread_dowait` does so for any interruptible thread that it takes off a run queue,
and makes it resume at `thread_exception_return`.  It takes for granted that such a thread was
interrupted in user mode.

A thread that has blocked without a continuation is safe (`Thread.Safe`) if it has its stack and if
others cannot suspend it before it resumes.  So it has to wait, and not be interruptible.  Then it
is not interruptible either when it is on a run queue again, and `thread_dowait` leaves it there.
-/

namespace Mach

/-- A function that a thread runs on a new stack. -/
inductive Func where
  | threadExceptionReturn
  | threadBootstrapReturn
  | other (n : Nat)
deriving Repr, DecidableEq

/-- The flags of `thread->state`.  Threads with `TH_IDLE` are not modelled. -/
structure ThreadState where
  wait : Bool
  susp : Bool
  run : Bool
  swapped : Bool
deriving Repr, DecidableEq

/-- `thread->swap_state`, with the flag `TH_SW_MAKE_UNSWAPPABLE` where it can be set. -/
inductive SwapState where
  | unswappable
  | swappedIn
  | goingOut
  | wantIn (makeUnswappable : Bool)
  | out
  | comingIn (makeUnswappable : Bool)
deriving Repr, DecidableEq

/-- Where a thread resumes that has a kernel stack. -/
inductive Point where
  /-- After its call of `thread_block`. -/
  | afterBlock
  | function (f : Func)
deriving Repr, DecidableEq

/-- Where a thread is that has `TH_RUN`. -/
inductive Place where
  | off
  | runq
  /-- It is the `next_thread` of an idle processor. -/
  | next
  | running
  /-- The processor has switched to another thread and will call `thread_continue`. -/
  | leaving (continuation : Option Func)
deriving Repr, DecidableEq

/-- `struct thread`, with what the scheduler uses. -/
structure Thread where
  state : ThreadState
  swapState : SwapState
  swapFunc : Func
  suspendCount : Int
  userStopCount : Int
  interruptible : Bool
  wakeActive : Bool
  waitEvent : Nat
  /-- `kernel_stack`, for where it makes the thread resume. -/
  kernelStack : Option Point
  place : Place
  /-- A processor is in `thread_swapout` and has unlocked the thread. -/
  freeing : Option Func
  /-- The thread is on `swapin_queue`. -/
  queued : Bool
  /-- The continuation of the last call of `thread_block`.  An interruption of user mode is a call
  with `thread_exception_return`. -/
  stop : Option Func
deriving Repr, DecidableEq

/-- What an operation leaves to other parts of the kernel. -/
structure Choice where
  /-- `stack_alloc_try` succeeds. -/
  alloc : Bool
  /-- `thread_setrun` finds an idle processor. -/
  idle : Bool
deriving Repr, DecidableEq

namespace Thread

/-- The thread that `thread_create` makes, in a task that is suspended some times. -/
def create (suspended : Nat) : Thread where
  state := ⟨false, true, false, true⟩
  swapState := .out
  swapFunc := .threadBootstrapReturn
  suspendCount := suspended + 1
  userStopCount := 1
  interruptible := true
  wakeActive := false
  waitEvent := 0
  kernelStack := none
  place := .off
  freeing := none
  queued := false
  stop := some .threadBootstrapReturn

/-- `thread_setrun`. -/
def setrun (ch : Choice) (th : Thread) : Thread :=
  { th with place := if ch.idle then .next else .runq }

/-- A new stack is attached to the thread, on which it runs `swap_func`. -/
def stackAttach (makeUnswappable : Bool) (th : Thread) : Thread :=
  { th with
      kernelStack := some (.function th.swapFunc)
      swapState := if makeUnswappable then .unswappable else .swappedIn
      queued := false
      state := { th.state with swapped := false } }

/-- The thread has a new stack. -/
def swappedIn (makeUnswappable : Bool) (ch : Choice) (th : Thread) : Thread :=
  if th.state.run then (th.stackAttach makeUnswappable).setrun ch
  else th.stackAttach makeUnswappable

/-- `thread_swapin`.  `none` is the panic. -/
def swapin (makeUnswappable : Bool) (ch : Choice) (th : Thread) : Option Thread :=
  match th.swapState with
  | .out =>
    if ch.alloc then some (th.swappedIn makeUnswappable ch)
    else some { th with swapState := .comingIn makeUnswappable, queued := true }
  | .goingOut => some { th with swapState := .wantIn makeUnswappable }
  | .wantIn u => some { th with swapState := .wantIn (u || makeUnswappable) }
  | .comingIn u => some { th with swapState := .comingIn (u || makeUnswappable) }
  | _ => none

/-- `thread_doswapin`, for a thread from `swapin_queue`. -/
def doswapin (ch : Choice) (th : Thread) : Option Thread :=
  if th.queued then
    let makeUnswappable := th.swapState == .comingIn true
    some (th.swappedIn makeUnswappable ch)
  else none

/-- `thread_swapout`, until it unlocks the thread. -/
def swapout (func : Func) (th : Thread) : Thread :=
  { th with
      state := { th.state with swapped := true }
      swapState := .goingOut
      freeing := some func }

/-- `thread_swapout`, from `stack_free` on. -/
def swapoutDone (ch : Choice) (th : Thread) : Option Thread :=
  match th.freeing with
  | none => none
  | some func =>
    let out :=
      { th with freeing := none, kernelStack := none, swapState := .out, swapFunc := func }
    match th.swapState with
    | .wantIn u => out.swapin u ch
    | _ => some out

/-- The part that `clear_wait`, `thread_wakeup_prim` and `ipc_thread_go` have in common.  They
differ in what they do for a thread that is running or suspended. -/
def awaken (other : Thread → Option Thread) (ch : Choice) (th : Thread) : Option Thread :=
  match th.state with
  | ⟨true, true, false, false⟩ =>
    if th.interruptible then some { th with state := ⟨false, true, false, false⟩ }
    else some ({ th with state := ⟨false, true, true, false⟩ }.setrun ch)
  | ⟨true, false, false, false⟩ =>
    some ({ th with state := ⟨false, false, true, false⟩ }.setrun ch)
  | ⟨true, false, false, true⟩ =>
    { th with state := ⟨false, false, true, true⟩ }.swapin false ch
  | _ => other th

/-- `TH_WAIT` is cleared. -/
def stopWaiting (th : Thread) : Thread := { th with state := { th.state with wait := false } }

/-- `clear_wait`, from where the thread is off the queue for its event. -/
def clearWait (ch : Choice) (th : Thread) : Option Thread :=
  th.awaken
    (fun th => if th.state.wait then some { th.stopWaiting with interruptible := true }
      else some th) ch

/-- `thread_wakeup_prim`, for a thread on the queue.  `none` is the panic. -/
def wakeup (ch : Choice) (th : Thread) : Option Thread :=
  { th with waitEvent := 0 }.awaken
    (fun th => if th.state.wait then some { th.stopWaiting with interruptible := true } else none)
      ch

/-- `ipc_thread_go`. -/
def ipcThreadGo (ch : Choice) (th : Thread) : Option Thread :=
  th.awaken (fun th => if th.state.wait then some th.stopWaiting else some th) ch

/-- `assert_wait`.  `none` is the panic. -/
def assertWait (event : Nat) (interruptible : Bool) (th : Thread) : Option Thread :=
  if th.waitEvent ≠ 0 then none
  else
    some
      { th with
          waitEvent := event
          state := { th.state with wait := true }
          interruptible := interruptible }

/-- `ipc_thread_will_wait`. -/
def willWait (th : Thread) : Thread := { th with state := { th.state with wait := true } }

/-- `thread_hold`. -/
def hold (th : Thread) : Thread :=
  { th with suspendCount := th.suspendCount + 1, state := { th.state with susp := true } }

/-- `thread_suspend`, until it calls `thread_dowait`. -/
def suspend (th : Thread) : Thread :=
  let first := th.userStopCount == 0
  let th := { th with userStopCount := th.userStopCount + 1 }
  if first then th.hold else th

/-- The thread is not suspended any more. -/
def unsuspend (ch : Choice) (th : Thread) : Option Thread :=
  match th.state with
  | ⟨false, _, false, true⟩ => { th with state := ⟨false, false, true, true⟩ }.swapin false ch
  | ⟨false, _, false, false⟩ => some ({ th with state := ⟨false, false, true, false⟩ }.setrun ch)
  | _ => some { th with state := { th.state with susp := false } }

/-- `thread_release`. -/
def release (ch : Choice) (th : Thread) : Option Thread :=
  let th := { th with suspendCount := th.suspendCount - 1 }
  if th.suspendCount = 0 then th.unsuspend ch else some th

/-- `thread_resume`. -/
def resume (ch : Choice) (th : Thread) : Option Thread :=
  if 0 < th.userStopCount then
    let th := { th with userStopCount := th.userStopCount - 1 }
    if th.userStopCount = 0 then th.release ch else some th
  else some th

/-- The thread is stopped by `thread_continue`.  Says whether another thread has to be told. -/
def stopped (state : ThreadState) (th : Thread) : Thread × Bool :=
  ({ th with state := state, place := .off, wakeActive := false }, th.wakeActive)

/-- `thread_continue`, until it unlocks the thread or checks for a continuation.  `none` is the
panic. -/
def continue_ (ch : Choice) (th : Thread) : Option (Thread × Bool) :=
  match th.state with
  | ⟨false, true, true, false⟩ =>
    if th.interruptible then some (th.stopped ⟨false, true, false, false⟩)
    else some (th.setrun ch, false)
  | ⟨false, false, true, false⟩ => some (th.setrun ch, false)
  | ⟨true, true, true, false⟩ =>
    if th.interruptible then some (th.stopped ⟨true, true, false, false⟩)
    else some ({ th with state := ⟨true, true, false, false⟩, place := .off }, false)
  | ⟨true, false, true, false⟩ =>
    some ({ th with state := ⟨true, false, false, false⟩, place := .off }, false)
  | _ => none

/-- `thread_dowait` takes the thread off its run queue. -/
def Stoppable (th : Thread) : Prop :=
  th.state = ⟨false, true, true, false⟩ ∧ th.interruptible = true ∧ th.place = .runq

instance (th : Thread) : Decidable th.Stoppable := inferInstanceAs (Decidable (_ ∧ _ ∧ _))

/-- `thread_dowait` waits for the thread. -/
def waitActive (th : Thread) : Option Thread :=
  if th.state.run = false ∧ th.state.susp = true ∧ th.interruptible = true then none
  else some { th with wakeActive := true }

end Thread

open Thread

/-- The scheduler. -/
structure Sched where
  thread : Nat → Thread
  /-- The calls of `thread_continue` that have unlocked a thread, to tell another one. -/
  tails : List (Nat × Option Func)
  /-- The calls of `clear_wait` that have unlocked a thread, with the event it waits for. -/
  clears : List (Nat × Nat)
  /-- The calls of `thread_swapout`, with the last stop of the thread. -/
  swapouts : List (Option Func)
  /-- The last stop of a thread and where it resumed. -/
  resumed : List (Option Func × Point)

/-- An operation, on a thread `t`. -/
inductive Op where
  | assertWait (t event : Nat) (interruptible : Bool)
  | willWait (t : Nat)
  /-- `thread_block`, with the new thread or an idle one. -/
  | block (t : Nat) (continuation : Option Func) (new : Option Nat)
  /-- An idle processor runs a thread. -/
  | run (t : Nat)
  | continue_ (t : Nat) (ch : Choice)
  | continueTail (i : Nat)
  | swapoutDone (t : Nat) (ch : Choice)
  | clearWait (t : Nat) (interruptOnly : Bool) (ch : Choice)
  | clearWaitTail (i : Nat) (ch : Choice)
  | wakeup (t event : Nat) (ch : Choice)
  | ipcThreadGo (t : Nat) (ch : Choice)
  | hold (t : Nat)
  | suspend (t : Nat)
  | dowait (t : Nat)
  | waitActive (t : Nat)
  | release (t : Nat) (ch : Choice)
  | resume (t : Nat) (ch : Choice)
  | swapin (t : Nat) (makeUnswappable : Bool) (ch : Choice)
  | doswapin (t : Nat) (ch : Choice)

namespace Sched

/-- Threads that were just made. -/
def create (suspended : Nat → Nat) : Sched where
  thread t := Thread.create (suspended t)
  tails := []
  clears := []
  swapouts := []
  resumed := []

/-- Change a thread. -/
def set (t : Nat) (th : Thread) (s : Sched) : Sched :=
  { s with thread := Function.update s.thread t th }

/-- Change a thread, if it is possible. -/
def onThread (t : Nat) (f : Thread → Option Thread) (s : Sched) : Option Sched :=
  (f (s.thread t)).map fun th => s.set t th

/-- Call `thread_swapout`. -/
def swapout (t : Nat) (func : Func) (s : Sched) : Sched :=
  { s.set t ((s.thread t).swapout func) with swapouts := (s.thread t).stop :: s.swapouts }

/-- A processor switches to a thread. -/
def dispatch (t : Nat) (s : Sched) : Option Sched :=
  let th := s.thread t
  if th.place = .runq ∨ th.place = .next then
    match th.kernelStack with
    | none => none
    | some p =>
      some
        { s.set t { th with place := .running, interruptible := true } with
            resumed := (th.stop, p) :: s.resumed }
  else none

/-- `thread_block`.  The context is saved on the kernel stack in any case. -/
def block (t : Nat) (continuation : Option Func) (new : Option Nat) (s : Sched) : Option Sched :=
  let th := s.thread t
  if th.place = .running then
    let s := s.set t
      { th with
          place := .leaving continuation
          kernelStack := some .afterBlock
          stop := continuation }
    match new with
    | some n => s.dispatch n
    | none => some s
  else none

/-- The end of `thread_continue`. -/
def checkContinuation (t : Nat) (continuation : Option Func) (s : Sched) : Sched :=
  match continuation with
  | none => s
  | some func =>
    if (s.thread t).swapState = .swappedIn ∧ (s.thread t).state.run = false then s.swapout t func
    else s

/-- `thread_continue`. -/
def continue_ (t : Nat) (ch : Choice) (s : Sched) : Option Sched :=
  match (s.thread t).place with
  | .leaving continuation =>
    match (s.thread t).continue_ ch with
    | none => none
    | some (th, true) => some { s.set t th with tails := (t, continuation) :: s.tails }
    | some (th, false) => some ((s.set t th).checkContinuation t continuation)
  | _ => none

/-- `clear_wait`. -/
def clearWait (t : Nat) (interruptOnly : Bool) (ch : Choice) (s : Sched) : Option Sched :=
  let th := s.thread t
  if interruptOnly && !th.interruptible then some s
  else if th.waitEvent ≠ 0 then some { s with clears := (t, th.waitEvent) :: s.clears }
  else s.onThread t (Thread.clearWait ch)

/-- `clear_wait`, with the queue for the event locked. -/
def clearWaitTail (i : Nat) (ch : Choice) (s : Sched) : Option Sched :=
  match s.clears[i]? with
  | none => none
  | some (t, event) =>
    let s := { s with clears := s.clears.eraseIdx i }
    if (s.thread t).waitEvent = event then
      s.onThread t fun th => { th with waitEvent := 0 }.clearWait ch
    else some s

/-- `thread_dowait`, until it waits. -/
def dowait (t : Nat) (s : Sched) : Sched :=
  let th := s.thread t
  if th.Stoppable then
    let s := s.set t
      { th with state := ⟨false, true, false, false⟩, place := .off, wakeActive := false }
    if th.swapState = .swappedIn then s.swapout t .threadExceptionReturn else s
  else s

/-- One operation.  `none` if it is not possible, or for a panic. -/
def step (op : Op) (s : Sched) : Option Sched :=
  match op with
  | .assertWait t event interruptible =>
    if (s.thread t).place = .running then s.onThread t (Thread.assertWait event interruptible)
    else none
  | .willWait t =>
    if (s.thread t).place = .running then s.onThread t fun th => some th.willWait else none
  | .block t continuation new => s.block t continuation new
  | .run t => s.dispatch t
  | .continue_ t ch => s.continue_ t ch
  | .continueTail i =>
    match s.tails[i]? with
    | none => none
    | some (t, continuation) =>
      some ({ s with tails := s.tails.eraseIdx i }.checkContinuation t continuation)
  | .swapoutDone t ch => s.onThread t (Thread.swapoutDone ch)
  | .clearWait t interruptOnly ch => s.clearWait t interruptOnly ch
  | .clearWaitTail i ch => s.clearWaitTail i ch
  | .wakeup t event ch =>
    if (s.thread t).waitEvent = event ∧ event ≠ 0 then s.onThread t (Thread.wakeup ch) else none
  | .ipcThreadGo t ch => s.onThread t (Thread.ipcThreadGo ch)
  | .hold t => s.onThread t fun th => some th.hold
  | .suspend t => s.onThread t fun th => some th.suspend
  | .dowait t => some (s.dowait t)
  | .waitActive t => s.onThread t Thread.waitActive
  | .release t ch => s.onThread t (Thread.release ch)
  | .resume t ch => s.onThread t (Thread.resume ch)
  | .swapin t makeUnswappable ch => s.onThread t (Thread.swapin makeUnswappable ch)
  | .doswapin t ch => s.onThread t (Thread.doswapin ch)

/-- A run. -/
def steps : List Op → Sched → Option Sched
  | [], s => some s
  | op :: ops, s => (s.step op).bind (steps ops)

end Sched

/-! ## Threads -/

/-- The thread has no stack, or will have none. -/
def SwapState.IsOut : SwapState → Prop
  | .unswappable => False
  | .swappedIn => False
  | _ => True

/-- A processor is in `thread_swapout`. -/
def SwapState.IsLeaving : SwapState → Prop
  | .goingOut => True
  | .wantIn _ => True
  | _ => False

namespace Thread

/-- The invariant of a thread.  It is running, or on a run queue, or about to be, exactly if it has
`TH_RUN` and a stack. -/
structure Inv (th : Thread) : Prop where
  place : th.place ≠ .off ↔ th.state.run = true ∧ th.state.swapped = false
  swapped : th.state.swapped = true ↔ th.swapState.IsOut
  freeing : th.freeing ≠ none ↔ th.swapState.IsLeaving
  queued : th.queued = true ↔ ∃ u, th.swapState = .comingIn u
  leaving : ∀ c, th.place = .leaving c → th.stop = c

theorem create_inv (suspended : Nat) : (create suspended).Inv where
  place := ⟨fun h => absurd rfl h, fun h => nomatch h.1⟩
  swapped := ⟨fun _ => trivial, fun _ => rfl⟩
  freeing := ⟨fun h => absurd rfl h, False.elim⟩
  queued := ⟨(fun h => nomatch h), fun ⟨_, h⟩ => nomatch h⟩
  leaving := nofun

/-- If the thread has blocked without a continuation then it has the stack that it did so on, and
others cannot suspend it. -/
structure Safe (th : Thread) : Prop where
  kept : th.stop = none → th.state.swapped = false ∧ th.kernelStack = some .afterBlock
  shielded : th.stop = none → th.place = .running ∨ th.interruptible = false
  waiting : th.state.wait = true → th.state.run = true →
    th.place = .running ∨ ∃ c, th.place = .leaving c

/-- A change of a thread that does not stop it.  It stays safe on a condition. -/
structure Changed (P : Prop) (th th' : Thread) : Prop where
  inv : th'.Inv
  stop : th'.stop = th.stop
  safe : P → th.Safe → th'.Safe

variable {th th' th'' : Thread} {ch : Choice} {P : Prop}

theorem Changed.trans (h : Changed P th th') (h' : Changed P th' th'') : Changed P th th'' :=
  ⟨h'.inv, h'.stop.trans h.stop, fun hP hsafe => h'.safe hP (h.safe hP hsafe)⟩

theorem Inv.place_off (hinv : th.Inv) (h : th.state.run = false ∨ th.state.swapped = true) :
    th.place = .off := by
  by_contra hne
  obtain ⟨hrun, hswapped⟩ := hinv.place.mp hne
  cases h with
  | inl h => exact absurd (hrun.symm.trans h) Bool.true_eq_false.mp
  | inr h => exact absurd (h.symm.trans hswapped) Bool.true_eq_false.mp

/-- The two threads have the same stack, on which they stopped in the same way. -/
structure SameStack (th th' : Thread) : Prop where
  swapState : th'.swapState = th.swapState
  swapped : th'.state.swapped = th.state.swapped
  freeing : th'.freeing = th.freeing
  queued : th'.queued = th.queued
  kernelStack : th'.kernelStack = th.kernelStack
  stop : th'.stop = th.stop

theorem SameStack.changed (hinv : th.Inv) (hsame : SameStack th th')
    (hplace : th'.place ≠ .off ↔ th'.state.run = true ∧ th'.state.swapped = false)
    (hleaving : ∀ c, th'.place = .leaving c → th.place = .leaving c)
    (hshielded : P → th.Safe → th.stop = none → th'.place = .running ∨ th'.interruptible = false)
    (hwaiting : th.Safe → th'.state.wait = true → th'.state.run = true →
      th'.place = .running ∨ ∃ c, th'.place = .leaving c) : Changed P th th' where
  inv :=
    { place := hplace
      swapped := by
        rw [hsame.swapped, hsame.swapState]
        exact hinv.swapped
      freeing := by
        rw [hsame.freeing, hsame.swapState]
        exact hinv.freeing
      queued := by
        rw [hsame.queued, hsame.swapState]
        exact hinv.queued
      leaving := fun c hc => hsame.stop.trans (hinv.leaving c (hleaving c hc)) }
  stop := hsame.stop
  safe hP hsafe :=
    { kept := by
        rw [hsame.stop, hsame.swapped, hsame.kernelStack]
        exact hsafe.kept
      shielded := fun hnone => hshielded hP hsafe (hsame.stop ▸ hnone)
      waiting := hwaiting hsafe }

theorem setrun_place (ch : Choice) (th : Thread) :
    (th.setrun ch).place ≠ .off ∧ ∀ c, (th.setrun ch).place ≠ .leaving c := by
  rw [setrun]
  cases ch.idle with
  | true | false => exact ⟨(fun h => nomatch h), nofun⟩

theorem Safe.interruptible (h : th.Safe) (hne : th.place ≠ .running) (hnone : th.stop = none) :
    th.interruptible = false :=
  (h.shielded hnone).resolve_left hne

theorem SameStack.setrun (hinv : th.Inv) (hsame : SameStack th th') (hne : th.place ≠ .running)
    (hint : th'.interruptible = th.interruptible) (hwait : th'.state.wait = false)
    (hrun : th'.state.run = true) (hswapped : th'.state.swapped = false) :
    Changed P th (th'.setrun ch) :=
  changed hinv { hsame with } ⟨fun _ => ⟨hrun, hswapped⟩, fun _ => (setrun_place ch th').1⟩
    (fun c hc => absurd hc ((setrun_place ch th').2 c))
    (fun _ hsafe hnone => .inr (hint.trans (hsafe.interruptible hne hnone)))
    fun _ hw => absurd (hw.symm.trans hwait) Bool.true_eq_false.mp

theorem stackAttach_changed (hswapped : th.state.swapped = true) (hoff : th.place = .off)
    (hfreeing : th.freeing = none) (u : Bool) {p : Place} (hp : p ≠ .off ↔ th.state.run = true)
    (hleaving : ∀ c, p ≠ .leaving c) : Changed P th { th.stackAttach u with place := p } := by
  obtain ⟨hout, hleave, hcoming⟩ : ¬ (th.stackAttach u).swapState.IsOut ∧
      ¬ (th.stackAttach u).swapState.IsLeaving ∧
      ∀ v, (th.stackAttach u).swapState ≠ .comingIn v := by
    cases u with
    | true | false => exact ⟨False.elim, False.elim, nofun⟩
  refine ⟨⟨?_, ⟨(fun h => nomatch h), fun h => absurd h hout⟩,
    ⟨fun h => absurd hfreeing h, fun h => absurd h hleave⟩,
    ⟨(fun h => nomatch h), fun ⟨v, hv⟩ => absurd hv (hcoming v)⟩,
    fun c hc => absurd hc (hleaving c)⟩, rfl, fun _ hsafe => ?_⟩
  · exact ⟨fun h => ⟨hp.mp h, rfl⟩, fun h => hp.mpr h.1⟩
  · have hstop : th.stop ≠ none := fun hnone => by simp [(hsafe.kept hnone).1] at hswapped
    refine ⟨fun hnone => absurd hnone hstop, fun hnone => absurd hnone hstop, fun hw hr => ?_⟩
    have := hsafe.waiting hw hr
    simp [hoff] at this

variable (hinv : th.Inv)

include hinv

theorem swappedIn_changed (hswapped : th.state.swapped = true)
    (hfreeing : th.freeing = none) (u : Bool) (ch : Choice) : Changed P th (th.swappedIn u ch) := by
  have hoff := hinv.place_off (.inr hswapped)
  rw [swappedIn]
  split
  next hrun =>
    obtain ⟨hset, hleaving⟩ := setrun_place ch (th.stackAttach u)
    exact stackAttach_changed hswapped hoff hfreeing u ⟨fun _ => hrun, fun _ => hset⟩ hleaving
  next hrun =>
    exact stackAttach_changed hswapped hoff hfreeing u
      ⟨fun h => absurd hoff h, fun h => absurd h hrun⟩ fun c hc => nomatch hoff.symm.trans hc

theorem swapState_changed {v : SwapState} {queued : Bool}
    (hout : th.swapState.IsOut) (hv : v.IsOut) (hleaving : v.IsLeaving ↔ th.swapState.IsLeaving)
    (hqueued : queued = true ↔ ∃ u, v = .comingIn u) :
    Changed P th { th with swapState := v, queued := queued } where
  inv :=
    { place := hinv.place
      swapped := ⟨fun _ => hv, fun _ => hinv.swapped.mpr hout⟩
      freeing := hinv.freeing.trans hleaving.symm
      queued := hqueued
      leaving := hinv.leaving }
  stop := rfl
  safe _ h := ⟨h.kept, h.shielded, h.waiting⟩

theorem Inv.queued_false (h : ∀ u, th.swapState ≠ .comingIn u) : th.queued = false :=
  Bool.eq_false_iff.mpr fun hq => (hinv.queued.mp hq).elim h

theorem Inv.freeing_none (h : ¬ th.swapState.IsLeaving) : th.freeing = none :=
  Classical.not_not.mp fun hf => h (hinv.freeing.mp hf)

theorem swapin_changed {u : Bool} (h : th.swapin u ch = some th') : Changed P th th' := by
  rw [swapin] at h
  cases hs : th.swapState with
  | unswappable | swappedIn => rw [hs] at h; cases h
  | out =>
    have hswapped : th.state.swapped = true := hinv.swapped.mpr (hs ▸ trivial)
    have hfreeing := hinv.freeing_none (hs ▸ id)
    rw [hs] at h
    change (if ch.alloc = true then _ else _) = some th' at h
    split at h
    next => cases h; exact swappedIn_changed hinv hswapped hfreeing u ch
    next =>
      cases h
      exact swapState_changed hinv (hs ▸ trivial) trivial (hs ▸ .rfl) (by simp)
  | comingIn v =>
    have hq : th.queued = true := hinv.queued.mpr ⟨v, hs⟩
    rw [hs] at h
    cases h
    exact swapState_changed hinv (hs ▸ trivial) trivial (hs ▸ .rfl) (hq ▸ by simp)
  | _ =>
    have hq := hinv.queued_false (fun u => by rw [hs]; exact fun h => nomatch h)
    rw [hs] at h
    cases h
    exact swapState_changed hinv (hs ▸ trivial) trivial (hs ▸ .rfl) (hq ▸ by simp)

theorem doswapin_changed (h : th.doswapin ch = some th') : Changed P th th' := by
  obtain ⟨hq, h⟩ := Option.ite_none_right_eq_some.mp h
  cases h
  obtain ⟨u, hu⟩ := hinv.queued.mp hq
  exact swappedIn_changed hinv (hinv.swapped.mpr (hu ▸ trivial)) (hinv.freeing_none (hu ▸ id)) ..

theorem swapoutDone_changed (h : th.swapoutDone ch = some th') : Changed P th th' := by
  rw [swapoutDone] at h
  cases hf : th.freeing with
  | none => rw [hf] at h; cases h
  | some func =>
    rw [hf] at h
    have hleaving := hinv.freeing.mp (hf ▸ Option.some_ne_none func)
    have hout : th.swapState.IsOut := by
      cases hs : th.swapState with
      | unswappable | swappedIn => rw [hs] at hleaving; exact hleaving
      | _ => trivial
    have hswapped := hinv.swapped.mpr hout
    have hq : th.queued = false :=
      hinv.queued_false fun u hu => by rw [hu] at hleaving; exact hleaving
    have hfreed : Changed P th { th with
        freeing := none, kernelStack := none, swapState := .out, swapFunc := func } := by
      refine ⟨⟨hinv.place, ⟨fun _ => trivial, fun _ => hswapped⟩,
        ⟨fun h => absurd rfl h, False.elim⟩, ?_, hinv.leaving⟩, rfl,
        fun _ hsafe => ⟨fun hnone => ?_, hsafe.shielded, hsafe.waiting⟩⟩
      · rw [hq]
        exact ⟨(fun h => nomatch h), fun ⟨_, h⟩ => nomatch h⟩
      · have hin := (hsafe.kept hnone).1
        rw [hswapped] at hin
        cases hin
    simp only at h
    split at h
    next => exact hfreed.trans (swapin_changed hfreed.inv h)
    next => cases h; exact hfreed

variable {state : ThreadState}

/-- The flags of the state are set, for a thread that is not runnable. -/
theorem setState_changed (hoff : th.state.run = false ∨ th.state.swapped = true)
    (hoff' : state.run = false ∨ state.swapped = true) (hwait : state.wait = false)
    (hswapped : state.swapped = th.state.swapped) : Changed P th { th with state := state } := by
  have hplace := hinv.place_off hoff
  refine SameStack.changed hinv ⟨rfl, hswapped, rfl, rfl, rfl, rfl⟩
    ⟨fun h => absurd hplace h, fun h => ?_⟩ (fun c hc => hc) (fun _ h => h.shielded)
    fun _ hw => absurd (hw.symm.trans hwait) Bool.true_eq_false.mp
  cases hoff' with
  | inl hrun => exact absurd (h.1.symm.trans hrun) Bool.true_eq_false.mp
  | inr hswapped => exact absurd (hswapped.symm.trans h.2) Bool.true_eq_false.mp

theorem setrun_changed (hoff : th.state.run = false) (hswapped : th.state.swapped = false)
    (hwait : state.wait = false) (hrun : state.run = true) (hswapped' : state.swapped = false) :
    Changed P th ({ th with state := state }.setrun ch) :=
  SameStack.setrun hinv ⟨rfl, hswapped'.trans hswapped.symm, rfl, rfl, rfl, rfl⟩
    (by simp [hinv.place_off (.inl hoff)]) rfl hwait hrun hswapped'

theorem awaken_changed {other : Thread → Option Thread}
    (hother : ∀ th', (th.state.wait = true → th.state.run = true ∨ th.state.swapped = true) →
      other th = some th' → Changed P th th') (h : th.awaken other ch = some th') :
    Changed P th th' := by
  rw [awaken] at h
  split at h
  next hs =>
    split at h
    next => cases h; exact setState_changed hinv (.inl (hs ▸ rfl)) (.inl rfl) rfl (hs ▸ rfl)
    next => cases h; exact setrun_changed hinv (hs ▸ rfl) (hs ▸ rfl) rfl rfl rfl
  next hs => cases h; exact setrun_changed hinv (hs ▸ rfl) (hs ▸ rfl) rfl rfl rfl
  next hs =>
    have hrun : Changed P th { th with state := ⟨false, false, true, true⟩ } :=
      setState_changed hinv (.inr (hs ▸ rfl)) (.inr rfl) rfl (hs ▸ rfl)
    exact hrun.trans (swapin_changed hrun.inv h)
  next h₁ h₂ _ =>
    refine hother _ (fun hwait => ?_) h
    rcases hs : th.state with ⟨wait, susp, run, swapped⟩
    cases susp <;> cases run <;> cases swapped <;> simp_all

theorem flags_changed {wait susp interruptible wakeActive : Bool} {waitEvent : Nat}
    {suspendCount userStopCount : Int}
    (hshielded : P → th.Safe → th.stop = none → th.place = .running ∨ interruptible = false)
    (hwait : wait = true → th.state.wait = true ∨ th.place = .running) :
    Changed P th
      { th with
          state := { th.state with wait := wait, susp := susp }
          interruptible := interruptible
          wakeActive := wakeActive
          waitEvent := waitEvent
          suspendCount := suspendCount
          userStopCount := userStopCount } :=
  SameStack.changed hinv ⟨rfl, rfl, rfl, rfl, rfl, rfl⟩ hinv.place (fun _ hc => hc) hshielded
    fun hsafe hw hr => (hwait hw).elim (fun hw => hsafe.waiting hw hr) .inl

theorem counts_changed {susp wakeActive : Bool} {waitEvent : Nat}
    {suspendCount userStopCount : Int} :
    Changed P th
      { th with
          state := { th.state with susp := susp }
          wakeActive := wakeActive
          waitEvent := waitEvent
          suspendCount := suspendCount
          userStopCount := userStopCount } :=
  flags_changed hinv (fun _ h => h.shielded) .inl

theorem refl_changed : Changed P th th := ⟨hinv, rfl, fun _ h => h⟩

/-- The thread is made interruptible, but not while it leaves its processor. -/
theorem interrupted_changed (hwait : th.state.wait = true)
    (hstate : th.state.wait = true → th.state.run = true ∨ th.state.swapped = true) :
    Changed (th.place ≠ .leaving none) th { th.stopWaiting with interruptible := true } := by
  refine flags_changed hinv (fun hplace hsafe hnone => ?_) nofun
  have hrun := (hstate hwait).resolve_right (by simp [(hsafe.kept hnone).1])
  rcases hsafe.waiting hwait hrun with hrunning | ⟨c, hc⟩
  · exact .inl hrunning
  · rw [hc, ← hinv.leaving c hc] at hplace
    exact absurd (congrArg _ hnone) hplace

theorem clearWait_changed (h : th.clearWait ch = some th') :
    Changed (th.place ≠ .leaving none) th th' := by
  refine awaken_changed hinv (fun th' hstate hth => ?_) h
  split at hth
  next hwait => cases hth; exact interrupted_changed hinv hwait hstate
  next => cases hth; exact refl_changed hinv

theorem wakeup_changed (h : th.wakeup ch = some th') :
    Changed (th.place ≠ .leaving none) th th' := by
  have hevent : Changed (th.place ≠ .leaving none) th { th with waitEvent := 0 } :=
    counts_changed hinv
  refine hevent.trans (awaken_changed hevent.inv (fun th' hstate hth => ?_) h)
  split at hth
  next hwait => cases hth; exact interrupted_changed hevent.inv hwait hstate
  next => cases hth

theorem ipcThreadGo_changed (h : th.ipcThreadGo ch = some th') : Changed P th th' := by
  refine awaken_changed hinv (fun th' _ hth => ?_) h
  split at hth
  next => cases hth; exact flags_changed hinv (fun _ h => h.shielded) nofun
  next => cases hth; exact refl_changed hinv

theorem unsuspend_changed (h : th.unsuspend ch = some th') : Changed P th th' := by
  rw [unsuspend] at h
  split at h
  next hs =>
    have hrun : Changed P th { th with state := ⟨false, false, true, true⟩ } :=
      setState_changed hinv (.inr (hs ▸ rfl)) (.inr rfl) rfl (hs ▸ rfl)
    exact hrun.trans (swapin_changed hrun.inv h)
  next hs => cases h; exact setrun_changed hinv (hs ▸ rfl) (hs ▸ rfl) rfl rfl rfl
  next => cases h; exact counts_changed hinv

theorem release_changed (h : th.release ch = some th') : Changed P th th' := by
  have hcount : Changed P th { th with suspendCount := th.suspendCount - 1 } := counts_changed hinv
  rw [release] at h
  split at h
  next => exact hcount.trans (unsuspend_changed hcount.inv h)
  next => cases h; exact hcount

theorem resume_changed (h : th.resume ch = some th') : Changed P th th' := by
  have hcount : Changed P th { th with userStopCount := th.userStopCount - 1 } :=
      counts_changed hinv
  rw [resume] at h
  split at h
  next =>
    simp only at h
    split at h
    next => exact hcount.trans (release_changed hcount.inv h)
    next => cases h; exact hcount
  next => cases h; exact refl_changed hinv

section

variable (hne : th.place ≠ .running)
include hne

theorem off_changed (hrun : state.run = false)
    (hswapped : state.swapped = th.state.swapped) (wakeActive : Bool) :
    Changed P th { th with state := state, place := .off, wakeActive := wakeActive } :=
  SameStack.changed hinv ⟨rfl, hswapped, rfl, rfl, rfl, rfl⟩
    ⟨fun h => absurd rfl h, fun h => absurd (h.1.symm.trans hrun) Bool.true_eq_false.mp⟩ nofun
    (fun _ hsafe hnone => .inr (hsafe.interruptible hne hnone))
    fun _ _ hr => absurd (hr.symm.trans hrun) Bool.true_eq_false.mp

theorem continue_changed {tail : Bool} (h : th.continue_ ch = some (th', tail)) :
    Changed P th th' := by
  have hsetrun : th.state.wait = false → th.state.run = true → th.state.swapped = false →
      Changed P th (th.setrun ch) :=
    SameStack.setrun hinv ⟨rfl, rfl, rfl, rfl, rfl, rfl⟩ hne rfl
  rw [continue_] at h
  split at h
  next hs =>
    split at h
    next => cases h; exact off_changed hinv hne rfl (hs ▸ rfl) false
    next => cases h; exact hsetrun (hs ▸ rfl) (hs ▸ rfl) (hs ▸ rfl)
  next hs => cases h; exact hsetrun (hs ▸ rfl) (hs ▸ rfl) (hs ▸ rfl)
  next hs =>
    split at h
    next => cases h; exact off_changed hinv hne rfl (hs ▸ rfl) false
    next => cases h; exact off_changed hinv hne rfl (hs ▸ rfl) th.wakeActive
  next hs => cases h; exact off_changed hinv hne rfl (hs ▸ rfl) th.wakeActive
  next => cases h

end

theorem swapout_inv (hin : th.swapState = .swappedIn) (hrun : th.state.run = false)
    (func : Func) : (th.swapout func).Inv := by
  have hoff := hinv.place_off (.inl hrun)
  have hq : th.queued = false := hinv.queued_false fun u hu => nomatch hin.symm.trans hu
  refine ⟨⟨fun h => absurd hoff h, fun h => nomatch h.2⟩, ⟨fun _ => trivial, fun _ => rfl⟩,
    ⟨fun _ => trivial, fun _ => Option.some_ne_none func⟩, ?_, hinv.leaving⟩
  change th.queued = true ↔ _
  rw [hq]
  exact ⟨(fun h => nomatch h), fun ⟨_, h⟩ => nomatch h⟩

end Thread

end Mach
