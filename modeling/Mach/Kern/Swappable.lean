import Mach.Kern.ThreadSwap
import Mach.Lib.Runs

/-!
# Making a thread unswappable

`thread_swappable` asks for the thread to be swapped in, and sleeps until the swapin thread has made
it unswappable.  `thread_swapin` does not need the swapin thread if `stack_alloc_try` succeeds.
Then the thread is unswappable at once, and nobody wakes up who waits for it.

This happens to a caller that finds the thread swapped out, and to those who have come while it was
being swapped out.  All others are woken up (`swappable_awaits_iff`).  So `stack_alloc_try` must
fail in these two cases (`SwappableOp.Queues`).
-/

namespace Mach

open Function

/-- A call of `thread_swappable`. -/
inductive SwappableCall where
  | outside
  | asleep
  /-- It was woken up and will test `swap_state`. -/
  | awake
deriving Repr, DecidableEq

/-- `thread_wakeup` on `swap_state`, for a call. -/
def SwappableCall.wakeup : SwappableCall → SwappableCall
  | .asleep => .awake
  | c => c

/-- A thread, and those who make it unswappable. -/
structure Swappable (ι : Type) where
  thread : Thread
  call : ι → SwappableCall

/-- What is done to the thread. -/
inductive SwappableOp (ι : Type) where
  /-- `thread_swappable(thread, FALSE)`, until it sleeps. -/
  | swappable (i : ι) (ch : Choice)
  /-- The test of the loop, and what follows until the call sleeps again. -/
  | again (i : ι) (ch : Choice)
  | swapout (func : Func)
  | swapoutDone (ch : Choice)
  /-- `thread_swapin(thread, FALSE)`. -/
  | swapin (ch : Choice)
  /-- `thread_doswapin`, by the swapin thread. -/
  | doswapin (ch : Choice)

namespace Swappable

variable {ι : Type}

/-- Nobody has called `thread_swappable`. -/
def start (th : Thread) : Swappable ι := ⟨th, fun _ => .outside⟩

variable [DecidableEq ι]

/-- The body of the loop of `thread_swappable`. -/
def request (i : ι) (ch : Choice) (s : Swappable ι) : Option (Swappable ι) :=
  (s.thread.swapin true ch).map fun th => ⟨th, update s.call i .asleep⟩

/-- One operation.  `none` if it is not possible, or for a panic. -/
def apply (s : Swappable ι) : SwappableOp ι → Option (Swappable ι)
  | .swappable i ch =>
    if s.call i ≠ .outside then none
    else
      match s.thread.swapState with
      | .unswappable => some s
      | .swappedIn => some { s with thread := { s.thread with swapState := .unswappable } }
      | _ => s.request i ch
  | .again i ch =>
    if s.call i ≠ .awake then none
    else if s.thread.swapState = .unswappable then some { s with call := update s.call i .outside }
    else s.request i ch
  | .swapout func =>
    if s.thread.swapState = .swappedIn ∧ s.thread.state.run = false then
      some { s with thread := s.thread.swapout func }
    else none
  | .swapoutDone ch => (s.thread.swapoutDone ch).map fun th => { s with thread := th }
  | .swapin ch => (s.thread.swapin false ch).map fun th => { s with thread := th }
  | .doswapin ch =>
    (s.thread.doswapin ch).map fun th =>
      { s with
          thread := th
          call := if s.thread.swapState = .comingIn true
            then fun i => (s.call i).wakeup else s.call }

/-- The machine of these operations. -/
def step : Machine (SwappableOp ι) Unit (Swappable ι) :=
  fun op s => (s.apply op).map fun s' => (s', ())

end Swappable

/-- A thread that is to be made unswappable has to wait for the swapin thread: `stack_alloc_try`
fails for a thread that is swapped out when `thread_swappable` needs it, and for one that is wanted
by `thread_swappable` when it has been swapped out. -/
def SwappableOp.Queues {ι : Type} (op : SwappableOp ι) (s : Swappable ι) : Prop :=
  match op with
  | .swappable _ ch | .again _ ch => s.thread.swapState = .out → ch.alloc = false
  | .swapoutDone ch => s.thread.swapState = .wantIn true → ch.alloc = false
  | _ => True

/-- The thread will be swapped in and made unswappable by the swapin thread. -/
@[local simp]
def SwapState.Requested (v : SwapState) : Prop := v = .wantIn true ∨ v = .comingIn true

theorem Thread.swappedIn_swapState (u : Bool) (ch : Choice) (th : Thread) :
    (th.swappedIn u ch).swapState = if u then .unswappable else .swappedIn := by
  rw [swappedIn]
  split <;> rfl

variable {ch : Choice}

theorem Thread.swapin_swapState {th th' : Thread} {u : Bool} (h : th.swapin u ch = some th') :
    ((th.swapState = .out ∧ ch.alloc = true) →
        th'.swapState = if u then .unswappable else .swappedIn) ∧
      (¬ (th.swapState = .out ∧ ch.alloc = true) →
        (th'.swapState.Requested ↔ th.swapState.Requested ∨ u = true)) := by
  rw [swapin] at h
  split at h
  next hout =>
    split at h
    next halloc =>
      cases h
      exact ⟨fun _ => swappedIn_swapState .., fun hnot => absurd ⟨hout, halloc⟩ hnot⟩
    next halloc =>
      cases h
      exact ⟨fun hat => absurd hat.2 halloc, fun _ => by simp [hout]⟩
  next hgoing =>
    cases h
    exact ⟨fun hat => by simp [hgoing] at hat, fun _ => by simp [hgoing]⟩
  next hwant =>
    cases h
    exact ⟨fun hat => by simp [hwant] at hat, fun _ => by simp [hwant]⟩
  next hcoming =>
    cases h
    exact ⟨fun hat => by simp [hcoming] at hat, fun _ => by simp [hcoming]⟩
  next => cases h

theorem Thread.swapoutDone_swapState {th th' : Thread} (hinv : th.Inv)
    (h : th.swapoutDone ch = some th') :
    ((th.swapState = .wantIn true ∧ ch.alloc = true) → th'.swapState = .unswappable) ∧
      (¬ (th.swapState = .wantIn true ∧ ch.alloc = true) →
        (th'.swapState.Requested ↔ th.swapState.Requested)) := by
  rw [swapoutDone] at h
  split at h
  next => cases h
  rename_i hfunc
  have hleaving := hinv.freeing.mp (by simp [hfunc])
  split at h
  next u hwant =>
    obtain ⟨hat, hnot⟩ := swapin_swapState h
    by_cases halloc : ch.alloc = true
    · have heq := hat ⟨rfl, halloc⟩
      cases u with
      | true => exact ⟨fun _ => heq, fun hn => absurd ⟨hwant, halloc⟩ hn⟩
      | false => exact ⟨fun hx => by simp [hwant] at hx, fun _ => by simp [heq, hwant]⟩
    · refine ⟨fun hx => absurd hx.2 halloc, fun _ => (hnot fun hx => halloc hx.2).trans ?_⟩
      simp [hwant]
  next hnot =>
    cases h
    refine ⟨fun hx => absurd hx.1 (hnot true), fun _ => iff_of_false (by simp) ?_⟩
    rintro (hwant | hcoming)
    · exact hnot true hwant
    · rw [hcoming] at hleaving
      exact hleaving

namespace Swappable

variable {ι : Type}

/-- A call that sleeps will be woken up. -/
def Awaits (s : Swappable ι) : Prop := ∀ i, s.call i = .asleep → s.thread.swapState.Requested

/-- The thread is to be made unswappable if and only if a call sleeps. -/
structure Inv (s : Swappable ι) : Prop where
  thread : s.thread.Inv
  asleep : (∃ i, s.call i = .asleep) ↔ s.thread.swapState.Requested

namespace Inv

variable {s s' : Swappable ι} {th : Thread} {ch : Choice}

theorem onThread (h : s.Inv) (hth : th.Inv)
    (hreq : th.swapState.Requested ↔ s.thread.swapState.Requested) :
    { s with thread := th }.Inv :=
  ⟨hth, h.asleep.trans hreq.symm⟩

variable [DecidableEq ι] {i : ι} {op : SwappableOp ι}

theorem request (h : s.Inv) (hq : s.thread.swapState = .out → ch.alloc = false)
    (hstep : s.request i ch = some s') : s'.Inv := by
  obtain ⟨th, hth, rfl⟩ := Option.map_eq_some_iff.mp hstep
  refine ⟨(Thread.swapin_changed (P := True) h.thread hth).inv, iff_of_true ⟨i, update_self ..⟩ ?_⟩
  refine ((Thread.swapin_swapState hth).2 ?_).mpr (.inr rfl)
  rintro ⟨hout, halloc⟩
  exact Bool.false_ne_true ((hq hout).symm.trans halloc)

/-- An operation keeps the invariant if the thread is not made unswappable at once. -/
theorem apply (h : s.Inv) (hq : op.Queues s) (hstep : s.apply op = some s') : s'.Inv := by
  cases op with
  | swappable i ch =>
    obtain ⟨-, hstep⟩ := Option.ite_none_left_eq_some.mp hstep
    split at hstep
    next => cases hstep; exact h
    next hin =>
      cases hstep
      obtain ⟨hplace, hswapped, hfreeing, hqueued, hleaving⟩ := h.thread
      rw [hin] at hswapped hfreeing hqueued
      refine h.onThread ⟨hplace, hswapped, hfreeing, hqueued.trans (by simp), hleaving⟩ ?_
      simp [hin]
    next => exact h.request hq hstep
  | again i ch =>
    obtain ⟨-, hstep⟩ := Option.ite_none_left_eq_some.mp hstep
    split at hstep
    next hdone =>
      cases hstep
      have hnot : ¬ s.thread.swapState.Requested := by simp [hdone]
      refine ⟨h.thread, iff_of_false ?_ hnot⟩
      rintro ⟨j, hj⟩
      change update s.call i .outside j = .asleep at hj
      rcases eq_or_ne j i with rfl | hne
      · rw [update_self] at hj
        cases hj
      · rw [update_of_ne hne] at hj
        exact hnot (h.asleep.mp ⟨j, hj⟩)
    next => exact h.request hq hstep
  | swapout func =>
    obtain ⟨⟨hin, hrun⟩, hstep⟩ := Option.ite_none_right_eq_some.mp hstep
    cases hstep
    refine h.onThread (Thread.swapout_inv h.thread hin hrun func) ?_
    simp [hin, Thread.swapout]
  | swapoutDone ch =>
    obtain ⟨th, hth, rfl⟩ := Option.map_eq_some_iff.mp hstep
    refine h.onThread (Thread.swapoutDone_changed (P := True) h.thread hth).inv ?_
    refine (Thread.swapoutDone_swapState h.thread hth).2 ?_
    rintro ⟨hwant, halloc⟩
    exact Bool.false_ne_true ((hq hwant).symm.trans halloc)
  | swapin ch =>
    obtain ⟨th, hth, rfl⟩ := Option.map_eq_some_iff.mp hstep
    refine h.onThread (Thread.swapin_changed (P := True) h.thread hth).inv ?_
    obtain ⟨hat, hnot⟩ := Thread.swapin_swapState hth
    by_cases hout : s.thread.swapState = .out ∧ ch.alloc = true
    · simp [hout.1, hat hout]
    · simpa using hnot hout
  | doswapin =>
    obtain ⟨th, hth, rfl⟩ := Option.map_eq_some_iff.mp hstep
    have hinv := (Thread.doswapin_changed (P := True) h.thread hth).inv
    obtain ⟨hq, hth⟩ := Option.ite_none_right_eq_some.mp hth
    cases hth
    obtain ⟨u, hu⟩ := h.thread.queued.mp hq
    refine ⟨hinv, iff_of_false ?_ ?_⟩
    · cases u with
      | true =>
        rw [if_pos hu]
        rintro ⟨i, hi⟩
        cases hc : s.call i <;> simp [hc, SwappableCall.wakeup] at hi
      | false =>
        rw [if_neg (by simp [hu]), h.asleep]
        simp [hu]
    · rw [Thread.swappedIn_swapState]
      split <;> simp

/-- A call that begins to sleep for a thread that is unswappable already. -/
theorem request_queues (hstep : s.request i ch = some s') (hs' : s'.Awaits) :
    s.thread.swapState = .out → ch.alloc = false := by
  obtain ⟨th, hth, rfl⟩ := Option.map_eq_some_iff.mp hstep
  intro hout
  rw [← Bool.not_eq_true]
  intro halloc
  have heq := (Thread.swapin_swapState hth).1 ⟨hout, halloc⟩
  exact absurd (hs' i (update_self ..)) (by simp [heq])

/-- All that sleep will be woken up only if the thread was not made unswappable at once. -/
theorem queues (h : s.Inv) (hstep : s.apply op = some s') (hs' : s'.Awaits) : op.Queues s := by
  cases op with
  | swappable i ch =>
    obtain ⟨-, hstep⟩ := Option.ite_none_left_eq_some.mp hstep
    split at hstep
    next hun => exact fun hout => by simp [hout] at hun
    next hin => exact fun hout => by simp [hout] at hin
    next => exact request_queues hstep hs'
  | again i ch =>
    obtain ⟨-, hstep⟩ := Option.ite_none_left_eq_some.mp hstep
    split at hstep
    next hdone => exact fun hout => by simp [hout] at hdone
    next => exact request_queues hstep hs'
  | swapoutDone ch =>
    obtain ⟨th, hth, rfl⟩ := Option.map_eq_some_iff.mp hstep
    intro hwant
    rw [← Bool.not_eq_true]
    intro halloc
    have heq := (Thread.swapoutDone_swapState h.thread hth).1 ⟨hwant, halloc⟩
    obtain ⟨i, hi⟩ := h.asleep.mpr (.inl hwant)
    exact absurd (hs' i hi) (by simp [heq])
  | swapout | swapin | doswapin => trivial

end Inv

/-- In every run, each call that sleeps will be woken up if and only if `stack_alloc_try` fails
whenever the thread is to be made unswappable. -/
theorem swappable_awaits_iff [DecidableEq ι] {th : Thread} (hth : th.Inv)
    (hnot : ¬ th.swapState.Requested) (ops : List (SwappableOp ι)) :
    Machine.Always step Awaits ops (start th) ↔
      Machine.Steps step SwappableOp.Queues ops (start th) := by
  refine Machine.always_iff_steps (I := Inv) (fun s hs i hi => hs.asleep.mp ⟨i, hi⟩) ?_ ?_
    ⟨hth, iff_of_false (by rintro ⟨_, ⟨⟩⟩) hnot⟩
  · intro s op s' r hs hop hstep
    obtain ⟨s₁, hs₁, heq⟩ := Option.map_eq_some_iff.mp hstep
    cases heq
    exact hs.apply hop hs₁
  · intro s op s' r hs hstep hs'
    obtain ⟨s₁, hs₁, heq⟩ := Option.map_eq_some_iff.mp hstep
    cases heq
    exact hs.queues hs₁ hs'

/-- A thread that was just created is made unswappable, with a stack for it or not. -/
def createdOps (alloc : Bool) : List (SwappableOp Unit) :=
  [.swappable () ⟨alloc, false⟩, .doswapin ⟨alloc, false⟩, .again () ⟨alloc, false⟩]

theorem swappable_awaits_iff_create :
    Machine.Always step Awaits (createdOps false) (start (Thread.create 0)) := by
  refine (swappable_awaits_iff (Thread.create_inv 0) ?_ (createdOps false)).mpr ?_
  · exact fun h => h.elim nofun nofun
  rintro s r ⟨⟩
  refine ⟨fun _ => rfl, ?_⟩
  rintro s r ⟨⟩
  refine ⟨trivial, ?_⟩
  rintro s r ⟨⟩
  exact ⟨fun _ => rfl, trivial⟩

/-- The caller sleeps, and the thread is unswappable already. -/
theorem not_awaits_create :
    ¬ Machine.Always step Awaits (createdOps true) (start (Thread.create 0)) := by
  intro h
  exact ((h.2 _ _ rfl).head () rfl).elim nofun nofun

end Swappable

end Mach
