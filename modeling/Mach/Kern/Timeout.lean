import Mach.Lib.Runs
import Mathlib.Algebra.BigOperators.Group.List.Basic
import Mathlib.Algebra.GroupWithZero.Nat

/-!
# Timeouts

The elements that are set are in one list, in the order of the ticks at which they expire.  The head
of the list is a sentinel with the largest number of ticks, so that the loop of `set_timeout` needs
no other test for the end.  It does not end for an element with this number.

Ticks have 32 bits, and so has the product from which `ipc_thread_will_wait_with_timeout` computes
them.  A timeout keeps time if neither of the two wraps around (`willWait_keepsTime_iff`).
-/

namespace Mach

open Function BitVec

/-- The list of timer elements.  The sentinel is not in `chain`. -/
structure Timers (ε : Type) where
  elapsedTicks : BitVec 32
  ticks : ε → BitVec 32
  chain : List ε

/-- `timer_head.ticks`. -/
def timerHeadTicks : BitVec 32 := .allOnes 32

/-- What happens to the timers. -/
inductive TimerOp (ε : Type) where
  | clockInterrupt
  /-- A round of the loop of `softclock`. -/
  | softclock
  | setTimeout (telt : ε) (interval : BitVec 32)
  | resetTimeout (telt : ε)

/-- How many ticks go by. -/
def TimerOp.ticks {ε : Type} : TimerOp ε → Nat
  | .clockInterrupt => 1
  | _ => 0

namespace Timers

variable {ε : Type}

/-- The loop of `set_timeout`, and `insque`.  There is no result if no element has more ticks. -/
def insert (ticks : ε → BitVec 32) (interval : BitVec 32) (telt : ε) : List ε → Option (List ε)
  | [] => if interval < timerHeadTicks then some [telt] else none
  | next :: rest =>
    if interval < ticks next then some (telt :: next :: rest)
    else (insert ticks interval telt rest).map (next :: ·)

variable {interval : BitVec 32}

theorem insert_some (ticks : ε → BitVec 32) (telt : ε)
    (h : interval < timerHeadTicks) (chain : List ε) :
    ∃ chain', insert ticks interval telt chain = some chain' := by
  induction chain with
  | nil => exact ⟨[telt], if_pos h⟩
  | cons next rest ih =>
    rw [insert]
    split
    next => exact ⟨_, rfl⟩
    next =>
      obtain ⟨rest', hrest⟩ := ih
      exact ⟨next :: rest', by rw [hrest, Option.map_some]⟩

variable [DecidableEq ε]

/-- `set_timeout`. -/
def setTimeout (telt : ε) (interval : BitVec 32) (s : Timers ε) : Option (Timers ε) :=
  let interval := interval + s.elapsedTicks
  (insert s.ticks interval telt s.chain).map fun chain =>
    { s with ticks := update s.ticks telt interval, chain := chain }

/-- The element whose function is called, if there is one.  If the sentinel has expired then it is
taken for an element. -/
def softclock (s : Timers ε) : Option (Timers ε × Option ε) :=
  match s.chain with
  | [] => if s.elapsedTicks < timerHeadTicks then some (s, none) else none
  | telt :: rest =>
    if s.elapsedTicks < s.ticks telt then some (s, none)
    else some ({ s with chain := rest }, some telt)

/-- One call. -/
def step : Machine (TimerOp ε) (Option ε) (Timers ε)
  | .clockInterrupt, s => some ({ s with elapsedTicks := s.elapsedTicks + 1 }, none)
  | .softclock, s => s.softclock
  | .setTimeout telt interval, s => (s.setTimeout telt interval).map (·, none)
  | .resetTimeout telt, s => some ({ s with chain := s.chain.erase telt }, none)

/-- `ipc_thread_will_wait_with_timeout`, for the timer of a thread. -/
def ipcThreadWillWaitWithTimeout (hz msecs : BitVec 32) (timer : ε) (s : Timers ε) :
    Option (Timers ε) :=
  s.setTimeout timer (msecs * hz / 1000)

/-- Until so many further ticks have passed, the function of the element is not called. -/
def KeepsTime (telt : ε) (n : Nat) (s : Timers ε) : Prop :=
  ∀ ops s₁, (∀ op ∈ ops, ∀ i, op ≠ .setTimeout telt i) → (ops.map TimerOp.ticks).sum < n →
    Machine.run step ops s = some s₁ → ∀ s₂, s₁.softclock ≠ some (s₂, some telt)

/-! ### What a run leaves -/

variable {s s' : Timers ε} {telt : ε} {op : TimerOp ε} {ops : List (TimerOp ε)} {r : Option ε}

theorem step_ticks (hop : ∀ i, op ≠ .setTimeout telt i) (h : step op s = some (s', r)) :
    s'.ticks telt = s.ticks telt ∧ s'.elapsedTicks = s.elapsedTicks + .ofNat 32 op.ticks := by
  cases op with
  | clockInterrupt =>
    cases h
    exact ⟨rfl, rfl⟩
  | softclock =>
    simp only [step, softclock] at h
    split at h
    · obtain ⟨-, h⟩ := Option.ite_none_right_eq_some.mp h
      cases h
      exact ⟨rfl, (BitVec.add_zero _).symm⟩
    split at h
    all_goals
      cases h
      exact ⟨rfl, (BitVec.add_zero _).symm⟩
  | setTimeout other interval =>
    obtain ⟨s₁, hs₁, heq⟩ := Option.map_eq_some_iff.mp h
    obtain ⟨chain, -, rfl⟩ := Option.map_eq_some_iff.mp hs₁
    cases heq
    have hne : telt ≠ other := by
      rintro rfl
      exact hop interval rfl
    exact ⟨update_of_ne hne .., (BitVec.add_zero _).symm⟩
  | resetTimeout =>
    cases h
    exact ⟨rfl, (BitVec.add_zero _).symm⟩

theorem run_ticks (hops : ∀ op ∈ ops, ∀ i, op ≠ .setTimeout telt i)
    (h : Machine.run step ops s = some s') :
    s'.ticks telt = s.ticks telt ∧
      s'.elapsedTicks = s.elapsedTicks + .ofNat 32 (ops.map TimerOp.ticks).sum := by
  induction ops generalizing s with
  | nil =>
    cases h
    exact ⟨rfl, (BitVec.add_zero _).symm⟩
  | cons op ops ih =>
    obtain ⟨⟨s₁, r⟩, hstep, hrest⟩ := Option.bind_eq_some_iff.mp h
    obtain ⟨hticks, helapsed⟩ := step_ticks (hops op List.mem_cons_self) hstep
    obtain ⟨hticks', helapsed'⟩ := ih (fun op hop => hops op (List.mem_cons_of_mem _ hop)) hrest
    refine ⟨hticks'.trans hticks, ?_⟩
    rw [helapsed', helapsed, List.map_cons, List.sum_cons, ofNat_add, BitVec.add_assoc]

theorem run_clockInterrupts (n : Nat) (s : Timers ε) :
    Machine.run step (List.replicate n .clockInterrupt) s =
      some { s with elapsedTicks := s.elapsedTicks + .ofNat 32 n } := by
  induction n generalizing s with
  | zero => simp [Machine.run]
  | succ n ih =>
    rw [List.replicate_succ, Machine.run, step, Option.bind_some, ih, BitVec.add_assoc,
      add_comm n 1, ofNat_add]
    rfl

/-! ### Keeping time -/

theorem setTimeout_ticks (h : s.setTimeout telt interval = some s') :
    s'.ticks telt = interval + s.elapsedTicks ∧ s'.elapsedTicks = s.elapsedTicks := by
  obtain ⟨chain, -, rfl⟩ := Option.map_eq_some_iff.mp h
  exact ⟨update_self .., rfl⟩

variable {n : Nat}

/-- The function is called only if the ticks have passed. -/
theorem keepsTime_of_le (h : s.elapsedTicks.toNat + n ≤ (s.ticks telt).toNat) :
    s.KeepsTime telt n := by
  intro ops s₁ hops hlt hrun s₂ hcall
  obtain ⟨hticks, helapsed⟩ := run_ticks hops hrun
  rw [softclock] at hcall
  split at hcall
  next => split at hcall <;> cases hcall
  split at hcall
  next => cases hcall
  next hle =>
    cases hcall
    rw [hticks, helapsed] at hle
    apply hle
    bv_omega

theorem not_keepsTime {k : Nat} (hchain : s.chain = [telt]) (hk : k < n)
    (h : s.ticks telt ≤ s.elapsedTicks + .ofNat 32 k) : ¬ s.KeepsTime telt n := by
  intro hkeeps
  refine hkeeps (.replicate k .clockInterrupt) _ ?_ ?_ (run_clockInterrupts k s)
    { s with elapsedTicks := s.elapsedTicks + .ofNat 32 k, chain := [] } ?_
  · intro op hop i heq
    rw [List.eq_of_mem_replicate hop] at heq
    cases heq
  · simpa [TimerOp.ticks] using hk
  · simp [softclock, hchain, BitVec.not_lt.mpr h]

/-- A message timeout keeps time, whatever other elements are in the list, if and only if the number
of ticks is computed without overflow and the tick at which it expires is less than that of the
sentinel. -/
theorem willWait_keepsTime_iff (hz msecs elapsedTicks : BitVec 32) (timer : ε) :
    (∀ ticks chain, ∃ s', ipcThreadWillWaitWithTimeout hz msecs timer ⟨elapsedTicks, ticks, chain⟩ =
      some s' ∧ s'.KeepsTime timer (msecs.toNat * hz.toNat / 1000)) ↔
    msecs.toNat * hz.toNat < 2 ^ 32 ∧
      elapsedTicks.toNat + msecs.toNat * hz.toNat / 1000 < 2 ^ 32 - 1 := by
  have hticks : (msecs * hz / 1000).toNat = msecs.toNat * hz.toNat % 2 ^ 32 / 1000 := by
    rw [toNat_udiv, toNat_mul]
    rfl
  generalize msecs.toNat * hz.toNat = product at *
  constructor
  · intro h
    obtain ⟨s', hs', hkeeps⟩ := h (fun _ => 0) []
    obtain ⟨hset, helapsed⟩ := setTimeout_ticks hs'
    obtain ⟨chain, hchain, rfl⟩ := Option.map_eq_some_iff.mp hs'
    obtain ⟨hlt, hchain⟩ := Option.ite_none_right_eq_some.mp hchain
    cases hchain
    have hsum : (msecs * hz / 1000 + elapsedTicks).toNat < 2 ^ 32 - 1 := hlt
    by_contra hnot
    by_cases hwraps : 2 ^ 32 ≤ (msecs * hz / 1000).toNat + elapsedTicks.toNat
    · refine not_keepsTime (k := 0) rfl (by omega) ?_ hkeeps
      rw [hset, helapsed]
      bv_omega
    rw [toNat_add] at hsum
    refine not_keepsTime (k := (msecs * hz / 1000).toNat) rfl (by omega) ?_ hkeeps
    rw [hset, helapsed]
    bv_omega
  · rintro ⟨hproduct, hsum⟩ ticks chain
    have hlt : msecs * hz / 1000 + elapsedTicks < timerHeadTicks := by
      show (msecs * hz / 1000 + elapsedTicks).toNat < 2 ^ 32 - 1
      rw [toNat_add]
      omega
    obtain ⟨chain', hchain⟩ := insert_some ticks timer hlt chain
    obtain ⟨s', hs'⟩ : ∃ s', ipcThreadWillWaitWithTimeout hz msecs timer
        ⟨elapsedTicks, ticks, chain⟩ = some s' :=
      ⟨_, by rw [ipcThreadWillWaitWithTimeout, setTimeout, hchain, Option.map_some]⟩
    obtain ⟨hset, helapsed⟩ := setTimeout_ticks hs'
    refine ⟨s', hs', keepsTime_of_le ?_⟩
    rw [hset, helapsed, toNat_add]
    dsimp only
    omega

/-- Almost twelve hours, at 100 ticks in a second. -/
theorem not_keepsTime_msecs :
    ∃ s', ipcThreadWillWaitWithTimeout 100 42949673 () ⟨0, fun _ => 0, []⟩ = some s' ∧
      ¬ s'.KeepsTime () (42949673 * 100 / 1000) :=
  ⟨_, rfl, not_keepsTime (k := 0) rfl (by decide) (by decide)⟩

end Timers

end Mach
