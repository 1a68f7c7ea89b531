import Mach.Kern.ThreadSwap

/-!
# Threads that keep their kernel stacks

A thread that blocks without a continuation keeps its stack if it waits, not interruptibly
(`Op.Shielded`).  A wakeup that finds the thread before `thread_continue` has taken it off its
processor makes it interruptible, and also has to be avoided.
-/

namespace Mach

open Thread

/-- What a thread has to do to keep its stack.  It blocks without a continuation only to wait, not
interruptibly, and not while `thread_continue` still tells another thread that it has stopped
before.  Then it is not woken up before it has left its processor, except by `ipc_thread_go`. -/
def Op.Shielded (s : Sched) : Op → Prop
  | .block t none _ =>
    (s.thread t).state.wait = true ∧ (s.thread t).interruptible = false ∧
      ∀ func, (t, some func) ∉ s.tails
  | .clearWait t interruptOnly _ =>
    interruptOnly = false → (s.thread t).place ≠ .leaving none
  | .clearWaitTail i _ =>
    ∀ t event, s.clears[i]? = some (t, event) → (s.thread t).place ≠ .leaving none
  | .wakeup t _ _ => (s.thread t).place ≠ .leaving none
  | _ => True

namespace Sched

variable {s s' s'' : Sched} {t : Nat} {ch : Choice} {P : Prop} {Q : Prop}

/-- Stacks were discarded only of threads that had blocked with a continuation. -/
def SwapoutsSafe (s : Sched) : Prop := ∀ stop ∈ s.swapouts, stop ≠ none

/-- Threads that had blocked without a continuation resumed after the call of `thread_block`. -/
def ResumesAfterBlock (s : Sched) : Prop := ∀ p, (none, p) ∈ s.resumed → p = .afterBlock

/-- The invariant of each thread. -/
def Inv (s : Sched) : Prop := ∀ t, (s.thread t).Inv

/-- No thread has lost a stack that it needs, and none can lose it. -/
structure Safe (s : Sched) : Prop where
  thread : ∀ t, (s.thread t).Safe
  /-- The stack of a thread is not discarded by one that has told another. -/
  tails : ∀ t func, (t, some func) ∈ s.tails → (s.thread t).stop ≠ none
  swapouts : s.SwapoutsSafe
  resumes : s.ResumesAfterBlock

/-- What an operation keeps, the second on a condition. -/
structure Stepped (P : Prop) (s s' : Sched) : Prop where
  inv : s'.Inv
  safe : P → s.Safe → s'.Safe

theorem set_self (t : Nat) (th : Thread) (s : Sched) : (s.set t th).thread t = th :=
  Function.update_self ..

theorem set_of_ne {u : Nat} (hu : u ≠ t) (th : Thread) (s : Sched) :
    (s.set t th).thread u = s.thread u :=
  Function.update_of_ne hu ..

variable {th : Thread}

theorem forall_set {Q : Thread → Prop} (h : ∀ u, Q (s.thread u)) (hth : Q th) (u : Nat) :
    Q ((s.set t th).thread u) := by
  rcases eq_or_ne u t with rfl | hu
  · rw [set_self]
    exact hth
  · rw [set_of_ne hu]
    exact h u

theorem Safe.set (h : s.Safe) (hth : th.Safe)
    (hstop : ∀ func, (t, some func) ∈ s.tails → th.stop ≠ none) : (s.set t th).Safe where
  thread u := forall_set h.thread hth u
  tails u func hmem := by
    rcases eq_or_ne u t with rfl | hu
    · rw [set_self]
      exact hstop func hmem
    · rw [set_of_ne hu]
      exact h.tails u func hmem
  swapouts := h.swapouts
  resumes := h.resumes

theorem Stepped.trans (h : Stepped P s s') (h' : Stepped P s' s'') : Stepped P s s'' :=
  ⟨h'.inv, fun hP hsafe => h'.safe hP (h.safe hP hsafe)⟩

theorem Stepped.mono (h : Stepped P s s') (hqp : Q → s.Safe → P) : Stepped Q s s' :=
  ⟨h.inv, fun hQ hsafe => h.safe (hqp hQ hsafe) hsafe⟩

section

variable (hinv : s.Inv)

include hinv

theorem Stepped.refl : Stepped P s s := ⟨hinv, fun _ h => h⟩

theorem Stepped.of_changed (hth : Changed P (s.thread t) th) : Stepped P s (s.set t th) where
  inv u := forall_set hinv hth.inv u
  safe hP h := h.set (hth.safe hP (h.thread t)) fun func hmem => hth.stop ▸ h.tails t func hmem

theorem Stepped.of_onThread {f : Thread → Option Thread}
    (hf : ∀ {th'}, f (s.thread t) = some th' → Changed P (s.thread t) th')
    (h : s.onThread t f = some s') : Stepped P s s' := by
  obtain ⟨th, hth, rfl⟩ := Option.map_eq_some_iff.mp h
  exact .of_changed hinv (hf hth)

/-- The stack of a stopped thread is discarded, which is right if it had a continuation. -/
theorem swapout_stepped (hin : (s.thread t).swapState = .swappedIn)
    (hrun : (s.thread t).state.run = false) (func : Func) :
    Stepped ((s.thread t).stop ≠ none) s (s.swapout t func) where
  inv u := forall_set hinv (swapout_inv (hinv t) hin hrun func) u
  safe hstop h := by
    have hth : ((s.thread t).swapout func).Safe :=
      ⟨fun hnone => absurd hnone hstop, (h.thread t).shielded, (h.thread t).waiting⟩
    exact { h.set hth fun _ _ => hstop with
      swapouts := List.forall_mem_cons.mpr ⟨hstop, h.swapouts⟩ }

/-- A thread is run.  If it needs its stack then it has it. -/
theorem dispatch_stepped (h : s.dispatch t = some s') : Stepped P s s' := by
  obtain ⟨hplace, h⟩ := Option.ite_none_right_eq_some.mp h
  split at h
  next => cases h
  next p hk =>
    cases h
    have hne : (s.thread t).place ≠ .off := by
      rcases hplace with hplace | hplace <;> simp [hplace]
    have hchanged : Changed P (s.thread t)
        { s.thread t with place := .running, interruptible := true } :=
      SameStack.changed (hinv t) ⟨rfl, rfl, rfl, rfl, rfl, rfl⟩
        ⟨fun _ => (hinv t).place.mp hne, nofun⟩ nofun (fun _ _ _ => .inl rfl) fun _ _ _ => .inl rfl
    have hstep := Stepped.of_changed hinv hchanged
    refine ⟨hstep.inv, fun hP hsafe => { hstep.safe hP hsafe with resumes := fun q hq => ?_ }⟩
    rcases List.mem_cons.mp hq with hq | hq
    · obtain ⟨hstop, rfl⟩ := Prod.mk.inj hq
      exact Option.some.inj (hk.symm.trans ((hsafe.thread t).kept hstop.symm).2)
    · exact hsafe.resumes q hq

/-- A running thread blocks, on the stack that it has. -/
theorem block_stepped {c : Option Func} {new : Option Nat} (h : s.block t c new = some s') :
    Stepped (Op.Shielded s (.block t c new)) s s' := by
  obtain ⟨hplace, h⟩ := Option.ite_none_right_eq_some.mp h
  have hne : (s.thread t).place ≠ .off := by simp [hplace]
  obtain ⟨hrun, hswapped⟩ := (hinv t).place.mp hne
  generalize hth : ({ s.thread t with
    place := .leaving c, kernelStack := some .afterBlock, stop := c } : Thread) = th at h
  have hstep : Stepped (Op.Shielded s (.block t c new)) s (s.set t th) := by
    subst hth
    refine ⟨fun u => forall_set hinv ?_ u, fun hop hsafe => hsafe.set
      ⟨fun _ => ⟨hswapped, rfl⟩, fun hnone => ?_, fun _ _ => .inr ⟨c, rfl⟩⟩ fun func hmem => ?_⟩
    · refine { hinv t with place := ⟨fun _ => ⟨hrun, hswapped⟩, nofun⟩, leaving := fun c hc => ?_ }
      cases hc
      rfl
    · obtain rfl : c = none := hnone
      exact .inr hop.2.1
    · rintro rfl
      exact hop.2.2 func hmem
  cases new with
  | none => cases h; exact hstep
  | some => exact hstep.trans (dispatch_stepped hstep.inv h)

theorem checkContinuation_stepped (c : Option Func) :
    Stepped (∀ func, c = some func → (s.thread t).stop ≠ none) s (s.checkContinuation t c) := by
  cases c with
  | none => exact .refl hinv
  | some func =>
    rw [checkContinuation]
    split
    next hcond => exact (swapout_stepped hinv hcond.1 hcond.2 func).mono fun h _ => h func rfl
    next => exact .refl hinv

theorem continue_stepped (h : s.continue_ t ch = some s') : Stepped True s s' := by
  rw [continue_] at h
  split at h
  next c hplace =>
    have hne : (s.thread t).place ≠ .running := by simp [hplace]
    have hchanged : ∀ {th tail}, (s.thread t).continue_ ch = some (th, tail) →
        Stepped True s (s.set t th) ∧ ((s.set t th).thread t).stop = c := by
      intro th tail hth
      have hchanged := continue_changed (P := True) (hinv t) hne hth
      exact ⟨.of_changed hinv hchanged,
        by rw [set_self, hchanged.stop, (hinv t).leaving c hplace]⟩
    split at h
    next => cases h
    next th hth =>
      cases h
      obtain ⟨hstep, hstop⟩ := hchanged hth
      refine ⟨hstep.inv, fun _ hsafe =>
        { hstep.safe trivial hsafe with tails := fun u func hmem => ?_ }⟩
      rcases List.mem_cons.mp hmem with heq | hmem
      · cases heq
        exact fun hnone => Option.some_ne_none func (hstop.symm.trans hnone)
      · exact (hstep.safe trivial hsafe).tails u func hmem
    next th hth =>
      cases h
      obtain ⟨hstep, hstop⟩ := hchanged hth
      refine hstep.trans ((checkContinuation_stepped hstep.inv c).mono fun _ _ func hc => ?_)
      rw [hstop, hc]
      exact Option.some_ne_none func
  next => cases h

theorem clearWaitTail_stepped {i : Nat} (h : s.clearWaitTail i ch = some s') :
    Stepped (Op.Shielded s (.clearWaitTail i ch)) s s' := by
  rw [clearWaitTail] at h
  split at h
  next => cases h
  next t event hi =>
    have herase : ∀ {P}, Stepped P s { s with clears := s.clears.eraseIdx i } :=
      ⟨hinv, fun _ hsafe => { hsafe with }⟩
    simp only at h
    split at h
    next =>
      have hevent : Changed ((s.thread t).place ≠ .leaving none) (s.thread t)
          { s.thread t with waitEvent := 0 } := counts_changed (hinv t)
      have hstep := Stepped.of_onThread (herase (P := True)).inv
        (fun hclear => hevent.trans (clearWait_changed hevent.inv hclear)) h
      exact (herase.trans hstep).mono fun hop _ => hop t event hi
    next => cases h; exact herase

/-- A suspended thread is taken off its run queue. -/
theorem dowait_stepped : Stepped P s (s.dowait t) := by
  rw [dowait]
  split
  next hstop =>
    generalize hth : ({ s.thread t with
      state := ⟨false, true, false, false⟩, place := .off, wakeActive := false } : Thread) = th
    have hne : (s.thread t).place ≠ .running := by simp [hstop.2.2]
    have hoff : Changed P (s.thread t) th :=
      hth ▸ off_changed (hinv t) hne rfl (hstop.1 ▸ rfl) false
    have hstep := Stepped.of_changed hinv hoff
    have hself : (s.set t th).thread t = th := set_self t th s
    split
    next hin =>
      have hswapout := swapout_stepped (t := t) hstep.inv (by rw [hself, ← hth]; exact hin)
        (by rw [hself, ← hth]) .threadExceptionReturn
      refine ⟨hswapout.inv, fun hP hsafe => hswapout.safe (fun hnone => ?_) (hstep.safe hP hsafe)⟩
      rw [hself, hoff.stop] at hnone
      simp [Stoppable, (hsafe.thread t).interruptible hne hnone] at hstop
    next => exact hstep
  next => exact .refl hinv

theorem step_stepped {op : Op} (h : s.step op = some s') : Stepped (op.Shielded s) s s' := by
  cases op with
  | assertWait t event =>
    obtain ⟨hrunning, h⟩ := Option.ite_none_right_eq_some.mp h
    refine .of_onThread hinv (fun h => ?_) h
    obtain ⟨-, ⟨⟩⟩ := Option.ite_none_left_eq_some.mp h
    exact flags_changed (hinv t) (fun _ _ _ => .inl hrunning) fun _ => .inr hrunning
  | willWait t =>
    obtain ⟨hrunning, h⟩ := Option.ite_none_right_eq_some.mp h
    refine .of_onThread hinv (fun heq => ?_) h
    cases heq
    exact flags_changed (hinv t) (fun _ h => h.shielded) fun _ => .inr hrunning
  | block t c => exact block_stepped hinv h
  | run t => exact dispatch_stepped hinv h
  | continue_ t ch => exact continue_stepped hinv h
  | continueTail i =>
    simp only [step] at h
    split at h
    next => cases h
    next t c hi =>
      cases h
      have herase : Stepped True s { s with tails := s.tails.eraseIdx i } :=
        ⟨hinv, fun _ hsafe => { hsafe with
          tails := fun u func hmem => hsafe.tails u func (List.mem_of_mem_eraseIdx hmem) }⟩
      have hcheck := checkContinuation_stepped herase.inv (t := t) c
      refine ⟨hcheck.inv, fun _ hsafe => hcheck.safe ?_ (herase.safe trivial hsafe)⟩
      rintro func rfl
      exact hsafe.tails t func (List.mem_of_getElem? hi)
  | swapoutDone t ch => exact .of_onThread hinv (swapoutDone_changed (hinv t)) h
  | clearWait t interruptOnly ch =>
    simp only [step, clearWait] at h
    split at h
    next => cases h; exact .refl hinv
    next hboth =>
      split at h
      next => cases h; exact ⟨hinv, fun _ hsafe => { hsafe with }⟩
      next =>
        refine (Stepped.of_onThread hinv (clearWait_changed (hinv t)) h).mono fun hop hsafe => ?_
        cases hio : interruptOnly with
        | false => exact hop hio
        | true =>
          intro hplace
          have := (hsafe.thread t).shielded ((hinv t).leaving none hplace)
          simp_all
  | clearWaitTail i ch => exact clearWaitTail_stepped hinv h
  | wakeup t event ch =>
    obtain ⟨-, h⟩ := Option.ite_none_right_eq_some.mp h
    exact .of_onThread hinv (wakeup_changed (hinv t)) h
  | ipcThreadGo t ch => exact .of_onThread hinv (ipcThreadGo_changed (hinv t)) h
  | hold t =>
    simp only [step] at h
    refine .of_onThread hinv (fun heq => ?_) h
    cases heq
    exact counts_changed (hinv t)
  | suspend t =>
    simp only [step] at h
    refine .of_onThread hinv (fun heq => ?_) h
    cases heq
    rw [suspend]
    split <;> exact counts_changed (hinv t)
  | dowait t => cases h; exact dowait_stepped hinv
  | waitActive t =>
    refine .of_onThread hinv (fun h => ?_) h
    obtain ⟨-, ⟨⟩⟩ := Option.ite_none_left_eq_some.mp h
    exact counts_changed (hinv t)
  | release t ch => exact .of_onThread hinv (release_changed (hinv t)) h
  | resume t ch => exact .of_onThread hinv (resume_changed (hinv t)) h
  | swapin t makeUnswappable ch => exact .of_onThread hinv (swapin_changed (hinv t)) h
  | doswapin t => exact .of_onThread hinv (doswapin_changed (hinv t)) h

end

/-- Every operation of a run meets a condition in the state before it. -/
def Each (C : Sched → Op → Prop) : List Op → Sched → Prop
  | [], _ => True
  | op :: ops, s => C s op ∧ ∀ s', s.step op = some s' → Each C ops s'

theorem steps_stepped (hinv : s.Inv) {ops : List Op} (h : s.steps ops = some s') :
    Stepped (Each Op.Shielded ops s) s s' := by
  induction ops generalizing s with
  | nil => cases h; exact .refl hinv
  | cons op ops ih =>
    obtain ⟨s₁, hop, h⟩ := Option.bind_eq_some_iff.mp h
    have hstep := step_stepped hinv hop
    have hrest := ih hstep.inv h
    exact ⟨hrest.inv, fun hops hsafe => hrest.safe (hops.2 s₁ hop) (hstep.safe hops.1 hsafe)⟩

theorem create_inv (suspended : Nat → Nat) : (create suspended).Inv := fun t =>
  Thread.create_inv (suspended t)

theorem create_safe (suspended : Nat → Nat) : (create suspended).Safe where
  thread _ := ⟨fun hnone => (by cases hnone), fun hnone => (by cases hnone),
    fun hw => (by cases hw)⟩
  tails _ _ hmem := by cases hmem
  swapouts _ hmem := by cases hmem
  resumes _ hmem := by cases hmem

/-- Stacks can be allocated, and no processor is idle. -/
def allocates : Choice := ⟨true, false⟩

/-- A thread is started, runs, and blocks with a continuation while it waits. -/
def waitOps : List Op :=
  [.resume 0 allocates, .run 0, .assertWait 0 1 true, .block 0 (some (.other 0)) none,
    .continue_ 0 allocates]

/-- In every run, the invariant holds of every thread. -/
theorem steps_inv (suspended : Nat → Nat) (ops : List Op)
    (h : (create suspended).steps ops = some s) : s.Inv :=
  (steps_stepped (create_inv suspended) h).inv

theorem steps_inv_waitOps : ∃ s, (create fun _ => 0).steps waitOps = some s ∧ s.Inv :=
  ⟨_, rfl, steps_inv (fun _ => 0) waitOps rfl⟩

/-- In a run of any number of threads whose operations are shielded, stacks are discarded only of
threads that have blocked with a continuation, or were interrupted in user mode.  A thread that has
blocked without a continuation always resumes after the call. -/
theorem swapouts_safe (suspended : Nat → Nat) (ops : List Op)
    (h : (create suspended).steps ops = some s)
    (hops : Each Op.Shielded ops (create suspended)) :
    s.SwapoutsSafe ∧ s.ResumesAfterBlock := by
  have hsafe := (steps_stepped (create_inv suspended) h).safe hops (create_safe suspended)
  exact ⟨hsafe.swapouts, hsafe.resumes⟩

theorem Each.cons {C : Sched → Op → Prop} {op : Op} {ops : List Op} (hop : C s op)
    (hstep : s.step op = some s') (h : Each C ops s') : Each C (op :: ops) s := by
  refine ⟨hop, fun s₁ hs₁ => ?_⟩
  cases hstep.symm.trans hs₁
  exact h

/-- A thread sleeps, is woken up and is then suspended on the run queue. -/
def sleepOps : List Op :=
  [.resume 0 allocates, .run 0, .assertWait 0 1 false, .block 0 none none, .continue_ 0 allocates,
    .wakeup 0 1 allocates, .suspend 0, .dowait 0, .run 0]

/-- It keeps its stack, and resumes after the call. -/
theorem swapouts_safe_sleep : ∃ s, (create fun _ => 0).steps sleepOps = some s ∧
      s.resumed.head? = some (none, .afterBlock) ∧ s.SwapoutsSafe ∧ s.ResumesAfterBlock := by
  refine ⟨_, rfl, rfl, swapouts_safe (fun _ => 0) sleepOps rfl ?_⟩
  refine .cons trivial rfl (.cons trivial rfl (.cons trivial rfl (.cons ?_ rfl ?_)))
  · exact ⟨rfl, rfl, fun func hmem => by cases hmem⟩
  · refine .cons trivial rfl
      (.cons (fun hplace => ?_) rfl (.cons trivial rfl (.cons trivial rfl ?_)))
    · cases hplace
    · exact .cons trivial rfl trivial

/-- Thread 0 gives up the processor to thread 1, as `swtch` does.  Thread 1 suspends and resumes
it. -/
def switchOps : List Op :=
  [.resume 0 allocates, .run 0, .resume 1 allocates, .block 0 none (some 1), .continue_ 0 allocates,
    .suspend 0, .dowait 0, .swapoutDone 0 allocates, .resume 0 allocates, .block 1 none (some 0)]

/-- The thread loses its stack, and returns to user mode from the middle of its system call. -/
theorem not_swapoutsSafe_switchOps : ∃ s, (create fun _ => 0).steps switchOps = some s ∧
      (none, .function .threadExceptionReturn) ∈ s.resumed ∧
      ¬ s.SwapoutsSafe ∧ ¬ s.ResumesAfterBlock := by
  refine ⟨_, rfl, List.mem_cons_self, fun h => ?_, fun h => ?_⟩
  · exact h none List.mem_cons_self rfl
  · cases h _ List.mem_cons_self

end Sched

end Mach
