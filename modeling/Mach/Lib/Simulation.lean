/-!
# Machines, contracts and runs

A *machine* is a partial step function: an operation takes a state to a new state and a
result, or faults.  A *contract* says over an abstract state which operations a client
may ask for, which results are right, and what the abstract state is afterwards.  The
abstract successor may depend on the result, so a contract can leave a choice to the
machine.

A *run* is a sequence of legal operations, the abstract state kept alongside (`Contract.Run`).  A
*simulation* relates the two states, holds initially, and is kept by every legal operation, which
then neither faults nor returns a wrong result.  Then the relation holds at the end of every run
(`Contract.Simulates.run`).
-/

universe u v w x

/-- A step function that may fault. -/
abbrev Machine (Op : Type u) (Res : Type v) (State : Type w) :=
  Op → State → Option (State × Res)

theorem Machine.state_eq {Res : Type v} {State : Type w} {x : State × Res} {s : State} {r : Res}
    (h : some x = some (s, r)) : x.1 = s :=
  congrArg Prod.fst (Option.some.inj h)

/-- What clients may ask for and what they get, over an abstract state. -/
structure Contract (Op : Type u) (Res : Type v) (Abs : Type x) where
  /-- The operations a client may ask for. -/
  legal : Op → Abs → Prop
  /-- The results that are right. -/
  ok : Op → Abs → Res → Prop
  /-- The abstract state afterwards. -/
  next : Op → Abs → Res → Abs

namespace Contract

variable {Op : Type u} {Res : Type v} {State : Type w} {Abs : Type x}

/-- The pairs of states that legal operations reach from a set of initial pairs. -/
inductive Run (C : Contract Op Res Abs) (M : Machine Op Res State)
    (init : State → Abs → Prop) : State → Abs → Prop where
  | start {s : State} {a : Abs} : init s a → Run C M init s a
  | step {s s' : State} {a : Abs} {op : Op} {r : Res} : Run C M init s a → C.legal op a →
      M op s = some (s', r) → Run C M init s' (C.next op a r)

/-- A relation that every legal operation keeps, with a right result. -/
def Simulates (C : Contract Op Res Abs) (M : Machine Op Res State)
    (R : State → Abs → Prop) : Prop :=
  ∀ s a op, R s a → C.legal op a →
    ∃ s' r, M op s = some (s', r) ∧ C.ok op a r ∧ R s' (C.next op a r)

/-- A simulation holds along every run that starts in it. -/
theorem Simulates.run {C : Contract Op Res Abs} {M : Machine Op Res State}
    {init R : State → Abs → Prop} (hsim : C.Simulates M R)
    (hinit : ∀ s a, init s a → R s a) {s : State} {a : Abs} (hrun : C.Run M init s a) :
    R s a := by
  induction hrun with
  | start h => exact hinit _ _ h
  | step _ hlegal hstep ih =>
    obtain ⟨s₁, r₁, hstep₁, -, hR⟩ := hsim _ _ _ ih hlegal
    rw [hstep] at hstep₁
    cases hstep₁
    exact hR

end Contract
