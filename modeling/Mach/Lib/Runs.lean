import Mach.Lib.Simulation

/-!
# Properties along runs

`Machine.Always` says that a property holds in every state of a run, up to the first operation that
is not possible.  A run may have to be assumed to stay within some bounds.  Then a fact is proved
with these bounds as a hypothesis on the states before and after an operation (`Always.invariant`).
Bounds that are exact are a property that is the same along every run (`always_iff`).

`Machine.Steps` says that each operation meets a condition when it is made.  The condition is exact
if an operation that does not meet it leads to a state without the property (`always_iff_steps`).
For a condition on the operations that were made before, the machine also keeps these
(`Machine.traced`).
-/

universe u v w

namespace Machine

variable {Op : Type u} {Res : Type v} {State : Type w} {M : Machine Op Res State}
  {P Q I : State → Prop}

/-- The property holds now, and after each of the operations. -/
def Always (M : Machine Op Res State) (P : State → Prop) : List Op → State → Prop
  | [], s => P s
  | op :: ops, s => P s ∧ ∀ s' r, M op s = some (s', r) → Always M P ops s'

variable {ops : List Op} {s : State}

theorem Always.head (h : Always M P ops s) : P s := by
  cases ops with
  | nil => exact h
  | cons => exact h.1

theorem Always.mono (hPQ : ∀ s, P s → Q s) (h : Always M P ops s) :
    Always M Q ops s := by
  induction ops generalizing s with
  | nil => exact hPQ s h
  | cons op ops ih => exact ⟨hPQ s h.1, fun s' r hstep => ih (h.2 s' r hstep)⟩

instance Always.decidable [DecidablePred P] :
    (ops : List Op) → (s : State) → Decidable (Always M P ops s)
  | [], s => inferInstanceAs (Decidable (P s))
  | op :: ops, s =>
    match hstep : M op s with
    | none => decidable_of_iff (P s) (by simp [Always, hstep])
    | some (s', r) =>
      have := Always.decidable ops s'
      decidable_of_iff (P s ∧ Always M P ops s') (by simp [Always, hstep])

/-- What an operation keeps within the bounds holds along every run within the bounds. -/
theorem Always.invariant (hkeeps : ∀ s op s' r, I s → P s → P s' → M op s = some (s', r) → I s')
    (hs : I s) (h : Always M P ops s) : Always M I ops s := by
  induction ops generalizing s with
  | nil => exact hs
  | cons op ops ih =>
    refine ⟨hs, fun s' r hstep => ?_⟩
    exact ih (hkeeps s op s' r hs h.1 (h.2 s' r hstep).head hstep) (h.2 s' r hstep)

/-- Two properties are the same along every run, if each of them keeps an invariant under which they
are the same. -/
theorem always_iff
    (hkeeps : ∀ s op s' r, I s → P s ∨ Q s → P s' ∨ Q s' → M op s = some (s', r) → I s')
    (hPQ : ∀ s, I s → (P s ↔ Q s)) (hs : I s) : Always M P ops s ↔ Always M Q ops s := by
  constructor
  · intro h
    have hinv := h.invariant (I := fun s => I s ∧ P s) (fun s op s' r hs hP hP' hstep =>
      ⟨hkeeps s op s' r hs.1 (.inl hP) (.inl hP') hstep, hP'⟩) ⟨hs, h.head⟩
    exact hinv.mono fun s hs => (hPQ s hs.1).mp hs.2
  · intro h
    have hinv := h.invariant (I := fun s => I s ∧ Q s) (fun s op s' r hs hQ hQ' hstep =>
      ⟨hkeeps s op s' r hs.1 (.inr hQ) (.inr hQ') hstep, hQ'⟩) ⟨hs, h.head⟩
    exact hinv.mono fun s hs => (hPQ s hs.1).mpr hs.2

theorem Always.of_keeps (hkeeps : ∀ s op s' r, I s → M op s = some (s', r) → I s') (hs : I s) :
    Always M I ops s := by
  induction ops generalizing s with
  | nil => exact hs
  | cons op ops ih => exact ⟨hs, fun s' r hstep => ih (hkeeps s op s' r hs hstep)⟩

variable {C : Op → State → Prop}

/-- Each operation meets the condition in the state before it. -/
def Steps (M : Machine Op Res State) (C : Op → State → Prop) : List Op → State → Prop
  | [], _ => True
  | op :: ops, s => ∀ s' r, M op s = some (s', r) → C op s ∧ Steps M C ops s'

instance Steps.decidable [∀ op s, Decidable (C op s)] :
    (ops : List Op) → (s : State) → Decidable (Steps M C ops s)
  | [], _ => .isTrue trivial
  | op :: ops, s =>
    match hstep : M op s with
    | none => .isTrue (by simp [Steps, hstep])
    | some (s', r) =>
      have := Steps.decidable ops s'
      decidable_of_iff (C op s ∧ Steps M C ops s') (by simp [Steps, hstep])

theorem Steps.always (hkeeps : ∀ s op s' r, I s → C op s → M op s = some (s', r) → I s')
    (hs : I s) (h : Steps M C ops s) : Always M I ops s := by
  induction ops generalizing s with
  | nil => exact hs
  | cons op ops ih =>
    refine ⟨hs, fun s' r hstep => ?_⟩
    obtain ⟨hop, hrest⟩ := h s' r hstep
    exact ih (hkeeps s op s' r hs hop hstep) hrest

/-- A property that operations keep if they meet the condition, and only then. -/
theorem always_iff_steps (hP : ∀ s, I s → P s)
    (hkeeps : ∀ s op s' r, I s → C op s → M op s = some (s', r) → I s')
    (hbreaks : ∀ s op s' r, I s → M op s = some (s', r) → P s' → C op s) (hs : I s) :
    Always M P ops s ↔ Steps M C ops s := by
  refine ⟨fun h => ?_, fun h => (h.always hkeeps hs).mono hP⟩
  induction ops generalizing s with
  | nil => trivial
  | cons op ops ih =>
    intro s' r hstep
    have hrest := h.2 s' r hstep
    have hop := hbreaks s op s' r hs hstep hrest.head
    exact ⟨hop, ih (hkeeps s op s' r hs hop hstep) hrest⟩

/-- The machine that also keeps the operations that were made, the last one first. -/
def traced (M : Machine Op Res State) : Machine Op Res (List Op × State) :=
  fun op x => (M op x.2).map fun y => ((op :: x.1, y.1), y.2)

theorem always_traced (before : List Op) :
    Always (traced M) (fun x => P x.2) ops (before, s) ↔ Always M P ops s := by
  induction ops generalizing before s with
  | nil => rfl
  | cons op ops ih =>
    refine and_congr_right' ⟨fun h s' r hstep => ?_, fun h x r hstep => ?_⟩
    · exact (ih _).mp (h (op :: before, s') r (Option.map_eq_some_iff.mpr ⟨_, hstep, rfl⟩))
    · obtain ⟨⟨s', r'⟩, hs', heq⟩ := Option.map_eq_some_iff.mp hstep
      cases heq
      exact (ih _).mpr (h s' r' hs')

/-- The state after the operations, if all are possible. -/
def run (M : Machine Op Res State) : List Op → State → Option State
  | [], s => some s
  | op :: ops, s => (M op s).bind fun x => run M ops x.1

theorem run_append {rest : List Op} : run M (ops ++ rest) s = (run M ops s).bind (run M rest) := by
  induction ops generalizing s with
  | nil => rfl
  | cons op ops ih => simp [run, ih, Option.bind_assoc]

variable {s' : State}

theorem Always.last (h : Always M P ops s) (hrun : run M ops s = some s') : P s' := by
  induction ops generalizing s with
  | nil =>
    cases hrun
    exact h
  | cons op ops ih =>
    obtain ⟨⟨s₁, r⟩, hstep, hrest⟩ := Option.bind_eq_some_iff.mp hrun
    exact ih (h.2 s₁ r hstep) hrest

theorem Always.nil (hs : P s) : Always M P [] s := hs

/-- A run that is known is checked state by state. -/
theorem Always.cons {op : Op} {r : Res} (hs : P s)
    (hstep : M op s = some (s', r)) (h : Always M P ops s') : Always M P (op :: ops) s := by
  refine ⟨hs, fun s₁ r₁ hstep₁ => ?_⟩
  rw [hstep] at hstep₁
  cases hstep₁
  exact h

end Machine
