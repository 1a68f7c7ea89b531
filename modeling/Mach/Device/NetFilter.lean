import Mathlib.Data.Nat.Bitwise

/-!
# Packet filters

A packet filter is a list of words.  Each word pushes a value on a stack, or takes the top value
off, and then applies an operator to this value and the new top.  `net_do_filter` runs a filter on a
packet, and `parse_net_filter` checks it before it is ever run.

The checker keeps a stack pointer of its own.  It is right about every operator but four: the
short-circuit operators `COR`, `CAND`, `CNOR` and `CNAND` take both their operands off the stack if
they do not return, and the checker counts one of them only.  So after some of them the stack
pointer of the filter is as much above the one of the checker (`FilterRound`).  The filter runs
within its stack if and only if no word that is reached takes more values than this leaves
(`netDoFilter_inside_iff`).

The words of a filter, those of a packet and the elements of the stack are functions of their index,
since the code can go beyond the end of any of them.  An element of the stack is an `int`.  Shifts
take the count modulo the width, as the machine does.
-/

namespace Mach

open List

/-- `NET_MAX_FILTER`. -/
def netMaxFilter : Int := 40

/-- `NETF_ARG`. -/
def netfArg (word : Nat) : Nat := word &&& 0x3ff

/-- `NETF_OP`. -/
def netfOp (word : Nat) : Nat := (word >>> 10) &&& 0x3f

/-- `NETF_PUSHWORD`. -/
def netfPushword : Nat := 16

/-- The arguments. -/
inductive NetfArgument where
  | nopush
  | pushlit
  | pushzero
  /-- The default, which is a word of the packet from `NETF_PUSHWORD` on. -/
  | pushword (arg : Nat)
deriving Repr, DecidableEq

/-- The argument with a number. -/
def NetfArgument.decode : Nat → NetfArgument
  | 0 => .nopush
  | 1 => .pushlit
  | 2 => .pushzero
  | arg => .pushword arg

/-- The operators that replace the top of the stack. -/
inductive NetfBinary where
  | eq
  | lt
  | le
  | gt
  | ge
  | and
  | or
  | xor
  | neq
  | lsh
  | rsh
  | add
  | sub
deriving Repr, DecidableEq

/-- The short-circuit operators. -/
inductive NetfCircuit where
  | cor
  | cand
  | cnor
  | cnand
deriving Repr, DecidableEq

/-- The operators. -/
inductive NetfOperator where
  | nop
  | binary (op : NetfBinary)
  | circuit (op : NetfCircuit)
deriving Repr, DecidableEq

/-- The operator with a number. -/
def NetfOperator.decode : Nat → Option NetfOperator
  | 0 => some .nop
  | 1 => some (.binary .eq)
  | 2 => some (.binary .lt)
  | 3 => some (.binary .le)
  | 4 => some (.binary .gt)
  | 5 => some (.binary .ge)
  | 6 => some (.binary .and)
  | 7 => some (.binary .or)
  | 8 => some (.binary .xor)
  | 9 => some (.circuit .cor)
  | 10 => some (.circuit .cand)
  | 11 => some (.circuit .cnor)
  | 12 => some (.circuit .cnand)
  | 13 => some (.binary .neq)
  | 14 => some (.binary .lsh)
  | 15 => some (.binary .rsh)
  | 16 => some (.binary .add)
  | 17 => some (.binary .sub)
  | _ => none

/-- The argument of a word. -/
def netfArgument (word : Nat) : NetfArgument := .decode (netfArg word)

/-- The operator of a word. -/
def netfOperator (word : Nat) : Option NetfOperator := NetfOperator.decode (netfOp word)

/-- What is stored for the top of the stack and the argument.  Comparisons are of unsigned values,
since the argument is. -/
def NetfBinary.apply (op : NetfBinary) (top arg : BitVec 32) : BitVec 32 :=
  match op with
  | .eq => if top = arg then 1 else 0
  | .lt => if top < arg then 1 else 0
  | .le => if top ≤ arg then 1 else 0
  | .gt => if arg < top then 1 else 0
  | .ge => if arg ≤ top then 1 else 0
  | .and => top &&& arg
  | .or => top ||| arg
  | .xor => top ^^^ arg
  | .neq => if top = arg then 0 else 1
  | .lsh => top <<< (arg.toNat % 32)
  | .rsh => top.sshiftRight (arg.toNat % 32)
  | .add => top + arg
  | .sub => top - arg

/-- The value that is returned, if the filter returns. -/
def NetfCircuit.apply (op : NetfCircuit) (top arg : BitVec 32) : Option Bool :=
  match op with
  | .cor => if top = arg then some true else none
  | .cand => if top = arg then none else some false
  | .cnor => if top = arg then some false else none
  | .cnand => if top = arg then none else some true

/-! ## Running a filter -/

/-- The variables of `net_do_filter`. -/
structure FilterState where
  /-- The index of the next word. -/
  fp : Nat
  /-- The index of the top of the stack. -/
  sp : Int
  stack : Int → BitVec 32

/-- What the filter accesses in memory. -/
inductive FilterAccess where
  | stack (i : Int)
  | filter (i : Nat)
  /-- A word of the packet. -/
  | packet (i : Nat)
deriving Repr, DecidableEq

/-- How a round of the loop ends. -/
inductive FilterStep where
  | next (s : FilterState)
  | returned (result : Bool)

section

variable (filter : Nat → Nat) (filterEnd : Nat) (data : Nat → BitVec 16) (count : Nat)

namespace FilterState

/-- The first part of a round: the accesses, and the argument of the operator.  `none` is a word
that is not in the packet. -/
def fetch (s : FilterState) : List FilterAccess × Option (BitVec 32 × FilterState) :=
  match netfArgument (filter s.fp) with
  | .nopush =>
    ([.filter s.fp, .stack s.sp],
      some (s.stack s.sp, { s with fp := s.fp + 1, sp := s.sp + 1 }))
  | .pushlit =>
    ([.filter s.fp, .filter (s.fp + 1)],
      some (BitVec.ofNat 32 (filter (s.fp + 1)), { s with fp := s.fp + 2 }))
  | .pushzero => ([.filter s.fp], some (0, { s with fp := s.fp + 1 }))
  | .pushword arg =>
    let i := (arg + (2 ^ 32 - netfPushword)) % 2 ^ 32
    if i < count / 2 then
      ([.filter s.fp, .packet i], some ((data i).setWidth 32, { s with fp := s.fp + 1 }))
    else ([.filter s.fp], none)

/-- The second part of a round. -/
def execute (op : Option NetfOperator) (arg : BitVec 32) (s : FilterState) :
    List FilterAccess × FilterStep :=
  match op with
  | none => ([], .next s)
  | some .nop =>
    ([.stack (s.sp - 1)],
      .next { s with sp := s.sp - 1, stack := Function.update s.stack (s.sp - 1) arg })
  | some (.binary op) =>
    ([.stack s.sp],
      .next { s with stack := Function.update s.stack s.sp (op.apply (s.stack s.sp) arg) })
  | some (.circuit op) =>
    ([.stack s.sp],
      match op.apply (s.stack s.sp) arg with
      | some result => .returned result
      | none => .next { s with sp := s.sp + 1 })

/-- A round of the loop. -/
def round (s : FilterState) : List FilterAccess × FilterStep :=
  match s.fetch filter data count with
  | (accesses, none) => (accesses, .returned false)
  | (accesses, some (arg, s')) =>
    match s'.execute (netfOperator (filter s.fp)) arg with
    | (accesses', r) => (accesses ++ accesses', r)

/-- The loop: the accesses, and the result unless the fuel is used up. -/
def run : Nat → FilterState → List FilterAccess × Option Bool
  | 0, _ => ([], none)
  | fuel + 1, s =>
    if s.fp < filterEnd then
      match s.round filter data count with
      | (accesses, .returned result) => (accesses, some result)
      | (accesses, .next s) =>
        match run fuel s with
        | (accesses', result) => (accesses ++ accesses', result)
    else ([.stack s.sp], some (s.stack s.sp ≠ 0))

/-- The state before the first round, with what is in the memory of the stack. -/
def start (frame : Int → BitVec 32) : FilterState :=
  ⟨0, netMaxFilter, Function.update frame netMaxFilter 1⟩

end FilterState

/-- `net_do_filter`.  Each round goes at least one word on. -/
def netDoFilter (frame : Int → BitVec 32) : List FilterAccess × Option Bool :=
  (FilterState.start frame).run filter filterEnd data count (filterEnd + 1)

/-! ## Checking a filter -/

/-- The push of a word: the last of its words, and the stack pointer. -/
def parsePush (p : Nat) (sp : Int) : Option (Nat × Int) :=
  match netfArgument (filter p) with
  | .nopush => some (p, sp)
  | .pushlit => if filterEnd ≤ p + 1 then none else some (p + 1, sp - 1)
  | .pushzero => some (p, sp - 1)
  | .pushword arg => if arg < netfPushword then none else some (p, sp - 1)

/-- The operator of a word: the stack pointer. -/
def parseOperator (op : Option NetfOperator) (sp : Int) : Option Int :=
  if sp < 2 then none
  else
    match op with
    | some .nop => some sp
    | op => if netMaxFilter - 2 < sp then none else if op = none then none else some (sp + 1)

/-- A round of the loop of `parse_net_filter`, which goes to the next word unless it returns
false. -/
def parseStep (p : Nat) (sp : Int) : Option (Nat × Int) :=
  match parsePush filter filterEnd p sp with
  | none => none
  | some (p', sp) =>
    match parseOperator (netfOperator (filter p)) sp with
    | none => none
    | some sp => some (p' + 1, sp)

/-- The loop of `parse_net_filter`. -/
def parseLoop : Nat → Nat → Int → Bool
  | 0, _, _ => false
  | fuel + 1, p, sp =>
    if p < filterEnd then
      match parseStep filter filterEnd p sp with
      | none => false
      | some (p, sp) => parseLoop fuel p sp
    else true

/-- `parse_net_filter`. -/
def parseNetFilter : Bool := parseLoop filter filterEnd (filterEnd + 1) 0 netMaxFilter

/-! ## The filter beside the checker -/

/-- A round of the filter, with what the checker has found when it gets to the same word. -/
structure FilterRound where
  /-- Where the filter is. -/
  state : FilterState
  /-- The stack pointer of the checker. -/
  checked : Int
  /-- How many short-circuit operators have been passed. -/
  circuits : Nat

/-- How many short-circuit operators a word has. -/
def netfCircuits (word : Nat) : Nat :=
  match netfOperator word with
  | some (.circuit _) => 1
  | _ => 0

/-- The rounds that are reached, and the end if it is. -/
def filterRounds : Nat → FilterRound → List FilterRound
  | 0, _ => []
  | fuel + 1, r =>
    r ::
      if r.state.fp < filterEnd then
        match (r.state.round filter data count).2,
            parseStep filter filterEnd r.state.fp r.checked with
        | .next s, some (_, sp) =>
          filterRounds fuel ⟨s, sp, r.circuits + netfCircuits (filter r.state.fp)⟩
        | _, _ => []
      else []

/-- How many values a round takes off the stack.  At the end this is the result. -/
def FilterRound.operands (r : FilterRound) : Nat :=
  if r.state.fp < filterEnd then
    match r.state.fetch filter data count with
    | (_, none) => 0
    | (_, some _) =>
      (if netfArgument (filter r.state.fp) = .nopush then 1 else 0) +
        if netfOperator (filter r.state.fp) = some .nop then 0 else 1
  else 1

/-- An access is within the stack, the filter or the packet. -/
def FilterAccess.Inside : FilterAccess → Prop
  | .stack i => 0 ≤ i ∧ i ≤ netMaxFilter
  | .filter i => i < filterEnd
  | .packet i => 2 * i + 2 ≤ count

instance : DecidablePred (FilterAccess.Inside filterEnd count)
  | .stack i => inferInstanceAs (Decidable (0 ≤ i ∧ i ≤ netMaxFilter))
  | .filter i => inferInstanceAs (Decidable (i < filterEnd))
  | .packet i => inferInstanceAs (Decidable (2 * i + 2 ≤ count))

end

section

variable {filter : Nat → Nat} {filterEnd : Nat} {data : Nat → BitVec 16} {count : Nat}
  {s : FilterState} {p p' : Nat} {sp sp' : Int} {k : Nat}

/-- What the checker finds out about an operator. -/
inductive OperatorParsed : Option NetfOperator → Int → Int → Prop
  | nop {sp : Int} (h : 2 ≤ sp) : OperatorParsed (some .nop) sp sp
  | binary (op : NetfBinary) {sp : Int} (h : 2 ≤ sp) (hle : sp ≤ netMaxFilter - 2) :
      OperatorParsed (some (.binary op)) sp (sp + 1)
  | circuit (op : NetfCircuit) {sp : Int} (h : 2 ≤ sp) (hle : sp ≤ netMaxFilter - 2) :
      OperatorParsed (some (.circuit op)) sp (sp + 1)

variable {op : Option NetfOperator} {fuel : Nat}

theorem parseOperator_eq_some (h : parseOperator op sp = some sp') : OperatorParsed op sp sp' := by
  obtain ⟨hlt, h⟩ := Option.ite_none_left_eq_some.mp h
  have hge : 2 ≤ sp := Int.not_lt.mp hlt
  cases op with
  | none =>
    simp only at h
    split at h
    next => cases h
    next => cases h
  | some op =>
    cases op with
    | nop =>
      cases h
      exact .nop hge
    | binary op | circuit op =>
      obtain ⟨hle, h⟩ := Option.ite_none_left_eq_some.mp h
      cases h
      constructor
      · exact hge
      · exact Int.not_lt.mp hle

theorem OperatorParsed.two_le (h : OperatorParsed op sp sp') : 2 ≤ sp := by
  cases h with
  | nop h | binary _ h _ | circuit _ h _ => exact h

theorem OperatorParsed.two_le' (h : OperatorParsed op sp sp') : 2 ≤ sp' := by
  cases h with
  | nop h => exact h
  | binary _ h _ | circuit => omega

theorem parsePush_eq_some (h : parsePush filter filterEnd p sp = some (p', sp')) :
    sp = sp' + if netfArgument (filter p) = .nopush then 0 else 1 := by
  unfold parsePush at h
  grind

/-- The argument is taken as the checker says, up to the short-circuit operators before it. -/
theorem FilterState.fetch_spec (data : Nat → BitVec 16) (count : Nat) (hfp : s.fp < filterEnd)
    (hpush : parsePush filter filterEnd s.fp sp = some (p', sp')) (hsp : s.sp = sp + k)
    (hge : 2 ≤ sp') :
    ((∀ a ∈ (s.fetch filter data count).1, a.Inside filterEnd count) ↔
      (netfArgument (filter s.fp) = .nopush → sp' + k ≤ netMaxFilter)) ∧
    ∀ arg s', (s.fetch filter data count).2 = some (arg, s') →
      s'.fp = p' + 1 ∧ s'.sp = sp' + k + 1 := by
  have htop : s.sp = sp - 1 + k + 1 := by omega
  unfold parsePush at hpush
  unfold fetch
  cases harg : netfArgument (filter s.fp) with
  | nopush =>
    rw [harg] at hpush
    cases hpush
    refine ⟨?_, fun arg s' h => ?_⟩
    · simp only [forall_mem_cons, FilterAccess.Inside, not_mem_nil,
        false_implies, implies_true, and_true, true_implies]
      omega
    · cases h
      exact ⟨rfl, congrArg (· + 1) hsp⟩
  | pushlit =>
    rw [harg] at hpush
    obtain ⟨hlit, hpush⟩ := Option.ite_none_left_eq_some.mp hpush
    cases hpush
    refine ⟨?_, fun arg s' h => ?_⟩
    · simp [FilterAccess.Inside, hfp, not_le.mp hlit]
    · cases h
      exact ⟨rfl, htop⟩
  | pushzero =>
    rw [harg] at hpush
    cases hpush
    refine ⟨?_, fun arg s' h => ?_⟩
    · simp [FilterAccess.Inside, hfp]
    · cases h
      exact ⟨rfl, htop⟩
  | pushword arg =>
    rw [harg] at hpush
    obtain ⟨-, hpush⟩ := Option.ite_none_left_eq_some.mp hpush
    cases hpush
    refine ⟨?_, fun arg s' h => ?_⟩
    · simp only [reduceCtorEq, false_implies, iff_true]
      intro a ha
      split at ha
      next =>
        simp only [mem_cons, not_mem_nil, or_false] at ha
        rcases ha with rfl | rfl
        · exact hfp
        · simp only [FilterAccess.Inside]
          omega
      next =>
        simp only [mem_cons, not_mem_nil, or_false] at ha
        subst ha
        exact hfp
    · simp only at h
      split at h
      next =>
        cases h
        exact ⟨rfl, htop⟩
      next => cases h

/-- The operator finds the stack as the checker says, up to the short-circuit operators before
it. -/
theorem FilterState.execute_spec {word : Nat} (filterEnd count : Nat)
    (hop : OperatorParsed (netfOperator word) sp sp') (hsp : s.sp = sp + k + 1) (arg : BitVec 32) :
    ((∀ a ∈ (s.execute (netfOperator word) arg).1, a.Inside filterEnd count) ↔
      sp + k + (if netfOperator word = some .nop then 0 else 1) ≤ netMaxFilter) ∧
    ∀ s', (s.execute (netfOperator word) arg).2 = .next s' →
      s'.fp = s.fp ∧ s'.sp = sp' + (k + netfCircuits word : Nat) ∧
        s'.sp ≤ s.sp + if netfOperator word = some .nop then 0 else 1 := by
  unfold netfCircuits
  generalize netfOperator word = op at hop
  cases hop with
  | nop hge =>
    refine ⟨?_, fun s' h => ?_⟩
    · rw [if_pos rfl]
      simp only [execute, forall_mem_singleton, FilterAccess.Inside]
      omega
    · cases h
      refine ⟨rfl, ?_, ?_⟩
      · change s.sp - 1 = sp + (k : Int)
        omega
      · change s.sp - 1 ≤ s.sp + 0
        omega
  | binary op hge hle =>
    refine ⟨?_, fun s' h => ?_⟩
    · rw [if_neg (by simp only [Option.some.injEq, reduceCtorEq, not_false_eq_true])]
      simp only [execute, forall_mem_singleton, FilterAccess.Inside]
      omega
    · cases h
      refine ⟨rfl, ?_, ?_⟩
      · change s.sp = sp + 1 + (k : Int)
        omega
      · change s.sp ≤ s.sp + 1
        omega
  | circuit op =>
    refine ⟨?_, fun s' h => ?_⟩
    · rw [if_neg (by simp only [Option.some.injEq, reduceCtorEq, not_false_eq_true])]
      simp only [execute, forall_mem_singleton, FilterAccess.Inside]
      omega
    · simp only [execute] at h
      split at h
      next => cases h
      cases h
      refine ⟨rfl, ?_, ?_⟩
      · change s.sp + 1 = sp + 1 + ((k + 1 : Nat) : Int)
        omega
      · have hone : (if some (NetfOperator.circuit op) = some .nop then (0 : Int) else 1) = 1 :=
          if_neg (by simp only [Option.some.injEq, reduceCtorEq, not_false_eq_true])
        exact Int.le_of_eq (congrArg (s.sp + ·) hone).symm

theorem parseStep_eq_some (h : parseStep filter filterEnd p sp = some (p', sp')) :
    ∃ p₁ sp₁, parsePush filter filterEnd p sp = some (p₁, sp₁) ∧
      OperatorParsed (netfOperator (filter p)) sp₁ sp' ∧ p' = p₁ + 1 := by
  unfold parseStep at h
  split at h
  next => cases h
  next p₁ sp₁ hpush =>
    split at h
    next => cases h
    next hop =>
      cases h
      exact ⟨p₁, sp₁, hpush, parseOperator_eq_some hop, rfl⟩

/-- A round is inside if and only if there are enough values on the stack.  It goes on where the
checker does. -/
theorem FilterState.round_spec (data : Nat → BitVec 16) (count : Nat) (hfp : s.fp < filterEnd)
    (hparse : parseStep filter filterEnd s.fp sp = some (p', sp')) (hsp : s.sp = sp + k) :
    (s.sp ≤ netMaxFilter + 1 →
      ((∀ a ∈ (s.round filter data count).1, a.Inside filterEnd count) ↔
        s.sp + (FilterRound.operands filter filterEnd data count ⟨s, sp, k⟩ : Nat) ≤
          netMaxFilter + 1)) ∧
    ∀ s', (s.round filter data count).2 = .next s' →
      s'.fp = p' ∧ s'.sp = sp' + (k + netfCircuits (filter s.fp) : Nat) ∧
        (s.sp + (FilterRound.operands filter filterEnd data count ⟨s, sp, k⟩ : Nat) ≤
          netMaxFilter + 1 → s'.sp ≤ netMaxFilter + 1) := by
  obtain ⟨p₁, sp₁, hpush, hop, rfl⟩ := parseStep_eq_some hparse
  obtain ⟨hinside, hnext⟩ := fetch_spec data count hfp hpush hsp hop.two_le
  have htaken := parsePush_eq_some hpush
  unfold FilterRound.operands round
  simp only [if_pos hfp]
  generalize hfetch : s.fetch filter data count = r at hinside hnext ⊢
  obtain ⟨accesses, arg⟩ := r
  cases arg with
  | none =>
    refine ⟨fun htop => ?_, nofun⟩
    have hnot : netfArgument (filter s.fp) ≠ .nopush := by
      intro harg
      unfold fetch at hfetch
      rw [harg] at hfetch
      cases hfetch
    simp only [hinside, Int.ofNat_zero, add_zero]
    exact ⟨fun _ => htop, fun _ h => absurd h hnot⟩
  | some r =>
    obtain ⟨arg, s₁⟩ := r
    obtain ⟨hfp₁, hsp₁⟩ := hnext arg s₁ rfl
    obtain ⟨hinside', hnext'⟩ := execute_spec filterEnd count hop hsp₁ arg
    simp only [Int.natCast_add, apply_ite Nat.cast, Int.ofNat_zero, Int.ofNat_one]
    generalize s₁.execute (netfOperator (filter s.fp)) arg = r at hinside' hnext' ⊢
    generalize hn : (if netfOperator (filter s.fp) = some .nop then (0 : Int) else 1) = n
      at hinside' hnext' ⊢
    refine ⟨fun _ => ?_, fun s' h => ?_⟩
    · rw [forall_mem_append, hinside, hinside']
      split at htaken
      next harg => simp only [harg, if_true]; omega
      next harg => simp only [harg, if_false]; omega
    · obtain ⟨hfp', hsp', htop'⟩ := hnext' s' h
      refine ⟨hfp'.trans hfp₁, hsp', fun hle => ?_⟩
      split at htaken
      next harg => rw [if_pos harg] at hle; omega
      next harg => rw [if_neg harg] at hle; omega

/-- The end of the filter, or a round of it, is inside if there are enough values on the stack. -/
def FilterRound.Enough (filter : Nat → Nat) (filterEnd : Nat) (data : Nat → BitVec 16) (count : Nat)
    (r : FilterRound) : Prop :=
  r.checked + r.circuits + (r.operands filter filterEnd data count : Nat) ≤ netMaxFilter + 1

/-- The loop is inside if and only if there are enough values on the stack in each round. -/
theorem FilterState.run_inside_iff {fuel' : Nat} (hparse : parseLoop filter filterEnd fuel' s.fp sp)
    (hsp : s.sp = sp + k) (hge : 2 ≤ sp) (htop : s.sp ≤ netMaxFilter + 1) :
    (∀ a ∈ (s.run filter filterEnd data count fuel).1, a.Inside filterEnd count) ↔
      ∀ r ∈ filterRounds filter filterEnd data count fuel ⟨s, sp, k⟩,
        r.Enough filter filterEnd data count := by
  induction fuel generalizing fuel' s sp k with
  | zero => exact ⟨nofun, nofun⟩
  | succ fuel ih =>
    cases fuel' with
    | zero => cases hparse
    | succ =>
      rw [run, filterRounds, forall_mem_cons, FilterRound.Enough, ← hsp]
      rw [parseLoop] at hparse
      by_cases hfp : s.fp < filterEnd
      · simp only [if_pos hfp] at hparse ⊢
        cases hstep : parseStep filter filterEnd s.fp sp with
        | none =>
          rw [hstep] at hparse
          cases hparse
        | some r =>
          obtain ⟨p', sp'⟩ := r
          obtain ⟨p₁, sp₁, -, hop, -⟩ := parseStep_eq_some hstep
          obtain ⟨hinside, hnext⟩ := round_spec data count hfp hstep hsp
          have hinside := hinside htop
          rw [hstep] at hparse
          generalize s.round filter data count = r at hinside hnext ⊢
          obtain ⟨accesses, step⟩ := r
          cases step with
          | returned =>
            simp [hinside]
          | next s' =>
            obtain ⟨hfp', hsp', htop'⟩ := hnext s' rfl
            rw [← hfp'] at hparse
            simp only [forall_mem_append, hinside]
            exact and_congr_right fun hle => ih hparse hsp' hop.two_le' (htop' hle)
      · simp only [if_neg hfp, forall_mem_cons, FilterAccess.Inside, not_mem_nil,
          false_implies, implies_true, and_true]
        rw [FilterRound.operands, if_neg hfp]
        omega

variable {s' : FilterState} {arg : BitVec 32}

theorem FilterState.fetch_fp
    (h : (s.fetch filter data count).2 = some (arg, s')) : s.fp < s'.fp := by
  unfold fetch at h
  cases harg : netfArgument (filter s.fp) with
  | nopush | pushzero =>
    rw [harg] at h
    cases h
    exact Nat.lt_succ_self s.fp
  | pushlit =>
    rw [harg] at h
    cases h
    exact Nat.lt_add_of_pos_right Nat.two_pos
  | pushword =>
    rw [harg] at h
    simp only at h
    split at h
    next =>
      cases h
      exact Nat.lt_succ_self s.fp
    next => cases h

theorem FilterState.execute_fp (h : (s.execute op arg).2 = .next s') : s'.fp = s.fp := by
  unfold execute at h
  split at h
  next => cases h; rfl
  next => cases h; rfl
  next => cases h; rfl
  next =>
    split at h
    next => cases h
    next => cases h; rfl

theorem FilterState.round_fp (h : (s.round filter data count).2 = .next s') : s.fp < s'.fp := by
  unfold round at h
  split at h
  next => cases h
  next hfetch =>
    rw [execute_fp h]
    exact fetch_fp (congrArg Prod.snd hfetch)

theorem FilterState.run_returns (hfuel : filterEnd - s.fp < fuel) :
    ∃ result, (s.run filter filterEnd data count fuel).2 = some result := by
  induction fuel generalizing s with
  | zero => exact absurd hfuel (Nat.not_lt_zero _)
  | succ fuel ih =>
    rw [run]
    split
    next =>
      generalize hround : s.round filter data count = r
      obtain ⟨accesses, step⟩ := r
      cases step with
      | returned result => exact ⟨result, rfl⟩
      | next =>
        have hlt := round_fp (congrArg Prod.snd hround)
        exact ih (by omega)
    next => exact ⟨_, rfl⟩

variable {r r₀ : FilterRound}

/-- What is known of a round that is reached. -/
structure FilterRound.Checked (filter : Nat → Nat) (filterEnd : Nat) (r : FilterRound) : Prop where
  parse : ∃ fuel, parseLoop filter filterEnd fuel r.state.fp r.checked
  sp : r.state.sp = r.checked + r.circuits
  le : r.checked ≤ netMaxFilter
  circuits : (∀ i < filterEnd, netfCircuits (filter i) = 0) → r.circuits = 0

theorem parseStep_le (h : parseStep filter filterEnd p sp = some (p', sp'))
    (hle : sp ≤ netMaxFilter) : sp' ≤ netMaxFilter := by
  obtain ⟨p₁, sp₁, hpush, hop, rfl⟩ := parseStep_eq_some h
  have htaken := parsePush_eq_some hpush
  generalize netfOperator (filter p) = op at hop
  cases hop with
  | nop => grind
  | binary _ _ hle | circuit _ _ hle => omega

theorem filterRounds_checked (hr₀ : r₀.Checked filter filterEnd)
    (hr : r ∈ filterRounds filter filterEnd data count fuel r₀) : r.Checked filter filterEnd := by
  induction fuel generalizing r₀ with
  | zero => cases hr
  | succ fuel ih =>
    rcases mem_cons.mp hr with rfl | hr
    · exact hr₀
    · split at hr
      next hfp =>
        split at hr
        next s' p' sp' hround hstep =>
          obtain ⟨hfp', hsp', -⟩ := (FilterState.round_spec data count hfp hstep hr₀.sp).2 s' hround
          refine ih ⟨?_, hsp', parseStep_le hstep hr₀.le, fun hnone => ?_⟩ hr
          · obtain ⟨fuel', hparse⟩ := hr₀.parse
            cases fuel' with
            | zero => cases hparse
            | succ fuel' =>
              simp only [parseLoop, if_pos hfp, hstep] at hparse
              exact ⟨fuel', hfp' ▸ hparse⟩
          · rw [hr₀.circuits hnone, hnone _ hfp]
        next => cases hr
      next => cases hr

/-- Without short-circuit operators there are always enough values on the stack. -/
theorem FilterRound.Checked.enough (hr : r.Checked filter filterEnd) (hzero : r.circuits = 0) :
    r.Enough filter filterEnd data count := by
  unfold FilterRound.Enough FilterRound.operands
  have hle := hr.le
  split
  next hfp =>
    obtain ⟨fuel, hparse⟩ := hr.parse
    cases fuel with
    | zero => cases hparse
    | succ fuel =>
      simp only [parseLoop, if_pos hfp] at hparse
      split at hparse
      next => cases hparse
      next hstep =>
        obtain ⟨p₁, sp₁, hpush, hop, -⟩ := parseStep_eq_some hstep
        have htaken := parsePush_eq_some hpush
        generalize netfOperator (filter r.state.fp) = op at hop
        cases hop with
        | nop | binary | circuit => grind
  next => omega

/-- The number of values on the stack: those that were pushed and not popped yet.  The initial one
counts. -/
def FilterState.values (s : FilterState) : Int := netMaxFilter + 1 - s.sp

theorem start_checked (hparse : parseNetFilter filter filterEnd) (frame : Int → BitVec 32) :
    FilterRound.Checked filter filterEnd ⟨.start frame, netMaxFilter, 0⟩ :=
  ⟨⟨_, hparse⟩, rfl, Int.le_refl _, fun _ => rfl⟩

theorem inside_iff_enough (hparse : parseNetFilter filter filterEnd) {frame : Int → BitVec 32} :
    (∀ a ∈ (netDoFilter filter filterEnd data count frame).1, a.Inside filterEnd count) ↔
      ∀ r ∈ filterRounds filter filterEnd data count (filterEnd + 1)
        ⟨.start frame, netMaxFilter, 0⟩, r.Enough filter filterEnd data count :=
  FilterState.run_inside_iff (s := .start frame) hparse rfl (by decide)
    (Int.le_add_one (Int.le_refl _))

/-- If all accesses are inside then no value is popped that was not pushed. -/
theorem operands_le_values (hparse : parseNetFilter filter filterEnd) {frame : Int → BitVec 32}
    (hinside : ∀ a ∈ (netDoFilter filter filterEnd data count frame).1, a.Inside filterEnd count)
    (hr : r ∈ filterRounds filter filterEnd data count (filterEnd + 1)
      ⟨.start frame, netMaxFilter, 0⟩) :
    (r.operands filter filterEnd data count : Int) ≤ r.state.values := by
  have henough := (inside_iff_enough hparse).mp hinside r hr
  have hsp := (filterRounds_checked (start_checked hparse frame) hr).sp
  unfold FilterRound.Enough at henough
  unfold FilterState.values
  omega

/-- A filter without short-circuit operators that passes the checker is inside. -/
theorem netDoFilter_inside (hparse : parseNetFilter filter filterEnd)
    (hnone : ∀ i < filterEnd, netfCircuits (filter i) = 0) (frame : Int → BitVec 32) :
    ∀ a ∈ (netDoFilter filter filterEnd data count frame).1, a.Inside filterEnd count := by
  refine (inside_iff_enough hparse).mpr fun r hr => ?_
  have hchecked := filterRounds_checked (start_checked hparse frame) hr
  exact hchecked.enough (hchecked.circuits hnone)

/-- A filter that passes the checker returns, and it accesses nothing outside of its stack, of its
words and of the packet if and only if each word that is reached finds as many values on the stack
as it takes, and the end finds the result.  Those are the values that the checker counts, less one
for each short-circuit operator that has been passed. -/
theorem netDoFilter_inside_iff (hparse : parseNetFilter filter filterEnd) (data : Nat → BitVec 16)
    (count : Nat) (frame : Int → BitVec 32) :
    (∃ result, (netDoFilter filter filterEnd data count frame).2 = some result) ∧
      ((∀ a ∈ (netDoFilter filter filterEnd data count frame).1, a.Inside filterEnd count) ↔
        ∀ r ∈ filterRounds filter filterEnd data count (filterEnd + 1)
          ⟨.start frame, netMaxFilter, 0⟩, r.Enough filter filterEnd data count) :=
  ⟨FilterState.run_returns (Nat.lt_succ_self _), inside_iff_enough hparse⟩

end

/-- Words in memory, with zeros behind them. -/
def filterWords (words : List Nat) (i : Nat) : Nat := words.getD i 0

/-- Push 5, and compare it with 5. -/
theorem netDoFilter_inside_iff_eq : parseNetFilter (filterWords [1, 5, 1025, 5]) 4 ∧
      (∀ a ∈ (netDoFilter (filterWords [1, 5, 1025, 5]) 4 (fun _ => 0) 0 (fun _ => 0)).1,
        a.Inside 4 0) ∧
      ∀ r ∈ filterRounds (filterWords [1, 5, 1025, 5]) 4 (fun _ => 0) 0 5
        ⟨.start fun _ => 0, netMaxFilter, 0⟩, r.Enough (filterWords [1, 5, 1025, 5]) 4
          (fun _ => 0) 0 :=
  have hparse : parseNetFilter (filterWords [1, 5, 1025, 5]) 4 := by decide
  have hinside : ∀ a ∈ (netDoFilter (filterWords [1, 5, 1025, 5]) 4 (fun _ => 0) 0 (fun _ => 0)).1,
      a.Inside 4 0 := by decide
  ⟨hparse, hinside, (netDoFilter_inside_iff hparse ..).2.mp hinside⟩

/-- Push 1, and check three times with `CAND` that the top is 1.  This passes the checker.  The
first check takes the 1 that was pushed, the second one takes the initial value, and the third one
takes what is above the stack. -/
theorem not_inside_cand : parseNetFilter (filterWords [1, 1, 10241, 1, 10241, 1, 10241, 1]) 8 ∧
      .stack (netMaxFilter + 1) ∈ (netDoFilter (filterWords [1, 1, 10241, 1, 10241, 1, 10241, 1]) 8
        (fun _ => 0) 0 (fun _ => 0)).1 ∧
      ¬ (FilterAccess.stack (netMaxFilter + 1)).Inside 8 0 := by
  decide

end Mach
