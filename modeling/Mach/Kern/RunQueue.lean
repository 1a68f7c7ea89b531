import Mach.Lib.Arrivals
import Mach.Lib.Simulation

/-!
# Run queues

A run queue has a list for each of `NRQS` priorities, the number of its threads, and `low`, a hint
where the first list is that is not empty.  The hint is not exact.  It is lowered when a thread is
enqueued and not raised when one is removed, and `thread_block` raises it by one without a look at
the next list.

What a run queue is for is said by `Waiting`: the threads wait in order of arrival, each with the
number of its list, and the best one is the first of those with the least number.  The functions of
the scheduler keep this (`runqStep_simulates`), for the queues of any number of processors and
processor sets.  In the invariant (`RunQueues.Represents`) the hint is not above any list with a
thread.
-/

namespace Mach

open Function Arrivals List Option

/-- `NRQS`. -/
def nrqs : Nat := 32

/-- `struct run_queue`. -/
structure RunQueue where
  /-- The lists.  There are `NRQS` of them. -/
  runq : Nat → List Nat
  low : Nat
  count : Nat

/-- The run queue of a processor, or of a processor set. -/
inductive RunqId where
  | processor (p : Nat)
  | pset (m : Nat)
deriving Repr, DecidableEq

namespace RunQueue

/-- A run queue from `processor_init` or `pset_init`. -/
def init : RunQueue := ⟨fun _ => [], 0, 0⟩

/-- The list for a priority.  As an `unsigned int`, a negative one is large. -/
def whichq (pri : Int) : Nat :=
  let whichq := (pri % 2 ^ 32).toNat
  if nrqs ≤ whichq then nrqs - 1 else whichq

/-- `run_queue_enqueue`, for a thread with this priority. -/
def enqueue (th : Nat) (pri : Int) (rq : RunQueue) : RunQueue where
  runq := update rq.runq (whichq pri) (rq.runq (whichq pri) ++ [th])
  low := if whichq pri < rq.low ∨ rq.count = 0 then whichq pri else rq.low
  count := rq.count + 1

/-- `remqueue` of a thread on one of the lists, and the count of threads. -/
def remqueue (th : Nat) (rq : RunQueue) : RunQueue :=
  { rq with runq := fun i => (rq.runq i).erase th, count := rq.count - 1 }

/-- The first list that is not empty, from the list `i` on, if it is one of the next `n` lists. -/
def scan (runq : Nat → List Nat) : Nat → Nat → Option Nat
  | 0, _ => none
  | n + 1, i =>
    match runq i with
    | [] => scan runq n (i + 1)
    | _ :: _ => some i

/-- `dequeue_head` on a list, and the count of threads. -/
def dequeueHead (i : Nat) (rq : RunQueue) : Option (Nat × RunQueue) :=
  match rq.runq i with
  | [] => none
  | th :: rest =>
    some (th, { rq with runq := update rq.runq i rest, count := rq.count - 1 })

/-- Take a thread off the list `i`, and set the hint.  It has to be exact if the processor set
allows `POLICY_FIXEDPRI`. -/
def takeAt (fixedpri : Bool) (i : Nat) (rq : RunQueue) : Option (Nat × RunQueue) :=
  match rq.dequeueHead i with
  | none => none
  | some (th, rq) =>
    if fixedpri && decide (0 < rq.count) then
      (scan rq.runq (nrqs - i) i).map fun i => (th, { rq with low := i })
    else some (th, { rq with low := i })

/-- The loop of `choose_thread` and `choose_pset_thread`.  `none` is the panic. -/
def takeFirst (fixedpri : Bool) (rq : RunQueue) : Option (Nat × RunQueue) :=
  match scan rq.runq (nrqs - rq.low) rq.low with
  | none => none
  | some i => rq.takeAt fixedpri i

/-- The part of `thread_block` for a run queue that is not empty.  `none` is the panic of
`choose_pset_thread`, or a hint that is not the number of a list. -/
def takeHint (fixedpri : Bool) (rq : RunQueue) : Option (Nat × RunQueue) :=
  if rq.low < nrqs then
    match rq.runq rq.low with
    | [] => takeFirst fixedpri { rq with low := rq.low + 1 }
    | _ :: _ => rq.takeAt fixedpri rq.low
  else none

end RunQueue

/-- The run queues, and the fields of the threads that are used with them. -/
structure RunQueues where
  rq : RunqId → RunQueue
  schedPri : Nat → Int
  /-- `thread->runq`. -/
  runq : Nat → Option RunqId

/-- What a function of the scheduler returns. -/
inductive RunqResult where
  | done
  | removed (q : Option RunqId)
  /-- The thread that was chosen, or the idle thread. -/
  | thread (th : Option Nat)
  /-- `thread_block` returns without a switch. -/
  | stays
deriving Repr, DecidableEq

/-- A call.  `updated` is what `update_priority` finds, if it is called.  `target` is the run queue
that `thread_setrun` uses, unless an idle processor gets the thread.  `fixedpri` is the policy of
the processor set, and `stays` says that the thread in `thread_block` can go on running. -/
inductive RunqOp where
  | threadSetrun (t : Nat) (updated : Option Int) (target : Option RunqId)
  | remRunq (t : Nat)
  | setPri (t : Nat) (pri : Int) (updated : Option Int) (target : Option RunqId)
  | chooseThread (fixedpri : Bool) (p m : Nat)
  | choosePsetThread (fixedpri : Bool) (m : Nat)
  | threadBlock (fixedpri stays : Bool) (p m : Nat)
deriving Repr, DecidableEq

namespace RunQueues

/-- `thread_setrun`.  `none` is the failed assertion that the thread is on no run queue. -/
def threadSetrun (t : Nat) (updated : Option Int) (target : Option RunqId) (s : RunQueues) :
    Option RunQueues :=
  match s.runq t with
  | some _ => none
  | none =>
    let pri := updated.getD (s.schedPri t)
    let s := { s with schedPri := update s.schedPri t pri }
    match target with
    | none => some s
    | some q =>
      some
        { s with
            rq := update s.rq q ((s.rq q).enqueue t pri)
            runq := update s.runq t (some q) }

/-- `rem_runq`. -/
def remRunq (t : Nat) (s : RunQueues) : RunQueues × Option RunqId :=
  match s.runq t with
  | none => (s, none)
  | some q =>
    ({ s with
        rq := update s.rq q ((s.rq q).remqueue t)
        runq := update s.runq t none }, some q)

/-- `set_pri`. -/
def setPri (t : Nat) (pri : Int) (updated : Option Int) (target : Option RunqId) (s : RunQueues) :
    Option RunQueues :=
  let (s, rq) := s.remRunq t
  let s := { s with schedPri := update s.schedPri t pri }
  match rq with
  | none => some s
  | some _ => s.threadSetrun t updated target

/-- A thread is taken from a queue. -/
def take (q : RunqId) (f : RunQueue → Option (Nat × RunQueue)) (s : RunQueues) :
    Option (RunQueues × RunqResult) :=
  match f (s.rq q) with
  | none => none
  | some (th, rq) =>
    some
      ({ s with rq := update s.rq q rq, runq := update s.runq th none },
        .thread (some th))

/-- `choose_pset_thread`. -/
def choosePsetThread (fixedpri : Bool) (m : Nat) (s : RunQueues) :
    Option (RunQueues × RunqResult) :=
  if 0 < (s.rq (.pset m)).count then s.take (.pset m) (RunQueue.takeFirst fixedpri)
  else some (s, .thread none)

/-- `choose_thread`. -/
def chooseThread (fixedpri : Bool) (p m : Nat) (s : RunQueues) :
    Option (RunQueues × RunqResult) :=
  if 0 < (s.rq (.processor p)).count then s.take (.processor p) (RunQueue.takeFirst false)
  else s.choosePsetThread fixedpri m

/-- `thread_block`, until it has the new thread. -/
def threadBlock (fixedpri stays : Bool) (p m : Nat) (s : RunQueues) :
    Option (RunQueues × RunqResult) :=
  if 0 < (s.rq (.processor p)).count then s.chooseThread fixedpri p m
  else if (s.rq (.pset m)).count = 0 then
    if stays then some (s, .stays) else s.choosePsetThread fixedpri m
  else s.take (.pset m) (RunQueue.takeHint fixedpri)

end RunQueues

/-- One call. -/
def runqStep : Machine RunqOp RunqResult RunQueues
  | .threadSetrun t updated target, s => (s.threadSetrun t updated target).map (·, .done)
  | .remRunq t, s => some ((s.remRunq t).1, .removed (s.remRunq t).2)
  | .setPri t pri updated target, s => (s.setPri t pri updated target).map (·, .done)
  | .chooseThread fixedpri p m, s => s.chooseThread fixedpri p m
  | .choosePsetThread fixedpri m, s => s.choosePsetThread fixedpri m
  | .threadBlock fixedpri stays p m, s => s.threadBlock fixedpri stays p m

/-! ### What run queues are for -/

/-- The threads that wait, with the numbers of their lists, in order of arrival. -/
structure Waiting where
  queue : RunqId → List (Nat × Nat)
  schedPri : Nat → Int

namespace Waiting

/-- The thread is on a run queue. -/
def Waits (t : Nat) (a : Waiting) : Prop := ∃ q, t ∈ (a.queue q).map Prod.fst

/-- The thread that is to run next. -/
def best (q : RunqId) (a : Waiting) : Option Nat := (Arrivals.best (a.queue q)).map Prod.fst

/-- The best thread for a processor.  Its own run queue comes first. -/
def bestFor (p m : Nat) (a : Waiting) : Option Nat := (a.best (.processor p)).or (a.best (.pset m))

/-- A thread leaves its queue. -/
def leave (t : Nat) (a : Waiting) : Waiting :=
  { a with queue := fun q => Arrivals.leave t (a.queue q) }

/-- A thread has a new priority. -/
def setPri (t : Nat) (pri : Int) (a : Waiting) : Waiting :=
  { a with schedPri := update a.schedPri t pri }

/-- A thread comes to the end of a queue. -/
def arrive (t : Nat) (q : RunqId) (a : Waiting) : Waiting :=
  { a with
      queue := update a.queue q (a.queue q ++ [(t, RunQueue.whichq (a.schedPri t))]) }

/-- A thread is made runnable. -/
def setrun (t : Nat) (updated : Option Int) (target : Option RunqId) (a : Waiting) : Waiting :=
  let a := a.setPri t (updated.getD (a.schedPri t))
  match target with
  | none => a
  | some q => a.arrive t q

end Waiting

open Waiting

open Classical in
/-- A thread is made runnable only if it does not wait already.  A dequeue returns the best thread,
and a thread that is removed is on the run queue that is returned. -/
noncomputable def runqContract : Contract RunqOp RunqResult Waiting where
  legal
    | .threadSetrun t _ _, a => ¬ a.Waits t
    | _, _ => True
  ok
    | .threadSetrun _ _ _, _, r => r = .done
    | .remRunq t, a, r =>
      ∃ rq, r = .removed rq ∧ ∀ q, rq = some q ↔ t ∈ (a.queue q).map Prod.fst
    | .setPri _ _ _ _, _, r => r = .done
    | .chooseThread _ p m, a, r => r = .thread (a.bestFor p m)
    | .choosePsetThread _ m, a, r => r = .thread (a.best (.pset m))
    | .threadBlock _ stays p m, a, r =>
      r = if stays ∧ a.bestFor p m = none then .stays else .thread (a.bestFor p m)
  next
    | .threadSetrun t updated target, a, _ => a.setrun t updated target
    | .remRunq t, a, _ => a.leave t
    | .setPri t pri updated target, a, _ =>
      if a.Waits t then ((a.leave t).setPri t pri).setrun t updated target else a.setPri t pri
    | _, a, .thread (some t) => a.leave t
    | _, a, _ => a

/-! ### One run queue -/

namespace RunQueue

theorem whichq_lt (pri : Int) : whichq pri < nrqs := by
  rw [whichq]
  generalize (pri % 2 ^ 32).toNat = n
  rcases lt_or_ge n nrqs with hlt | hge
  · rwa [if_neg (not_le.mpr hlt)]
  · rw [if_pos hge]
    decide

/-- The run queue holds these threads, with the numbers of their lists. -/
structure Holds (rq : RunQueue) (xs : List (Nat × Nat)) : Prop where
  lists : ∀ i, rq.runq i = Arrivals.ofRank i xs
  count : rq.count = xs.length
  low : ∀ x ∈ xs, rq.low ≤ x.2
  lt : ∀ x ∈ xs, x.2 < nrqs
  nodup : (xs.map Prod.fst).Nodup

theorem scan_spec {runq : Nat → List Nat} {n i k : Nat} (hk : runq k ≠ []) (hle : i ≤ k)
    (hlt : k < i + n) :
    ∃ j, scan runq n i = some j ∧ runq j ≠ [] ∧ ∀ l, i ≤ l → l < j → runq l = [] := by
  induction n generalizing i with
  | zero => omega
  | succ n ih =>
    rw [scan]
    cases hi : runq i with
    | nil =>
      have hne : i ≠ k := fun heq => hk (heq ▸ hi)
      obtain ⟨j, hscan, hj, hempty⟩ := ih (i := i + 1) (by omega) (by omega)
      refine ⟨j, hscan, hj, ?_⟩
      intro l hil hlj
      rcases eq_or_lt_of_le hil with rfl | hil
      · exact hi
      · exact hempty l hil hlj
    | cons th rest =>
      refine ⟨i, rfl, ?_, ?_⟩
      · rw [hi]
        exact cons_ne_nil th rest
      · omega

namespace Holds

variable {rq : RunQueue} {xs : List (Nat × Nat)}

theorem nil (hlists : ∀ i, rq.runq i = []) (hcount : rq.count = 0) : rq.Holds [] where
  lists := hlists
  count := hcount
  low _ h := nomatch h
  lt _ h := nomatch h
  nodup := nodup_nil

variable (h : rq.Holds xs) {i : Nat} {th : Nat}

include h

theorem setLow {low : Nat} (hlow : ∀ x ∈ xs, low ≤ x.2) :
    { rq with low := low }.Holds xs where
  lists := h.lists
  count := h.count
  low := hlow
  lt := h.lt
  nodup := h.nodup

theorem mem_list {x : Nat × Nat} (hx : x ∈ xs) : x.1 ∈ rq.runq x.2 := by
  rw [h.lists]
  exact mem_ofRank.mpr hx

theorem below (hi : i < rq.low) : rq.runq i = [] := by
  rw [eq_nil_iff_forall_not_mem]
  intro th hth
  rw [h.lists] at hth
  have := h.low _ (mem_ofRank.mp hth)
  omega

theorem enqueue (hth : th ∉ xs.map Prod.fst) (pri : Int) :
    (rq.enqueue th pri).Holds (xs ++ [(th, whichq pri)]) where
  lists i := by
    have hlists := h.lists i
    rw [ofRank] at hlists ⊢
    rw [filter_append, map_append, ← hlists]
    rcases eq_or_ne i (whichq pri) with rfl | hne
    · simp [RunQueue.enqueue]
    · simp [RunQueue.enqueue, update_of_ne hne, hne.symm]
  count := by simp [RunQueue.enqueue, h.count]
  low x hx := by
    have hcount : rq.count = 0 → xs = [] := fun hc => length_eq_zero_iff.mp (h.count ▸ hc)
    rcases mem_append.mp hx with hx | hx
    · have hle := h.low x hx
      have hne : rq.count ≠ 0 := fun hc => List.not_mem_nil (hcount hc ▸ hx)
      dsimp only [RunQueue.enqueue]
      split <;> omega
    · rw [mem_singleton.mp hx]
      dsimp only [RunQueue.enqueue]
      split <;> omega
  lt x hx := by
    rcases mem_append.mp hx with hx | hx
    · exact h.lt x hx
    · rw [mem_singleton.mp hx]
      exact whichq_lt pri
  nodup := by
    rw [map_append, map_singleton, nodup_append]
    refine ⟨h.nodup, nodup_singleton _, ?_⟩
    intro x hx y hy heq
    rw [heq, mem_singleton.mp hy] at hx
    exact hth hx

theorem remqueue (hth : th ∈ xs.map Prod.fst) : (rq.remqueue th).Holds (Arrivals.leave th xs) where
  lists i := by rw [ofRank_leave h.nodup, ← h.lists]; rfl
  count := by rw [length_leave h.nodup hth, ← h.count]; rfl
  low x hx := h.low x (mem_leave.mp hx).1
  lt x hx := h.lt x (mem_leave.mp hx).1
  nodup := h.nodup.sublist (filter_sublist.map Prod.fst)

theorem dequeueHead {rest : List Nat} (hi : rq.runq i = th :: rest) :
    rq.dequeueHead i = some (th, rq.remqueue th) := by
  have hmem : (th, i) ∈ xs := by
    rw [← mem_ofRank, ← h.lists, hi]
    exact mem_cons_self
  rw [RunQueue.dequeueHead, hi]
  dsimp only [remqueue]
  congr 3
  funext j
  rcases eq_or_ne j i with rfl | hne
  · rw [update_self, hi, erase_cons_head]
  rw [update_of_ne hne, erase_of_not_mem]
  intro hth
  rw [h.lists, mem_ofRank] at hth
  have := inj_on_of_nodup_map h.nodup hmem hth rfl
  exact hne (congrArg Prod.snd this).symm

end Holds

/-- The thread is the head of the first list that is not empty, and the others stay. -/
structure Yields (rq : RunQueue) (xs : List (Nat × Nat)) (th i : Nat) (rq' : RunQueue) : Prop where
  head : ∃ rest, rq.runq i = th :: rest
  first : ∀ j < i, rq.runq j = []
  holds : rq'.Holds (Arrivals.leave th xs)

theorem Yields.best {rq rq' : RunQueue} {xs : List (Nat × Nat)} {th i : Nat}
    (hy : rq.Yields xs th i rq') (h : rq.Holds xs) : Arrivals.best xs = some (th, i) := by
  obtain ⟨rest, hhead⟩ := hy.head
  apply best_eq_of_ofRank
  · rw [← h.lists, hhead]
  · intro j hj
    rw [← h.lists, hy.first j hj]

namespace Holds

variable {rq : RunQueue} {xs : List (Nat × Nat)}

theorem exists_scan (h : rq.Holds xs) (hpos : 0 < rq.count) {i : Nat} (hle : ∀ x ∈ xs, i ≤ x.2) :
    ∃ j, scan rq.runq (nrqs - i) i = some j ∧ rq.runq j ≠ [] ∧ ∀ x ∈ xs, j ≤ x.2 := by
  rw [h.count] at hpos
  obtain ⟨x, hx⟩ := exists_mem_of_length_pos hpos
  have hix := hle x hx
  have hlt := h.lt x hx
  obtain ⟨j, hscan, hj, hempty⟩ :=
    scan_spec (n := nrqs - i) (ne_nil_of_mem (h.mem_list hx)) hix (by omega)
  refine ⟨j, hscan, hj, fun y hy => Nat.le_of_not_lt fun hlt => ?_⟩
  have hmem := h.mem_list hy
  rw [hempty y.2 (hle y hy) hlt] at hmem
  cases hmem

theorem takeAt (h : rq.Holds xs) (fixedpri : Bool) {i : Nat} (hi : rq.runq i ≠ [])
    (hle : ∀ x ∈ xs, i ≤ x.2) :
    ∃ th rq', rq.takeAt fixedpri i = some (th, rq') ∧ rq.Yields xs th i rq' := by
  obtain ⟨th, rest, hhead⟩ := exists_cons_of_ne_nil hi
  have hmem : (th, i) ∈ xs := by
    rw [← mem_ofRank, ← h.lists, hhead]
    exact mem_cons_self
  have hgone := h.remqueue (mem_map_of_mem hmem)
  have hle' : ∀ x ∈ leave th xs, i ≤ x.2 := fun x hx => hle x (mem_leave.mp hx).1
  have hfirst : ∀ j < i, rq.runq j = [] := fun j => (h.setLow hle).below
  rw [RunQueue.takeAt, h.dequeueHead hhead]
  dsimp only
  split
  next hexact =>
    have hpos : 0 < (rq.remqueue th).count := of_decide_eq_true (Bool.and_eq_true_iff.mp hexact).2
    obtain ⟨j, hscan, -, hlow⟩ := hgone.exists_scan hpos hle'
    rw [hscan]
    exact ⟨th, _, rfl, ⟨rest, hhead⟩, hfirst, hgone.setLow hlow⟩
  next => exact ⟨th, _, rfl, ⟨rest, hhead⟩, hfirst, hgone.setLow hle'⟩

theorem takeFirst (h : rq.Holds xs) (fixedpri : Bool) (hpos : 0 < rq.count) :
    ∃ th i rq', rq.takeFirst fixedpri = some (th, rq') ∧ rq.Yields xs th i rq' := by
  obtain ⟨i, hscan, hi, hle⟩ := h.exists_scan hpos h.low
  obtain ⟨th, rq', htake, hyields⟩ := h.takeAt fixedpri hi hle
  refine ⟨th, i, rq', ?_, hyields⟩
  rw [RunQueue.takeFirst, hscan]
  exact htake

/-- With the hint raised by one, the loop does not panic either. -/
theorem takeHint (h : rq.Holds xs) (fixedpri : Bool) (hpos : 0 < rq.count) :
    ∃ th i rq', rq.takeHint fixedpri = some (th, rq') ∧ rq.Yields xs th i rq' := by
  have hpos' := hpos
  rw [h.count] at hpos'
  obtain ⟨x, hx⟩ := exists_mem_of_length_pos hpos'
  have hlow : rq.low < nrqs := (h.low x hx).trans_lt (h.lt x hx)
  rw [RunQueue.takeHint, if_pos hlow]
  cases hhint : rq.runq rq.low with
  | nil =>
    have hraise : { rq with low := rq.low + 1 }.Holds xs := by
      apply h.setLow
      intro y hy
      have hmem := h.mem_list hy
      refine lt_of_le_of_ne (h.low y hy) ?_
      intro heq
      rw [← heq, hhint] at hmem
      cases hmem
    obtain ⟨th, i, rq', htake, hyields⟩ := hraise.takeFirst fixedpri hpos
    exact ⟨th, i, rq', htake, hyields.head, hyields.first, hyields.holds⟩
  | cons th rest =>
    have hne : rq.runq rq.low ≠ [] := by
      rw [hhint]
      exact cons_ne_nil th rest
    obtain ⟨th, rq', htake, hyields⟩ := h.takeAt fixedpri hne h.low
    exact ⟨th, rq.low, rq', htake, hyields⟩

end Holds

end RunQueue

/-! ### All run queues -/

namespace RunQueues

/-- The run queues hold the threads that wait, and `thread->runq` says where a thread is. -/
structure Represents (s : RunQueues) (a : Waiting) : Prop where
  holds : ∀ q, (s.rq q).Holds (a.queue q)
  schedPri : s.schedPri = a.schedPri
  runq : ∀ t q, s.runq t = some q ↔ t ∈ (a.queue q).map Prod.fst

namespace Represents

variable {s : RunQueues} {a : Waiting}

variable {t : Nat}

theorem runq_eq_none (h : s.Represents a) (ht : ¬ a.Waits t) : s.runq t = none := by
  cases hq : s.runq t with
  | none => rfl
  | some q => exact absurd ⟨q, (h.runq t q).mp hq⟩ ht

theorem waits (h : s.Represents a) {q : RunqId} (ht : s.runq t = some q) : a.Waits t :=
  ⟨q, (h.runq t q).mp ht⟩

theorem not_waits (h : s.Represents a) (ht : s.runq t = none) : ¬ a.Waits t := by
  rintro ⟨q, hq⟩
  rw [(h.runq t q).mpr hq] at ht
  cases ht

theorem leave_eq_self (ht : ¬ a.Waits t) : a.leave t = a := by
  rw [Waiting.leave]
  congr 1
  funext q
  exact Arrivals.leave_eq_self fun hq => ht ⟨q, hq⟩

/-- The outcome of a dequeue: the best thread leaves, if there is one. -/
def Dequeues (a : Waiting) (th : Option Nat) (o : Option (RunQueues × RunqResult)) : Prop :=
  ∃ s', o = some (s', .thread th) ∧
    s'.Represents (match th with | some t => a.leave t | none => a)

section

variable (h : s.Represents a) {q : RunqId}

include h

theorem leave (ht : s.runq t = some q) {rq : RunQueue}
    (hrq : rq.Holds (Arrivals.leave t (a.queue q))) :
    { s with rq := update s.rq q rq, runq := update s.runq t none }.Represents (a.leave t) where
  holds q' := by
    rcases eq_or_ne q' q with rfl | hne
    · dsimp only
      rwa [update_self]
    have hnot : t ∉ (a.queue q').map Prod.fst := by
      rw [← h.runq, ht]
      exact fun heq => hne (some.inj heq).symm
    dsimp only [Waiting.leave]
    rw [update_of_ne hne, Arrivals.leave_eq_self hnot]
    exact h.holds q'
  schedPri := h.schedPri
  runq t' q' := by
    have hmem : t' ∈ ((a.leave t).queue q').map Prod.fst ↔
        t' ∈ (a.queue q').map Prod.fst ∧ t' ≠ t := by
      simp [Waiting.leave]
    rw [hmem, ← h.runq]
    rcases eq_or_ne t' t with rfl | hne
    · simp
    · simp [hne]

theorem setPri (t : Nat) (pri : Int) :
    { s with schedPri := update s.schedPri t pri }.Represents (a.setPri t pri) where
  holds := h.holds
  schedPri := by rw [Waiting.setPri, h.schedPri]
  runq := h.runq

theorem threadSetrun (ht : ¬ a.Waits t) (updated : Option Int) (target : Option RunqId) :
    ∃ s', s.threadSetrun t updated target = some s' ∧
      s'.Represents (a.setrun t updated target) := by
  have hpri := h.setPri t (updated.getD (s.schedPri t))
  rw [RunQueues.threadSetrun, h.runq_eq_none ht]
  cases target with
  | none =>
    rw [setrun, ← h.schedPri]
    exact ⟨_, rfl, hpri⟩
  | some q =>
    rw [setrun, ← h.schedPri]
    refine ⟨_, rfl, ?_, hpri.schedPri, ?_⟩
    · intro q'
      rcases eq_or_ne q' q with rfl | hne
      · simp only [arrive, Waiting.setPri, update_self]
        exact (h.holds q').enqueue (fun hmem => ht ⟨q', hmem⟩) _
      · simp only [arrive, update_of_ne hne]
        exact h.holds q'
    · intro t' q'
      have hnot : ∀ q, t ∉ (a.queue q).map Prod.fst := fun q hmem => ht ⟨q, hmem⟩
      rcases eq_or_ne q' q with rfl | hne
      · rcases eq_or_ne t' t with rfl | htne
        · simp [arrive]
        · simpa [arrive, Waiting.setPri, htne] using h.runq t' q'
      · rcases eq_or_ne t' t with rfl | htne
        · simpa [arrive, Waiting.setPri, hne, hne.symm] using hnot q'
        · simpa [arrive, Waiting.setPri, hne, htne] using h.runq t' q'

theorem remRunq (t : Nat) :
    (s.remRunq t).1.Represents (a.leave t) ∧ (s.remRunq t).2 = s.runq t := by
  rw [RunQueues.remRunq]
  cases ht : s.runq t with
  | none =>
    refine ⟨?_, rfl⟩
    rw [leave_eq_self (h.not_waits ht)]
    exact h
  | some q => exact ⟨h.leave ht ((h.holds q).remqueue ((h.runq t q).mp ht)), rfl⟩

theorem take {f : RunQueue → Option (Nat × RunQueue)}
    (hf : ∃ th i rq', f (s.rq q) = some (th, rq') ∧ (s.rq q).Yields (a.queue q) th i rq') :
    ∃ th, a.best q = some th ∧ Dequeues a (some th) (s.take q f) := by
  obtain ⟨th, i, rq', htake, hyields⟩ := hf
  have hbest := hyields.best (h.holds q)
  have hq : s.runq th = some q := (h.runq th q).mpr (mem_map_of_mem (best_mem hbest))
  refine ⟨th, ?_, _, ?_, h.leave hq hyields.holds⟩
  · rw [Waiting.best, hbest, map_some]
  · rw [RunQueues.take, htake]

theorem best_eq_none (hq : ¬ 0 < (s.rq q).count) : a.best q = none := by
  rw [(h.holds q).count] at hq
  have hnil : a.queue q = [] := length_eq_zero_iff.mp (by omega)
  rw [Waiting.best, hnil]
  rfl

end

theorem Dequeues.eq_some {th : Option Nat} {o : Option (RunQueues × RunqResult)}
    (h : Dequeues a th o) {s' : RunQueues} (ho : o = some (s', .thread (some t))) :
    th = some t := by
  obtain ⟨s₁, hs₁, -⟩ := h
  rw [hs₁, some.injEq, Prod.mk.injEq, RunqResult.thread.injEq] at ho
  exact ho.2

variable (h : s.Represents a)

include h

theorem choosePsetThread (fixedpri : Bool) (m : Nat) :
    Dequeues a (a.best (.pset m)) (s.choosePsetThread fixedpri m) := by
  rw [RunQueues.choosePsetThread]
  split
  next hpos =>
    obtain ⟨th, hbest, htake⟩ := h.take ((h.holds _).takeFirst fixedpri hpos)
    rw [hbest]
    exact htake
  next hpos =>
    rw [h.best_eq_none hpos]
    exact ⟨s, rfl, h⟩

theorem chooseThread (fixedpri : Bool) (p m : Nat) :
    Dequeues a (a.bestFor p m) (s.chooseThread fixedpri p m) := by
  rw [RunQueues.chooseThread, bestFor]
  split
  next hpos =>
    obtain ⟨th, hbest, htake⟩ := h.take ((h.holds _).takeFirst false hpos)
    rw [hbest]
    exact htake
  next hpos =>
    rw [h.best_eq_none hpos, none_or]
    exact h.choosePsetThread fixedpri m

theorem threadBlock (fixedpri stays : Bool) (p m : Nat) : (stays = true ∧ a.bestFor p m = none ∧
      s.threadBlock fixedpri stays p m = some (s, .stays)) ∨
    (¬ (stays = true ∧ a.bestFor p m = none) ∧
      Dequeues a (a.bestFor p m) (s.threadBlock fixedpri stays p m)) := by
  rw [RunQueues.threadBlock]
  split
  next hpos =>
    obtain ⟨th, hbest, -⟩ := h.take ((h.holds _).takeFirst false hpos)
    refine .inr ⟨?_, h.chooseThread fixedpri p m⟩
    rintro ⟨-, hnone⟩
    rw [bestFor, hbest] at hnone
    cases hnone
  rename_i hpos
  rw [bestFor, h.best_eq_none hpos, none_or]
  split
  next hzero =>
    have hnone := h.best_eq_none (q := .pset m) (by omega)
    cases stays with
    | true => exact .inl ⟨rfl, hnone, if_pos rfl⟩
    | false => exact .inr ⟨(fun hstays => nomatch hstays.1), h.choosePsetThread fixedpri m⟩
  next hzero =>
    obtain ⟨th, hbest, htake⟩ :=
      h.take ((h.holds _).takeHint fixedpri (Nat.pos_of_ne_zero hzero))
    rw [hbest]
    exact .inr ⟨(fun hstays => nomatch hstays.2), htake⟩

theorem setPri_spec (t : Nat) (pri : Int) (updated : Option Int) (target : Option RunqId) :
    ∃ s', s.setPri t pri updated target = some s' ∧
      s'.Represents (runqContract.next (.setPri t pri updated target) a .done) := by
  obtain ⟨hrep, hold⟩ := h.remRunq t
  have hpri := hrep.setPri t pri
  rw [RunQueues.setPri]
  dsimp only [runqContract]
  rw [hold]
  cases ht : s.runq t with
  | none =>
    have hnot := h.not_waits ht
    rw [if_neg hnot]
    rw [leave_eq_self hnot] at hpri
    exact ⟨_, rfl, hpri⟩
  | some =>
    rw [if_pos (h.waits ht)]
    apply hpri.threadSetrun
    rintro ⟨q', hq'⟩
    simp [Waiting.leave, Waiting.setPri] at hq'

end Represents

end RunQueues

/-- The scheduler keeps its contract. -/
theorem runqStep_simulates : runqContract.Simulates runqStep RunQueues.Represents := by
  intro s a op h hlegal
  cases op with
  | threadSetrun t updated target =>
    obtain ⟨s', hs', hrep⟩ := h.threadSetrun hlegal updated target
    exact ⟨s', .done, congrArg (Option.map (·, RunqResult.done)) hs', rfl, hrep⟩
  | remRunq t =>
    obtain ⟨hrep, hold⟩ := h.remRunq t
    refine ⟨_, _, rfl, ⟨_, rfl, ?_⟩, hrep⟩
    intro q
    rw [hold]
    exact h.runq t q
  | setPri t pri updated target =>
    obtain ⟨s', hs', hrep⟩ := h.setPri_spec t pri updated target
    exact ⟨s', .done, congrArg (Option.map (·, RunqResult.done)) hs', rfl, hrep⟩
  | chooseThread fixedpri p m =>
    obtain ⟨s', hs', hrep⟩ := h.chooseThread fixedpri p m
    refine ⟨s', _, hs', rfl, ?_⟩
    cases hth : a.bestFor p m <;> rwa [hth] at hrep
  | choosePsetThread fixedpri m =>
    obtain ⟨s', hs', hrep⟩ := h.choosePsetThread fixedpri m
    refine ⟨s', _, hs', rfl, ?_⟩
    cases hth : a.best (.pset m) <;> rwa [hth] at hrep
  | threadBlock fixedpri stays p m =>
    rcases h.threadBlock fixedpri stays p m with ⟨hstays, hnone, hs'⟩ | ⟨hnot, s', hs', hrep⟩
    · exact ⟨s, .stays, hs', (if_pos ⟨hstays, hnone⟩).symm, h⟩
    · refine ⟨s', _, hs', (if_neg hnot).symm, ?_⟩
      cases hth : a.bestFor p m <;> rwa [hth] at hrep

/-- No thread is on a run queue yet. -/
structure RunQueues.Start (s : RunQueues) (a : Waiting) : Prop where
  lists : ∀ q i, (s.rq q).runq i = []
  count : ∀ q, (s.rq q).count = 0
  runq : ∀ t, s.runq t = none
  queue : ∀ q, a.queue q = []
  schedPri : s.schedPri = a.schedPri

variable {s : RunQueues} {a : Waiting}

theorem RunQueues.Start.represents (h : s.Start a) : s.Represents a where
  holds q := by
    rw [h.queue]
    exact .nil (h.lists q) (h.count q)
  schedPri := h.schedPri
  runq t q := by
    rw [h.runq, h.queue]
    exact ⟨(fun hq => nomatch hq), (fun hq => nomatch hq)⟩

namespace RunQueue

/-- The thread is the head of the first list that is not empty. -/
def Head (rq : RunQueue) (t : Nat) : Prop :=
  ∃ i rest, rq.runq i = t :: rest ∧ ∀ j < i, rq.runq j = []

theorem Holds.head {rq : RunQueue} {xs : List (Nat × Nat)} (h : rq.Holds xs) {x : Nat × Nat}
    (hx : Arrivals.best xs = some x) : rq.Head x.1 := by
  have hpos : 0 < rq.count := h.count ▸ length_pos_of_mem (best_mem hx)
  obtain ⟨th, i, _, -, hyields⟩ := h.takeFirst false hpos
  rw [hyields.best h] at hx
  cases hx
  obtain ⟨rest, hrest⟩ := hyields.head
  exact ⟨i, rest, hrest, hyields.first⟩

end RunQueue

/-- The queue that a call takes a thread from. -/
def RunqOp.source (s : RunQueues) : RunqOp → Option RunqId
  | .chooseThread _ p m => some (if 0 < (s.rq (.processor p)).count then .processor p else .pset m)
  | .choosePsetThread _ m => some (.pset m)
  | .threadBlock _ _ p m => some (if 0 < (s.rq (.processor p)).count then .processor p else .pset m)
  | _ => none

/-- A processor takes the best thread of the run queue it looks at. -/
theorem RunQueues.Represents.bestFor_eq (h : s.Represents a) (p m : Nat) :
    a.bestFor p m = a.best (if 0 < (s.rq (.processor p)).count then .processor p else .pset m) := by
  rw [bestFor]
  split
  next hpos =>
    obtain ⟨th, hbest, -⟩ := h.take ((h.holds _).takeFirst false hpos)
    rw [hbest, some_or]
  next hpos => rw [h.best_eq_none hpos, none_or]

theorem RunQueues.Represents.dequeued {s' : RunQueues} (h : s.Represents a)
    {op : RunqOp} {t : Nat} (hstep : runqStep op s = some (s', .thread (some t))) :
    ∃ q, op.source s = some q ∧ a.best q = some t := by
  cases op with
  | threadSetrun t' updated target | setPri =>
    obtain ⟨s₁, -, heq⟩ := map_eq_some_iff.mp hstep
    cases heq
  | remRunq t' => cases hstep
  | chooseThread fixedpri p m =>
    have hbest := (h.chooseThread fixedpri p m).eq_some hstep
    exact ⟨_, rfl, h.bestFor_eq p m ▸ hbest⟩
  | choosePsetThread fixedpri m =>
    exact ⟨_, rfl, (h.choosePsetThread fixedpri m).eq_some hstep⟩
  | threadBlock fixedpri stays p m =>
    rcases h.threadBlock fixedpri stays p m with ⟨-, -, hs₁⟩ | ⟨-, hdequeues⟩
    · cases hstep.symm.trans hs₁
    · have hbest := hdequeues.eq_some hstep
      exact ⟨_, rfl, h.bestFor_eq p m ▸ hbest⟩

/-- After any calls, the count is right and the hint is not above a list with a thread.  The next
call does not panic.  It returns the head of the first list that is not empty, and all threads that
came to this run queue before it are in later lists. -/
theorem runQueue_yields_best {s : RunQueues} {a : Waiting}
    (hrun : runqContract.Run runqStep RunQueues.Start s a) :
    (∀ q, (s.rq q).count = ∑ i ∈ Finset.range nrqs, ((s.rq q).runq i).length) ∧
    (∀ q i, 0 < (s.rq q).count → (s.rq q).runq i ≠ [] → (s.rq q).low ≤ i) ∧
    (∀ q i, (s.rq q).runq i = Arrivals.ofRank i (a.queue q)) ∧
    (∀ op, runqContract.legal op a →
      ∃ s' r, runqStep op s = some (s', r) ∧ runqContract.ok op a r) ∧
    ∀ op s' t, runqStep op s = some (s', .thread (some t)) →
      ∃ q, op.source s = some q ∧ (s.rq q).Head t ∧
        ∃ i ys zs, a.queue q = ys ++ (t, i) :: zs ∧ (∀ y ∈ ys, i < y.2) ∧ ∀ z ∈ zs, i ≤ z.2 := by
  have hrep := runqStep_simulates.run (fun _ _ => RunQueues.Start.represents) hrun
  refine ⟨?_, ?_, fun q => (hrep.holds q).lists, ?_, ?_⟩
  · intro q
    have hlists := (hrep.holds q).lists
    rw [(hrep.holds q).count, length_eq_sum_ofRank (hrep.holds q).lt]
    exact Finset.sum_congr rfl fun i _ => by rw [hlists i]
  · intro q i _ hi
    rcases lt_or_ge i (s.rq q).low with hlt | hge
    · exact absurd ((hrep.holds q).below hlt) hi
    · exact hge
  · intro op hlegal
    obtain ⟨s', r, hstep, hok, -⟩ := runqStep_simulates s a op hrep hlegal
    exact ⟨s', r, hstep, hok⟩
  · intro op s' t hstep
    obtain ⟨q, hq, hbest⟩ := hrep.dequeued hstep
    obtain ⟨⟨th, i⟩, hth, rfl⟩ := map_eq_some_iff.mp hbest
    obtain ⟨hle, ys, zs, hsplit, hys⟩ := best_spec hth
    refine ⟨q, hq, (hrep.holds q).head hth, i, ys, zs, hsplit, hys, ?_⟩
    intro z hz
    exact hle z (hsplit ▸ mem_append_right _ (mem_cons_of_mem _ hz))

/-- The run queues of `processor_init` and `pset_init`, for threads of priority 31. -/
def RunQueues.init : RunQueues where
  rq _ := RunQueue.init
  schedPri _ := 31
  runq _ := none

theorem runQueue_yields_best_first :
    ∃ s s' : RunQueues, runqStep (.threadBlock true false 0 0) s = some (s', .thread (some 1)) ∧
      (s.rq (.pset 0)).Head 1 ∧ (s.rq (.pset 0)).runq 31 = [1, 2] := by
  let a : Waiting := ⟨fun _ => [], fun _ => 31⟩
  have hstart : RunQueues.init.Start a :=
    ⟨fun _ _ => rfl, fun _ => rfl, fun _ => rfl, fun _ => rfl, rfl⟩
  have hlegal₁ : runqContract.legal (.threadSetrun 1 (some (-1)) (some (.pset 0))) a := by
    rintro ⟨q, hq⟩
    cases hq
  have hrun₁ := Contract.Run.step (M := runqStep) (.start hstart) hlegal₁ rfl
  have hlegal₂ : runqContract.legal (.threadSetrun 2 none (some (.pset 0)))
      (a.setrun 1 (some (-1)) (some (.pset 0))) := by
    rintro ⟨q, hq⟩
    cases q <;> simp_all [a, setrun, arrive, setPri, update]
  have hrun₂ := hrun₁.step hlegal₂ rfl
  obtain ⟨q, hq, hhead, -⟩ := (runQueue_yields_best hrun₂).2.2.2.2
    (.threadBlock true false 0 0) _ 1 rfl
  cases hq
  exact ⟨_, _, rfl, hhead, rfl⟩

end Mach
