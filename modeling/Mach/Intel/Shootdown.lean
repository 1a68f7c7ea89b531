import Mach.Lib.Runs
import Mathlib.Data.List.FinRange

/-!
# TLB shootdown

A processor caches translations of the pmaps that it uses, and only that processor can drop them.
Before a pmap is changed, the processors that use it are told to stop using it and to flush their
TLB.

Three sets of processors are shared: those that use a pmap (`cpus_using`), those that may use pmaps
now (`cpus_active`), and those that are idle (`cpus_idle`).  Each processor has a list of updates
that wait for it.  The one that changes a pmap has its lock.  It puts an item on the list of every
other user, interrupts it if it is not idle, and waits until none of the users is active.  The
interrupted processor leaves `cpus_active`, waits until the locks are free, and processes its list.

A step of a processor is one access to something that another processor reads or writes, together
with what it does by itself.  The part of `signal_cpus` and `process_pmap_updates` with the lock of
an update list is one step.  The level is part of the phase: a processor is below `splvm` only in
`run` and, at the level of the interrupt, in `entered`.

The lock of the pmap system is left out, and items of an update list have no range, as
`INVALIDATE_TLB` flushes the whole TLB.
-/

namespace Mach

open Function

/-- What a TLB has of one pmap. -/
inductive Cached where
  | nothing
  /-- Translations that the pmap still has. -/
  | fresh
  /-- Also a translation from before a change of the pmap. -/
  | stale
deriving Repr, DecidableEq

/-- An address is used, and its entry gets into the TLB. -/
def Cached.use : Cached → Cached
  | .nothing => .fresh
  | c => c

/-- The pmap changes. -/
def Cached.age : Cached → Cached
  | .nothing => .nothing
  | _ => .stale

/-- What a processor does next. -/
inductive CpuPhase (π : Type) (n : Nat) where
  /-- Below `splvm`. -/
  | run
  /-- `SPLVM` has raised the level. -/
  | raised
  /-- In a pmap operation, with no pmap locked. -/
  | ready
  | locked (p : π)
  /-- In `signal_cpus`, with the processors of `use_list`. -/
  | signalling (p : π) (rest : List (Fin n))
  /-- The update is in the list of `y`. -/
  | queued (p : π) (y : Fin n) (rest : List (Fin n))
  /-- And `y` was not idle. -/
  | interrupting (p : π) (y : Fin n) (rest : List (Fin n))
  /-- In the loop of `PMAP_UPDATE_TLBS`. -/
  | waiting (p : π)
  /-- In that loop, after `cpus_using` was read. -/
  | reading (p : π) (users : List (Fin n))
  /-- After that loop. -/
  | invalidating (p : π)
  /-- After `PMAP_UPDATE_TLBS`. -/
  | updating (p : π)
  /-- At the start of `pmap_update_interrupt`. -/
  | entered
  /-- At the start of its loop.  It is `nested` in `MARK_CPU_ACTIVE`. -/
  | looping (my : π) (nested : Bool)
  /-- It will read the lock of `my_pmap`. -/
  | spinning (my : π) (nested : Bool)
  /-- It will read the lock of the kernel pmap. -/
  | spinningKernel (my : π) (nested : Bool)
  /-- Both were free. -/
  | free (my : π) (nested : Bool)
  | processed (my : π) (nested : Bool)
  /-- At the end of the loop. -/
  | testing (my : π) (nested : Bool)
  /-- `MARK_CPU_IDLE` has raised the level. -/
  | idling
  | idled
  /-- `MARK_CPU_ACTIVE` has raised the level. -/
  | waking
  | woken
  /-- It will set its bit in `cpus_active`. -/
  | marking
  /-- The level is raised to switch to another thread. -/
  | switching
  /-- After `PMAP_DEACTIVATE_USER`. -/
  | deactivated
  /-- `PMAP_ACTIVATE_USER` waits for the lock. -/
  | activating (q : π)
  | activated (q : π)
  /-- After `set_dirbase`. -/
  | loaded (q : π)
  | used (q : π)
  | unlocking (q : π)
  /-- It will call `splx`. -/
  | lowering
deriving Repr, DecidableEq

/-- A processor, with its bits in the sets. -/
structure Cpu (π : Type) (n : Nat) where
  /-- `pmap_in_use`. -/
  inUse : π → Bool
  active : Bool
  idle : Bool
  /-- `cpu_update_needed`. -/
  needed : Bool
  /-- `cpu_update_list`. -/
  updates : List π
  /-- The interrupt was sent and not yet delivered. -/
  pending : Bool
  tlb : π → Cached
  /-- `current_pmap`. -/
  current : π
  phase : CpuPhase π n

variable {π : Type} [DecidableEq π] {n : Nat}

/-- `UPDATE_LIST_SIZE`. -/
def updateListSize : Nat := 4

/-- Put an item on an update list.  The last item of a full list is changed to one for the kernel
pmap. -/
def addUpdate (kernel p : π) (updates : List π) : List π :=
  if updates.length ≥ updateListSize then updates.set (updateListSize - 1) kernel
  else updates ++ [p]

namespace Cpu

/-- It may use, and cache, translations of the pmap. -/
def Uses (c : Cpu π n) (p : π) : Prop := c.inUse p ∧ c.active ∧ c.phase = .run

instance (c : Cpu π n) (p : π) : Decidable (c.Uses p) :=
  inferInstanceAs (Decidable (_ ∧ _ ∧ _))

/-- `INVALIDATE_TLB` under a condition. -/
def invalidateTlb (condition : Bool) (c : Cpu π n) : π → Cached :=
  if condition then fun _ => .nothing else c.tlb

/-- `process_pmap_updates`. -/
def processPmapUpdates (kernel my : π) (c : Cpu π n) : Cpu π n :=
  { c with
    tlb := c.invalidateTlb (c.updates.any fun p => p = my || p = kernel)
    updates := []
    needed := false }

/-- `my_pmap` of `pmap_update_interrupt`. -/
def myPmap (kernel : π) (c : Cpu π n) : π := if c.inUse c.current then c.current else kernel

/-- `PMAP_DEACTIVATE_USER`. -/
def deactivateUser (kernel : π) (c : Cpu π n) : Cpu π n :=
  if c.current ≠ kernel then { c with inUse := update c.inUse c.current false } else c

/-- The next step, when it is known and does not change what is shared by others. -/
def advance (kernel : π) (lock : π → Bool) (c : Cpu π n) : Option (Cpu π n) :=
  match c.phase with
  | .raised => some { c with active := false, phase := .ready }
  -- `SPLX`, after the last pmap.
  | .ready => some { c with active := true, phase := .lowering }
  | .invalidating p => some { c with tlb := c.invalidateTlb (c.inUse p), phase := .updating p }
  | .entered =>
    if c.idle then some { c with phase := .run }
    else some { c with phase := .looping (c.myPmap kernel) false }
  | .looping my nested => some { c with active := false, phase := .spinning my nested }
  | .spinning my nested =>
    if lock my then some c else some { c with phase := .spinningKernel my nested }
  | .spinningKernel my nested =>
    if lock kernel then some { c with phase := .spinning my nested }
    else some { c with phase := .free my nested }
  | .free my nested => some { c.processPmapUpdates kernel my with phase := .processed my nested }
  | .processed my nested => some { c with active := true, phase := .testing my nested }
  | .testing my nested =>
    if c.needed then some { c with phase := .looping my nested }
    else if nested then some { c with phase := .marking }
    else some { c with phase := .lowering }
  | .idling => some { c with idle := true, phase := .idled }
  | .idled => some { c with active := false, phase := .lowering }
  | .waking => some { c with idle := false, phase := .woken }
  | .woken =>
    if c.needed then some { c with phase := .looping (c.myPmap kernel) true }
    else some { c with phase := .marking }
  | .marking => some { c with active := true, phase := .lowering }
  | .switching => some { c.deactivateUser kernel with phase := .deactivated }
  -- `set_dirbase` flushes the TLB.
  | .activated q => some { c with tlb := c.invalidateTlb true, phase := .loaded q }
  | .loaded q =>
    some { c with inUse := update c.inUse q true, current := q, phase := .used q }
  | .used q => some { c with active := true, phase := .unlocking q }
  -- An interrupt that waits is delivered as the level drops.
  | .lowering =>
    if c.pending then some { c with pending := false, phase := .entered }
    else some { c with phase := .run }
  | _ => none

end Cpu

/-- What a processor below `splvm` may start. -/
inductive CpuCall where
  | pmapOperation
  | threadSwitch
  | markCpuIdle
  | markCpuActive
deriving Repr, DecidableEq

/-- Where a call starts. -/
def CpuCall.phase : CpuCall → CpuPhase π n
  | .pmapOperation => .raised
  | .threadSwitch => .switching
  | .markCpuIdle => .idling
  | .markCpuActive => .waking

/-- What a processor does, where it has a choice. -/
inductive CpuAct (π : Type) where
  /-- Use a translation. -/
  | access (p : π)
  /-- The interrupt is delivered. -/
  | deliver
  | call (call : CpuCall)
  | lock (p : π)
  /-- Change the locked pmap. -/
  | change
  | unlock
  /-- To a thread with this pmap. -/
  | switchTo (q : π)
  | next
deriving Repr, DecidableEq

/-- The processors and the locks of the pmaps. -/
structure Cpus (π : Type) (n : Nat) where
  cpu : Fin n → Cpu π n
  lock : π → Bool

namespace Cpus

/-- All processors run in the kernel pmap. -/
def init (kernel : π) : Cpus π n where
  cpu _ :=
    { inUse := fun p => p = kernel
      active := true
      idle := false
      needed := false
      updates := []
      pending := false
      tlb := fun _ => .nothing
      current := kernel
      phase := .run }
  lock _ := false

/-- Change a processor. -/
def set (x : Fin n) (c : Cpu π n) (s : Cpus π n) : Cpus π n :=
  { s with cpu := update s.cpu x c }

/-- A processor goes on to a phase. -/
def goto (x : Fin n) (phase : CpuPhase π n) (s : Cpus π n) : Cpus π n :=
  s.set x { s.cpu x with phase := phase }

/-- `(pmap)->cpus_using & ~cpu_mask`, in the order of `ffs`. -/
def otherUsers (s : Cpus π n) (p : π) (x : Fin n) : List (Fin n) :=
  (List.finRange n).filter fun y => (s.cpu y).inUse p && y ≠ x

/-- `signal_cpus`, with the update list of `y` locked. -/
def queueUpdate (kernel p : π) (y : Fin n) (s : Cpus π n) : Cpus π n :=
  s.set y { s.cpu y with updates := addUpdate kernel p (s.cpu y).updates, needed := true }

/-- `interrupt_processor`. -/
def interruptProcessor (y : Fin n) (s : Cpus π n) : Cpus π n :=
  s.set y { s.cpu y with pending := true }

/-- `PMAP_UPDATE_TLBS` reads `cpus_using`. -/
def updateTlbs (p : π) : List (Fin n) → CpuPhase π n
  | [] => .invalidating p
  | users => .signalling p users

/-- `simple_lock`. -/
def takeLock (x : Fin n) (p : π) (phase : CpuPhase π n) (s : Cpus π n) : Option (Cpus π n) :=
  if s.lock p then none
  else some { s.goto x phase with lock := update s.lock p true }

/-- `simple_unlock`. -/
def dropLock (x : Fin n) (p : π) (phase : CpuPhase π n) (s : Cpus π n) : Cpus π n :=
  { s.goto x phase with lock := update s.lock p false }

/-- Page table entries of the pmap change. -/
def changePmap (p : π) (s : Cpus π n) : Cpus π n :=
  { s with
    cpu := fun x =>
      { s.cpu x with tlb := update (s.cpu x).tlb p ((s.cpu x).tlb p).age } }

/-- The next step of a processor. -/
def next (kernel : π) (x : Fin n) (s : Cpus π n) : Option (Cpus π n) :=
  match (s.cpu x).phase with
  | .locked p => some (s.goto x (updateTlbs p (s.otherUsers p x)))
  | .signalling p [] => some (s.goto x (.waiting p))
  | .signalling p (y :: rest) => some ((s.queueUpdate kernel p y).goto x (.queued p y rest))
  | .queued p y rest =>
    some (s.goto x (if (s.cpu y).idle then .signalling p rest else .interrupting p y rest))
  | .interrupting p y rest => some ((s.interruptProcessor y).goto x (.signalling p rest))
  | .waiting p => some (s.goto x (.reading p (s.otherUsers p x)))
  | .reading p users =>
    some (s.goto x (if users.any fun y => (s.cpu y).active then .waiting p else .invalidating p))
  | .activating q => s.takeLock x q (.activated q)
  | .unlocking q => some (s.dropLock x q .lowering)
  | _ => ((s.cpu x).advance kernel s.lock).map fun c => s.set x c

/-- `simple_unlock` in a pmap operation. -/
def unlock (x : Fin n) (s : Cpus π n) : Option (Cpus π n) :=
  match (s.cpu x).phase with
  | .locked p => some (s.dropLock x p .ready)
  | .updating p => some (s.dropLock x p .ready)
  | _ => none

/-- A change of the pmap that is locked. -/
def change (x : Fin n) (s : Cpus π n) : Option (Cpus π n) :=
  match (s.cpu x).phase with
  | .updating p => some (s.changePmap p)
  | _ => none

/-- `PMAP_ACTIVATE_USER`, until it waits for the lock. -/
def switchTo (kernel : π) (x : Fin n) (q : π) (s : Cpus π n) : Cpus π n :=
  if q = kernel then s.set x { s.cpu x with current := q, phase := .lowering }
  else s.set x { s.cpu x with active := false, phase := .activating q }

/-- A step of a processor. -/
def act (kernel : π) (x : Fin n) (s : Cpus π n) : CpuAct π → Option (Cpus π n)
  | .access p =>
    let c := s.cpu x
    if c.Uses p then some (s.set x { c with tlb := update c.tlb p (c.tlb p).use }) else none
  | .deliver =>
    let c := s.cpu x
    if c.phase = .run ∧ c.pending then some (s.set x { c with pending := false, phase := .entered })
    else none
  | .call call => if (s.cpu x).phase = .run then some (s.goto x call.phase) else none
  | .lock p => if (s.cpu x).phase = .ready then s.takeLock x p (.locked p) else none
  | .change => s.change x
  | .unlock => s.unlock x
  | .switchTo q => if (s.cpu x).phase = .deactivated then some (s.switchTo kernel x q) else none
  | .next => s.next kernel x

/-- The processors, in any order of their steps. -/
def machine (kernel : π) : Machine (Fin n × CpuAct π) Unit (Cpus π n)
  | (x, a), s => (s.act kernel x a).map fun s' => (s', ())

/-- The shootdown works: after the loop of `PMAP_UPDATE_TLBS` and until the pmap is unlocked, no
other processor may use the pmap, and nobody uses a translation from before a change. -/
structure Sound (s : Cpus π n) : Prop where
  alone : ∀ u x p, u ≠ x →
    (s.cpu u).phase = .invalidating p ∨ (s.cpu u).phase = .updating p → ¬ (s.cpu x).Uses p
  fresh : ∀ x p, (s.cpu x).Uses p → (s.cpu x).tlb p ≠ .stale

end Cpus

end Mach
