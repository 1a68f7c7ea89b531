import Mach.Device.Disposal
import Mach.Lib.Runs
import Mach.Vm.Map

/-!
# The reference that comes with a call of a memory manager

A memory manager names an object by a port, and the conversion of the port adds a reference to the
object (`vm_object_lookup`).  The routine that is called has to drop it, whatever it returns.

A routine is given by what it does to the lock, the references and the paging references of the
object.  Three of the six return at once if they refuse their arguments, and the reference stays:
`memory_object_data_error` and `memory_object_data_unavailable` if the size is not one of whole
pages, `memory_object_lock_request` if there is no such protection.  On every other exit it is
dropped (`manager_drops_iff`).
-/

namespace Mach

/-- An object, as far as it is used here. -/
structure CalledObject where
  refCount : Nat
  locked : Bool
  pagingInProgress : Nat
deriving DecidableEq

/-- What a routine does to an object. -/
inductive ObjectOp where
  | lock
  | unlock
  | pagingBegin
  | pagingEnd
  | deallocate

/-- An operation, or `none` if it is not possible.  `vm_object_deallocate` takes the lock. -/
def objectOp : Machine ObjectOp Unit CalledObject
  | .lock, o => if o.locked then none else some ({ o with locked := true }, ())
  | .unlock, o => if o.locked then some ({ o with locked := false }, ()) else none
  | .pagingBegin, o =>
    if o.locked then some ({ o with pagingInProgress := o.pagingInProgress + 1 }, ()) else none
  | .pagingEnd, o =>
    if o.locked ∧ o.pagingInProgress ≠ 0 then
      some ({ o with pagingInProgress := o.pagingInProgress - 1 }, ())
    else none
  | .deallocate, o =>
    if o.locked ∨ o.refCount = 0 then none else some ({ o with refCount := o.refCount - 1 }, ())

/-- What `memory_object_lock_request` does on its way over the pages: `CLEAN_DIRTY_PAGES`, a wait
for a page, and `vm_pageout_setup`. -/
inductive LockEvent where
  | cleanDirtyPages
  | mustBlock
  | mustClean

/-- What a routine does in a round. -/
def LockEvent.ops : LockEvent → List ObjectOp
  | .cleanDirtyPages | .mustBlock => [.unlock, .lock]
  | .mustClean => [.unlock, .lock, .unlock, .lock]

/-- A call, with what it meets. -/
inductive ManagerCall where
  | dataProvided (supply : Supply) (object : PagedObject) (offset count lockValue : Nat)
  | dataError (size : Nat)
  | dataUnavailable (size : Nat)
  | lockRequest (prot : Nat) (events : List LockEvent) (reply : Bool)
  | setAttributes (copyStrategy : Int)
  | getAttributes

namespace ManagerCall

/-- What a routine does.  The loops of `memory_object_data_error` and
`memory_object_data_unavailable` keep the lock, and the one more exit of the second does the same as
the last. -/
def ops (pageMask : Nat) : ManagerCall → Except ServerPanic (List ObjectOp)
  | .dataProvided supply object offset count lockValue =>
    if lockValue &&& not32 vmProtAll ≠ 0 ∨ count ≠ pageMask + 1 then .ok [.deallocate]
    else if supply.copyout = false then .error .cantCopyout
    else if supply.wire = false then .error .cantWire
    else
      let result := (object.provide (object.within offset) lockValue supply.alloc).1
      let fill := if result = .success then [.unlock, .lock] else []
      .ok ([.lock, .pagingBegin, .unlock, .lock] ++ fill ++ [.pagingEnd, .unlock, .deallocate])
  | .dataError size | .dataUnavailable size =>
    .ok (if size ≠ roundPage pageMask size then [] else [.lock, .unlock, .deallocate])
  | .lockRequest prot events reply =>
    .ok (if prot &&& not32 vmProtAll ≠ 0 then []
      else [.lock, .pagingBegin] ++ events.flatMap LockEvent.ops ++
        (if reply then [.unlock, .lock] else []) ++ [.pagingEnd, .unlock, .deallocate])
  | .setAttributes copyStrategy =>
    .ok (if copyStrategy = 0 ∨ copyStrategy = 1 ∨ copyStrategy = 2
      then [.lock, .unlock, .deallocate]
      else [.deallocate])
  | .getAttributes => .ok [.lock, .unlock, .deallocate]

/-- The call is not one that is refused with its reference. -/
def Heard (pageMask : Nat) : ManagerCall → Prop
  | .dataError size | .dataUnavailable size => size = roundPage pageMask size
  | .lockRequest prot _ _ => prot &&& not32 vmProtAll = 0
  | _ => True

end ManagerCall

/-- The lock is held again after each event. -/
theorem run_lockEvents (events : List LockEvent) (refs paging : Nat) (rest : List ObjectOp) :
    objectOp.run (events.flatMap LockEvent.ops ++ rest) ⟨refs, true, paging⟩ =
      objectOp.run rest ⟨refs, true, paging⟩ := by
  induction events with
  | nil => rfl
  | cons event events ih =>
    rw [← ih]
    cases event <;> rfl

/-- A routine that returns has dropped one reference, and the rest of the object is as before, if
and only if the call is heard. -/
theorem manager_drops_iff (pageMask : Nat) (call : ManagerCall) (refs paging : Nat)
    {ops : List ObjectOp} (hreturns : call.ops pageMask = .ok ops) :
    objectOp.run ops ⟨refs + 1, false, paging⟩ = some ⟨refs, false, paging⟩ ↔
      call.Heard pageMask := by
  have hstays : ¬ objectOp.run [] ⟨refs + 1, false, paging⟩ = some ⟨refs, false, paging⟩ := by
    simp [Machine.run]
  cases call with
  | dataProvided =>
    rw [ManagerCall.ops] at hreturns
    split_ifs at hreturns <;> cases hreturns <;> [skip; split] <;> exact iff_of_true rfl trivial
  | dataError size | dataUnavailable size =>
    cases hreturns
    split
    next hsize => exact iff_of_false hstays hsize
    next hsize => exact iff_of_true rfl (not_not.mp hsize)
  | lockRequest prot events reply =>
    cases hreturns
    split
    next hprot => exact iff_of_false hstays hprot
    next hprot =>
      rw [List.append_assoc, List.append_assoc]
      refine iff_of_true ((run_lockEvents events _ _ _).trans ?_) (not_not.mp hprot)
      cases reply <;> rfl
  | setAttributes =>
    cases hreturns
    split <;> exact iff_of_true rfl trivial
  | getAttributes =>
    cases hreturns
    exact iff_of_true rfl trivial

/-- A page is provided, with a fresh page in the object. -/
theorem manager_drops_iff_dataProvided :
    let call : ManagerCall := .dataProvided ⟨true, true, true⟩ ⟨0, fun _ => some .fresh⟩ 0 4096 1
    ∃ ops, call.ops 4095 = .ok ops ∧ ops.length = 9 ∧
      objectOp.run ops ⟨2, false, 0⟩ = some ⟨1, false, 0⟩ := by
  intro call
  have hops : call.ops 4095 = .ok _ := rfl
  exact ⟨_, hops, rfl, (manager_drops_iff 4095 call 1 0 hops).mpr trivial⟩

/-- A size of 100 bytes, and a protection that is not one: nothing is done to the object. -/
theorem not_dropped :
    (ManagerCall.dataError 100).ops 4095 = .ok [] ∧
    (ManagerCall.dataUnavailable 100).ops 4095 = .ok [] ∧
    (ManagerCall.lockRequest 8 [] true).ops 4095 = .ok [] ∧
      objectOp.run [] ⟨2, false, 0⟩ = some ⟨2, false, 0⟩ :=
  ⟨rfl, rfl, rfl, rfl⟩

end Mach
