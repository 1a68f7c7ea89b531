import Mach.Ipc.Hash
import Mach.Ipc.RightRelease
import Mach.Ipc.SpaceRights

/-!
# Spaces, ports and naked rights

The state that the operations of `ipc/ipc_right.c` and `ipc/ipc_port.c` work on together:
the spaces with their reverse hash tables, the ports, and the rights outside of spaces.
The last are nowhere in the data of the kernel.  They are the rights that copyin has
returned, that messages carry and that requests hold, and `naked` counts them.  The one
right that the operations find in a port and give up by themselves is the port-destroyed
request, which is not counted as naked while it is in the port.

An operation on a right works on one entry (`RightState`), and its calls are made here.  Those that
concern the space and those that concern ports touch different parts of the state.  The entry is
stored before the calls: `ipc_hash_delete` does not look at the entry that it takes out.
-/

namespace Mach

/-! ## Ports and naked rights -/

namespace Rights

instance : Add Rights := ⟨fun r s => ⟨r.send + s.send, r.sendOnce + s.sendOnce,
  r.receive + s.receive⟩⟩

instance : Sub Rights := ⟨fun r s => ⟨r.send - s.send, r.sendOnce - s.sendOnce,
  r.receive - s.receive⟩⟩

instance : LE Rights := ⟨fun r s => r.send ≤ s.send ∧ r.sendOnce ≤ s.sendOnce ∧
  r.receive ≤ s.receive⟩

variable (r : Rights)

@[simp] theorem add_send (s : Rights) : (r + s).send = r.send + s.send := rfl
@[simp] theorem add_sendOnce (s : Rights) : (r + s).sendOnce = r.sendOnce + s.sendOnce := rfl
@[simp] theorem add_receive (s : Rights) : (r + s).receive = r.receive + s.receive := rfl
@[simp] theorem sub_send (s : Rights) : (r - s).send = r.send - s.send := rfl
@[simp] theorem sub_sendOnce (s : Rights) : (r - s).sendOnce = r.sendOnce - s.sendOnce := rfl
@[simp] theorem sub_receive (s : Rights) : (r - s).receive = r.receive - s.receive := rfl

theorem zero_le : Rights.zero ≤ r := ⟨Nat.zero_le _, Nat.zero_le _, Nat.zero_le _⟩

theorem add_assoc (s t : Rights) : r + s + t = r + (s + t) :=
  Rights.ext (Nat.add_assoc ..) (Nat.add_assoc ..) (Nat.add_assoc ..)

theorem add_right_comm (s t : Rights) : r + s + t = r + t + s :=
  Rights.ext (Nat.add_right_comm ..) (Nat.add_right_comm ..) (Nat.add_right_comm ..)

theorem add_cancel {r s t : Rights} (h : r + t = s + t) : r = s :=
  Rights.ext (Nat.add_right_cancel (congrArg send h)) (Nat.add_right_cancel (congrArg sendOnce h))
    (Nat.add_right_cancel (congrArg receive h))

theorem zero_add : zero + r = r :=
  Rights.ext (Nat.zero_add _) (Nat.zero_add _) (Nat.zero_add _)

theorem only_zero (port q : Nat) : zero.only port q = .zero := ite_self _

theorem only_le {r : Rights} {port : Nat} {naked : Nat → Rights} (h : r ≤ naked port) (q : Nat) :
    r.only port q ≤ naked q := by
  rw [only]
  split
  · rename_i hq
    exact hq ▸ h
  · exact zero_le _

end Rights

/-- The ports, and how many rights there are for each outside of spaces. -/
structure PortState where
  ports : IpcPorts
  naked : Nat → Rights

/-- The right in a port-destroyed request. -/
def pdRight (pdrequest : Nat) : Rights :=
  if pdrequest = ipNull then .zero
  else if IpcPort.ipPdsendp pdrequest then ⟨1, 0, 0⟩ else ⟨0, 1, 0⟩

/-- The right in the port-destroyed request of a port, as seen from another. -/
def IpcPorts.requested (P : IpcPorts) (p q : Nat) : Rights :=
  (pdRight (P.port p).ipPdrequest).only (IpcPort.pdTarget (P.port p).ipPdrequest) q

namespace PortState

/-- New naked rights. -/
def give (x : PortState) (r : Nat → Rights) : PortState :=
  { x with naked := fun q => x.naked q + r q }

/-- Naked rights that are used up. -/
def take (x : PortState) (r : Nat → Rights) : PortState :=
  { x with naked := fun q => x.naked q - r q }

/-- What becomes of the naked receive right when `ipc_port_destroy` is done.  If the port has
a backup, a message to the backup carries it, and is sent with the right of the request. -/
def destroyed (x : PortState) (port : Nat) : Bool × IpcPorts → PortState
  | (true, P) => { x with ports := P }.take ((⟨0, 0, 1⟩ : Rights).only port)
  | (false, P) => { x with ports := P }.give (x.ports.requested port)

/-- `ipc_port_destroy` of a naked receive right. -/
def destroyPort (lockTry : Bool) (fuel : Nat) (x : PortState) (port : Nat) : Option PortState :=
  (ipcPortDestroy lockTry fuel x.ports port).map (x.destroyed port)

/-- What a call does to the ports. -/
def call (lockTry : Bool) (fuel : Nat) (x : PortState) : RightCall → Option PortState
  | .portDestroy port => (x.give ((⟨0, 0, 1⟩ : Rights).only port)).destroyPort lockTry fuel port
  | .notifySendOnce port => some (x.give ((⟨0, 1, 0⟩ : Rights).only port))
  | .notifyPortDeletedCompat port _ => some (x.give ((⟨1, 0, 0⟩ : Rights).only port))
  | _ => some x

end PortState

/-! ## Spaces -/

/-- A space with the reverse hash tables. -/
structure SpaceState where
  space : IpcSpace
  hash : IpcHash

/-- A pointer to the entry of a name in a space. -/
structure EntryPtr where
  space : Nat
  name : Nat
  ref : EntryRef
deriving Repr, DecidableEq

namespace SpaceState

/-- `ipc_entry_dealloc`. -/
def entryDealloc (its : IpcTableSizes) (ptr : EntryPtr) (x : SpaceState) : Option SpaceState :=
  (ipcEntryDealloc its x.space ptr.name ptr.ref).bind fun (s, calls) =>
    (calls.foldlM (HashCall.run ptr.space) x.hash).map (⟨s, ·⟩)

/-- What a call does to the space. -/
def call (its : IpcTableSizes) (ptr : EntryPtr) (x : SpaceState) : RightCall → Option SpaceState
  | .hashInsert obj =>
    (ipcHashInsert x.space x.hash ptr.space obj ptr.name ptr.ref).map (⟨x.space, ·⟩)
  | .hashDelete obj =>
    (ipcHashDelete x.space x.hash ptr.space obj ptr.name ptr.ref).map (⟨x.space, ·⟩)
  | .entryDealloc => x.entryDealloc its ptr
  | _ => some x

end SpaceState

/-! ## The state of all -/

/-- The spaces, the reverse hash tables, the ports and the naked rights. -/
structure World extends PortState where
  space : Nat → IpcSpace
  /-- The entries of a dead space that `ipc_space_destroy` has yet to clean, and whether
  they are in the tree. -/
  dying : Nat → List ((Nat × Bool) × IpcEntry)
  /-- `is_notify`, by space. -/
  isNotify : Nat → Nat
  hash : IpcHash

namespace World

/-- A space, with the hash table. -/
def spaceState (w : World) (a : Nat) : SpaceState := ⟨w.space a, w.hash⟩

/-- Change a space and the hash tables. -/
def setSpaceState (w : World) (a : Nat) (x : SpaceState) : World :=
  { w with space := Function.update w.space a x.space, hash := x.hash }

/-- Change the ports and the naked rights. -/
def setPortState (w : World) (x : PortState) : World := { w with toPortState := x }

/-- Store what an operation on a right has left, and make its calls. -/
def finish (its : IpcTableSizes) (lockTry : Bool) (fuel : Nat) (ptr : EntryPtr)
    (s : RightState) (gain lose : Nat → Rights) (w : World) : Option World :=
  (s.calls.foldlM (SpaceState.call its ptr)
      ⟨(w.space ptr.space).write ptr.ref s.entry, w.hash⟩).bind fun x =>
    (s.calls.foldlM (PortState.call lockTry fuel)
        (({ w.toPortState with ports := s.ports }.give gain).take lose)).map fun y =>
      (w.setSpaceState ptr.space x).setPortState y

/-- Do an operation on the right of an entry.  `gain` says what rights it returns, and
`lose` what rights it consumes. -/
def act {α : Type} (its : IpcTableSizes) (lockTry : Bool) (fuel : Nat) (ptr : EntryPtr)
    (f : RightState → α × RightState) (gain lose : α → Nat → Rights) (w : World) :
    Option (α × World) :=
  ((w.space ptr.space).deref ptr.ref).bind fun e =>
    match f ⟨e, w.ports, []⟩ with
    | (r, s) => (w.finish its lockTry fuel ptr s (gain r) (lose r)).map (r, ·)

/-- Nothing is returned or consumed. -/
abbrev noRights {α : Type} : α → Nat → Rights := fun _ _ => .zero

/-- `ipc_entry_dealloc` by a caller. -/
def entryDealloc (its : IpcTableSizes) (ptr : EntryPtr) (w : World) : Option World :=
  ((w.spaceState ptr.space).entryDealloc its ptr).map (w.setSpaceState ptr.space)

/-! ## `ipc_right_rename` -/

/-- The first part: see whether the port is dead, and rename the dead-name request.  The
result says whether there is still an entry to rename. -/
def renameCheck (nname : Nat) (s : RightState) : Bool × RightState :=
  let bits := s.entry.ieBits
  let port := s.entry.ieObject
  let request := s.entry.ieRequest
  if request ≠ 0 then
    match ipcRightCheck port s with
    | (true, s) => (¬ bits.compat, s)
    | (false, s) => (true, s.onPort port fun p => p.ipcPortDnrename request nname)
  else (true, s)

/-- The second part: move what is in the entry to the new one, and deallocate it. -/
def renameMove (its : IpcTableSizes) (old new : EntryPtr) (w : World) : Option World :=
  ((w.space old.space).deref old.ref).bind fun e =>
    let s := (w.space old.space).write new.ref e
    let type := e.ieBits.type
    let port := e.ieObject
    let hash :=
      if type = machPortTypeSend then
        (ipcHashDelete s w.hash old.space port old.name old.ref).bind fun hash =>
          ipcHashInsert s hash old.space port new.name new.ref
      else some w.hash
    let ports :=
      if type.receive then w.ports.modify port fun p => { p with ipReceiverName := new.name }
      else w.ports
    hash.bind fun hash =>
      let s := s.write old.ref { e with ieRequest := 0, ieObject := ioNull }
      (SpaceState.entryDealloc its old ⟨s, hash⟩).map fun x =>
        { (w.setSpaceState old.space x) with ports := ports }

/-- `ipc_right_rename`. -/
def ipcRightRename (its : IpcTableSizes) (lockTry : Bool) (fuel : Nat) (old new : EntryPtr)
    (w : World) : Option (Except KernReturn Unit × World) :=
  (w.act its lockTry fuel old (renameCheck new.name) noRights noRights).bind fun
    | (false, w) => (w.entryDealloc its new).map (.error .invalidName, ·)
    | (true, w) => (w.renameMove its old new).map (.ok (), ·)

/-! ## `ipc_space_destroy` -/

/-- The beginning: mark the space as dead, and go over its entries. -/
def ipcSpaceDestroy (a : Nat) (w : World) : World :=
  let s := w.space a
  if s.isActive then
    { w with
        space := Function.update w.space a { s with isActive := false }
        dying := Function.update w.dying a
          (s.tableRights.map (fun e => ((e.1, false), e.2)) ++
            (s.treeList.filter fun e => e.2.ieBits.type ≠ machPortTypeNone).map
              fun e => ((e.1, true), e.2)) }
  else w

/-- One round of its loops: clean an entry, which is not looked at again. -/
def cleanOne (lockTry : Bool) (fuel : Nat) (a : Nat) (w : World) : Option World :=
  match w.dying a with
  | [] => some w
  | ((name, inTree), e) :: rest =>
    let hash :=
      if inTree ∧ e.ieBits.type = machPortTypeSend then
        ipcHashGlobalDelete w.hash a e.ieObject name
      else w.hash
    let s := ipcRightClean name ⟨e, w.ports, []⟩
    (s.calls.foldlM (PortState.call lockTry fuel)
        { w.toPortState with ports := s.ports }).map fun y =>
      { (w.setPortState y) with hash := hash, dying := Function.update w.dying a rest }

end World

/-! ## Operations -/

/-- An operation of the kernel on rights, under the name of its `ipc_` function. -/
inductive IpcOp where
  | entryGet (space : Nat)
  | entryAlloc (space : Nat) (mem : Nat → Bool)
  | entryAllocName (space name : Nat) (mem : Nat → Bool) (ite : Bool)
  | entryDealloc (ptr : EntryPtr)
  | copyin (ptr : EntryPtr) (msgtName : MachMsgTypeName) (deadok : Bool)
  | copyinUndo (ptr : EntryPtr) (msgtName : MachMsgTypeName) (object soright : Nat)
  | copyinTwo (ptr : EntryPtr)
  | copyinCompat (ptr : EntryPtr) (msgtName : MsgTypePort) (dealloc : Bool)
  | copyinHeader (ptr : EntryPtr)
  /-- `ipc_right_copyout`, after the caller has put the object into the entry. -/
  | copyout (ptr : EntryPtr) (msgtName : MachMsgTypePort) (overflow : Bool) (object : Nat)
  | check (ptr : EntryPtr)
  | inuse (ptr : EntryPtr)
  | dealloc (ptr : EntryPtr)
  | delta (ptr : EntryPtr) (right : MachPortRight) (delta : Int)
  | destroy (ptr : EntryPtr)
  | rename (old new : EntryPtr)
  /-- The beginning of `ipc_space_destroy`. -/
  | spaceDestroy (space : Nat)
  /-- `ipc_right_clean`, of the next entry of a dead space. -/
  | clean (space : Nat)
  | portCopySend (port : Nat)
  | portMakeSend (port : Nat)
  | portMakeSonce (port : Nat)
  | portReleaseSend (port : Nat)
  | portReleaseSonce (port : Nat)
  | portCheckCircularity (port dest : Nat)
  /-- `ipc_port_destroy` of a naked receive right. -/
  | portDestroy (port : Nat)
  | portReleaseReceive (port : Nat)

/-- The space that an operation works in. -/
def IpcOp.space : IpcOp → Option Nat
  | .entryGet a => some a
  | .entryAlloc a _ => some a
  | .entryAllocName a _ _ _ => some a
  | .entryDealloc ptr => some ptr.space
  | .copyin ptr _ _ => some ptr.space
  | .copyinUndo ptr _ _ _ => some ptr.space
  | .copyinTwo ptr => some ptr.space
  | .copyinCompat ptr _ _ => some ptr.space
  | .copyinHeader ptr => some ptr.space
  | .copyout ptr _ _ _ => some ptr.space
  | .check ptr => some ptr.space
  | .inuse ptr => some ptr.space
  | .dealloc ptr => some ptr.space
  | .delta ptr _ _ => some ptr.space
  | .destroy ptr => some ptr.space
  | .rename old _ => some old.space
  | .spaceDestroy a => some a
  | .clean a => some a
  | .portCopySend _ => none
  | .portMakeSend _ => none
  | .portMakeSonce _ => none
  | .portReleaseSend _ => none
  | .portReleaseSonce _ => none
  | .portCheckCircularity _ _ => none
  | .portDestroy _ => none
  | .portReleaseReceive _ => none

namespace World

/-- `ipc_entry_get`, `ipc_entry_alloc` and `ipc_entry_alloc_name`: store the space and make
the calls into the reverse hash tables. -/
def alloc (w : World) (a : Nat) (s : IpcSpace) (calls : List HashCall) : Option World :=
  (calls.foldlM (HashCall.run a) w.hash).map fun hash => w.setSpaceState a ⟨s, hash⟩

/-- The new naked right of `ipc_port_copy_send`. -/
def copySend (w : World) (port : Nat) : World :=
  match ipcPortCopySend w.ports port with
  | (some _, P) =>
    w.setPortState ({ w.toPortState with ports := P }.give ((⟨1, 0, 0⟩ : Rights).only port))
  | (none, P) => { w with ports := P }

/-- One operation.  `lockTry` says whether `ip_lock_try` succeeds, and `fuel` bounds the
search for the end of a chain of ports in transit. -/
def step (its : IpcTableSizes) (fuel : Nat) (lockTry : Bool) (w : World) : IpcOp → Option World
  | .entryGet a => w.alloc a (ipcEntryGet (w.space a)).2 []
  | .entryAlloc a mem =>
    (ipcEntryAlloc its mem its.num (w.space a)).bind fun (_, s, calls) => w.alloc a s calls
  | .entryAllocName a name mem ite =>
    (ipcEntryAllocName its mem ite name (its.num + 1) false (w.space a)).bind
      fun (_, s, calls) => w.alloc a s calls
  | .entryDealloc ptr => w.entryDealloc its ptr
  | .copyin ptr msgtName deadok =>
    (w.act its lockTry fuel ptr (ipcRightCopyin msgtName deadok)
      (fun r q => msgtName.given q r) noRights).map Prod.snd
  | .copyinUndo ptr msgtName object soright =>
    (w.act its lockTry fuel ptr (fun s => ((), ipcRightCopyinUndo msgtName object soright s))
      noRights (fun _ => msgtName.right.only object)).map Prod.snd
  | .copyinTwo ptr =>
    (w.act its lockTry fuel ptr ipcRightCopyinTwo (fun r q => twoGiven q r) noRights).map Prod.snd
  | .copyinCompat ptr msgtName dealloc =>
    (w.act its lockTry fuel ptr (ipcRightCopyinCompat ptr.name msgtName dealloc)
      (fun r q => msgtName.given q r) noRights).map Prod.snd
  | .copyinHeader ptr =>
    (w.act its lockTry fuel ptr (ipcRightCopyinHeader (w.isNotify ptr.space) ptr.name)
      (fun r q => headerGiven q r) noRights).map Prod.snd
  | .copyout ptr msgtName overflow object =>
    (w.act its lockTry fuel ptr
      (fun s => ipcRightCopyout ptr.space ptr.name msgtName overflow (s.setObject object))
      noRights (fun r q => msgtName.taken object q r)).map Prod.snd
  | .check ptr =>
    (w.act its lockTry fuel ptr (fun s => ipcRightCheck s.entry.ieObject s) noRights noRights).map
      Prod.snd
  | .inuse ptr => (w.act its lockTry fuel ptr ipcRightInuse noRights noRights).map Prod.snd
  | .dealloc ptr => (w.act its lockTry fuel ptr (ipcRightDealloc ptr.name) noRights noRights).map
    Prod.snd
  | .delta ptr right delta =>
    (w.act its lockTry fuel ptr (ipcRightDelta ptr.name right delta) noRights noRights).map Prod.snd
  | .destroy ptr => (w.act its lockTry fuel ptr (ipcRightDestroy ptr.name) noRights noRights).map
    Prod.snd
  | .rename old new => (w.ipcRightRename its lockTry fuel old new).map Prod.snd
  | .spaceDestroy a => some (w.ipcSpaceDestroy a)
  | .clean a => w.cleanOne lockTry fuel a
  | .portCopySend port => some (w.copySend port)
  | .portMakeSend port =>
    some (w.setPortState
      ({ w.toPortState with ports := ipcPortMakeSend w.ports port }.give
        ((⟨1, 0, 0⟩ : Rights).only port)))
  | .portMakeSonce port =>
    some (w.setPortState
      ({ w.toPortState with ports := ipcPortMakeSonce w.ports port }.give
        ((⟨0, 1, 0⟩ : Rights).only port)))
  | .portReleaseSend port =>
    some (w.setPortState
      ({ w.toPortState with ports := (ipcPortReleaseSend w.ports port).2 }.take
        ((⟨1, 0, 0⟩ : Rights).only port)))
  | .portReleaseSonce port =>
    some (w.setPortState
      ({ w.toPortState with ports := ipcPortReleaseSonce w.ports port }.take
        ((⟨0, 1, 0⟩ : Rights).only port)))
  | .portCheckCircularity port dest =>
    (ipcPortCheckCircularity lockTry fuel w.ports port dest).map fun (_, P) =>
      { w with ports := P }
  | .portDestroy port => (w.toPortState.destroyPort lockTry fuel port).map w.setPortState
  | .portReleaseReceive port =>
    (ipcPortReleaseReceive lockTry fuel w.ports port).map fun r =>
      w.setPortState (w.toPortState.destroyed port r)

/-! ## What may be asked for -/

/-- The pointer leads to the entry of its name, in a space that is alive. -/
def Points (its : IpcTableSizes) (w : World) (ptr : EntryPtr) : Prop :=
  ∃ free, (w.space ptr.space).Core its free ∧ (w.space ptr.space).Refers free ptr.name ptr.ref

theorem Points.name_ne {its : IpcTableSizes} {w : World} {ptr : EntryPtr} (h : w.Points its ptr) :
    ptr.name ≠ machPortNull := by
  obtain ⟨free, hcore, href⟩ := h
  rintro hname
  rw [hname] at href
  cases hptr : ptr.ref with
  | table =>
    rw [hptr] at href
    exact absurd href.2.1 (by decide)
  | tree =>
    rw [hptr] at href
    obtain ⟨-, v, hv⟩ := href
    exact absurd (hcore.name_pos _ hv) (lt_irrefl 0)

/-- The entry that a pointer leads to. -/
def deref (w : World) (ptr : EntryPtr) : Option IpcEntry := (w.space ptr.space).deref ptr.ref

/-- The conditions that the source states for its operations, in its comments and its
assertions: pointers are good, entries are as expected, and a naked right that is consumed
is there. -/
def Legal (its : IpcTableSizes) (w : World) : IpcOp → Prop
  | .entryGet a => ∃ m, (w.space a).Represents its m
  | .entryAlloc a _ => ∃ m, (w.space a).Represents its m
  | .entryAllocName a name _ _ => MachPortValid name ∧ ∃ m, (w.space a).Represents its m
  | .entryDealloc ptr => w.Points its ptr ∧ ∀ e, w.deref ptr = some e →
      e.ieBits.type = machPortTypeNone ∧ e.ieObject = ioNull
  | .copyin ptr _ _ => w.Points its ptr
  | .copyinUndo ptr msgtName object soright => w.Points its ptr ∧
      msgtName.right ≤ w.naked object ∧
      ∀ e, w.deref ptr = some e → UndoLegal msgtName object soright ⟨e, w.ports, []⟩
  | .copyinTwo ptr => w.Points its ptr
  | .copyinCompat ptr _ _ => w.Points its ptr
  | .copyinHeader ptr => w.Points its ptr ∧ ∀ e, w.deref ptr = some e →
      e.ieBits.type ≠ machPortTypeNone
  | .copyout ptr msgtName _ object => w.Points its ptr ∧
      (w.ports.port object).ipActive = true ∧ msgtName.right ≤ w.naked object ∧
      ∀ e, w.deref ptr = some e → CopyoutLegal msgtName e ∧
        (e.ieBits.type = machPortTypeNone ∨ e.ieObject = object)
  | .check ptr => w.Points its ptr ∧ ∀ e, w.deref ptr = some e →
      e.ieBits.type.sendRights = true ∨ e.ieBits.type.receive = true
  | .inuse ptr => w.Points its ptr
  | .dealloc ptr => w.Points its ptr
  | .delta ptr _ _ => w.Points its ptr
  | .destroy ptr => w.Points its ptr
  | .rename old new => w.Points its old ∧ w.Points its new ∧ old.space = new.space ∧
      old.name ≠ new.name ∧
      (∀ e, w.deref old = some e → e.ieBits.type ≠ machPortTypeNone ∧
        (e.ieRequest ≠ 0 → e.ieBits.type.sendRights = true ∨ e.ieBits.type.receive = true)) ∧
      ∀ e, w.deref new = some e → e.right = .zero
  | .spaceDestroy _ => True
  | .clean _ => True
  | .portCopySend _ => True
  | .portMakeSend _ => True
  | .portMakeSonce _ => True
  | .portReleaseSend port => 1 ≤ (w.naked port).send
  | .portReleaseSonce port => 1 ≤ (w.naked port).sendOnce
  | .portCheckCircularity port dest => (w.ports.port port).InLimbo ∧ dest ≠ ipNull
  | .portDestroy port => (w.ports.port port).ipActive = true ∧ 1 ≤ (w.naked port).receive
  | .portReleaseReceive port => (w.ports.port port).ipActive = true ∧
      (w.ports.port port).ipReceiverName = machPortNull ∧ 1 ≤ (w.naked port).receive

/-- The states that legal operations in some spaces reach, each operation meeting a
condition. -/
inductive Run (its : IpcTableSizes) (fuel : Nat) (spaces : Finset Nat)
    (ok : World → IpcOp → Prop) (w₀ : World) : World → Prop where
  | start : Run its fuel spaces ok w₀ w₀
  | step {w w' : World} {op : IpcOp} {lockTry : Bool} : Run its fuel spaces ok w₀ w →
      (∀ a, op.space = some a → a ∈ spaces) → w.Legal its op → ok w op →
      w.step its fuel lockTry op = some w' → Run its fuel spaces ok w₀ w'

end World

end Mach
