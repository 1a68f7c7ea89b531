import Mach.Ipc.Entry
import Mach.Ipc.Port

/-!
# Operations on rights

The operations of `ipc/ipc_right.c`.  Each of them works on one entry of a space, on the port the
entry leads to, and calls other parts of the kernel.  Its state is the entry, the ports, and the
calls it has made, in order (`RightState`).  A deallocated entry is not looked at again, and a port
that is handed to `ipc_port_destroy` is only used for notifications after it.

Each operation starts with no calls.  `port` is the object of the entry throughout, and
`bits` its bits when the operation starts.
-/

namespace Mach

/-- `IO_DEAD`. -/
def ioDead : Nat := 2 ^ 32 - 1

/-- `mach_msg_type_name_t`, what a sender asks for. -/
inductive MachMsgTypeName where
  | moveReceive
  | moveSend
  | moveSendOnce
  | copySend
  | makeSend
  | makeSendOnce
deriving Repr, DecidableEq

/-- `mach_msg_type_name_t`, what a message carries. -/
inductive MachMsgTypePort where
  | portReceive
  | portSend
  | portSendOnce
deriving Repr, DecidableEq

/-- The type names of the old interface. -/
inductive MsgTypePort where
  | port
  | portAll
deriving Repr, DecidableEq

/-- `mach_port_right_t`. -/
inductive MachPortRight where
  | send
  | receive
  | sendOnce
  | portSet
  | deadName
deriving Repr, DecidableEq

/-- A call into another part of the kernel, under the name of the `ipc_` function. -/
inductive RightCall where
  /-- `ipc_hash_insert` of the entry, for an object. -/
  | hashInsert (obj : Nat)
  /-- `ipc_hash_delete` of the entry, for an object. -/
  | hashDelete (obj : Nat)
  | entryDealloc
  | marequestCancel
  /-- `is_release`. -/
  | spaceRelease
  | psetDestroy (pset : Nat)
  | portDestroy (port : Nat)
  /-- `ipc_notify_send_once`, which consumes a send-once right for the port. -/
  | notifySendOnce (port : Nat)
  | notifyNoSenders (notify mscount : Nat)
  | notifyPortDeleted (notify name : Nat)
  /-- `ipc_notify_port_deleted_compat`, which consumes a send right. -/
  | notifyPortDeletedCompat (notify name : Nat)
  | notifyDeadName (notify name : Nat)
deriving Repr, DecidableEq

/-- What an operation on a right works on. -/
structure RightState where
  entry : IpcEntry
  ports : IpcPorts
  calls : List RightCall

namespace RightState

/-- Store `ie_bits`. -/
@[simps entry ports calls]
def setBits (s : RightState) (bits : IeBits) : RightState :=
  { s with entry := { s.entry with ieBits := bits } }

/-- Store `ie_object`. -/
@[simps entry ports calls]
def setObject (s : RightState) (object : Nat) : RightState :=
  { s with entry := { s.entry with ieObject := object } }

/-- Store `ie_request`. -/
@[simps entry ports calls]
def setRequest (s : RightState) (request : Nat) : RightState :=
  { s with entry := { s.entry with ieRequest := request } }

/-- Change a port. -/
@[simps entry ports calls]
def onPort (s : RightState) (port : Nat) (f : IpcPort → IpcPort) : RightState :=
  { s with ports := s.ports.modify port f }

/-- The call is listed. -/
@[simps entry ports]
def call (s : RightState) (c : RightCall) : RightState := { s with calls := s.calls ++ [c] }

/-- Cancel the msg-accepted request of an entry that has one. -/
def cancelMarequest (s : RightState) (bits : IeBits) : RightState :=
  if bits.marequest then s.call .marequestCancel else s

/-- Send a port-deleted notification if there is a request. -/
def notifyDeleted (s : RightState) (dnrequest name : Nat) : RightState :=
  if dnrequest ≠ ipNull then s.call (.notifyPortDeleted dnrequest name) else s

/-- The notification is sent that was asked for. -/
def notifyNoSenders (s : RightState) : Option (Nat × Nat) → RightState
  | some (nsrequest, mscount) => s.call (.notifyNoSenders nsrequest mscount)
  | none => s

/-- `--ip_srights`, with the no-senders request if it was the last. -/
def dropSend (s : RightState) (port : Nat) : Option (Nat × Nat) × RightState :=
  ((s.ports.port port).dropSend.1, s.onPort port fun p => p.dropSend.2)

/-- The entry is cleared and deallocated. -/
def dealloc (s : RightState) : RightState := (s.setObject ioNull).call .entryDealloc

end RightState

open RightState

/-! ## Requests and dead ports -/

/-- `ipc_right_dncancel_macro`. -/
def ipcRightDncancel (port : Nat) (s : RightState) : Nat × RightState :=
  if s.entry.ieRequest = 0 then (ipNull, s)
  else
    let dnrequest := ((s.ports.port port).ipcPortDncancel s.entry.ieRequest).1
    let s' := (s.onPort port fun p => (p.ipcPortDncancel s.entry.ieRequest).2).setRequest 0
    if s.entry.ieBits.compat then (ipNull, s'.call .spaceRelease) else (dnrequest, s')

/-- `ipc_right_inuse`. -/
def ipcRightInuse (s : RightState) : Bool × RightState :=
  let bits := s.entry.ieBits
  let port := s.entry.ieObject
  if bits.type = machPortTypeNone then (false, s)
  else if bits.compat ∧ (bits.type = machPortTypeSend ∨ bits.type = machPortTypeSendOnce) ∧
      ¬ (s.ports.port port).ipActive then
    let s :=
      if bits.type = machPortTypeSend then (s.cancelMarequest bits).call (.hashDelete port)
      else s
    let s := s.onPort port IpcPort.release
    (false, ((s.setRequest 0).setObject ioNull).setBits bits.clearRight)
  else (true, s)

/-- The bits of a right whose port has died: a dead name, with a user reference more if a
dead-name notification is sent. -/
def IeBits.toDeadName (bits : IeBits) (request : Nat) : IeBits :=
  let bits := { bits with type := machPortTypeDeadName }
  if request ≠ 0 then bits.add 1 else bits

/-- `ipc_right_check`. -/
def ipcRightCheck (port : Nat) (s : RightState) : Bool × RightState :=
  if (s.ports.port port).ipActive then (false, s)
  else
    let bits := s.entry.ieBits
    let request := s.entry.ieRequest
    let s := if bits.type.send then (s.cancelMarequest bits).call (.hashDelete port) else s
    let bits := if bits.type.send then { bits with marequest := false } else bits
    let s := (s.onPort port IpcPort.release).setRequest 0
    if bits.compat then (true, s.dealloc)
    else
      (true, (s.setBits (bits.toDeadName request)).setObject ioNull)

/-- What a round of the loop of `ipc_right_dnrequest` comes to. -/
inductive Dnrequest where
  /-- Success, with the previous request. -/
  | done (previous : Nat)
  | failed (kr : KernReturn)
  /-- The table of requests has to grow first. -/
  | grow
deriving Repr, DecidableEq

/-- `ipc_right_dnrequest` for an entry without a port. -/
def dnrequestDead (name : Nat) (immediate : Bool) (notify : Nat) (s : RightState) :
    Dnrequest × RightState :=
  let bits := s.entry.ieBits
  if bits.type.deadName ∧ immediate ∧ notify ≠ ipNull then
    if machPortUrefsOverflow bits.urefs 1 then (.failed .urefsOverflow, s)
    else (.done ipNull, (s.setBits (bits.add 1)).call (.notifyDeadName notify name))
  else if bits.type.portOrDead then (.failed .invalidArgument, s)
  else (.failed .invalidRight, s)

/-- A round of the loop of `ipc_right_dnrequest`, on an entry that was found. -/
def ipcRightDnrequest (name : Nat) (immediate : Bool) (notify : Nat) (s : RightState) :
    Dnrequest × RightState :=
  let bits := s.entry.ieBits
  let port := s.entry.ieObject
  if bits.type.portRights then
    match ipcRightCheck port s with
    | (true, s) =>
      if bits.compat then (.failed .invalidName, s) else dnrequestDead name immediate notify s
    | (false, s) =>
      if notify = ipNull then
        if bits.compat then (.done ipNull, s)
        else
          let (previous, s) := ipcRightDncancel port s
          (.done previous, s)
      else
        let (previous, s) := ipcRightDncancel port s
        match (s.ports.port port).ipcPortDnrequest name notify with
        | none => (.grow, s)
        | some (request, p) =>
          let s := (s.onPort port fun _ => p).setRequest request
          (.done previous, s.setBits { bits with compat := false })
  else dnrequestDead name immediate notify s

/-! ## Giving up rights -/

/-- The end of a port right: drop the send right, and hand over the receive or the
send-once right. -/
def RightState.dropRights (type : MachPortType) (port name dnrequest : Nat) (s : RightState) :
    RightState :=
  let (nsrequest, s) := if type.send then s.dropSend port else (none, s)
  let s :=
    if type.receive then (s.onPort port IpcPort.clearReceiver).call (.portDestroy port)
    else if type.sendOnce then s.call (.notifySendOnce port)
    else s.onPort port IpcPort.release
  (s.notifyNoSenders nsrequest).notifyDeleted dnrequest name

/-- `ipc_right_clean`. -/
def ipcRightClean (name : Nat) (s : RightState) : RightState :=
  let type := s.entry.ieBits.type
  let port := s.entry.ieObject
  if type = machPortTypeDeadName then s
  else if type = machPortTypePortSet then s.call (.psetDestroy port)
  else if ¬ (s.ports.port port).ipActive then s.onPort port IpcPort.release
  else
    let (dnrequest, s) := ipcRightDncancel port s
    s.dropRights type port name dnrequest

/-- Cancel the msg-accepted request, and take a pure send right out of the reverse hash
table. -/
def RightState.unregister (bits : IeBits) (port : Nat) (s : RightState) : RightState :=
  let s := s.cancelMarequest bits
  if bits.type = machPortTypeSend then s.call (.hashDelete port) else s

/-- `ipc_right_destroy`. -/
def ipcRightDestroy (name : Nat) (s : RightState) : Except KernReturn Unit × RightState :=
  let bits := s.entry.ieBits
  let port := s.entry.ieObject
  if bits.type = machPortTypeDeadName then (.ok (), s.call .entryDealloc)
  else if bits.type = machPortTypePortSet then (.ok (), s.dealloc.call (.psetDestroy port))
  else
    let s := s.unregister bits port
    if ¬ (s.ports.port port).ipActive then
      let s := ((s.onPort port IpcPort.release).setRequest 0).dealloc
      (if bits.compat then .error .invalidName else .ok (), s)
    else
      let (dnrequest, s) := ipcRightDncancel port s
      (.ok (), s.dealloc.dropRights bits.type port name dnrequest)

/-- The label `dead_name` of `ipc_right_dealloc`. -/
def RightState.deallocDeadName (s : RightState) : RightState :=
  if s.entry.ieBits.urefs = 1 then s.call .entryDealloc
  else s.setBits (s.entry.ieBits.add (-1))

/-- The send right of a pure send entry goes, and the entry with it: `ipc_right_dealloc`
and `ipc_right_delta` for the last user reference. -/
def RightState.deallocSend (bits : IeBits) (port name : Nat) (s : RightState) : RightState :=
  let (nsrequest, s) := s.dropSend port
  let (dnrequest, s) := ipcRightDncancel port s
  let s := (s.call (.hashDelete port)).cancelMarequest bits
  let s := (s.onPort port IpcPort.release).dealloc
  (s.notifyNoSenders nsrequest).notifyDeleted dnrequest name

/-- The send right of an entry that also has the receive right goes, and the entry
stays. -/
def RightState.deallocSendReceive (bits : IeBits) (port : Nat) (s : RightState) : RightState :=
  let (nsrequest, s) := s.dropSend port
  (s.setBits { bits with urefs := 0, type := { bits.type with send := false } }).notifyNoSenders
    nsrequest

/-- A send-once right is deallocated. -/
def RightState.deallocSendOnce (port name : Nat) (s : RightState) : RightState :=
  let (dnrequest, s) := ipcRightDncancel port s
  (s.dealloc.call (.notifySendOnce port)).notifyDeleted dnrequest name

/-- `ipc_right_dealloc`. -/
def ipcRightDealloc (name : Nat) (s : RightState) : Except KernReturn Unit × RightState :=
  let bits := s.entry.ieBits
  let port := s.entry.ieObject
  if bits.type = machPortTypeDeadName then (.ok (), s.deallocDeadName)
  else if bits.type = machPortTypeSendOnce then
    match ipcRightCheck port s with
    | (true, s) => if bits.compat then (.error .invalidName, s) else (.ok (), s.deallocDeadName)
    | (false, s) => (.ok (), s.deallocSendOnce port name)
  else if bits.type = machPortTypeSend then
    match ipcRightCheck port s with
    | (true, s) => if bits.compat then (.error .invalidName, s) else (.ok (), s.deallocDeadName)
    | (false, s) =>
      if bits.urefs = 1 then (.ok (), s.deallocSend bits port name)
      else (.ok (), s.setBits (bits.add (-1)))
  else if bits.type = machPortTypeSendReceive then
    if bits.urefs = 1 then (.ok (), s.deallocSendReceive bits port)
    else (.ok (), s.setBits (bits.add (-1)))
  else (.error .invalidRight, s)

/-- `ipc_right_delta`. -/
def ipcRightDelta (name : Nat) (right : MachPortRight) (delta : Int) (s : RightState) :
    Except KernReturn Unit × RightState :=
  let bits := s.entry.ieBits
  let port := s.entry.ieObject
  match right with
  | .portSet =>
    if ¬ bits.type.portSet then (.error .invalidRight, s)
    else if delta = 0 then (.ok (), s)
    else if delta ≠ -1 then (.error .invalidValue, s)
    else (.ok (), s.dealloc.call (.psetDestroy port))
  | .receive =>
    if ¬ bits.type.receive then (.error .invalidRight, s)
    else if delta = 0 then (.ok (), s)
    else if delta ≠ -1 then (.error .invalidValue, s)
    else
      let s := s.cancelMarequest bits
      let bits := { bits with marequest := false }
      let (dnrequest, s) :=
        if bits.compat then
          let (_, s) := ipcRightDncancel port s
          (ipNull, s.dealloc)
        else if bits.type.send then
          let bits := bits.toDeadName s.entry.ieRequest
          (ipNull, ((s.setRequest 0).setBits bits).setObject ioNull)
        else
          let (dnrequest, s) := ipcRightDncancel port s
          (dnrequest, s.dealloc)
      let s := (s.onPort port IpcPort.clearReceiver).call (.portDestroy port)
      (.ok (), s.notifyDeleted dnrequest name)
  | .sendOnce =>
    if ¬ bits.type.sendOnce then (.error .invalidRight, s)
    else if 0 < delta ∨ delta < -1 then (.error .invalidValue, s)
    else
      match ipcRightCheck port s with
      | (true, s) => (if bits.compat then .error .invalidName else .error .invalidRight, s)
      | (false, s) =>
        if delta = 0 then (.ok (), s) else (.ok (), s.deallocSendOnce port name)
  | .deadName =>
    let dead (s : RightState) : Except KernReturn Unit × RightState :=
      let bits := s.entry.ieBits
      if machPortUrefsUnderflow bits.urefs delta then (.error .invalidValue, s)
      else if machPortUrefsOverflow bits.urefs delta then (.error .urefsOverflow, s)
      else if (bits.urefs : Int) + delta = 0 then (.ok (), s.call .entryDealloc)
      else (.ok (), s.setBits (bits.add delta))
    if bits.type.sendRights then
      match ipcRightCheck port s with
      | (true, s) => if bits.compat then (.error .invalidName, s) else dead s
      | (false, s) => (.error .invalidRight, s)
    else if ¬ bits.type.deadName then (.error .invalidRight, s)
    else dead s
  | .send =>
    if ¬ bits.type.send then (.error .invalidRight, s)
    else if machPortUrefsUnderflow bits.urefs delta then (.error .invalidValue, s)
    else if machPortUrefsOverflow (bits.urefs + 1) delta then (.error .urefsOverflow, s)
    else
      match ipcRightCheck port s with
      | (true, s) => (if bits.compat then .error .invalidName else .error .invalidRight, s)
      | (false, s) =>
        if (bits.urefs : Int) + delta = 0 then
          if bits.type.receive then (.ok (), s.deallocSendReceive bits port)
          else (.ok (), s.deallocSend bits port name)
        else (.ok (), s.setBits (bits.add delta))

/-! ## Copyin -/

/-- What `ipc_right_copyin` returns: the object, and a send-once right for a port-deleted
notification. -/
abbrev Copyin := Except KernReturn (Nat × Nat)

/-- The label `copy_dead`. -/
def copyDead (deadok : Bool) (s : RightState) : Copyin × RightState :=
  if deadok then (.ok (ioDead, ipNull), s) else (.error .invalidRight, s)

/-- The label `move_dead`. -/
def moveDead (deadok : Bool) (s : RightState) : Copyin × RightState :=
  let bits := s.entry.ieBits
  if ¬ deadok then (.error .invalidRight, s)
  else if bits.urefs = 1 then
    (.ok (ioDead, ipNull), s.setBits { bits with type := { bits.type with deadName := false } })
  else (.ok (ioDead, ipNull), s.setBits (bits.add (-1)))

/-- The beginning that the copyin of send and of send-once rights have in common: see
whether the right is dead. -/
def copyinSendRight (dead live : RightState → Copyin × RightState) (s : RightState) :
    Copyin × RightState :=
  let bits := s.entry.ieBits
  if bits.type.deadName then dead s
  else if ¬ bits.type.sendRights then (.error .invalidRight, s)
  else
    match ipcRightCheck s.entry.ieObject s with
    | (true, s) => if bits.compat then (.error .invalidName, s) else dead s
    | (false, s) => live s

/-- `ipc_right_copyin`. -/
def ipcRightCopyin (msgtName : MachMsgTypeName) (deadok : Bool) (s : RightState) :
    Copyin × RightState :=
  let bits := s.entry.ieBits
  let port := s.entry.ieObject
  match msgtName with
  | .makeSend =>
    if ¬ bits.type.receive then (.error .invalidRight, s)
    else (.ok (port, ipNull), { s with ports := ipcPortMakeSend s.ports port })
  | .makeSendOnce =>
    if ¬ bits.type.receive then (.error .invalidRight, s)
    else (.ok (port, ipNull), { s with ports := ipcPortMakeSonce s.ports port })
  | .moveReceive =>
    if ¬ bits.type.receive then (.error .invalidRight, s)
    else
      let (dnrequest, s) :=
        if bits.type.send then
          (ipNull, (s.call (.hashInsert port)).onPort port IpcPort.reference)
        else
          let (dnrequest, s) := ipcRightDncancel port s
          (dnrequest, (s.cancelMarequest bits).setObject ioNull)
      let s := s.setBits { bits with type := { bits.type with receive := false } }
      (.ok (port, dnrequest), s.onPort port fun p => p.clearReceiver.toLimbo)
  | .copySend =>
    copyinSendRight (copyDead deadok) (fun s =>
      if ¬ bits.type.send then (.error .invalidRight, s)
      else
        (.ok (port, ipNull), s.onPort port fun p => (p.addSend 1).reference)) s
  | .moveSend =>
    copyinSendRight (moveDead deadok) (fun s =>
      if ¬ bits.type.send then (.error .invalidRight, s)
      else if bits.urefs = 1 then
        let (dnrequest, s) :=
          if bits.type.receive then (ipNull, s.onPort port IpcPort.reference)
          else
            let (dnrequest, s) := ipcRightDncancel port s
            (dnrequest,
              ((s.call (.hashDelete port)).cancelMarequest bits).setObject ioNull)
        (.ok (port, dnrequest),
          s.setBits { bits with urefs := 0, type := { bits.type with send := false } })
      else
        (.ok (port, ipNull),
          (s.onPort port fun p => (p.addSend 1).reference).setBits (bits.add (-1)))) s
  | .moveSendOnce =>
    copyinSendRight (moveDead deadok) (fun s =>
      if ¬ bits.type.sendOnce then (.error .invalidRight, s)
      else
        let (dnrequest, s) := ipcRightDncancel port s
        (.ok (port, dnrequest),
          (s.setObject ioNull).setBits
            { bits with type := { bits.type with sendOnce := false } })) s

/-- `ipc_right_copyin_undo`. -/
def ipcRightCopyinUndo (msgtName : MachMsgTypeName) (object soright : Nat) (s : RightState) :
    RightState :=
  let bits := s.entry.ieBits
  let deadName (urefs : Nat) : IeBits :=
    { bits.clearRight with type := machPortTypeDeadName, urefs := urefs }
  let s :=
    if soright ≠ ipNull then s.setBits (deadName 2)
    else if bits.type = machPortTypeNone then s.setBits (deadName 1)
    else if bits.type = machPortTypeDeadName then
      if msgtName ≠ .copySend then s.setBits (bits.add 1) else s
    else
      let s := if msgtName ≠ .copySend then s.setBits (bits.add 1) else s
      (ipcRightCheck object s).2
  if object ≠ ioDead then s.onPort object IpcPort.release else s

/-- `ipc_right_copyin_two`. -/
def ipcRightCopyinTwo (s : RightState) : Copyin × RightState :=
  let bits := s.entry.ieBits
  let port := s.entry.ieObject
  if ¬ bits.type.send then (.error .invalidRight, s)
  else if bits.urefs < 2 then (.error .invalidRight, s)
  else
    match ipcRightCheck port s with
    | (true, s) => (if bits.compat then .error .invalidName else .error .invalidRight, s)
    | (false, s) =>
      if bits.urefs = 2 then
        let (dnrequest, s) :=
          if bits.type.receive then
            (ipNull, s.onPort port fun p => (p.addSend 1).reference.reference)
          else
            let (dnrequest, s) := ipcRightDncancel port s
            let s := (s.call (.hashDelete port)).cancelMarequest bits
            (dnrequest,
              (s.onPort port fun p => (p.addSend 1).reference).setObject ioNull)
        (.ok (port, dnrequest),
          s.setBits { bits with urefs := 0, type := { bits.type with send := false } })
      else
        (.ok (port, ipNull),
          (s.onPort port fun p => (p.addSend 2).reference.reference).setBits (bits.add (-2)))

/-! ## Copyout -/

/-- `ipc_right_copyout`.  The object is already in the entry. -/
def ipcRightCopyout (space name : Nat) (msgtName : MachMsgTypePort) (overflow : Bool)
    (s : RightState) : Except KernReturn Unit × RightState :=
  let bits := s.entry.ieBits
  let port := s.entry.ieObject
  match msgtName with
  | .portSendOnce =>
    (.ok (), s.setBits
      { bits with urefs := bits.urefs ||| 1, type := { bits.type with sendOnce := true } })
  | .portSend =>
    let bits' := { bits with type := { bits.type with send := true } }.add 1
    let merge (p : IpcPort) : IpcPort := p.subSend.release
    if bits.type.send then
      if bits.urefs + 1 = machPortUrefsMax then
        if overflow then (.ok (), s.onPort port merge) else (.error .urefsOverflow, s)
      else (.ok (), (s.onPort port merge).setBits bits')
    else if bits.type.receive then (.ok (), (s.onPort port IpcPort.release).setBits bits')
    else (.ok (), (s.call (.hashInsert port)).setBits bits')
  | .portReceive =>
    let dest := (s.ports.port port).ipDestination
    let s := s.onPort port fun p => p.toSpace space name
    let s :=
      if bits.type.send then (s.onPort port IpcPort.release).call (.hashDelete port) else s
    let s := s.setBits { bits with type := { bits.type with receive := true } }
    (.ok (), if dest ≠ ipNull then s.onPort dest IpcPort.release else s)

/-! ## The old interface -/

/-- `ipc_right_copyin_compat`. -/
def ipcRightCopyinCompat (name : Nat) (msgtName : MsgTypePort) (dealloc : Bool)
    (s : RightState) : Except KernReturn Nat × RightState :=
  let bits := s.entry.ieBits
  let port := s.entry.ieObject
  match msgtName, dealloc with
  | .port, true =>
    if bits.type ≠ machPortTypeSend then (.error .invalidRight, s)
    else
      match ipcRightCheck port s with
      | (true, s) => (if bits.compat then .error .invalidName else .error .invalidRight, s)
      | (false, s) =>
        let (dnrequest, s) := ipcRightDncancel port s
        (.ok port, (s.cancelMarequest bits).dealloc.notifyDeleted dnrequest name)
  | .port, false =>
    if ¬ bits.type.sendReceive then (.error .invalidRight, s)
    else
      match ipcRightCheck port s with
      | (true, s) => (if bits.compat then .error .invalidName else .error .invalidRight, s)
      | (false, s) =>
        (.ok port, s.onPort port fun p =>
          ((if bits.type.send then p else p.countMake).addSend 1).reference)
  | .portAll, true =>
    if ¬ bits.type.receive then (.error .invalidRight, s)
    else
      let (dnrequest, s) := ipcRightDncancel port s
      let s := (s.cancelMarequest bits).dealloc
      let (nsrequest, s) := if bits.type.send then s.dropSend port else (none, s)
      let s := s.onPort port fun p => p.clearReceiver.toLimbo
      (.ok port, (s.notifyNoSenders nsrequest).notifyDeleted dnrequest name)
  | .portAll, false =>
    if ¬ bits.type.receive then (.error .invalidRight, s)
    else
      let s' :=
        if bits.type.send then s
        else s.onPort port fun p => p.addSend 1
      let bits' : IeBits :=
        if bits.type.send then bits
        else { bits with urefs := bits.urefs ||| 1, type := { bits.type with send := true } }
      let s' := s'.call (.hashInsert port)
      let s' := s'.setBits { bits' with type := { bits'.type with receive := false } }
      (.ok port, s'.onPort port fun p => p.clearReceiver.toLimbo.reference)

/-- `ipc_space_make_notify`. -/
def ipcSpaceMakeNotify (isNotify : Nat) (s : RightState) : Option Nat × RightState :=
  if isNotify = ipNull ∨ isNotify = ioDead then (none, s)
  else
    ((ipcPortCopySend s.ports isNotify).1,
      { s with ports := (ipcPortCopySend s.ports isNotify).2 })

/-- `ipc_right_copyin_header`, in a space with the notify port `isNotify`. -/
def ipcRightCopyinHeader (isNotify name : Nat) (s : RightState) :
    Except KernReturn (Nat × MachMsgTypePort) × RightState :=
  let bits := s.entry.ieBits
  let port := s.entry.ieObject
  if bits.type = machPortTypePortSet ∨ bits.type = machPortTypeDeadName then
    (.error .invalidRight, s)
  else if bits.type = machPortTypeReceive then
    (.ok (port, .portSend), { s with ports := ipcPortMakeSend s.ports port })
  else if bits.type = machPortTypeSend ∨ bits.type = machPortTypeSendReceive then
    match ipcRightCheck port s with
    | (true, s) => (if bits.compat then .error .invalidName else .error .invalidRight, s)
    | (false, s) =>
      (.ok (port, .portSend), s.onPort port fun p => (p.addSend 1).reference)
  else
    match ipcRightCheck port s with
    | (true, s) => (if bits.compat then .error .invalidName else .error .invalidRight, s)
    | (false, s) =>
      let (dnrequest, s) := ipcRightDncancel port s
      let (notify, s) := ipcSpaceMakeNotify isNotify s.dealloc
      let s := s.notifyDeleted dnrequest name
      (.ok (port, .portSendOnce),
        match notify with
        | some notify => s.call (.notifyPortDeletedCompat notify name)
        | none => s)

end Mach
