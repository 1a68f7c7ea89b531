import Mach.Ipc.Object

/-!
# The ports in the header of a message

`ipc_kmsg_copyin_header` takes the rights for the destination and the reply port of a message
out of a space.  It starts with three common cases, in which it looks at the table of the
space itself and leaves everything unusual to the general path (`copyinHeaderFast`).  Where
one of them completes, the general path would have done the same (`copyinHeaderFast_eq`).

The general path keeps the space locked, but not the ports.  At the points where it has no
port locked, others may change them.  What they do is an argument (`env`), for each of these
points.  As in `ipc_object_copyin`, what is read through a pointer to a tree entry that has
been given back is an argument as well (`stale`), and `none` is a use of such memory, or of a
variable that has not been set.
-/

namespace Mach

open Function Option IpcSpace

/-! ## Headers -/

/-- `mach_msg_return_t`, the codes of sending other than `MACH_MSG_SUCCESS`. -/
inductive MachMsgReturn where
  | sendInvalidHeader
  | sendInvalidNotify
  | sendInvalidDest
  | sendInvalidReply
  | sendInvalidMemory
  | sendInvalidRight
  | sendInvalidType
  | sendMsgTooSmall
deriving Repr, DecidableEq

/-- `mach_msg_bits_t`, as the fields of the word. -/
structure MachMsgBits where
  /-- `MACH_MSGH_BITS_REMOTE`. -/
  remote : Nat
  /-- `MACH_MSGH_BITS_LOCAL`. -/
  reply : Nat
  /-- `MACH_MSGH_BITS_CIRCULAR`. -/
  circular : Bool
  /-- The rest of `MACH_MSGH_BITS_OTHER`. -/
  other : Nat
deriving Repr, DecidableEq

/-- `mach_msg_header_t`, the fields for the ports. -/
structure MachMsgHeader where
  msghBits : MachMsgBits
  msghRemotePort : Nat
  msghLocalPort : Nat
deriving Repr, DecidableEq

/-- `MACH_MSGH_BITS_OTHER (mbits) | MACH_MSGH_BITS (remote, local)`, where `mbits` is without
`MACH_MSGH_BITS_CIRCULAR`. -/
def MachMsgBits.withPorts (bits : MachMsgBits) (remote reply : Nat) : MachMsgBits :=
  { bits with remote := remote, reply := reply, circular := false }

/-- The number of a type name. -/
def MachMsgTypeName.code : MachMsgTypeName → Nat
  | .moveReceive => 16
  | .moveSend => 17
  | .moveSendOnce => 18
  | .copySend => 19
  | .makeSend => 20
  | .makeSendOnce => 21

/-- `MACH_MSG_TYPE_PORT_ANY_SEND`, with the type name. -/
def machMsgTypePortAnySend : Nat → Option MachMsgTypeName
  | 17 => some .moveSend
  | 18 => some .moveSendOnce
  | 19 => some .copySend
  | 20 => some .makeSend
  | 21 => some .makeSendOnce
  | _ => none

/-- The number of a type name that a message carries. -/
def MachMsgTypePort.code : MachMsgTypePort → Nat
  | .portReceive => 16
  | .portSend => 17
  | .portSendOnce => 18

/-- `ipc_object_copyin_type`. -/
def ipcObjectCopyinType : MachMsgTypeName → MachMsgTypePort
  | .moveReceive => .portReceive
  | .moveSendOnce => .portSendOnce
  | .makeSendOnce => .portSendOnce
  | .moveSend => .portSend
  | .makeSend => .portSend
  | .copySend => .portSend

/-! ## The common cases -/

/-- The optimized `ipc_entry_lookup`: the slot of a name, if it has the generation number of
the name. -/
def IpcSpace.slotOf (s : IpcSpace) (name : Nat) : Option IpcEntry :=
  if machPortIndex name < s.isTableSize ∧
      (s.isTable (machPortIndex name)).ieBits.gen = machPortGen name then
    some (s.isTable (machPortIndex name))
  else none

/-- Sending an asynchronous message. -/
def copyinAsync (msg : MachMsgHeader) (x : IpcState) : Option (MachMsgHeader × IpcState) :=
  if msg.msghLocalPort ≠ machPortNull then none
  else if ¬ x.space.isActive then none
  else
    (x.space.slotOf msg.msghRemotePort).bind fun entry =>
      let destPort := entry.ieObject
      if ¬ entry.ieBits.type.send then none
      else if ¬ (x.ports.port destPort).ipActive then none
      else
        some ({ msg with
            msghBits := msg.msghBits.withPorts MachMsgTypePort.portSend.code 0
            msghRemotePort := destPort },
          { x with ports := x.ports.modify destPort fun p => (p.addSend 1).reference })

/-- Sending a request message.  `lockTry` says whether the lock of the reply port is free. -/
def copyinRequest (lockTry : Bool) (msg : MachMsgHeader) (x : IpcState) :
    Option (MachMsgHeader × IpcState) :=
  if ¬ x.space.isActive then none
  else
    (x.space.slotOf msg.msghRemotePort).bind fun entry =>
    (x.space.slotOf msg.msghLocalPort).bind fun entry' =>
      let destPort := entry.ieObject
      let replyPort := entry'.ieObject
      if ¬ entry.ieBits.type.send then none
      else if ¬ entry'.ieBits.type.receive then none
      else if ¬ (x.ports.port destPort).ipActive ∨ ¬ lockTry then none
      else
        let ports := x.ports.modify destPort fun p => (p.addSend 1).reference
        some (⟨msg.msghBits.withPorts MachMsgTypePort.portSend.code
            MachMsgTypePort.portSendOnce.code, destPort, replyPort⟩,
          { x with ports := ports.modify replyPort fun p => p.addSendOnce.reference })

/-- The optimized `ipc_entry_dealloc`. -/
def IpcSpace.pushFree (s : IpcSpace) (index gen : Nat) : IpcSpace :=
  let table := update s.isTable index ⟨.ofGen gen, ioNull, (s.isTable 0).ieNext⟩
  { s with isTable := update table 0 { table 0 with ieRequest := index } }

/-- Sending a reply message. -/
def copyinReply (msg : MachMsgHeader) (x : IpcState) : Option (MachMsgHeader × IpcState) :=
  if msg.msghLocalPort ≠ machPortNull then none
  else if ¬ x.space.isActive then none
  else
    (x.space.slotOf msg.msghRemotePort).bind fun entry =>
      let destPort := entry.ieObject
      if entry.ieBits.collision ∨ ¬ entry.ieBits.type.sendOnce then none
      else if entry.ieRequest ≠ 0 then none
      else if ¬ (x.ports.port destPort).ipActive then none
      else
        some ({ msg with
            msghBits := msg.msghBits.withPorts MachMsgTypePort.portSendOnce.code 0
            msghRemotePort := destPort },
          { x with
              space := x.space.pushFree (machPortIndex msg.msghRemotePort)
                (machPortGen msg.msghRemotePort) })

/-- The common cases of `ipc_kmsg_copyin_header`. -/
def copyinHeaderFast (lockTry : Bool) (msg : MachMsgHeader) (x : IpcState) :
    Option (MachMsgHeader × IpcState) :=
  let remote := msg.msghBits.remote
  let reply := msg.msghBits.reply
  if remote = MachMsgTypeName.copySend.code ∧ reply = 0 then copyinAsync msg x
  else if remote = MachMsgTypeName.copySend.code ∧ reply = MachMsgTypeName.makeSendOnce.code then
    copyinRequest lockTry msg x
  else if remote = MachMsgTypeName.moveSendOnce.code ∧ reply = 0 then copyinReply msg x
  else none

/-! ## The general path -/

/-- `ipc_right_copyin_check`. -/
def ipcRightCopyinCheck (msgtName : MachMsgTypeName) (P : IpcPorts) (entry : IpcEntry) : Bool :=
  let bits := entry.ieBits
  let active := (P.port entry.ieObject).ipActive
  match msgtName with
  | .makeSend => bits.type.receive
  | .makeSendOnce => bits.type.receive
  | .moveReceive => bits.type.receive
  | _ =>
    if bits.type.deadName then true
    else if ¬ bits.type.sendRights then false
    else if ¬ active then ¬ bits.compat
    else if msgtName = .moveSendOnce then bits.type.sendOnce
    else bits.type.send

/-- What has been copied in. -/
structure HeaderPorts where
  destPort : Nat
  replyPort : Nat
  destSoright : Nat
  replySoright : Nat
deriving Repr, DecidableEq

namespace IpcState

/-- `ipc_entry_lookup`. -/
def lookup (name : Nat) (x : IpcState) : Option EntryRef × IpcState :=
  match ipcEntryLookup x.space name with
  | (entry, s) => (entry, { x with space := s })

/-- What other threads do to the ports. -/
def others (env : Nat → IpcPorts → IpcPorts) (i : Nat) (x : IpcState) : IpcState :=
  { x with ports := env i x.ports }

/-- `ipc_right_copyin`. -/
def copyin (its : IpcTableSizes) (name : Nat) (entry : EntryRef) (msgtName : MachMsgTypeName)
    (deadok : Bool) (x : IpcState) : Option (Copyin × IpcState) :=
  x.act its name entry (ipcRightCopyin msgtName deadok)

/-- `ipc_right_copyin_undo`. -/
def copyinUndo (its : IpcTableSizes) (name : Nat) (entry : EntryRef) (msgtName : MachMsgTypeName)
    (object soright : Nat) (x : IpcState) : Option IpcState :=
  (x.act its name entry fun s => ((), ipcRightCopyinUndo msgtName object soright s)).map Prod.snd

/-- `ipc_port_copy_send`, of a valid right. -/
def copySend (port : Nat) (x : IpcState) : Nat × IpcState :=
  match ipcPortCopySend x.ports port with
  | (some port, P) => (port, { x with ports := P })
  | (none, P) => (ioDead, { x with ports := P })

/-- Change a port. -/
def onPort (port : Nat) (f : IpcPort → IpcPort) (x : IpcState) : IpcState :=
  { x with ports := x.ports.modify port f }

/-- `ipc_port_reference`, unless there is no port. -/
def hold (port : Nat) (x : IpcState) : IpcState :=
  if port ≠ ipNull then x.onPort port IpcPort.reference else x

/-- `ipc_port_release`, unless there is no port. -/
def letGo (port : Nat) (x : IpcState) : IpcState :=
  if port ≠ ipNull then x.onPort port IpcPort.release else x

end IpcState

open IpcState

/-- The type name asks to make a right, so that it needs the receive right. -/
def MachMsgTypeName.makes : MachMsgTypeName → Bool
  | .makeSend => true
  | .makeSendOnce => true
  | _ => false

section General

variable (its : IpcTableSizes) (env : Nat → IpcPorts → IpcPorts) (stale : IeBits)

/-- The case that both names are the same. -/
def copyinHeaderSame (name : Nat) (destType : MachMsgTypeName) (replyType : Option MachMsgTypeName)
    (x : IpcState) : Option (Except MachMsgReturn HeaderPorts × IpcState) :=
  match x.lookup name, replyType with
  | (none, x), _ => some (.error .sendInvalidDest, x)
  | (some _, _), none => none
  | (some entry, x), some replyType =>
    (x.space.deref entry).bind fun e =>
    if ¬ ipcRightCopyinCheck replyType x.ports e then some (.error .sendInvalidReply, x)
    else if destType = .moveSendOnce ∨ replyType = .moveSendOnce then
      some (.error .sendInvalidDest, x)
    else if destType.makes ∨ replyType.makes then
      ((x.others env 0).copyin its name entry destType false).bind fun
        | (.error _, x) => some (.error .sendInvalidDest, x)
        | (.ok (destPort, destSoright), x) =>
          ((x.others env 1).copyin its name entry replyType true).bind fun
            | (.error _, _) => none
            | (.ok (replyPort, replySoright), x) =>
              some (.ok ⟨destPort, replyPort, destSoright, replySoright⟩, x)
    else if destType = .copySend ∧ replyType = .copySend then
      -- do one copy-send, and dup the send right we get out
      ((x.others env 0).copyin its name entry destType false).bind fun
        | (.error _, x) => some (.error .sendInvalidDest, x)
        | (.ok (destPort, destSoright), x) =>
          let (replyPort, x) := (x.others env 1).copySend destPort
          some (.ok ⟨destPort, replyPort, destSoright, ipNull⟩, x)
    else if destType = .moveSend ∧ replyType = .moveSend then
      ((x.others env 0).act its name entry ipcRightCopyinTwo).bind fun
        | (.error _, x) => some (.error .sendInvalidDest, x)
        | (.ok (destPort, destSoright), x) =>
          (x.deallocIfNone its stale name entry).map fun x =>
            (.ok ⟨destPort, destPort, destSoright, ipNull⟩, x)
    else
      -- do a move-send, and dup the send right we get out
      ((x.others env 0).copyin its name entry .moveSend false).bind fun
        | (.error _, x) => some (.error .sendInvalidDest, x)
        | (.ok (destPort, soright), x) =>
          (x.deallocIfNone its stale name entry).map fun x =>
            let (replyPort, x) := (x.others env 1).copySend destPort
            (.ok (if destType = .moveSend then ⟨destPort, replyPort, soright, ipNull⟩
              else ⟨destPort, replyPort, ipNull, soright⟩), x)

/-- The case of a destination without a reply port. -/
def copyinHeaderDest (destName replyName : Nat) (destType : MachMsgTypeName) (x : IpcState) :
    Option (Except MachMsgReturn HeaderPorts × IpcState) :=
  match x.lookup destName with
  | (none, x) => some (.error .sendInvalidDest, x)
  | (some entry, x) =>
    ((x.others env 0).copyin its destName entry destType false).bind fun
      | (.error _, x) => some (.error .sendInvalidDest, x)
      | (.ok (destPort, destSoright), x) =>
        (x.deallocIfNone its stale destName entry).map fun x =>
          (.ok ⟨destPort, replyName, destSoright, ipNull⟩, x)

/-- `IP_TIMESTAMP_ORDER`: the first time is earlier, the difference being a signed word. -/
def ipTimestampOrder (one two : Nat) : Bool := 2 ^ 31 ≤ (one + (2 ^ 32 - two % 2 ^ 32)) % 2 ^ 32

/-- The destination has died before the reply port, which was dead when it was copied in. -/
def mustUndo (dest savedReply : Nat) (x : IpcState) : Bool × IpcState :=
  let timestamp := (x.ports.port savedReply).ipTimestamp
  let x := x.others env 3
  let p := x.ports.port dest
  (¬ p.ipActive && ipTimestampOrder p.ipTimestamp timestamp, x)

/-- Deallocate the entry of the destination if nothing is left in it, and release the
reference to the reply port. -/
def copyinHeaderDone (destName : Nat) (destEntry : EntryRef) (savedReply : Nat)
    (ports : HeaderPorts)
    (x : IpcState) : Option (Except MachMsgReturn HeaderPorts × IpcState) :=
  (x.deallocIfNone its stale destName destEntry).map fun x =>
    (.ok ports, x.letGo savedReply)

/-- The end of the tough case, once both ports have been copied in. -/
def copyinHeaderCheck (destName replyName : Nat) (destType replyType : MachMsgTypeName)
    (destEntry replyEntry : EntryRef) (savedReply : Nat) (ports : HeaderPorts) (x : IpcState) :
    Option (Except MachMsgReturn HeaderPorts × IpcState) :=
  let (undo, x) :=
    if savedReply ≠ ipNull ∧ ports.replyPort = ioDead then
      mustUndo env ports.destPort savedReply (x.others env 2)
    else (false, x)
  if undo then
    ((x.others env 4).copyinUndo its destName destEntry destType ports.destPort
      ports.destSoright).bind fun x =>
    ((x.others env 5).copyinUndo its replyName replyEntry replyType ports.replyPort
      ports.replySoright).map fun x =>
        let x :=
          if ports.destSoright ≠ ipNull then
            { x with calls := x.calls ++ [.notifyDeadName ports.destSoright destName] }
          else x
        (.error .sendInvalidDest, x.onPort savedReply IpcPort.release)
  else
    (x.deallocIfNone its stale replyName replyEntry).bind
      (copyinHeaderDone its stale destName destEntry savedReply ports)

/-- The destination and the reply port are different names. -/
def copyinHeaderBoth (destName replyName : Nat) (destType : MachMsgTypeName)
    (replyType : Option MachMsgTypeName) (x : IpcState) :
    Option (Except MachMsgReturn HeaderPorts × IpcState) :=
  match x.lookup destName with
  | (none, x) => some (.error .sendInvalidDest, x)
  | (some destEntry, x) =>
  match x.lookup replyName, replyType with
  | (none, x), _ => some (.error .sendInvalidReply, x)
  | (some _, _), none => none
  | (some replyEntry, x), some replyType =>
    (x.space.deref replyEntry).bind fun e =>
    if ¬ ipcRightCopyinCheck replyType x.ports e then some (.error .sendInvalidReply, x)
    else
      ((x.others env 0).copyin its destName destEntry destType false).bind fun
        | (.error _, x) => some (.error .sendInvalidDest, x)
        | (.ok (destPort, destSoright), x) =>
          (x.space.deref replyEntry).bind fun e =>
          let savedReply := e.ieObject
          (((x.hold savedReply).others env 1).copyin its replyName replyEntry
            replyType true).bind fun
            | (.error _, x) =>
              -- the port of an old-style entry has died after the check
              copyinHeaderDone its stale destName destEntry savedReply
                ⟨destPort, ioDead, destSoright, ipNull⟩ x
            | (.ok (replyPort, replySoright), x) =>
              copyinHeaderCheck its env stale destName replyName destType replyType destEntry
                replyEntry savedReply ⟨destPort, replyPort, destSoright, replySoright⟩ x

/-- The end of `ipc_kmsg_copyin_header`: the check for `MACH_SEND_CANCEL`, the notifications
and the new header. -/
def copyinHeaderFinish (msg : MachMsgHeader) (notifyPort : Option Nat) (destType : MachMsgTypeName)
    (replyType : Option MachMsgTypeName) (ports : HeaderPorts) (x : IpcState) :
    MachMsgHeader × IpcState :=
  let (destSoright, x) :=
    if notifyPort = some ports.destSoright then
      (ipNull, { x with ports := ipcPortReleaseSonce x.ports ports.destSoright })
    else (ports.destSoright, x)
  let x := x.notifyDeleted destSoright msg.msghRemotePort
  let x := x.notifyDeleted ports.replySoright msg.msghLocalPort
  (⟨msg.msghBits.withPorts (ipcObjectCopyinType destType).code
      (replyType.elim 0 fun replyType => (ipcObjectCopyinType replyType).code),
    ports.destPort, ports.replyPort⟩, x)

/-- Copy in both ports, in the general path. -/
def copyinHeaderPorts (msg : MachMsgHeader) (destType : MachMsgTypeName)
    (replyType : Option MachMsgTypeName) (x : IpcState) :
    Option (Except MachMsgReturn HeaderPorts × IpcState) :=
  let destName := msg.msghRemotePort
  let replyName := msg.msghLocalPort
  if destName = replyName then copyinHeaderSame its env stale destName destType replyType x
  else if replyName = machPortNull ∨ replyName = machPortDead then
    copyinHeaderDest its env stale destName replyName destType x
  else copyinHeaderBoth its env stale destName replyName destType replyType x

/-- The port of `notify`, which has to name a receive right. -/
def copyinHeaderNotify (notify : Nat) (x : IpcState) :
    Option (Except MachMsgReturn (Option Nat) × IpcState) :=
  if notify = machPortNull then some (.ok none, x)
  else
    match x.lookup notify with
    | (none, x) => some (.error .sendInvalidNotify, x)
    | (some entry, x) =>
      (x.space.deref entry).map fun e =>
        if e.ieBits.type.receive then (.ok (some e.ieObject), x)
        else (.error .sendInvalidNotify, x)

/-- A reply port without a type name, or a strange type name for the reply port. -/
def strangeReply (reply replyName : Nat) : Bool :=
  if reply = 0 then replyName ≠ machPortNull else (machMsgTypePortAnySend reply).isNone

/-- The general path of `ipc_kmsg_copyin_header`, for the type names of the header. -/
def copyinHeaderTyped (notify : Nat) (msg : MachMsgHeader) (destType : MachMsgTypeName)
    (replyType : Option MachMsgTypeName) (x : IpcState) :
    Option (Except MachMsgReturn MachMsgHeader × IpcState) :=
  if ¬ x.space.isActive then some (.error .sendInvalidDest, x)
  else
    (copyinHeaderNotify notify x).bind fun
      | (.error mr, x) => some (.error mr, x)
      | (.ok notifyPort, x) =>
        (copyinHeaderPorts its env stale msg destType replyType x).map fun
          | (.error mr, x) => (.error mr, x)
          | (.ok ports, x) =>
            match copyinHeaderFinish msg notifyPort destType replyType ports x with
            | (msg, x) => (.ok msg, x)

/-- The general path of `ipc_kmsg_copyin_header`. -/
def copyinHeaderGeneral (notify : Nat) (msg : MachMsgHeader) (x : IpcState) :
    Option (Except MachMsgReturn MachMsgHeader × IpcState) :=
  let replyType := machMsgTypePortAnySend msg.msghBits.reply
  match machMsgTypePortAnySend msg.msghBits.remote with
  | none => some (.error .sendInvalidHeader, x)
  | some destType =>
    if strangeReply msg.msghBits.reply msg.msghLocalPort then some (.error .sendInvalidHeader, x)
    else copyinHeaderTyped its env stale notify msg destType replyType x

end General

/-! ## The common cases are exact -/

theorem IpcSpace.write_self (s : IpcSpace) (index : Nat) :
    s.write (.table index) (s.isTable index) = s := by
  have hentry : (s.isTable index).withRight (s.isTable index) = s.isTable index := rfl
  simp only [write, deref, store, hentry, update_eq_self]

variable {name : Nat} {e : IpcEntry}

theorem IpcSpace.slotOf_eq_some {s : IpcSpace} :
    s.slotOf name = some e ↔ machPortIndex name < s.isTableSize ∧
      (s.isTable (machPortIndex name)).ieBits.gen = machPortGen name ∧
      s.isTable (machPortIndex name) = e := by
  rw [slotOf]
  split
  · rename_i h
    simp [h]
  · rename_i h
    simp only [reduceCtorEq, false_iff]
    exact fun ⟨h₁, h₂, _⟩ => h ⟨h₁, h₂⟩

theorem IpcState.lookup_of_slotOf {x : IpcState}
    (h : x.space.slotOf name = some e) (htype : e.ieBits.type ≠ machPortTypeNone) :
    x.lookup name = (some (.table (machPortIndex name)), x) := by
  obtain ⟨hlt, hgen, rfl⟩ := slotOf_eq_some.mp h
  rw [lookup, ipcEntryLookup, if_pos hlt, if_neg (not_not.mpr hgen), if_neg htype]

section Copyin

variable {its : IpcTableSizes} {x : IpcState} {index name : Nat}

theorem IpcState.act_of_same {α : Type} {f : RightState → α × RightState} {r : α} {P : IpcPorts}
    (h : f ⟨x.space.isTable index, x.ports, []⟩ = (r, ⟨x.space.isTable index, P, []⟩)) :
    x.act its name (.table index) f = some (r, { x with ports := P }) := by
  rw [act]
  simp only [deref, bind_some, h, write_self]
  rfl

variable (deadok : Bool)

theorem IpcState.copyin_copySend (hsend : (x.space.isTable index).ieBits.type.send = true)
    (hdead : (x.space.isTable index).ieBits.type.deadName = false)
    (hactive : (x.ports.port (x.space.isTable index).ieObject).ipActive = true) :
    x.copyin its name (.table index) .copySend deadok =
      some (.ok ((x.space.isTable index).ieObject, ipNull),
        x.onPort (x.space.isTable index).ieObject fun p => (p.addSend 1).reference) := by
  refine act_of_same ?_
  have hright : (x.space.isTable index).ieBits.type.sendRights = true := by
    simp [hsend]
  simp only [ipcRightCopyin, copyinSendRight, hdead, hright, Bool.false_eq_true, if_false,
    not_true_eq_false, hsend,
    ipcRightCheck_active (s := ⟨x.space.isTable index, x.ports, []⟩) hactive]
  rfl

theorem IpcState.copyin_makeSendOnce
    (hreceive : (x.space.isTable index).ieBits.type.receive = true) :
    x.copyin its name (.table index) .makeSendOnce deadok =
      some (.ok ((x.space.isTable index).ieObject, ipNull),
        x.onPort (x.space.isTable index).ieObject fun p => p.addSendOnce.reference) := by
  refine act_of_same ?_
  simp only [ipcRightCopyin, hreceive]
  rfl

theorem IpcState.deallocIfNone_of_type {stale : IeBits}
    (h : (x.space.isTable index).ieBits.type ≠ machPortTypeNone) :
    x.deallocIfNone its stale name (.table index) = some x := by
  rw [deallocIfNone, if_neg]
  exact h

end Copyin

/-- Nobody else does anything to the ports. -/
def noOthers (_ : Nat) (P : IpcPorts) : IpcPorts := P

@[simp] theorem IpcState.others_noOthers (i : Nat) (x : IpcState) : x.others noOthers i = x := rfl

/-- A space whose entries are as they should be. -/
structure IpcState.Sound (its : IpcTableSizes) (m : Nat → Option IpcEntry) (x : IpcState) : Prop
    where
  represents : x.space.Represents its m
  ok : ∀ name v, m name = some v → v.Ok
  object : ∀ name v, m name = some v → v.ieObject ≠ ioDead

section Fast

variable {its : IpcTableSizes} {m : Nat → Option IpcEntry} {x : IpcState}

variable {name : Nat} {e : IpcEntry} {stale : IeBits} {msg msg' : MachMsgHeader} {x' : IpcState}
  {env : Nat → IpcPorts → IpcPorts} {destType : MachMsgTypeName} {ports : HeaderPorts} {index : Nat}
  {v : IpcEntry} {destName replyName : Nat}

theorem IpcState.Sound.slotOf (hx : x.Sound its m)
    (h : x.space.slotOf name = some e) (htype : e.ieBits.type ≠ machPortTypeNone) :
    e.Ok ∧ e.ieObject ≠ ioDead ∧ name ≠ machPortNull ∧ name ≠ machPortDead := by
  obtain ⟨-, free, hrep⟩ := hx.represents
  obtain ⟨hlt, hgen, rfl⟩ := slotOf_eq_some.mp h
  have hsize := hrep.size_le
  have hname : name < 2 ^ 32 - 256 := by
    unfold machPortIndex at hlt
    omega
  have hslot := hrep.inSlot_of_type hlt htype
  rw [hgen, machPortMake_index_gen (by omega)] at hslot
  have hm := (hrep.maps name _).mp (.inl ⟨hslot, rfl⟩)
  have hobject := hx.object name _ hm
  refine ⟨(hx.ok name _ hm).congr rfl, hobject, ?_, ?_⟩
  · rintro rfl
    exact absurd hslot.1 (by decide)
  · rintro rfl
    exact absurd hname (by decide)

theorem IpcEntry.Ok.deadName_of_send (h : e.Ok)
    (hsend : e.ieBits.type.send = true) : e.ieBits.type.deadName = false :=
  h.not_deadName (by simp [hsend])

theorem type_ne_none (f : MachPortType → Bool) (h : f e.ieBits.type = true)
    (hnone : f machPortTypeNone = false) : e.ieBits.type ≠ machPortTypeNone := by
  intro htype
  rw [htype, hnone] at h
  cases h

/-- The general path, once the type names are known and there is no `notify`. -/
theorem copyinHeaderGeneral_eq {replyType : Option MachMsgTypeName}
    (hdest : machMsgTypePortAnySend msg.msghBits.remote = some destType)
    (hreply : machMsgTypePortAnySend msg.msghBits.reply = replyType)
    (hlegal : strangeReply msg.msghBits.reply msg.msghLocalPort = false)
    (hactive : x.space.isActive = true)
    (hports : copyinHeaderPorts its env stale msg destType replyType x = some (.ok ports, x')) :
    copyinHeaderGeneral its env stale machPortNull msg x =
      some (.ok (copyinHeaderFinish msg none destType replyType ports x').1,
        (copyinHeaderFinish msg none destType replyType ports x').2) := by
  have hnotify : copyinHeaderNotify machPortNull x = some (.ok none, x) := if_pos rfl
  have htyped : copyinHeaderTyped its env stale machPortNull msg destType replyType x =
      some (.ok (copyinHeaderFinish msg none destType replyType ports x').1,
        (copyinHeaderFinish msg none destType replyType ports x').2) := by
    rw [copyinHeaderTyped, if_neg (by rw [hactive]; simp), hnotify, bind_some]
    simp only
    rw [hports]
    rfl
  rw [copyinHeaderGeneral, hdest, hreply]
  simp only
  rw [if_neg (by rw [hlegal]; exact Bool.false_ne_true), htyped]

theorem copyinAsync_eq (hx : x.Sound its m)
    (hremote : msg.msghBits.remote = MachMsgTypeName.copySend.code)
    (hreply : msg.msghBits.reply = 0)
    (h : copyinAsync msg x = some (msg', x')) (stale : IeBits) :
    copyinHeaderGeneral its noOthers stale machPortNull msg x = some (.ok msg', x') ∧
      x'.calls = x.calls := by
  simp only [copyinAsync, ite_none_left_eq_some, bind_eq_some_iff, not_not] at h
  obtain ⟨hlocalPort, hactive, e, he, hsend, hport, rfl, rfl⟩ := h
  have htype := type_ne_none (·.send) hsend rfl
  obtain ⟨hok, -, hne, -⟩ := hx.slotOf he htype
  obtain ⟨-, -, rfl⟩ := slotOf_eq_some.mp he
  have hports : copyinHeaderPorts its noOthers stale msg .copySend none x =
      some (.ok ⟨(x.space.isTable (machPortIndex msg.msghRemotePort)).ieObject, msg.msghLocalPort,
          ipNull, ipNull⟩,
        x.onPort (x.space.isTable (machPortIndex msg.msghRemotePort)).ieObject
          fun p => (p.addSend 1).reference) := by
    rw [copyinHeaderPorts, if_neg (by rw [hlocalPort]; exact hne), if_pos (.inl hlocalPort),
      copyinHeaderDest, lookup_of_slotOf he htype]
    simp only [others_noOthers]
    rw [copyin_copySend false hsend (hok.deadName_of_send hsend) hport]
    simp only [bind_some]
    rw [deallocIfNone_of_type (x := x.onPort ..) htype]
    rfl
  refine ⟨?_, rfl⟩
  rw [copyinHeaderGeneral_eq (by rw [hremote]; rfl) (by rw [hreply]; rfl)
    (by rw [strangeReply, if_pos hreply, hlocalPort]; rfl) hactive hports]
  rfl

/-- A send-once right is moved out of a slot, and nothing is left in it. -/
theorem IpcState.copyin_moveSendOnce (deadok : Bool)
    (htype : (x.space.isTable index).ieBits.type = machPortTypeSendOnce)
    (hrequest : (x.space.isTable index).ieRequest = 0)
    (hactive : (x.ports.port (x.space.isTable index).ieObject).ipActive = true) :
    x.copyin its name (.table index) .moveSendOnce deadok =
      some (.ok ((x.space.isTable index).ieObject, ipNull),
        { x with
            space := x.space.write (.table index)
              { x.space.isTable index with
                  ieBits := { (x.space.isTable index).ieBits with type := machPortTypeNone }
                  ieObject := ioNull } }) := by
  have hcopyin : ipcRightCopyin .moveSendOnce deadok ⟨x.space.isTable index, x.ports, []⟩ =
      (.ok ((x.space.isTable index).ieObject, ipNull), ⟨{ x.space.isTable index with
            ieBits := { (x.space.isTable index).ieBits with type := machPortTypeNone }
            ieObject := ioNull }, x.ports, []⟩) := by
    have hcancel : ipcRightDncancel (x.space.isTable index).ieObject
        ⟨x.space.isTable index, x.ports, []⟩ = (ipNull, ⟨x.space.isTable index, x.ports, []⟩) :=
      if_pos hrequest
    simp only [ipcRightCopyin, copyinSendRight,
      ipcRightCheck_active (s := ⟨x.space.isTable index, x.ports, []⟩) hactive, hcancel, htype]
    rfl
  rw [copyin, act]
  simp only [deref, bind_some, hcopyin]
  rfl

/-- A slot that nothing is left in, and which no name of the tree waits for, goes to the free
list. -/
theorem IpcState.deallocIfNone_pushFree
    (hlt : machPortIndex name < x.space.isTableSize) (hindex : machPortIndex name ≠ 0)
    (htype : v.ieBits.type = machPortTypeNone) (hobject : v.ieObject = ioNull)
    (hcollision : (x.space.isTable (machPortIndex name)).ieBits.collision = false) :
    IpcState.deallocIfNone its stale name (.table (machPortIndex name))
        { x with space := x.space.write (.table (machPortIndex name)) v } =
      some { x with
        space := x.space.pushFree (machPortIndex name)
          (x.space.isTable (machPortIndex name)).ieBits.gen } := by
  have hentry := x.space.isTable_write_self (machPortIndex name) v
  have hnone : ((x.space.write (.table (machPortIndex name)) v).isTable
      (machPortIndex name)).ieBits.type = machPortTypeNone := by
    rw [hentry]
    exact htype
  have hoff : ((x.space.write (.table (machPortIndex name)) v).isTable
      (machPortIndex name)).ieBits.collision = false := by
    rw [hentry]
    exact hcollision
  have hhead : (x.space.write (.table (machPortIndex name)) v).isTable 0 = x.space.isTable 0 :=
    update_of_ne hindex.symm ..
  rw [deallocIfNone, if_pos (by exact hnone), entryDealloc, ipcEntryDealloc,
    if_pos ⟨hlt, rfl⟩, if_neg (by rw [hoff]; exact Bool.false_ne_true), freeSlot, hhead, hentry]
  simp only [write, deref, store, update_idem, pushFree, ← hobject]
  rfl

theorem copyinReply_eq (hx : x.Sound its m)
    (hremote : msg.msghBits.remote = MachMsgTypeName.moveSendOnce.code)
    (hreply : msg.msghBits.reply = 0) (h : copyinReply msg x = some (msg', x')) (stale : IeBits) :
    copyinHeaderGeneral its noOthers stale machPortNull msg x = some (.ok msg', x') ∧
      x'.calls = x.calls := by
  simp only [copyinReply, ite_none_left_eq_some, bind_eq_some_iff, not_not, not_or] at h
  obtain ⟨hlocalPort, hactive, e, he, ⟨hcollision, hsonce⟩, hrequest, hport, rfl, rfl⟩ := h
  have hne := type_ne_none (·.sendOnce) hsonce rfl
  obtain ⟨hok, -, hname, -⟩ := hx.slotOf he hne
  obtain ⟨hlt, hgen, rfl⟩ := slotOf_eq_some.mp he
  have htype := hok.of_sendOnce_type hsonce
  have hindex : machPortIndex msg.msghRemotePort ≠ 0 := by
    intro hzero
    obtain ⟨-, free, hrep⟩ := hx.represents
    rw [hzero] at hne
    exact hne hrep.head_type
  have hports : copyinHeaderPorts its noOthers stale msg .moveSendOnce none x =
      some (.ok ⟨(x.space.isTable (machPortIndex msg.msghRemotePort)).ieObject, msg.msghLocalPort,
          ipNull, ipNull⟩,
        { x with
            space := x.space.pushFree (machPortIndex msg.msghRemotePort)
              (machPortGen msg.msghRemotePort) }) := by
    rw [copyinHeaderPorts, if_neg (by rw [hlocalPort]; exact hname), if_pos (.inl hlocalPort),
      copyinHeaderDest, lookup_of_slotOf he hne]
    simp only [others_noOthers]
    rw [copyin_moveSendOnce false htype hrequest hport]
    simp only [bind_some]
    rw [deallocIfNone_pushFree hlt hindex rfl rfl (Bool.eq_false_iff.mpr hcollision), hgen]
    rfl
  refine ⟨?_, rfl⟩
  rw [copyinHeaderGeneral_eq (by rw [hremote]; rfl) (by rw [hreply]; rfl)
    (by rw [strangeReply, if_pos hreply, hlocalPort]; rfl) hactive hports]
  rfl

variable (port : Nat)

@[simp] theorem IpcState.space_hold (x : IpcState) : (x.hold port).space = x.space := by
  unfold hold
  split <;> rfl

/-- The reference that is held to the reply port meanwhile makes no difference. -/
theorem IpcState.letGo_onPort_hold (x : IpcState) :
    ((x.hold port).onPort port fun p => p.addSendOnce.reference).letGo port =
      x.onPort port fun p => p.addSendOnce.reference := by
  unfold hold letGo
  split
  · simp only [onPort, IpcPorts.modify, update_self, update_idem]
    rfl
  · rfl

/-- A request, the destination and the reply port being one name. -/
theorem copyinHeaderSame_request (stale : IeBits)
    (he : x.space.slotOf name = some e) (hok : e.Ok) (hsend : e.ieBits.type.send = true)
    (hreceive : e.ieBits.type.receive = true) (hport : (x.ports.port e.ieObject).ipActive = true) :
    copyinHeaderSame its noOthers stale name .copySend (some .makeSendOnce) x =
      some (.ok ⟨e.ieObject, e.ieObject, ipNull, ipNull⟩,
        (x.onPort e.ieObject fun p => (p.addSend 1).reference).onPort e.ieObject
          fun p => p.addSendOnce.reference) := by
  have htype := type_ne_none (·.send) hsend rfl
  unfold copyinHeaderSame
  rw [lookup_of_slotOf he htype]
  obtain ⟨-, -, rfl⟩ := slotOf_eq_some.mp he
  have hcheck : ipcRightCopyinCheck .makeSendOnce x.ports
      (x.space.isTable (machPortIndex name)) = true := hreceive
  simp only [deref, bind_some, hcheck, not_true_eq_false, if_false, others_noOthers]
  rw [if_neg (by decide), if_pos (by decide),
    copyin_copySend false hsend (hok.deadName_of_send hsend) hport, bind_some]
  simp only
  rw [copyin_makeSendOnce (x := x.onPort ..) true hreceive]
  rfl

/-- A request, the destination and the reply port being different names. -/
theorem copyinHeaderBoth_request {e' : IpcEntry} (stale : IeBits)
    (he : x.space.slotOf destName = some e) (he' : x.space.slotOf replyName = some e')
    (hok : e.Ok) (hobject : e'.ieObject ≠ ioDead) (hsend : e.ieBits.type.send = true)
    (hreceive : e'.ieBits.type.receive = true)
    (hport : (x.ports.port e.ieObject).ipActive = true) :
    copyinHeaderBoth its noOthers stale destName replyName .copySend (some .makeSendOnce) x =
      some (.ok ⟨e.ieObject, e'.ieObject, ipNull, ipNull⟩,
        (x.onPort e.ieObject fun p => (p.addSend 1).reference).onPort e'.ieObject
          fun p => p.addSendOnce.reference) := by
  have htype := type_ne_none (·.send) hsend rfl
  have htype' := type_ne_none (·.receive) hreceive rfl
  rw [copyinHeaderBoth, lookup_of_slotOf he htype]
  simp only
  rw [lookup_of_slotOf he' htype']
  obtain ⟨-, -, rfl⟩ := slotOf_eq_some.mp he
  obtain ⟨-, -, rfl⟩ := slotOf_eq_some.mp he'
  have hcheck : ipcRightCopyinCheck .makeSendOnce x.ports
      (x.space.isTable (machPortIndex replyName)) = true := hreceive
  simp only [deref, bind_some, hcheck, others_noOthers]
  rw [copyin_copySend false hsend (hok.deadName_of_send hsend) hport, bind_some]
  have hspace := space_hold (x.space.isTable (machPortIndex replyName)).ieObject
    (x.onPort (x.space.isTable (machPortIndex destName)).ieObject fun p => (p.addSend 1).reference)
  have hfinal := letGo_onPort_hold (x.space.isTable (machPortIndex replyName)).ieObject
    (x.onPort (x.space.isTable (machPortIndex destName)).ieObject fun p => (p.addSend 1).reference)
  simp only [onPort] at hspace hfinal ⊢
  generalize hold _ _ = y at hspace hfinal ⊢
  rw [← hspace] at hreceive htype htype' hobject hfinal ⊢
  rw [copyin_makeSendOnce true hreceive, bind_some]
  simp only
  simp only [copyinHeaderCheck, hobject, and_false, if_false]
  rw [if_neg Bool.false_ne_true, deallocIfNone_of_type (x := y.onPort ..) htype', bind_some,
    copyinHeaderDone,
    deallocIfNone_of_type (x := y.onPort ..) htype]
  exact congrArg (fun x => some (_, x)) hfinal

theorem copyinRequest_eq (hx : x.Sound its m) {lockTry : Bool}
    (hremote : msg.msghBits.remote = MachMsgTypeName.copySend.code)
    (hreply : msg.msghBits.reply = MachMsgTypeName.makeSendOnce.code)
    (h : copyinRequest lockTry msg x = some (msg', x')) (stale : IeBits) :
    copyinHeaderGeneral its noOthers stale machPortNull msg x = some (.ok msg', x') ∧
      x'.calls = x.calls := by
  simp only [copyinRequest, ite_none_left_eq_some, bind_eq_some_iff, not_not, not_or] at h
  obtain ⟨hactive, e, he, e', he', hsend, hreceive, ⟨hport, -⟩, rfl, rfl⟩ := h
  obtain ⟨hok, -, -, -⟩ := hx.slotOf he (type_ne_none (·.send) hsend rfl)
  obtain ⟨-, hobject, hnull, hdead⟩ := hx.slotOf he' (type_ne_none (·.receive) hreceive rfl)
  have hports : copyinHeaderPorts its noOthers stale msg .copySend (some .makeSendOnce) x =
      some (.ok ⟨e.ieObject, e'.ieObject, ipNull, ipNull⟩,
        (x.onPort e.ieObject fun p => (p.addSend 1).reference).onPort e'.ieObject
          fun p => p.addSendOnce.reference) := by
    by_cases hname : msg.msghRemotePort = msg.msghLocalPort
    · obtain rfl : e = e' := by
        rw [hname] at he
        exact some.inj (he.symm.trans he')
      rw [copyinHeaderPorts, if_pos hname]
      exact copyinHeaderSame_request stale he hok hsend hreceive hport
    · rw [copyinHeaderPorts, if_neg hname, if_neg (not_or.mpr ⟨hnull, hdead⟩)]
      exact copyinHeaderBoth_request stale he he' hok hobject hsend hreceive hport
  refine ⟨?_, rfl⟩
  rw [copyinHeaderGeneral_eq (by rw [hremote]; rfl) (by rw [hreply]; rfl)
    (by rw [strangeReply, hreply]; rfl) hactive hports]
  rfl

/-- Where one of the common cases completes, the general path ends in the same state with the
same header, and neither sends a notification. -/
theorem copyinHeaderFast_eq (hx : x.Sound its m) {lockTry : Bool} {msg msg' : MachMsgHeader}
    {x' : IpcState} (h : copyinHeaderFast lockTry msg x = some (msg', x')) (stale : IeBits) :
    copyinHeaderGeneral its noOthers stale machPortNull msg x = some (.ok msg', x') ∧
      x'.calls = x.calls := by
  simp only [copyinHeaderFast] at h
  split at h
  · rename_i hports
    exact copyinAsync_eq hx hports.1 hports.2 h stale
  split at h
  · rename_i hports
    exact copyinRequest_eq hx hports.1 hports.2 h stale
  split at h
  · rename_i hports
    exact copyinReply_eq hx hports.1 hports.2 h stale
  · cases h

end Fast

/-- Ports with one send-once right. -/
def alivePorts : IpcPorts :=
  ⟨fun _ => ⟨true, 2, 0, machPortNull, 0, 0, 1, ipNull, ipNull, 0, fun _ => ⟨0, machPortNull⟩⟩, 0⟩

/-- A send-once right for port 64. -/
def oneSendOnce : IpcEntry := ⟨⟨1, machPortTypeSendOnce, false, false, false, 0⟩, 64, 0⟩

/-- A reply. -/
theorem copyinHeaderFast_eq_reply :
    ∃ msg' x', copyinHeaderFast true ⟨⟨18, 0, true, 0⟩, 256, machPortNull⟩
        ⟨oneEntrySpace oneSendOnce, alivePorts, []⟩ = some (msg', x') ∧ msg'.msghRemotePort = 64 ∧
      x'.calls = [] ∧
      copyinHeaderGeneral ipcTableEntries noOthers .zero machPortNull
        ⟨⟨18, 0, true, 0⟩, 256, machPortNull⟩ ⟨oneEntrySpace oneSendOnce, alivePorts, []⟩ =
          some (.ok msg', x') := by
  have hx : Sound ipcTableEntries (update (fun _ => none) 256 (some oneSendOnce.right))
      ⟨oneEntrySpace oneSendOnce, alivePorts, []⟩ := by
    have hright : ∀ name v, update (fun _ => none) 256 (some oneSendOnce.right) name =
        some v → v = oneSendOnce := by
      intro name v h
      by_cases hname : name = 256
      · rw [hname, update_self] at h
        exact (some.inj h).symm
      · rw [update_of_ne hname] at h
        cases h
    refine ⟨oneEntrySpace_represents (by decide), fun name v h => ?_, fun name v h => ?_⟩
    · rw [hright name v h]
      exact .sendOnce rfl rfl
    · rw [hright name v h]
      decide
  have hfast : (copyinHeaderFast true ⟨⟨18, 0, true, 0⟩, 256, machPortNull⟩
      ⟨oneEntrySpace oneSendOnce, alivePorts, []⟩).map (fun r => (r.1.msghRemotePort, r.2.calls)) =
        some (64, []) := by decide +kernel
  obtain ⟨⟨msg', x'⟩, h, hr⟩ := map_eq_some_iff.mp hfast
  obtain ⟨hport, hcalls⟩ := Prod.mk.inj hr
  exact ⟨msg', x', h, hport, hcalls, (copyinHeaderFast_eq hx h .zero).1⟩

end Mach
