import Mach.Ipc.EntryInvariant
import Mach.Ipc.Right

/-!
# What an operation on a right does

One lemma per operation of `ipc/ipc_right.c`, all of one form (`RightEffect`).  It says, for
any one port, how the counts of rights in the port, the rights of the entry and the naked
rights given out or taken in fit together, that the operation leaves alone whether the port
is active and puts it nowhere in transit, and how the calls into the reverse hash table
follow the type of the entry.
-/

namespace Mach

open RightCall

/-! ## Well-formed entries -/

/-- What can be in an entry: the type, and the user references that go with it. -/
inductive IpcEntry.Ok (e : IpcEntry) : Prop where
  | none (type : e.ieBits.type = machPortTypeNone) (le : e.ieBits.urefs ≤ machPortUrefsMax)
  | send (type : e.ieBits.type = machPortTypeSend) (pos : 0 < e.ieBits.urefs)
      (lt : e.ieBits.urefs < machPortUrefsMax)
  | receive (type : e.ieBits.type = machPortTypeReceive) (urefs : e.ieBits.urefs = 0)
  | sendReceive (type : e.ieBits.type = machPortTypeSendReceive) (pos : 0 < e.ieBits.urefs)
      (lt : e.ieBits.urefs < machPortUrefsMax)
  | sendOnce (type : e.ieBits.type = machPortTypeSendOnce) (urefs : e.ieBits.urefs = 1)
  | portSet (type : e.ieBits.type = machPortTypePortSet)
      (le : e.ieBits.urefs ≤ machPortUrefsMax)
  | deadName (type : e.ieBits.type = machPortTypeDeadName) (pos : 0 < e.ieBits.urefs)
      (le : e.ieBits.urefs ≤ machPortUrefsMax) (object : e.ieObject = ioNull)

namespace PortTypes

attribute [scoped simp] machPortTypeNone machPortTypeSend machPortTypeReceive
  machPortTypeSendReceive machPortTypeSendOnce machPortTypePortSet machPortTypeDeadName

end PortTypes

namespace IpcEntry.Ok

open PortTypes

variable {e : IpcEntry}

section

variable (h : e.Ok)
include h

theorem urefs_le : e.ieBits.urefs ≤ machPortUrefsMax := by
  cases h with
  | none _ le | portSet _ le | deadName _ _ le => exact le
  | send _ _ lt | sendReceive _ _ lt => exact lt.le
  | receive _ urefs => exact urefs ▸ Nat.zero_le _
  | sendOnce _ urefs => exact urefs ▸ (show 1 ≤ 65535 by decide)

/-- One bit of the type tells what is in the entry, but for the receive right that can come
with a send right. -/
theorem of_send_type (hsend : e.ieBits.type.send = true) :
    e.ieBits.type = machPortTypeSend ∨ e.ieBits.type = machPortTypeSendReceive := by
  cases h with
  | send type => exact .inl type
  | sendReceive type => exact .inr type
  | _ type => simp [type] at hsend

theorem setUrefs (hsend : e.ieBits.type.send = true) {n : Nat} (hpos : 0 < n)
    (hlt : n < machPortUrefsMax) : Ok { e with ieBits := { e.ieBits with urefs := n } } := by
  cases h with
  | send type => exact .send type hpos hlt
  | sendReceive type => exact .sendReceive type hpos hlt
  | _ type => simp [type] at hsend

theorem of_sendOnce_type (honce : e.ieBits.type.sendOnce = true) :
    e.ieBits.type = machPortTypeSendOnce := by
  cases h with
  | sendOnce type => exact type
  | _ type => simp [type] at honce

theorem of_deadName (hdead : e.ieBits.type.deadName = true) :
    e.ieBits.type = machPortTypeDeadName := by
  cases h with
  | deadName type => exact type
  | _ type => simp [type] at hdead

theorem of_sendRights (hright : e.ieBits.type.sendRights = true) :
    0 < e.ieBits.urefs ∧ e.ieBits.urefs < machPortUrefsMax := by
  cases h with
  | send _ pos lt | sendReceive _ pos lt => exact ⟨pos, lt⟩
  | sendOnce _ urefs => rw [urefs]; decide
  | _ type => simp [type] at hright

theorem congr {e' : IpcEntry} (hright : e'.right = e.right) : e'.Ok := by
  have htype : e'.ieBits.type = e.ieBits.type := congrArg (fun e => e.ieBits.type) hright
  have hurefs : e'.ieBits.urefs = e.ieBits.urefs := congrArg (fun e => e.ieBits.urefs) hright
  have hobject : e'.right.ieObject = e.right.ieObject := congrArg ieObject hright
  cases h with
  | none type le => exact .none (htype.trans type) (hurefs ▸ le)
  | send type pos lt => exact .send (htype.trans type) (hurefs ▸ pos) (hurefs ▸ lt)
  | receive type urefs => exact .receive (htype.trans type) (hurefs.trans urefs)
  | sendReceive type pos lt => exact .sendReceive (htype.trans type) (hurefs ▸ pos) (hurefs ▸ lt)
  | sendOnce type urefs => exact .sendOnce (htype.trans type) (hurefs.trans urefs)
  | portSet type le => exact .portSet (htype.trans type) (hurefs ▸ le)
  | deadName type pos le object =>
    exact .deadName (htype.trans type) (hurefs ▸ pos) (hurefs ▸ le) (hobject.trans object)

end

end IpcEntry.Ok

/-- The send right of an entry for a port, counted. -/
def IpcEntry.sends (e : IpcEntry) (q : Nat) : Nat :=
  if e.ieBits.type.send = true ∧ e.ieObject = q then 1 else 0

/-- The send-once right of an entry for a port, counted. -/
def IpcEntry.sendsOnce (e : IpcEntry) (q : Nat) : Nat :=
  if e.ieBits.type.sendOnce = true ∧ e.ieObject = q then 1 else 0

/-- The receive right of an entry for a port, counted. -/
def IpcEntry.receives (e : IpcEntry) (q : Nat) : Nat :=
  if e.ieBits.type.receive = true ∧ e.ieObject = q then 1 else 0

/-- The port of an entry that has a send right only. -/
def IpcEntry.pureSend (e : IpcEntry) : Option Nat :=
  if e.ieBits.type = machPortTypeSend then some e.ieObject else none

/-! ## Calls -/

/-- The naked send rights that a call hands over. -/
def RightCall.sends (q : Nat) : RightCall → Nat
  | .notifyPortDeletedCompat notify _ => if notify = q then 1 else 0
  | _ => 0

/-- The naked send-once rights that a call hands over. -/
def RightCall.sendsOnce (q : Nat) : RightCall → Nat
  | .notifySendOnce port => if port = q then 1 else 0
  | _ => 0

/-- The naked receive rights for a port that a call gets. -/
def RightCall.receives (q : Nat) : RightCall → Nat
  | .portDestroy port => if port = q then 1 else 0
  | _ => 0

/-- A call for the space of the entry. -/
def RightCall.inSpace : RightCall → Bool
  | .hashInsert _ => true
  | .hashDelete _ => true
  | .entryDealloc => true
  | _ => false

/-- The naked rights that the calls hand over, and the calls that concern the space. -/
structure Handed where
  send : Nat
  sendOnce : Nat
  receive : Nat
  space : List RightCall
deriving DecidableEq

/-- What calls get, for a port. -/
def handed (q : Nat) (calls : List RightCall) : Handed where
  send := (calls.map (RightCall.sends q)).sum
  sendOnce := (calls.map (RightCall.sendsOnce q)).sum
  receive := (calls.map (RightCall.receives q)).sum
  space := calls.filter RightCall.inSpace

namespace RightState

variable (s : RightState) (q : Nat)

variable (c : RightCall)

@[simp] theorem handed_call : handed q (s.call c).calls =
      ⟨(handed q s.calls).send + c.sends q, (handed q s.calls).sendOnce + c.sendsOnce q,
        (handed q s.calls).receive + c.receives q,
        (handed q s.calls).space ++ if c.inSpace then [c] else []⟩ := by
  simp only [handed, call]
  cases hc : c.inSpace <;> simp [hc]

@[simp] theorem entryDealloc_mem_call :
    .entryDealloc ∈ (s.call c).calls ↔ .entryDealloc ∈ s.calls ∨ c = .entryDealloc := by
  simp [call, eq_comm]

/-- Calls may be made that hand over no right and do not concern the space. -/
abbrev Quiet (s s' : RightState) : Prop :=
  s'.entry = s.entry ∧ s'.ports = s.ports ∧ (∀ q, handed q s'.calls = handed q s.calls) ∧
    (.entryDealloc ∈ s'.calls ↔ .entryDealloc ∈ s.calls)

@[simp] theorem quiet_cancelMarequest (bits : IeBits) : Quiet s (s.cancelMarequest bits) := by
  unfold cancelMarequest
  split <;> simp [Quiet, sends, sendsOnce, receives, inSpace]

@[simp] theorem quiet_notifyDeleted (dnrequest name : Nat) :
    Quiet s (s.notifyDeleted dnrequest name) := by
  unfold notifyDeleted
  split <;> simp [Quiet, sends, sendsOnce, receives, inSpace]

@[simp] theorem quiet_notifyNoSenders (nsrequest : Option (Nat × Nat)) :
    Quiet s (s.notifyNoSenders nsrequest) := by
  cases nsrequest <;> simp [notifyNoSenders, Quiet, sends, sendsOnce, receives, inSpace]

end RightState

/-! ## Ports -/

/-- What the rights of a port are about: whether it is active, where its receive right is,
the counts, and the right in its port-destroyed request. -/
structure PortRights where
  active : Bool
  receiverName : Nat
  data : Nat
  srights : Nat
  sorights : Nat
  pdrequest : Nat

/-- The rights of a port. -/
def IpcPort.rights (p : IpcPort) : PortRights :=
  ⟨p.ipActive, p.ipReceiverName, p.ipData, p.ipSrights, p.ipSorights, p.ipPdrequest⟩

namespace IpcPort

variable (p : IpcPort)

@[simp] theorem rights_reference : p.reference.rights = p.rights := rfl

@[simp] theorem rights_release : p.release.rights = p.rights := rfl

@[simp] theorem rights_changes :
    p.countMake.rights = p.rights ∧ p.clearReceiver.rights = p.rights ∧
      (∀ n, (p.addSend n).rights = { p.rights with srights := p.rights.srights + n }) ∧
      p.subSend.rights = { p.rights with srights := p.rights.srights - 1 } ∧
      p.addSendOnce.rights = { p.rights with sorights := p.rights.sorights + 1 } ∧
      p.subSendOnce.rights = { p.rights with sorights := p.rights.sorights - 1 } ∧
      p.toLimbo.rights = { p.rights with receiverName := machPortNull, data := ipNull } ∧
      ∀ space name,
        (p.toSpace space name).rights = { p.rights with receiverName := name, data := space } :=
  ⟨rfl, rfl, fun _ => rfl, rfl, rfl, rfl, rfl, fun _ _ => rfl⟩

@[simp] theorem rights_dropSend :
    p.dropSend.2.rights = { p.rights with srights := p.rights.srights - 1 } := by
  unfold dropSend
  dsimp only
  split <;> rfl

end IpcPort

/-- The rights of a port in a state. -/
def RightState.at (s : RightState) (q : Nat) : PortRights := (s.ports.port q).rights

theorem IpcPorts.rights_modify (P : IpcPorts) (p : Nat) (f : IpcPort → IpcPort) (q : Nat) :
    ((P.modify p f).port q).rights =
      if q = p then (f (P.port q)).rights else (P.port q).rights := by
  rw [modify_port]
  split <;> rfl

@[simp] theorem IpcPorts.rights_modify_eq (P : IpcPorts) (p : Nat)
    (f : IpcPort → IpcPort) (q : Nat) :
    ((P.modify p f).port q).rights =
      let r := (f (P.port q)).rights
      let r' := (P.port q).rights
      ⟨if q = p then r.active else r'.active,
        if q = p then r.receiverName else r'.receiverName, if q = p then r.data else r'.data,
        if q = p then r.srights else r'.srights, if q = p then r.sorights else r'.sorights,
        if q = p then r.pdrequest else r'.pdrequest⟩ := by
  rw [rights_modify]
  split <;> rfl

open RightState

@[simp] theorem quiet_ipcRightDncancel (port : Nat) (s : RightState) :
    (ipcRightDncancel port s).2.entry = { s.entry with ieRequest := 0 } ∧
      (∀ q, ((ipcRightDncancel port s).2.ports.port q).rights = (s.ports.port q).rights) ∧
      (∀ q, handed q (ipcRightDncancel port s).2.calls = handed q s.calls) ∧
      (.entryDealloc ∈ (ipcRightDncancel port s).2.calls ↔ .entryDealloc ∈ s.calls) := by
  unfold ipcRightDncancel
  split
  next h => simp [← h]
  next =>
    split <;> refine ⟨rfl, fun q => ?_, ?_, by simp⟩
    · simp only [call_ports, setRequest_ports, onPort_ports, IpcPorts.rights_modify]
      split <;> rfl
    · simp [sends, sendsOnce, receives, inSpace]
    · simp only [setRequest_ports, onPort_ports, IpcPorts.rights_modify]
      split <;> rfl
    · exact fun q => rfl

/-- Naked rights for one port, counted. -/
@[ext]
structure Rights where
  send : Nat
  sendOnce : Nat
  receive : Nat

/-- No rights. -/
def Rights.zero : Rights := ⟨0, 0, 0⟩

/-- Rights for one port. -/
def Rights.only (r : Rights) (port q : Nat) : Rights := if port = q then r else .zero

variable (r : Rights)

@[simp] theorem Rights.only_send (port q : Nat) :
    (r.only port q).send = if port = q then r.send else 0 := apply_ite Rights.send ..

@[simp] theorem Rights.only_sendOnce (port q : Nat) :
    (r.only port q).sendOnce = if port = q then r.sendOnce else 0 := apply_ite Rights.sendOnce ..

@[simp] theorem Rights.only_receive (port q : Nat) :
    (r.only port q).receive = if port = q then r.receive else 0 := apply_ite Rights.receive ..

variable {q : Nat}

theorem Rights.only_of_ne {port : Nat} (h : port ≠ q) : r.only port q = .zero :=
  if_neg h

/-- The entry is ready for an operation. -/
structure RightState.Ready (s : RightState) : Prop where
  ok : s.entry.Ok
  fits : s.entry.ieBits.Fits
  calls : s.calls = []
  receiver : s.entry.ieBits.type.receive = true → (s.ports.port s.entry.ieObject).ipActive = true
  srights : s.entry.ieBits.type.send = true → (s.ports.port s.entry.ieObject).ipActive = true →
    0 < (s.ports.port s.entry.ieObject).rights.srights

/-- What can stay in a space: a well-formed entry, whose receive right is for a live
port. -/
structure Storable (P : IpcPorts) (e : IpcEntry) : Prop where
  ok : e.Ok
  receiver : e.ieBits.type.receive = true → (P.port e.ieObject).ipActive = true

variable {s : RightState}

theorem RightState.Ready.storable (h : s.Ready) : Storable s.ports s.entry :=
  ⟨h.ok, h.receiver⟩

/-- The calls into the reverse hash table and the entry that is left agree with the entry
that was there. -/
inductive SpaceCalls (e e' : IpcEntry) : List RightCall → Prop where
  | keep : e'.pureSend = e.pureSend → SpaceCalls e e' []
  | insert {p : Nat} : e.pureSend = none → e'.pureSend = some p →
      SpaceCalls e e' [.hashInsert p]
  | delete {p : Nat} : e.pureSend = some p → e'.pureSend = none →
      SpaceCalls e e' [.hashDelete p]
  | dealloc : e.pureSend = none → e'.ieObject = ioNull → SpaceCalls e e' [.entryDealloc]
  | deleteDealloc {p : Nat} : e.pureSend = some p → e'.ieObject = ioNull →
      SpaceCalls e e' [.hashDelete p, .entryDealloc]

/-- The calls into the reverse hash table come before the deallocation, and an entry is
deallocated without an object. -/
inductive SpaceShape (e' : IpcEntry) : List RightCall → Prop where
  | keep : SpaceShape e' []
  | insert (p : Nat) : SpaceShape e' [.hashInsert p]
  | delete (p : Nat) : SpaceShape e' [.hashDelete p]
  | dealloc : e'.ieObject = ioNull → SpaceShape e' [.entryDealloc]
  | deleteDealloc (p : Nat) : e'.ieObject = ioNull →
      SpaceShape e' [.hashDelete p, .entryDealloc]

variable {l : List RightCall}

theorem SpaceCalls.shape {e e' : IpcEntry} (h : SpaceCalls e e' l) :
    SpaceShape e' l := by
  cases h with
  | keep => exact .keep
  | insert => exact .insert _
  | delete => exact .delete _
  | dealloc _ hobject => exact .dealloc hobject
  | deleteDealloc _ hobject => exact .deleteDealloc _ hobject

theorem SpaceCalls.congr_left {e₁ e₂ e' : IpcEntry}
    (h : SpaceCalls e₁ e' l) (he : e₁.pureSend = e₂.pureSend) : SpaceCalls e₂ e' l := by
  cases h with
  | keep h₁ => exact .keep (h₁.trans he)
  | insert h₁ h₂ => exact .insert (he ▸ h₁) h₂
  | delete h₁ h₂ => exact .delete (he ▸ h₁) h₂
  | dealloc h₁ h₂ => exact .dealloc (he ▸ h₁) h₂
  | deleteDealloc h₁ h₂ => exact .deleteDealloc (he ▸ h₁) h₂

/-- The port that a receive right is in a message to. -/
def PortRights.destination (r : PortRights) : Option Nat :=
  if r.active = true ∧ r.receiverName = machPortNull ∧ r.data ≠ ipNull then some r.data else none

/-- The counts of a live port change as its entry and the naked rights do, and the receive
right stays one.  `gain` are the naked rights that the operation returns, `lose` those it
consumes. -/
structure Balanced (q : Nat) (s s' : RightState) (gain lose : Rights) : Prop where
  send : (s.at q).active = true → (s'.at q).srights + s.entry.sends q + lose.send =
    (s.at q).srights + s'.entry.sends q + gain.send + (handed q s'.calls).send
  sendOnce : (s.at q).active = true → (s'.at q).sorights + s.entry.sendsOnce q + lose.sendOnce =
    (s.at q).sorights + s'.entry.sendsOnce q + gain.sendOnce + (handed q s'.calls).sendOnce
  receive : s.entry.receives q + lose.receive =
    s'.entry.receives q + gain.receive + (handed q s'.calls).receive

/-- What an operation does to a port. -/
structure PortEffect (q : Nat) (s s' : RightState) (gain lose : Rights) : Prop where
  active : (s'.at q).active = (s.at q).active
  pdrequest : (s'.at q).pdrequest = (s.at q).pdrequest
  /-- The port is in transit only where it was. -/
  transit : (s'.at q).destination = none ∨ (s'.at q).destination = (s.at q).destination
  balanced : q ≠ ioNull → q ≠ ioDead → Balanced q s s' gain lose

/-- What an operation does to a port and to the entry. -/
structure EntryEffect (q : Nat) (s s' : RightState) (gain lose : Rights) : Prop
    extends PortEffect q s s' gain lose where
  stored : RightCall.entryDealloc ∈ (handed q s'.calls).space ∨ Storable s.ports s'.entry
  shape : SpaceShape s'.entry (handed q s'.calls).space

/-- What an operation does that keeps the reverse hash table up to date. -/
structure RightEffect (q : Nat) (s s' : RightState) (gain lose : Rights) : Prop
    extends PortEffect q s s' gain lose where
  stored : RightCall.entryDealloc ∈ (handed q s'.calls).space ∨ Storable s.ports s'.entry
  space : SpaceCalls s.entry s'.entry (handed q s'.calls).space

variable {gain lose : Rights} {s' : RightState}

theorem RightEffect.entryEffect (h : RightEffect q s s' gain lose) : EntryEffect q s s' gain lose :=
  ⟨h.toPortEffect, h.stored, h.space.shape⟩

/-- What an operation does that takes rights out of the space, which its result says. -/
abbrev Gives {α : Type} (q : Nat) (s : RightState) (given : α → Rights)
    (r : α × RightState) : Prop :=
  RightEffect q s r.2 (given r.1) .zero

/-- The naked right that a copyin makes. -/
def MachMsgTypeName.right : MachMsgTypeName → Rights
  | .makeSend => ⟨1, 0, 0⟩
  | .copySend => ⟨1, 0, 0⟩
  | .moveSend => ⟨1, 0, 0⟩
  | .makeSendOnce => ⟨0, 1, 0⟩
  | .moveSendOnce => ⟨0, 1, 0⟩
  | .moveReceive => ⟨0, 0, 1⟩

/-- The right that a copyin gives. -/
@[simp] def MachMsgTypeName.given (msgtName : MachMsgTypeName) (q : Nat) : Copyin → Rights
  | .error _ => .zero
  | .ok (object, _) => msgtName.right.only object q

variable (msgtName : MachMsgTypeName)

/-- The receive right of the port has not moved. -/
def Stays (q : Nat) (s s' : RightState) : Prop :=
  (s'.at q).active = (s.at q).active ∧ (s'.at q).pdrequest = (s.at q).pdrequest ∧
    (s'.at q).receiverName = (s.at q).receiverName ∧ (s'.at q).data = (s.at q).data

theorem PortEffect.of_stays
    (stays : Stays q s s') (balanced : q ≠ ioNull → q ≠ ioDead → Balanced q s s' gain lose) :
    PortEffect q s s' gain lose where
  active := stays.1
  pdrequest := stays.2.1
  transit := by
    obtain ⟨ha, -, hn, hd⟩ := stays
    right
    rw [PortRights.destination, ha, hn, hd]
    rfl
  balanced := balanced

theorem RightEffect.of_stays (stored : Storable s.ports s'.entry) (stays : Stays q s s')
    (balanced : q ≠ ioNull → q ≠ ioDead → Balanced q s s' gain lose)
    (space : SpaceCalls s.entry s'.entry (handed q s'.calls).space) :
    RightEffect q s s' gain lose :=
  ⟨.of_stays stays balanced, .inr stored, space⟩

theorem RightEffect.of_dealloc
    (dealloc : RightCall.entryDealloc ∈ (handed q s'.calls).space) (stays : Stays q s s')
    (balanced : q ≠ ioNull → q ≠ ioDead → Balanced q s s' gain lose)
    (space : SpaceCalls s.entry s'.entry (handed q s'.calls).space) :
    RightEffect q s s' gain lose :=
  ⟨.of_stays stays balanced, .inl dealloc, space⟩

theorem RightEffect.of_dead {r : Rights}
    (h : RightEffect q s s' .zero .zero) : RightEffect q s s' (r.only ioDead q) .zero := by
  refine ⟨⟨h.active, h.pdrequest, h.transit, fun hnull hdead => ?_⟩, h.stored, h.space⟩
  rw [Rights.only_of_ne _ hdead.symm]
  exact h.balanced hnull hdead

namespace RightCounts

attribute [scoped simp] IpcEntry.sends IpcEntry.sendsOnce IpcEntry.receives IpcEntry.pureSend
  RightCall.sends RightCall.sendsOnce RightCall.receives RightCall.inSpace RightState.at
  Rights.zero RightState.dealloc Stays MachMsgTypeName.right

end RightCounts

section Effect

open PortTypes RightCounts

variable {s : RightState} {q : Nat}

theorem RightState.Ready.handed (h : s.Ready) : handed q s.calls = ⟨0, 0, 0, []⟩ := by
  rw [h.calls]
  rfl

theorem RightState.Ready.refl (h : s.Ready) : RightEffect q s s .zero .zero := by
  refine .of_stays h.storable ⟨rfl, rfl, rfl, rfl⟩ (fun _ _ => ?_) ?_
  · constructor <;> simp [h.handed]
  · rw [h.handed]
    exact .keep rfl

/-! ### Dead ports -/

theorem ipcRightCheck_active {port : Nat}
    (h : (s.ports.port port).ipActive = true) : ipcRightCheck port s = (false, s) := by
  rw [ipcRightCheck, if_pos h]

variable {b : IeBits}

theorem IeBits.add_one (hg : b.gen < 2 ^ 8) (hlt : b.urefs < machPortUrefsMax) :
    b.add 1 = { b with urefs := b.urefs + 1 } := by
  refine add_eq hg (by omega) ?_
  simp only [machPortUrefsMax] at hlt
  omega

theorem IeBits.add_neg (h : b.Fits) {n : Nat} (hle : n ≤ b.urefs) :
    b.add (-n) = { b with urefs := b.urefs - n } := by
  refine add_eq h.gen (by omega) ?_
  have := h.urefs
  omega

/-- A dead-name request is one more user reference of a dead name. -/
theorem IeBits.toDeadName_of_lt (hg : b.gen < 2 ^ 8)
    (hlt : b.urefs < machPortUrefsMax) (request : Nat) :
    b.toDeadName request =
      { b with type := machPortTypeDeadName
               urefs := b.urefs + if request = 0 then 0 else 1 } := by
  unfold toDeadName
  by_cases hr : request = 0
  · rw [if_neg (not_not.mpr hr), if_pos hr]
    rfl
  · rw [if_pos hr, if_neg hr]
    exact add_one hg hlt

/-- The entry once it is seen that the port has died.  A dead-name request is one more user
reference. -/
def IpcEntry.toDead (e : IpcEntry) : IpcEntry where
  ieBits :=
    { e.ieBits with
        type := machPortTypeDeadName
        urefs := e.ieBits.urefs + if e.ieRequest = 0 then 0 else 1
        marequest := e.ieBits.marequest && !e.ieBits.type.send }
  ieObject := ioNull
  ieRequest := 0

/-- The calls that `ipc_right_check` makes before it gives the entry up. -/
def IpcEntry.checkCalls (e : IpcEntry) : List RightCall :=
  if e.ieBits.type.send then
    (if e.ieBits.marequest then [.marequestCancel] else []) ++ [.hashDelete e.ieObject]
  else []

theorem IpcEntry.entryDealloc_notMem_checkCalls (e : IpcEntry) :
    RightCall.entryDealloc ∉ e.checkCalls := by
  unfold checkCalls
  split
  · split <;> simp
  · simp

variable {e : IpcEntry} {P : IpcPorts} {calls : List RightCall}

theorem ipcRightCheck_compat
    (hdead : (P.port e.ieObject).ipActive = false) (hcompat : e.ieBits.compat = true) :
    ipcRightCheck e.ieObject ⟨e, P, calls⟩ =
      (true, ⟨{ e with ieObject := ioNull, ieRequest := 0 }, P.modify e.ieObject IpcPort.release,
        calls ++ e.checkCalls ++ [.entryDealloc]⟩) := by
  cases hsend : e.ieBits.type.send with
  | false => simp [ipcRightCheck, hdead, hcompat, hsend, IpcEntry.checkCalls, call]
  | true =>
    cases hma : e.ieBits.marequest with
    | _ => simp [ipcRightCheck, hdead, hcompat, hsend, hma, IpcEntry.checkCalls, call,
        cancelMarequest]

theorem ipcRightCheck_died
    (hdead : (P.port e.ieObject).ipActive = false) (hcompat : e.ieBits.compat = false)
    (hg : e.ieBits.gen < 2 ^ 8) (hlt : e.ieBits.urefs < machPortUrefsMax) :
    ipcRightCheck e.ieObject ⟨e, P, calls⟩ =
      (true, ⟨e.toDead, P.modify e.ieObject IpcPort.release, calls ++ e.checkCalls⟩) := by
  have hbits := fun ma => IeBits.toDeadName_of_lt (b := { e.ieBits with marequest := ma }) hg hlt
    e.ieRequest
  obtain ⟨⟨u, ⟨send, re, so, ps, dn⟩, ma, co, cl, g⟩, o, r⟩ := e
  cases hcompat
  cases send with
  | false => simp [ipcRightCheck, hdead, hbits, IpcEntry.checkCalls, IpcEntry.toDead, setObject]
  | true =>
    cases ma with
    | _ => simp [ipcRightCheck, hdead, hbits, IpcEntry.checkCalls, IpcEntry.toDead, setObject,
        call, cancelMarequest]

/-- Seen from a port, an operation has turned the entry into a dead name so far. -/
structure DeadState (q : Nat) (s s' : RightState) : Prop
    extends RightEffect q s s' .zero .zero where
  type : s'.entry.ieBits.type = machPortTypeDeadName
  object : s'.entry.ieObject = ioNull
  fits : s'.entry.ieBits.Fits
  pos : 0 < s'.entry.ieBits.urefs
  kept : RightCall.entryDealloc ∉ (handed q s'.calls).space

/-- The entry of a dead port becomes a dead name, or in compatibility mode it goes. -/
theorem ipcRightCheck_dead (h : s.Ready) (hright : s.entry.ieBits.type.sendRights = true)
    (hdead : (s.ports.port s.entry.ieObject).ipActive = false) :
    ∃ s', ipcRightCheck s.entry.ieObject s = (true, s') ∧
      RightEffect q s s' .zero .zero ∧ (s.entry.ieBits.compat = false → DeadState q s s') := by
  have hc : Mach.handed q (s.calls ++ s.entry.checkCalls) =
      ⟨0, 0, 0, if s.entry.ieBits.type.send then [.hashDelete s.entry.ieObject] else []⟩ := by
    rw [h.calls, IpcEntry.checkCalls]
    split
    · split <;> rfl
    · rfl
  have hne : (s.ports.port q).rights.active = true → s.entry.ieObject ≠ q := by
    rintro ha rfl
    rw [IpcPort.rights, hdead] at ha
    cases ha
  have hrecv : s.entry.ieBits.type.receive = false := by
    rw [← Bool.not_eq_true]
    exact fun hrecv => nomatch (h.receiver hrecv).symm.trans hdead
  have hpure : s.entry.pureSend =
      if s.entry.ieBits.type.send then some s.entry.ieObject else none := by
    cases h.ok with
    | sendReceive type => simp [type] at hrecv
    | _ type => simp [type]
  obtain ⟨hpos, hlt⟩ := h.ok.of_sendRights hright
  cases hcompat : s.entry.ieBits.compat with
  | true =>
    refine ⟨_, ipcRightCheck_compat hdead hcompat, ?_, nofun⟩
    change RightEffect q s (RightState.call
      ⟨_, s.ports.modify s.entry.ieObject .release, s.calls ++ s.entry.checkCalls⟩
        .entryDealloc) _ _
    refine .of_dealloc (by simp) (by simp) (fun hnull _ => ?_) ?_
    · constructor <;> simp [hrecv, hnull.symm, hc] <;> grind
    · simp only [handed_call, hc]
      cases hsend : s.entry.ieBits.type.send with
      | true => exact .deleteDealloc (hpure.trans (if_pos hsend)) rfl
      | false => exact .dealloc (by rw [hpure, hsend]; rfl) rfl
  | false =>
    have hle : s.entry.toDead.ieBits.urefs ≤ machPortUrefsMax := by
      dsimp only [IpcEntry.toDead]
      split <;> omega
    have heffect : RightEffect q s ⟨s.entry.toDead, s.ports.modify s.entry.ieObject .release,
        s.calls ++ s.entry.checkCalls⟩ .zero .zero := by
      refine .of_stays ⟨.deadName rfl (Nat.add_pos_left hpos _) hle rfl, nofun⟩ (by simp)
        (fun hnull _ => ?_) ?_
      · constructor <;> simp [hrecv, hc, IpcEntry.toDead] <;> grind
      · rw [hc]
        cases hsend : s.entry.ieBits.type.send with
        | true => exact .delete (hpure.trans (if_pos hsend)) rfl
        | false => exact .keep (by rw [hpure, hsend]; rfl)
    refine ⟨_, ipcRightCheck_died hdead hcompat h.fits.gen hlt, heffect,
      fun _ => ⟨heffect, rfl, rfl, ?_, ?_, ?_⟩⟩
    · exact ⟨Nat.lt_succ_of_le hle, h.fits.gen⟩
    · exact Nat.add_pos_left hpos _
    · rw [hc]
      split <;> simp

theorem RightState.Ready.deadState (h : s.Ready)
    (type : s.entry.ieBits.type = machPortTypeDeadName) : DeadState q s s := by
  cases h.ok with
  | deadName _ pos le object =>
    exact ⟨h.refl, type, object, h.fits, pos, by simp [h.handed]⟩
  | _ t => simp [type] at t

namespace DeadState

variable {s' : RightState}

variable (h : DeadState q s s')

include h

theorem setBits {bits : IeBits} (ok : (s'.setBits bits).entry.Ok)
    (hbits : bits.type = machPortTypeDeadName ∨ bits.type = machPortTypeNone) :
    RightEffect q s (s'.setBits bits) .zero .zero := by
  have hsp := h.space
  have htype := h.type
  have hstored : Storable s.ports (s'.setBits bits).entry := by
    refine ⟨ok, ?_⟩
    rcases hbits with hb | hb <;> simp [hb]
  refine ⟨⟨h.active, h.pdrequest, h.transit, fun hnull hdead => ?_⟩, .inr hstored, ?_⟩
  · obtain ⟨h1, h2, h3⟩ := h.balanced hnull hdead
    rcases hbits with hb | hb <;> constructor <;> simp_all
  · revert hsp
    simp
    generalize (handed q s'.calls).space = l
    rintro (hk | ⟨-, hi'⟩ | ⟨hd, -⟩ | ⟨hn, ho⟩ | ⟨hn, ho⟩)
    · refine .keep ?_
      rw [← hk]
      rcases hbits with hb | hb <;> simp [hb, htype]
    · simp [htype] at hi'
    · refine .delete hd ?_
      rcases hbits with hb | hb <;> simp [hb]
    · exact .dealloc hn ho
    · exact .deleteDealloc hn ho

theorem dealloc : RightEffect q s (s'.call .entryDealloc) .zero .zero := by
  have hsp := h.space
  have hst := h.kept
  have htype := h.type
  have hobj := h.object
  refine ⟨⟨h.active, h.pdrequest, h.transit, fun hnull hdead => ?_⟩, .inl (by simp), ?_⟩
  · obtain ⟨h1, h2, h3⟩ := h.balanced hnull hdead
    constructor <;> simp_all
  · revert hsp hst
    simp
    generalize (handed q s'.calls).space = l
    rintro (hk | ⟨-, hi'⟩ | ⟨hd, -⟩ | ⟨hn, ho⟩ | ⟨hn, ho⟩) hst
    · refine .dealloc ?_ hobj
      rw [← hk]
      simp [htype]
    · simp [htype] at hi'
    · exact .deleteDealloc hd hobj
    · simp at hst
    · simp at hst

theorem sub (hu : s'.entry.ieBits.urefs ≠ 1) :
    RightEffect q s (s'.setBits (s'.entry.ieBits.add (-1))) .zero .zero := by
  have hpos := h.pos
  have hlt := h.fits.urefs
  rw [show (-1 : Int) = -((1 : Nat) : Int) by rfl, IeBits.add_neg h.fits h.pos]
  refine h.setBits (.deadName h.type ?_ ?_ h.object) (.inl h.type)
  · show 0 < s'.entry.ieBits.urefs - 1
    omega
  · show s'.entry.ieBits.urefs - 1 ≤ 65535
    omega

variable (msgtName : MachMsgTypeName)

theorem copyDead (deadok : Bool) : Gives q s (msgtName.given q) (Mach.copyDead deadok s') := by
  cases deadok with
  | true =>
    exact h.toRightEffect.of_dead
  | false => exact h.toRightEffect

theorem moveDead (deadok : Bool) : Gives q s (msgtName.given q) (Mach.moveDead deadok s') := by
  cases deadok with
  | false => exact h.toRightEffect
  | true =>
    simp only [Mach.moveDead, not_true_eq_false, if_false]
    split
    · have hle : s'.entry.ieBits.urefs ≤ machPortUrefsMax := Nat.le_of_lt_succ h.fits.urefs
      exact .of_dead (h.setBits (.none (by simp [h.type]) hle) (.inr (by simp [h.type])))
    · rename_i hu
      exact (h.sub hu).of_dead

theorem deallocDeadName : RightEffect q s s'.deallocDeadName .zero .zero := by
  unfold RightState.deallocDeadName
  split
  · exact h.dealloc
  · rename_i hu
    exact h.sub hu

end DeadState

end Effect

end Mach
