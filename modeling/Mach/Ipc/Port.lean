import Mach.Lib.Link
import Mach.Ipc.Name

/-!
# Ports

The operations of `ipc/ipc_port.c` on the rights and requests of a port.  A port is an
address, and `IpcPorts` is the memory at these addresses.  Each operation here is what the
source does while it has the port locked.

The receiver of a port, its destination and the time of its death are one word, as in the source.
`ipc_port_destroy` ends here where it unlocks the dead port.  What follows in the source (waking
senders, destroying the queued messages, sending notifications) is left out.
-/

namespace Mach

open Function

/-- `IP_NULL`. -/
def ipNull : Nat := 0

/-- `struct ipc_port_request`. -/
structure IpcPortRequest where
  /-- `ipr_soright`, or `ipr_next` while the request is free. -/
  iprSoright : Nat
  iprName : Nat
deriving Repr, DecidableEq

/-- `struct ipc_port`, without the message queue. -/
structure IpcPort where
  ipActive : Bool
  ipReferences : Nat
  /-- The union of `ip_receiver`, `ip_destination` and `ip_timestamp`. -/
  ipData : Nat
  ipReceiverName : Nat
  ipMscount : Nat
  ipSrights : Nat
  ipSorights : Nat
  ipNsrequest : Nat
  /-- A send-once right, or a send right with the low bit of the address set. -/
  ipPdrequest : Nat
  /-- The place of `ipr_size` in `ipc_table_dnrequests`, counted from 1, or 0 if there is no
  table of dead-name requests. -/
  ipDnsize : Nat
  ipDnrequests : Nat → IpcPortRequest

namespace IpcPort

/-- `ip_destination`. -/
abbrev ipDestination (p : IpcPort) : Nat := p.ipData

/-- `ip_timestamp`. -/
abbrev ipTimestamp (p : IpcPort) : Nat := p.ipData

/-- `ip_reference`. -/
def reference (p : IpcPort) : IpcPort := { p with ipReferences := p.ipReferences + 1 }

/-- `ip_release`. -/
def release (p : IpcPort) : IpcPort := { p with ipReferences := p.ipReferences - 1 }

/-- `ip_mscount++`. -/
def countMake (p : IpcPort) : IpcPort := { p with ipMscount := p.ipMscount + 1 }

/-- `ip_srights += n`. -/
def addSend (p : IpcPort) (n : Nat) : IpcPort := { p with ipSrights := p.ipSrights + n }

/-- `ip_srights--`. -/
def subSend (p : IpcPort) : IpcPort := { p with ipSrights := p.ipSrights - 1 }

/-- `ip_sorights++`. -/
def addSendOnce (p : IpcPort) : IpcPort := { p with ipSorights := p.ipSorights + 1 }

/-- `ip_sorights--`. -/
def subSendOnce (p : IpcPort) : IpcPort := { p with ipSorights := p.ipSorights - 1 }

/-- `ip_pdsendp`. -/
def ipPdsendp (pdrequest : Nat) : Bool := pdrequest % 2 = 1

/-- `ip_pdsend`. -/
def ipPdsend (pdrequest : Nat) : Nat := pdrequest - pdrequest % 2

/-- The port whose right is the port-destroyed request. -/
def pdTarget (pdrequest : Nat) : Nat :=
  if ipPdsendp pdrequest then ipPdsend pdrequest else pdrequest

/-- In limbo: a receive right outside of every space, going nowhere. -/
def InLimbo (p : IpcPort) : Prop :=
  p.ipActive = true ∧ p.ipReceiverName = machPortNull ∧ p.ipDestination = ipNull

/-- In transit: a receive right in a message to another port. -/
def InTransit (p : IpcPort) : Prop :=
  p.ipActive = true ∧ p.ipReceiverName = machPortNull ∧ p.ipDestination ≠ ipNull

instance (p : IpcPort) : Decidable p.InTransit := by
  unfold InTransit
  infer_instance

/-- Nobody has the receive right. -/
def toLimbo (p : IpcPort) : IpcPort :=
  { p with ipReceiverName := machPortNull, ipData := ipNull }

/-- Give the receive right to a space. -/
def toSpace (p : IpcPort) (space name : Nat) : IpcPort :=
  { p with ipReceiverName := name, ipData := space }

/-- `ipc_port_clear_receiver`, without taking the port out of its port set or waking the
receivers. -/
def clearReceiver (p : IpcPort) : IpcPort := { p with ipMscount := 0 }

/-- `--ip_srights`, and the no-senders notification if it was the last: the request and
the make-send count. -/
def dropSend (p : IpcPort) : Option (Nat × Nat) × IpcPort :=
  let p := p.subSend
  if p.ipSrights = 0 ∧ p.ipNsrequest ≠ ipNull then
    (some (p.ipNsrequest, p.ipMscount), { p with ipNsrequest := ipNull })
  else (none, p)

/-- `ipc_port_dnrequest`: the request index, unless there is no space. -/
def ipcPortDnrequest (p : IpcPort) (name soright : Nat) : Option (Nat × IpcPort) :=
  let table := p.ipDnrequests
  let index := (table 0).iprSoright
  if p.ipDnsize = 0 then none
  else if index = 0 then none
  else
    let table := update table 0 { table 0 with iprSoright := (table index).iprSoright }
    some (index, { p with ipDnrequests := update table index ⟨soright, name⟩ })

/-- `ipc_port_dncancel`. -/
def ipcPortDncancel (p : IpcPort) (index : Nat) : Nat × IpcPort :=
  let table := p.ipDnrequests
  let dnrequest := (table index).iprSoright
  let table := update table index ⟨(table 0).iprSoright, machPortNull⟩
  (dnrequest,
    { p with ipDnrequests := update table 0 { table 0 with iprSoright := index } })

/-- `ipc_port_dnrename`. -/
def ipcPortDnrename (p : IpcPort) (index nname : Nat) : IpcPort :=
  { p with
      ipDnrequests := update p.ipDnrequests index
        { p.ipDnrequests index with iprName := nname } }

end IpcPort

/-- The ports, and the clock of their deaths. -/
structure IpcPorts where
  port : Nat → IpcPort
  ipcPortTimestampData : Nat

namespace IpcPorts

/-- Change a port. -/
def modify (P : IpcPorts) (p : Nat) (f : IpcPort → IpcPort) : IpcPorts :=
  { P with port := update P.port p (f (P.port p)) }

variable (P : IpcPorts)

theorem modify_port (p : Nat) (f : IpcPort → IpcPort) (q : Nat) :
    (P.modify p f).port q = if q = p then f (P.port q) else P.port q := by
  simp only [modify, update_apply]
  by_cases h : q = p
  · rw [if_pos h, if_pos h, h]
  · rw [if_neg h, if_neg h]

end IpcPorts

/-! ## Naked rights -/

/-- `ipc_port_make_send`. -/
def ipcPortMakeSend (P : IpcPorts) (port : Nat) : IpcPorts :=
  P.modify port fun p => (p.countMake.addSend 1).reference

/-- `ipc_port_copy_send`, of a valid right.  It returns the new right unless it is
`IP_DEAD`. -/
def ipcPortCopySend (P : IpcPorts) (port : Nat) : Option Nat × IpcPorts :=
  if (P.port port).ipActive then
    (some port, P.modify port fun p => p.reference.addSend 1)
  else (none, P)

/-- `ipc_port_release_send`, with the no-senders notification. -/
def ipcPortReleaseSend (P : IpcPorts) (port : Nat) : Option (Nat × Nat) × IpcPorts :=
  if (P.port port).ipActive then
    ((P.port port).release.dropSend.1, P.modify port fun p => p.release.dropSend.2)
  else (none, P.modify port IpcPort.release)

/-- `ipc_port_make_sonce`. -/
def ipcPortMakeSonce (P : IpcPorts) (port : Nat) : IpcPorts :=
  P.modify port fun p => p.addSendOnce.reference

/-- `ipc_port_release_sonce`. -/
def ipcPortReleaseSonce (P : IpcPorts) (port : Nat) : IpcPorts :=
  P.modify port fun p =>
    if p.ipActive then p.release.subSendOnce else p.release

/-! ## Receive rights on the move -/

/-- Where a port in transit goes. -/
def IpcPorts.destination (P : IpcPorts) (p : Nat) : Option Nat :=
  if (P.port p).InTransit then some (P.port p).ipDestination else none

/-- The label `not_circular`: take a reference to the destination and put the port in
transit. -/
def IpcPorts.send (P : IpcPorts) (port dest : Nat) : IpcPorts :=
  (P.modify dest IpcPort.reference).modify port fun p => { p with ipData := dest }

/-- `ipc_port_check_circularity`.  `lockTry` says whether the quick check gets the lock of
`dest`; `none` is running out of fuel in the search for the end of the chain. -/
def ipcPortCheckCircularity (lockTry : Bool) (fuel : Nat) (P : IpcPorts) (port dest : Nat) :
    Option (Bool × IpcPorts) :=
  if port = dest then some (true, P)
  else if lockTry ∧ ¬ (P.port dest).InTransit then some (false, P.send port dest)
  else
    (Link.walk P.destination fuel dest).map fun base =>
      if port = base then (true, P) else (false, P.send port dest)

/-- The port dies: `ipc_port_destroy` from where it has no backup. -/
def IpcPorts.kill (P : IpcPorts) (port : Nat) : IpcPorts :=
  let timestamp := P.ipcPortTimestampData
  { P.modify port fun p => { p.release with ipActive := false, ipData := timestamp } with
      ipcPortTimestampData := (timestamp + 1) % 2 ^ 32 }

/-- `ipc_port_destroy`.  The result says whether the port died; if it did not, it is in
transit to its backup, in a port-destroyed notification. -/
def ipcPortDestroy (lockTry : Bool) (fuel : Nat) (P : IpcPorts) (port : Nat) :
    Option (Bool × IpcPorts) :=
  let pdrequest := (P.port port).ipPdrequest
  if pdrequest ≠ ipNull then
    let P := P.modify port fun p => { p with ipPdrequest := ipNull }.toLimbo
    (ipcPortCheckCircularity lockTry fuel P port (IpcPort.pdTarget pdrequest)).map fun
      | (false, P) => (false, P)
      | (true, P) =>
        if IpcPort.ipPdsendp pdrequest then
          (true, (ipcPortReleaseSend P (IpcPort.ipPdsend pdrequest)).2.kill port)
        else (true, (ipcPortReleaseSonce P pdrequest).kill port)
  else some (true, P.kill port)

/-- `ipc_port_release_receive`. -/
def ipcPortReleaseReceive (lockTry : Bool) (fuel : Nat) (P : IpcPorts) (port : Nat) :
    Option (Bool × IpcPorts) :=
  let dest := (P.port port).ipDestination
  (ipcPortDestroy lockTry fuel P port).map fun (died, P) =>
    (died, if dest ≠ ipNull then P.modify dest IpcPort.release else P)

end Mach
