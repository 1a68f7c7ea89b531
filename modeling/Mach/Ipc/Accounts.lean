import Mathlib.Algebra.Order.BigOperators.Group.Finset
import Mach.Ipc.World

/-!
# The accounts of ports

`PortState.Accounted` says that the counts of every live port come out: its send rights are
those that are held in spaces, those that are naked, and those that are port-destroyed
requests of other ports.  What is held in spaces is a parameter here.

An operation on an entry may owe rights to the calls that it makes.  While the calls are
made, what they still hand over is counted with the rights of the spaces
(`PortState.Accounted.calls`).
-/

namespace Mach

open Finset Rights IpcPort IpcPorts

/-- The rights for a port that requests on ports hold. -/
def IpcPorts.requests (P : IpcPorts) (ports : Finset Nat) (q : Nat) : Rights :=
  ⟨∑ p ∈ ports, (P.requested p q).send, ∑ p ∈ ports, (P.requested p q).sendOnce, 0⟩

/-- The counts of every live port come out, given the rights that are held in spaces.
`ports` are the ports that may have a port-destroyed request. -/
structure PortState.Accounted (ports : Finset Nat) (held : Nat → Rights) (x : PortState) :
    Prop where
  send : ∀ q, (x.ports.port q).ipActive = true →
    (x.ports.port q).ipSrights =
      (held q).send + (x.naked q).send + (x.ports.requests ports q).send
  sendOnce : ∀ q, (x.ports.port q).ipActive = true →
    (x.ports.port q).ipSorights =
      (held q).sendOnce + (x.naked q).sendOnce + (x.ports.requests ports q).sendOnce
  receive : ∀ q, (x.ports.port q).ipActive = true →
    (held q).receive + (x.naked q).receive ≤ 1
  outside : ∀ p, p ∉ ports → (x.ports.port p).ipPdrequest = ipNull

namespace PortState.Accounted

variable {ports : Finset Nat} {held held' : Nat → Rights} {x : PortState}

theorem congr (h : x.Accounted ports held)
    (heq : ∀ q, (x.ports.port q).ipActive = true → held' q = held q) :
    x.Accounted ports held' where
  send q hq := by rw [heq q hq]; exact h.send q hq
  sendOnce q hq := by rw [heq q hq]; exact h.sendOnce q hq
  receive q hq := by rw [heq q hq]; exact h.receive q hq
  outside := h.outside

theorem give {r : Nat → Rights} (h : x.Accounted ports fun q => held q + r q) :
    (x.give r).Accounted ports held where
  send q hq := by
    have := h.send q hq
    simp only [PortState.give, add_send] at this ⊢
    omega
  sendOnce q hq := by
    have := h.sendOnce q hq
    simp only [PortState.give, add_sendOnce] at this ⊢
    omega
  receive q hq := by
    have := h.receive q hq
    simp only [PortState.give, add_receive] at this ⊢
    omega
  outside := h.outside

end PortState.Accounted

/-! ## Destroying ports -/

section Destroy

variable (P : IpcPorts) (port dest q : Nat)

@[simp] theorem IpcPorts.rights_kill : ((P.kill port).port q).rights =
    if q = port then
      { (P.port q).rights with active := false, data := P.ipcPortTimestampData }
    else (P.port q).rights :=
  rights_modify P port
    (fun p => { p.release with ipActive := false, ipData := P.ipcPortTimestampData }) q

@[simp] theorem IpcPorts.rights_send : ((P.send port dest).port q).rights =
    if q = port then { (P.port q).rights with data := dest } else (P.port q).rights := by
  have href : ((P.modify dest reference).port q).rights = (P.port q).rights := by
    rw [rights_modify, rights_reference, ite_self]
  rw [send, rights_modify]
  split
  · rw [← href]
    rfl
  · exact href

/-- The port as `ipc_port_destroy` sends it to its backup: in limbo, without a request. -/
def IpcPorts.toBackup : IpcPorts := P.modify port fun p => { p with ipPdrequest := ipNull }.toLimbo

@[simp] theorem IpcPorts.rights_toBackup : ((P.toBackup port).port q).rights =
    if q = port then
      { (P.port q).rights with pdrequest := ipNull, receiverName := machPortNull, data := ipNull }
    else (P.port q).rights :=
  rights_modify P port _ q

/-- Give up the right of a port-destroyed request. -/
def IpcPorts.releaseRequest (pdrequest : Nat) : IpcPorts :=
  if IpcPort.ipPdsendp pdrequest then (ipcPortReleaseSend P (IpcPort.ipPdsend pdrequest)).2
  else ipcPortReleaseSonce P pdrequest

variable {P port dest q} {fuel : Nat} {P' : IpcPorts}

/-- `ipc_port_check_circularity` finds a circle and leaves the ports alone, or it puts the
port in transit. -/
theorem ipcPortCheckCircularity_cases {lockTry b : Bool}
    (h : ipcPortCheckCircularity lockTry fuel P port dest = some (b, P')) :
    (b = true ∧ P' = P) ∨ (b = false ∧ P' = P.send port dest) := by
  unfold ipcPortCheckCircularity at h
  split at h
  · cases h
    exact .inl ⟨rfl, rfl⟩
  split at h
  · cases h
    exact .inr ⟨rfl, rfl⟩
  obtain ⟨base, -, heq⟩ := Option.map_eq_some_iff.mp h
  split at heq
  · cases heq
    exact .inl ⟨rfl, rfl⟩
  · cases heq
    exact .inr ⟨rfl, rfl⟩

theorem ipcPortDestroy_cases {lockTry died : Bool}
    (h : ipcPortDestroy lockTry fuel P port = some (died, P')) :
    ((P.port port).ipPdrequest = ipNull ∧ died = true ∧ P' = P.kill port) ∨
      ((P.port port).ipPdrequest ≠ ipNull ∧ ((died = false ∧
            P' = (P.toBackup port).send port (IpcPort.pdTarget (P.port port).ipPdrequest)) ∨
          (died = true ∧
            P' = ((P.toBackup port).releaseRequest (P.port port).ipPdrequest).kill port))) := by
  simp only [ipcPortDestroy] at h
  split at h
  · rename_i hpd
    refine .inr ⟨hpd, ?_⟩
    obtain ⟨⟨b, P₁⟩, hcheck, heq⟩ := Option.map_eq_some_iff.mp h
    rcases ipcPortCheckCircularity_cases hcheck with ⟨rfl, rfl⟩ | ⟨rfl, rfl⟩
    · refine .inr ?_
      rw [releaseRequest]
      simp only at heq
      split at heq
      · rename_i hsend
        cases heq
        rw [if_pos hsend]
        exact ⟨rfl, rfl⟩
      · rename_i hsend
        cases heq
        rw [if_neg hsend]
        exact ⟨rfl, rfl⟩
    · cases heq
      exact .inl ⟨rfl, rfl⟩
  · rename_i hpd
    rw [not_not] at hpd
    cases h
    exact .inl ⟨hpd, rfl, rfl⟩

/-- Giving up the right of a request changes one count of its target, if that is alive. -/
theorem IpcPorts.rights_releaseRequest {r : Nat} (hr : r ≠ ipNull) (P : IpcPorts) (q : Nat) :
    ((P.releaseRequest r).port q).rights =
      if (P.port q).ipActive = true ∧ q = IpcPort.pdTarget r then
        { (P.port q).rights with
            srights := (P.port q).rights.srights - (pdRight r).send
            sorights := (P.port q).rights.sorights - (pdRight r).sendOnce }
      else (P.port q).rights := by
  by_cases hsend : ipPdsendp r = true
  · have htarget : pdTarget r = ipPdsend r := if_pos hsend
    have hright : pdRight r = ⟨1, 0, 0⟩ := by rw [pdRight, if_neg hr, if_pos hsend]
    rw [releaseRequest, if_pos hsend, htarget, hright, ipcPortReleaseSend]
    by_cases ha : (P.port (ipPdsend r)).ipActive = true
    · simp only [if_pos ha, rights_modify]
      by_cases hq : q = ipPdsend r
      · subst hq
        simp [ha]
      · simp [hq]
    · simp only [if_neg ha, rights_modify, rights_release, ite_self]
      rw [if_neg]
      rintro ⟨hq, rfl⟩
      exact ha hq
  · have htarget : pdTarget r = r := if_neg hsend
    have hright : pdRight r = ⟨0, 1, 0⟩ := by rw [pdRight, if_neg hr, if_neg hsend]
    rw [releaseRequest, if_neg hsend, htarget, hright, ipcPortReleaseSonce, rights_modify]
    by_cases hq : q = r
    · by_cases ha : (P.port q).ipActive = true <;> simp [ha]
    · simp [hq]

end Destroy

variable {ports : Finset Nat} {port : Nat}

theorem IpcPorts.requests_clear {P P' : IpcPorts}
    (hout : port ∉ ports → (P.port port).ipPdrequest = ipNull)
    (hpd : ∀ p, (P'.port p).ipPdrequest = if p = port then ipNull else (P.port p).ipPdrequest)
    (q : Nat) :
    (P'.requests ports q).send + (P.requested port q).send = (P.requests ports q).send ∧
      (P'.requests ports q).sendOnce + (P.requested port q).sendOnce =
        (P.requests ports q).sendOnce := by
  have hself : P'.requested port q = .zero := by
    rw [requested, hpd, if_pos rfl, pdRight, if_pos rfl, only]
    exact ite_self _
  have hother : ∀ p ∈ ports.erase port, P'.requested p q = P.requested p q := by
    intro p hp
    rw [requested, hpd, if_neg (ne_of_mem_erase hp), requested]
  have hnone : port ∉ ports → P.requested port q = .zero := by
    intro hp
    rw [requested, hout hp, pdRight, if_pos rfl, only]
    exact ite_self _
  have hsum : ∀ f : Rights → Nat, f .zero = 0 →
      ∑ p ∈ ports, f (P'.requested p q) + f (P.requested port q) =
        ∑ p ∈ ports, f (P.requested p q) := by
    intro f hf
    have hrest : ∑ p ∈ ports.erase port, f (P'.requested p q) =
        ∑ p ∈ ports.erase port, f (P.requested p q) :=
      sum_congr rfl fun p hp => by rw [hother p hp]
    by_cases hp : port ∈ ports
    · rw [← sum_erase_add ports _ hp, ← sum_erase_add ports _ hp, hrest, hself, hf, add_zero]
    · rw [hnone hp, hf, ← erase_eq_of_notMem hp, hrest, add_zero]
  exact ⟨hsum Rights.send rfl, hsum sendOnce rfl⟩

variable {lockTry : Bool} {fuel : Nat}

/-- `ipc_port_destroy` clears the request of the port, ends no other port, and gives up the
right of the request if the port dies. -/
theorem ipcPortDestroy_spec {died : Bool} {P P' : IpcPorts}
    (h : ipcPortDestroy lockTry fuel P port = some (died, P')) (q : Nat) :
    (P'.port q).rights.pdrequest = (if q = port then ipNull else (P.port q).rights.pdrequest) ∧
      (P'.port q).rights.active =
        (if q = port ∧ died = true then false else (P.port q).rights.active) ∧
      ((P.port q).rights.active = true → (P'.port q).rights.srights = (P.port q).rights.srights -
            (if died then (P.requested port q).send else 0) ∧
          (P'.port q).rights.sorights = (P.port q).rights.sorights -
            (if died then (P.requested port q).sendOnce else 0)) := by
  rcases ipcPortDestroy_cases h with ⟨hpd, rfl, rfl⟩ | ⟨hpd, ⟨rfl, rfl⟩ | ⟨rfl, rfl⟩⟩
  · have hnone : P.requested port q = .zero := by
      rw [requested, hpd, pdRight, if_pos rfl, only]
      exact ite_self _
    have hpd' : (P.port port).rights.pdrequest = ipNull := hpd
    rw [hnone]
    by_cases hq : q = port
    · subst hq
      simp [hpd', zero]
    · simp [hq, zero]
  · by_cases hq : q = port
    · simp [hq]
    · simp [hq]
  · have hactive : ((P.toBackup port).port q).ipActive = (P.port q).rights.active := by
      show ((P.toBackup port).port q).rights.active = _
      simp only [rights_toBackup]
      split <;> rfl
    have hreq : P.requested port q =
        (pdRight (P.port port).ipPdrequest).only (pdTarget (P.port port).ipPdrequest) q :=
      rfl
    simp only [rights_kill, rights_releaseRequest hpd,
      rights_toBackup, hreq, only_send, only_sendOnce]
    grind

/-- A port that was alive is alive, or there is no receive right in a space that would
be for a dead port. -/
def ActiveOr (held : Nat → Rights) (x x' : PortState) : Prop :=
  ∀ q, ((x'.ports.port q).ipActive = true → (x.ports.port q).ipActive = true) ∧
    ((x.ports.port q).ipActive = true →
      (x'.ports.port q).ipActive = true ∨ (held q).receive = 0)

variable {held : Nat → Rights}

theorem ActiveOr.refl (x : PortState) : ActiveOr held x x :=
  fun _ => ⟨id, .inl⟩

variable {x : PortState} {x' : PortState} {held' : Nat → Rights}

theorem ActiveOr.trans {x₁ : PortState} (h : ActiveOr held x x₁)
    (h' : ActiveOr held x₁ x') : ActiveOr held x x' := by
  refine fun q => ⟨fun hq => (h q).1 ((h' q).1 hq), fun hq => ?_⟩
  rcases (h q).2 hq with hq | hq
  · exact (h' q).2 hq
  · exact .inr hq

theorem ActiveOr.mono (h : ActiveOr held' x x')
    (hle : ∀ q, (held q).receive ≤ (held' q).receive) : ActiveOr held x x' := by
  refine fun q => ⟨(h q).1, fun hq => ?_⟩
  rcases (h q).2 hq with hq | hq
  · exact .inl hq
  · exact .inr (Nat.le_zero.mp (hq ▸ hle q))

namespace PortState.Accounted

variable {ports : Finset Nat} {held : Nat → Rights} {x : PortState}
  {lockTry : Bool} {r : Bool × IpcPorts}

section

variable (hstep : ipcPortDestroy lockTry fuel x.ports port = some r)
include hstep

theorem destroyed (h : x.Accounted ports held) : (x.destroyed port r).Accounted ports held := by
  obtain ⟨died, P'⟩ := r
  have hspec := ipcPortDestroy_spec hstep
  have hpd : ∀ p, (P'.port p).ipPdrequest =
      if p = port then ipNull else (x.ports.port p).ipPdrequest := fun p => (hspec p).1
  have hreq := requests_clear (h.outside port) hpd
  have houtside : ∀ p, p ∉ ports → (P'.port p).ipPdrequest = ipNull := by
    intro p hp
    rw [hpd p]
    split
    · rfl
    · exact h.outside p hp
  have hactive : ∀ q, (P'.port q).ipActive = true →
      (x.ports.port q).ipActive = true ∧ (died = true → q ≠ port) := by
    intro q hq
    have := (hspec q).2.1
    rw [show (P'.port q).rights.active = true from hq] at this
    split at this
    · cases this
    · rename_i hne
      exact ⟨this.symm, fun hd hp => hne ⟨hp, hd⟩⟩
  have hports : (x.destroyed port (died, P')).ports = P' := by cases died <;> rfl
  have hnaked : ∀ q, (P'.port q).ipActive = true → (x.destroyed port (died, P')).naked q =
      x.naked q + if died = true then .zero else x.ports.requested port q := by
    intro q hact
    cases died with
    | true =>
      simp only [PortState.destroyed, take, only_of_ne _ (symm ((hactive q hact).2 rfl))]
      rfl
    | false => rfl
  constructor
  · intro q hact
    rw [hports] at hact ⊢
    rw [hnaked q hact]
    have hact := (hactive q hact).1
    have hs : (P'.port q).ipSrights = _ := ((hspec q).2.2 hact).1
    have hr := (hreq q).1
    rw [hs, show (x.ports.port q).rights.srights = _ from h.send q hact, ← hr]
    split <;> simp only [add_send, zero] <;> omega
  · intro q hact
    rw [hports] at hact ⊢
    rw [hnaked q hact]
    have hact := (hactive q hact).1
    have hs : (P'.port q).ipSorights = _ := ((hspec q).2.2 hact).2
    have hr := (hreq q).2
    rw [hs, show (x.ports.port q).rights.sorights = _ from h.sendOnce q hact, ← hr]
    split <;> simp only [add_sendOnce, zero] <;> omega
  · intro q hact
    rw [hports] at hact
    rw [hnaked q hact]
    have hact := (hactive q hact).1
    have hzero : (x.ports.requested port q).receive = 0 := by
      rw [requested, only_receive, pdRight]
      split
      · split
        · rfl
        · split <;> rfl
      · rfl
    split
    · exact h.receive q hact
    · simp only [add_receive, hzero]
      exact h.receive q hact
  · rwa [hports]

theorem destroyed_active (h : x.Accounted ports held)
    (hnaked : 1 ≤ (x.naked port).receive) : ActiveOr held x (x.destroyed port r) := by
  obtain ⟨died, P'⟩ := r
  intro q
  have hports : ((x.destroyed port (died, P')).ports.port q).ipActive =
      (P'.port q).rights.active := by
    cases died <;> rfl
  rw [hports, (ipcPortDestroy_spec hstep q).2.1]
  split
  · rename_i hq
    refine ⟨fun hf => absurd hf Bool.false_ne_true, fun hact => .inr ?_⟩
    obtain ⟨rfl, -⟩ := hq
    have := h.receive q hact
    omega
  · exact ⟨id, .inl⟩

end

end PortState.Accounted

/-- The rights that calls are to release. -/
def pending (calls : List RightCall) (q : Nat) : Rights :=
  ⟨(handed q calls).send, (handed q calls).sendOnce, (handed q calls).receive⟩

/-- The rights that a call hands over are held until it is made. -/
theorem PortState.Accounted.call
    {c : RightCall}
    (h : x.Accounted ports fun q => held q + ⟨c.sends q, c.sendsOnce q, c.receives q⟩)
    (hstep : x.call lockTry fuel c = some x') :
    x'.Accounted ports held ∧ ActiveOr held x x' := by
  have hkeep : (∀ q, (⟨c.sends q, c.sendsOnce q, c.receives q⟩ : Rights) = .zero) →
      some x = some x' → x'.Accounted ports held ∧ ActiveOr held x x' := by
    intro hzero heq
    cases heq
    refine ⟨h.congr fun q _ => ?_, .refl x⟩
    rw [hzero]
    rfl
  have hgive : ∀ {r : Nat → Rights},
      (∀ q, (⟨c.sends q, c.sendsOnce q, c.receives q⟩ : Rights) = r q) →
      (x.give r).Accounted ports held := by
    intro r hr
    refine give (h.congr fun q _ => ?_)
    rw [hr]
  cases c with
  | portDestroy port =>
    obtain ⟨r, hr, rfl⟩ := Option.map_eq_some_iff.mp hstep
    have hx := hgive (r := (⟨0, 0, 1⟩ : Rights).only port) fun q => by
      ext <;> simp [RightCall.sends, RightCall.sendsOnce, RightCall.receives]
    exact ⟨hx.destroyed hr, hx.destroyed_active hr (by simp [PortState.give])⟩
  | notifySendOnce port | notifyPortDeletedCompat port name =>
    cases hstep
    refine ⟨hgive fun q => ?_, .refl x⟩
    ext <;> simp [RightCall.sends, RightCall.sendsOnce, RightCall.receives]
  | notifyDeadName _ _
  | hashInsert _
  | hashDelete _
  | entryDealloc
  | marequestCancel
  | spaceRelease
  | psetDestroy _
  | notifyNoSenders _ _
  | notifyPortDeleted _ _ => exact hkeep (fun _ => rfl) hstep

/-- While calls are made, the rights that they still hand over are held. -/
theorem PortState.Accounted.calls
    {calls : List RightCall}
    (h : x.Accounted ports fun q => held q + pending calls q)
    (hstep : calls.foldlM (PortState.call lockTry fuel) x = some x') :
    x'.Accounted ports held ∧ ActiveOr held x x' := by
  induction calls generalizing x with
  | nil =>
    cases hstep
    exact ⟨h, .refl _⟩
  | cons c calls ih =>
    obtain ⟨x₁, hc, hrest⟩ := Option.bind_eq_some_iff.mp hstep
    have hsplit : x.Accounted ports fun q =>
        held q + pending calls q + ⟨c.sends q, c.sendsOnce q, c.receives q⟩ := by
      refine h.congr fun q _ => ?_
      ext <;> simp [pending, handed] <;> omega
    obtain ⟨h₁, hact₁⟩ := hsplit.call hc
    obtain ⟨h', hact⟩ := ih h₁ hrest
    exact ⟨h', .trans (hact₁.mono fun q => Nat.le_add_right ..) hact⟩

/-! ## The effect of an operation on an entry -/

/-- The rights of an entry for a port. -/
def rightsAt (q : Nat) : Option IpcEntry → Rights
  | none => .zero
  | some e => ⟨e.sends q, e.sendsOnce q, e.receives q⟩

/-- The accounts before the calls of an operation are made: what the calls hand over is still
held, and so is what the operation has lost. -/
theorem PortState.Accounted.effect
    {e : IpcEntry} {s : RightState} (h : x.Accounted ports held)
    (gain lose lost : Nat → Rights)
    (null : (x.ports.port ioNull).ipActive = false) (dead : (x.ports.port ioDead).ipActive = false)
    (heffect : ∀ q, PortEffect q ⟨e, x.ports, []⟩ s (gain q + lost q) (lose q))
    (hlose : ∀ q, lose q ≤ x.naked q)
    (hheld : ∀ q, q ≠ ioNull → held' q + rightsAt q (some e) = held q + rightsAt q (some s.entry)) :
    (({ x with ports := s.ports }.give gain).take lose).Accounted ports fun q =>
      held' q + lost q + pending s.calls q := by
  have hpd : ∀ p, (s.ports.port p).ipPdrequest = (x.ports.port p).ipPdrequest :=
    fun p => (heffect p).pdrequest
  have hreq : ∀ q, s.ports.requests ports q = x.ports.requests ports q := by
    intro q
    simp only [requests, requested, hpd]
  have hlive : ∀ q, (s.ports.port q).ipActive = true →
      (x.ports.port q).ipActive = true ∧ q ≠ ioNull ∧ Balanced q ⟨e, x.ports, []⟩ s
        (gain q + lost q) (lose q) := by
    intro q hq
    have hactive : (x.ports.port q).ipActive = true := (heffect q).active.symm.trans hq
    have hne : ∀ {p}, (x.ports.port p).ipActive = false → q ≠ p := by
      rintro p hp rfl
      rw [hactive] at hp
      cases hp
    exact ⟨hactive, hne null, (heffect q).balanced (hne null) (hne dead)⟩
  refine ⟨fun q hq => ?_, fun q hq => ?_, fun q hq => ?_, fun p hp => (hpd p).trans
    (h.outside p hp)⟩
  · obtain ⟨hactive, hne, hbalanced⟩ := hlive q hq
    have hs := hbalanced.send hactive
    have hx := h.send q hactive
    have hh := congrArg Rights.send (hheld q hne)
    have hl := (hlose q).1
    simp only [PortState.give, take, add_send, sub_send, rightsAt, pending,
      RightState.at, rights, hreq] at hs hh ⊢
    omega
  · obtain ⟨hactive, hne, hbalanced⟩ := hlive q hq
    have hs := hbalanced.sendOnce hactive
    have hx := h.sendOnce q hactive
    have hh := congrArg Rights.sendOnce (hheld q hne)
    have hl := (hlose q).2.1
    simp only [PortState.give, take, add_sendOnce, sub_sendOnce, rightsAt,
      pending, RightState.at, rights, hreq] at hs hh ⊢
    omega
  · obtain ⟨hactive, hne, hbalanced⟩ := hlive q hq
    have hs := hbalanced.receive
    have hx := h.receive q hactive
    have hh := congrArg Rights.receive (hheld q hne)
    have hl := (hlose q).2.2
    simp only [PortState.give, take, add_receive, sub_receive, rightsAt, pending] at hs hh ⊢
    omega

end Mach
