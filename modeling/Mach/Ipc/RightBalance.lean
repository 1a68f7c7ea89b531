import Mach.Ipc.RightEffect

/-!
# The effect of each operation on a right
-/

namespace Mach

open RightState MachMsgTypePort MsgTypePort PortRights PortTypes RightCounts

variable {s : RightState} {q : Nat}

/-! ## Copyin -/

theorem onCheck_effect {α : Type} (h : s.Ready)
    (hright : (s.ports.port s.entry.ieObject).ipActive = false →
      s.entry.ieBits.type.sendRights = true)
    {gone : α} {dead live : RightState → α × RightState} {g : α → Rights} (hgone : g gone = .zero)
    (hdead : ∀ s', DeadState q s s' → Gives q s g (dead s'))
    (hlive : (s.ports.port s.entry.ieObject).ipActive = true → Gives q s g (live s)) :
    Gives q s g (match ipcRightCheck s.entry.ieObject s with
      | (true, s') => if s.entry.ieBits.compat then (gone, s') else dead s'
      | (false, s') => live s') := by
  cases hactive : (s.ports.port s.entry.ieObject).ipActive with
  | true =>
    rw [ipcRightCheck_active hactive]
    exact hlive hactive
  | false =>
    obtain ⟨s', heq, heffect, hstate⟩ := ipcRightCheck_dead h (hright hactive) hactive
    rw [heq]
    cases hco : s.entry.ieBits.compat with
    | true =>
      simp only [if_true, Gives, hgone]
      exact heffect
    | false => exact hdead s' (hstate hco)

/-- Copyin of a send or send-once right: what the dead and the live right do. -/
theorem copyinSendRight_effect (h : s.Ready) (msgtName : MachMsgTypeName)
    {dead live : RightState → Copyin × RightState}
    (hdead : ∀ s', DeadState q s s' → Gives q s (msgtName.given q) (dead s'))
    (hlive : s.entry.ieBits.type.sendRights = true →
      (s.ports.port s.entry.ieObject).ipActive = true → Gives q s (msgtName.given q) (live s)) :
    Gives q s (msgtName.given q) (copyinSendRight dead live s) := by
  unfold copyinSendRight
  dsimp only
  split
  · rename_i hd
    exact hdead s (h.deadState (h.ok.of_deadName hd))
  split
  · exact h.refl
  rename_i hright
  rw [not_not] at hright
  exact onCheck_effect h (fun _ => hright) rfl hdead (hlive hright)

variable {f : IpcPort → IpcPort} {n space name : Nat} {s' : RightState}

section

variable (h : s.Ready)

include h

theorem addSend_effect
    (hf : ∀ p, (f p).rights = { p.rights with srights := p.rights.srights + n }) :
    RightEffect q s (s.onPort s.entry.ieObject f) ((⟨n, 0, 0⟩ : Rights).only s.entry.ieObject q)
      .zero := by
  have hc := h.handed (q := q)
  refine .of_stays h.storable (by simp [hf]) (fun hnull _ => ?_) ?_
  · constructor <;> simp <;> grind
  · simp [hc]
    exact .keep rfl

theorem makeSendOnce_effect :
    RightEffect q s { s with ports := ipcPortMakeSonce s.ports s.entry.ieObject }
      ((⟨0, 1, 0⟩ : Rights).only s.entry.ieObject q) .zero := by
  have hc := h.handed (q := q)
  refine .of_stays h.storable (by simp [ipcPortMakeSonce]) (fun hnull _ => ?_) ?_
  · constructor <;> simp [ipcPortMakeSonce] <;> grind
  · simp [hc]
    exact .keep rfl

theorem moveReceive_effect (deadok : Bool) :
    Gives q s (MachMsgTypeName.moveReceive.given q) (ipcRightCopyin .moveReceive deadok s) := by
  cases h.ok with
  | receive type =>
    simp only [ipcRightCopyin, type]
    refine ⟨⟨by simp, by simp, ?_, fun hnull _ => ?_⟩, .inr ⟨.none rfl h.ok.urefs_le, by simp⟩, ?_⟩
    · simp [destination]
      grind
    · constructor <;> simp [type, h.handed]
    · simp [h.handed]
      exact .keep (by simp [type])
  | sendReceive type pos lt =>
    simp only [ipcRightCopyin, type]
    refine ⟨⟨by simp, by simp, ?_, fun hnull _ => ?_⟩, .inr ⟨.send rfl pos lt, by simp⟩, ?_⟩
    · simp [destination]
      grind
    · constructor <;> simp [type, h.handed]
    · simp [h.handed]
      exact .insert (by simp [type]) (by simp)
  | _ type => simpa [ipcRightCopyin, type, Gives] using h.refl

/-- The last user reference of a send right is moved out of the space, with more that are made. -/
theorem moveSend_last (hsend : s.entry.ieBits.type.send = true) {g : IpcPort → IpcPort}
    (hf : ∀ p, (f p).rights = { p.rights with srights := p.rights.srights + n })
    (hg : ∀ p, (g p).rights = { p.rights with srights := p.rights.srights + n }) :
    let r :=
      if s.entry.ieBits.type.receive then
        (ipNull, s.onPort s.entry.ieObject f)
      else
        ((ipcRightDncancel s.entry.ieObject s).1, ((((ipcRightDncancel s.entry.ieObject s).2.call
            (.hashDelete s.entry.ieObject)).cancelMarequest s.entry.ieBits).onPort
              s.entry.ieObject g).setObject ioNull)
    RightEffect q s (r.2.setBits { s.entry.ieBits with
        urefs := 0, type := { s.entry.ieBits.type with send := false } })
      ((⟨n + 1, 0, 0⟩ : Rights).only s.entry.ieObject q) .zero := by
  have hc := h.handed (q := q)
  cases h.ok with
  | send type pos lt =>
    simp only [type]
    refine .of_stays ⟨.none rfl (Nat.zero_le _), by simp⟩ (by simp [hg]) (fun hnull _ => ?_) ?_
    · constructor <;> simp [type, hg, hc]
      split_ifs <;> omega
    · simp [hc]
      exact .delete (by simp [type]) (by simp)
  | sendReceive type =>
    simp only [type]
    refine .of_stays ⟨.receive rfl rfl, fun _ => h.receiver (by simp [type])⟩ (by simp [hf])
      (fun hnull _ => ?_) ?_
    · constructor <;> simp [type, hf, hc]
      split_ifs <;> omega
    · simp [hc]
      exact .keep (by simp [type])
  | _ type => simp [type] at hsend

/-- User references of a send right are moved out of the space, but not the last. -/
theorem moveSend_some (hsend : s.entry.ieBits.type.send = true) (hn : n < s.entry.ieBits.urefs)
    (hf : ∀ p, (f p).rights = { p.rights with srights := p.rights.srights + n }) :
    RightEffect q s ((s.onPort s.entry.ieObject f).setBits (s.entry.ieBits.add (-n)))
      ((⟨n, 0, 0⟩ : Rights).only s.entry.ieObject q) .zero := by
  have hc := h.handed (q := q)
  have hok := h.ok.setUrefs hsend (Nat.sub_pos_of_lt hn)
    ((Nat.sub_le ..).trans_lt (h.ok.of_sendRights (by simp [hsend])).2)
  rw [IeBits.add_neg h.fits hn.le]
  refine .of_stays ⟨hok, h.receiver⟩ (by simp [hf]) (fun hnull _ => ?_) ?_
  · constructor <;> simp <;> grind
  · simp [hc]
    exact .keep rfl

theorem moveSendOnce_effect (honce : s.entry.ieBits.type.sendOnce = true) : RightEffect q s
      (((ipcRightDncancel s.entry.ieObject s).2.setObject ioNull).setBits
        { s.entry.ieBits with type := { s.entry.ieBits.type with sendOnce := false } })
      ((⟨0, 1, 0⟩ : Rights).only s.entry.ieObject q) .zero := by
  cases h.ok with
  | sendOnce type =>
    simp only [type]
    refine .of_stays ⟨.none rfl h.ok.urefs_le, by simp⟩ (by simp) (fun hnull _ => ?_) ?_
    · constructor <;> simp [type, h.handed]
    · simp [h.handed]
      exact .keep (by simp [type])
  | _ type => simp [type] at honce

theorem ipcRightCopyin_effect (msgtName : MachMsgTypeName) (deadok : Bool) :
    Gives q s (msgtName.given q) (ipcRightCopyin msgtName deadok s) := by
  cases msgtName with
  | makeSend =>
    simp only [ipcRightCopyin]
    split
    · exact h.refl
    · exact addSend_effect h fun _ => rfl
  | makeSendOnce =>
    simp only [ipcRightCopyin]
    split
    · exact h.refl
    · exact makeSendOnce_effect h
  | moveReceive => exact moveReceive_effect h deadok
  | copySend =>
    refine copyinSendRight_effect h _ (fun s' hs => hs.copyDead ..) fun _ _ => ?_
    split
    · exact h.refl
    · exact addSend_effect h fun _ => rfl
  | moveSend =>
    refine copyinSendRight_effect h _ (fun s' hs => hs.moveDead ..) fun _ _ => ?_
    split
    · exact h.refl
    rename_i hsend
    rw [not_not] at hsend
    split
    · have hlast := moveSend_last h hsend (n := 0) (f := .reference) (g := id) (q := q)
        (fun _ => rfl) fun _ => rfl
      simp only [onPort, IpcPorts.modify, id, Function.update_eq_self] at hlast
      exact hlast
    · have hpos := (h.ok.of_sendRights (by simp [hsend])).1
      exact moveSend_some h hsend (n := 1) (by omega) fun _ => rfl
  | moveSendOnce =>
    refine copyinSendRight_effect h _ (fun s' hs => hs.moveDead ..) fun _ _ => ?_
    split
    · exact h.refl
    · rename_i honce
      rw [not_not] at honce
      exact moveSendOnce_effect h honce

end

/-! ## Undoing a copyin -/

/-- What `ipc_right_copyin_undo` may be called for: the object of a copyin that is dead,
and an entry as the copyin has left it. -/
structure UndoLegal (msgtName : MachMsgTypeName) (object soright : Nat) (s : RightState) :
    Prop where
  name : msgtName = .moveSend ∨ msgtName = .copySend ∨ msgtName = .moveSendOnce
  dead : object = ioDead ∨ (s.ports.port object).ipActive = false
  soright : soright ≠ ipNull → s.entry.ieBits.type = machPortTypeNone
  null : s.entry.ieBits.type = machPortTypeNone → s.entry.ieObject = ioNull
  type : s.entry.ieBits.type = machPortTypeNone ∨ s.entry.ieBits.type = machPortTypeDeadName ∨
    s.entry.ieBits.type = machPortTypeSend
  deadName : s.entry.ieBits.type = machPortTypeDeadName → msgtName ≠ .copySend →
    s.entry.ieBits.urefs < machPortUrefsMax
  send : s.entry.ieBits.type = machPortTypeSend → object ≠ ioDead ∧ s.entry.ieObject = object ∧
    (msgtName ≠ .copySend → s.entry.ieBits.urefs + 1 < machPortUrefsMax)

theorem RightEffect.onPort {gain lose : Rights}
    (h : RightEffect q s s' gain lose) (hf : ∀ p, (f p).rights = p.rights)
    (port : Nat) : RightEffect q s (s'.onPort port f) gain lose := by
  have hat : (s'.onPort port f).at q = s'.at q := by
    rw [RightState.at, onPort_ports, IpcPorts.rights_modify, hf, ite_self]
    rfl
  obtain ⟨⟨ha, hp, ht, hb⟩, ok, hs⟩ := h
  refine ⟨⟨by rw [hat, ha], by rw [hat, hp], by rw [hat]; exact ht, fun hnull hdead => ?_⟩, ok, hs⟩
  obtain ⟨h1, h2, h3⟩ := hb hnull hdead
  exact ⟨by rw [hat]; exact h1, by rw [hat]; exact h2, h3⟩

theorem undoNone_effect (h : s.Ready) (type : s.entry.ieBits.type = machPortTypeNone)
    (object : s.entry.ieObject = ioNull) (hpos : 0 < n) (hle : n ≤ machPortUrefsMax) :
    RightEffect q s (s.setBits
      { s.entry.ieBits.clearRight with type := machPortTypeDeadName, urefs := n }) .zero .zero := by
  refine .of_stays ⟨.deadName rfl hpos hle object, by simp⟩ (by simp) (fun hnull _ => ?_) ?_
  · constructor <;> simp [type, h.handed]
  · simp [h.handed]
    exact .keep (by simp [type])

/-- More user references of a send right do not change what happens to it next. -/
theorem RightEffect.of_setBits {gain lose : Rights} {bits : IeBits}
    (h : RightEffect q (s.setBits bits) s' gain lose)
    (htype : bits.type = s.entry.ieBits.type) : RightEffect q s s' gain lose := by
  obtain ⟨⟨ha, hp, ht, hb⟩, ok, hs⟩ := h
  have hpure : (s.setBits bits).entry.pureSend = s.entry.pureSend := by
    simp only [IpcEntry.pureSend, setBits_entry, htype]
  refine ⟨⟨ha, hp, ht, fun hnull hdead => ?_⟩, ok, ?_⟩
  · obtain ⟨h1, h2, h3⟩ := hb hnull hdead
    simp only [IpcEntry.sends, IpcEntry.sendsOnce, IpcEntry.receives, setBits_entry,
      htype] at h1 h2 h3
    exact ⟨h1, h2, h3⟩
  · exact hs.congr_left hpure

theorem RightEffect.lose_dead {object : Nat} {r : Rights}
    (h : RightEffect q s s' .zero .zero) (hr : r.receive = 0)
    (hdead : object = ioDead ∨ (s.ports.port object).ipActive = false) :
    RightEffect q s s' .zero (r.only object q) := by
  refine ⟨⟨h.active, h.pdrequest, h.transit, fun hnull hne => ?_⟩, h.stored, h.space⟩
  have hother : (s.at q).active = true → object ≠ q := by
    rintro ha rfl
    rcases hdead with rfl | hdead
    · exact hne rfl
    · rw [RightState.at, IpcPort.rights, hdead] at ha
      cases ha
  have hbalanced := h.balanced hnull hne
  refine ⟨fun ha => ?_, fun ha => ?_, ?_⟩
  · rw [Rights.only_of_ne _ (hother ha)]
    exact hbalanced.send ha
  · rw [Rights.only_of_ne _ (hother ha)]
    exact hbalanced.sendOnce ha
  · rw [Rights.only_receive, hr, ite_self]
    exact hbalanced.receive

section

variable (h : s.Ready)
include h

theorem ipcRightCopyinUndo_effect
    {msgtName : MachMsgTypeName} {object soright : Nat}
    (hlegal : UndoLegal msgtName object soright s) :
    RightEffect q s (ipcRightCopyinUndo msgtName object soright s) .zero
      (msgtName.right.only object q) := by
  have hright : msgtName.right.receive = 0 := by
    rcases hlegal.name with rfl | rfl | rfl <;> rfl
  refine .lose_dead ?_ hright hlegal.dead
  have hrelease : ∀ {s' : RightState}, RightEffect q s s' .zero .zero →
      RightEffect q s (if object ≠ ioDead then s'.onPort object .release else s') .zero .zero := by
    intro s' h'
    split
    · exact h'.onPort IpcPort.rights_release _
    · exact h'
  refine hrelease ?_
  split
  · rename_i hso
    have type := hlegal.soright hso
    exact undoNone_effect h type (hlegal.null type) (by decide) (by decide)
  split
  · rename_i type
    exact undoNone_effect h type (hlegal.null type) (by decide) (by decide)
  split
  · rename_i type
    have hdead := h.deadState (q := q) type
    split
    · rename_i hmove
      have hlt := hlegal.deadName type hmove
      rw [IeBits.add_one h.fits.gen hlt]
      exact hdead.setBits (.deadName type (Nat.succ_pos _) hlt hdead.object) (.inl type)
    · exact hdead.toRightEffect
  rename_i hnone hdead
  have type : s.entry.ieBits.type = machPortTypeSend := by
    rcases hlegal.type with ht | ht | ht
    · exact absurd ht hnone
    · exact absurd ht hdead
    · exact ht
  obtain ⟨hne, hobj, hmax⟩ := hlegal.send type
  have hinactive : (s.ports.port s.entry.ieObject).ipActive = false := by
    rw [hobj]
    exact hlegal.dead.resolve_left hne
  rw [← hobj]
  split
  · rename_i hmove
    have hlt := hmax hmove
    rw [IeBits.add_one h.fits.gen (Nat.lt_of_succ_lt hlt)]
    have hready : (s.setBits
        { s.entry.ieBits with urefs := s.entry.ieBits.urefs + 1 }).Ready :=
      ⟨.send type (Nat.succ_pos _) hlt, ⟨hlt.trans_le (by decide), h.fits.gen⟩,
        h.calls, h.receiver, h.srights⟩
    obtain ⟨s', heq, heffect, -⟩ :=
      ipcRightCheck_dead hready (by simp [type]) hinactive
    simp only [setBits_entry] at heq ⊢
    rw [heq]
    exact heffect.of_setBits rfl
  · obtain ⟨s', heq, heffect, -⟩ :=
      ipcRightCheck_dead h (by simp [type]) hinactive
    simp only [heq]
    exact heffect

/-! ## Copyin of two send rights -/

/-- The two send rights that were given. -/
def twoGiven (q : Nat) : Copyin → Rights
  | .error _ => .zero
  | .ok (object, _) => (⟨2, 0, 0⟩ : Rights).only object q

theorem check_effect {α : Type} (hright : (s.ports.port s.entry.ieObject).ipActive = false →
      s.entry.ieBits.type.sendRights = true) {dead : Except KernReturn α}
    {live : RightState → Except KernReturn α × RightState} {g : Except KernReturn α → Rights}
    (hdead : g dead = .zero)
    (hlive : (s.ports.port s.entry.ieObject).ipActive = true → Gives q s g (live s)) :
    Gives q s g (match ipcRightCheck s.entry.ieObject s with
      | (true, s) => (dead, s)
      | (false, s) => live s) := by
  have hrefuse (s' : RightState) (hs : DeadState q s s') : Gives q s g (dead, s') := by
    simpa only [Gives, hdead] using hs.toRightEffect
  simpa only [ite_self] using onCheck_effect h hright hdead hrefuse hlive

theorem ipcRightCopyinTwo_effect : Gives q s (twoGiven q) (ipcRightCopyinTwo s) := by
  unfold ipcRightCopyinTwo
  dsimp only
  split
  · exact h.refl
  rename_i hsend
  rw [not_not] at hsend
  split
  · exact h.refl
  refine check_effect h (fun _ => by simp [hsend]) (by split <;> rfl) fun _ => ?_
  split
  · exact moveSend_last h hsend (n := 1) (fun _ => rfl) fun _ => rfl
  · exact moveSend_some h hsend (n := 2) (by omega) fun _ => rfl

/-! ## Copyout -/

/-- The naked right that a copyout consumes. -/
def MachMsgTypePort.right : MachMsgTypePort → Rights
  | .portReceive => ⟨0, 0, 1⟩
  | .portSend => ⟨1, 0, 0⟩
  | .portSendOnce => ⟨0, 1, 0⟩

/-- The rights that a copyout consumes. -/
def MachMsgTypePort.taken (msgtName : MachMsgTypePort) (object q : Nat) :
    Except KernReturn Unit → Rights
  | .error _ => .zero
  | .ok _ => msgtName.right.only object q

/-- The entries that a right can be copied out to: an entry that already has rights for the
port, or a new one. -/
def CopyoutLegal (msgtName : MachMsgTypePort) (e : IpcEntry) : Prop :=
  (e.ieBits.type = machPortTypeNone ∧ e.ieBits.urefs = 0) ∨
    match msgtName with
    | .portSendOnce => False
    | .portSend => e.ieBits.type.sendReceive = true
    | .portReceive => e.ieBits.type = machPortTypeSend

theorem copyoutSend_effect (overflow : Bool)
    (hactive : (s.ports.port s.entry.ieObject).ipActive = true)
    (hlegal : CopyoutLegal .portSend s.entry) :
    RightEffect q s (ipcRightCopyout space name .portSend overflow s).2 .zero
      (MachMsgTypePort.portSend.taken s.entry.ieObject q
        (ipcRightCopyout space name .portSend overflow s).1) := by
  have hc := h.handed (q := q)
  have hlt : s.entry.ieBits.urefs < machPortUrefsMax := by
    rcases hlegal with ⟨-, urefs⟩ | hlegal
    · rw [urefs]
      decide
    cases h.ok with
    | receive _ urefs => rw [urefs]; decide
    | send _ _ lt | sendReceive _ _ lt => exact lt
    | _ type => simp [type] at hlegal
  have hadd := IeBits.add_one
    (b := { s.entry.ieBits with type := { s.entry.ieBits.type with send := true } }) h.fits.gen hlt
  simp only [ipcRightCopyout, hadd]
  split
  · -- The send right is merged with the one that is there.
    rename_i hsend
    have hpos := h.srights hsend hactive
    have htype : { s.entry.ieBits.type with send := true } = s.entry.ieBits.type := by rw [← hsend]
    rw [htype]
    split
    · split
      · refine .of_stays h.storable (by simp) (fun hnull _ => ?_) ?_
        · constructor <;> simp [taken, right] <;> grind
        · simp [hc]
          exact .keep (by simp)
      · exact h.refl
    · refine .of_stays ⟨h.ok.setUrefs hsend (Nat.succ_pos _) (by omega), h.receiver⟩ (by simp)
        (fun hnull _ => ?_) ?_
      · constructor <;> simp [taken, right] <;> grind
      · simp [hc]
        exact .keep (by simp)
  rename_i hsend
  cases h.ok with
  | none type =>
    have urefs : s.entry.ieBits.urefs = 0 := by
      rcases hlegal with ⟨-, urefs⟩ | hlegal
      · exact urefs
      · simp [type] at hlegal
    simp only [type]
    refine .of_stays ⟨.send rfl (Nat.succ_pos _) ?_, by simp⟩ (by simp) (fun hnull _ => ?_) ?_
    · show s.entry.ieBits.urefs + 1 < machPortUrefsMax
      rw [urefs]
      decide
    · constructor <;> simp [type, hc, taken, right]
    · simp [hc]
      exact .insert (by simp [type]) (by simp)
  | receive type urefs =>
    simp only [type]
    refine .of_stays ⟨.sendReceive rfl (Nat.succ_pos _) ?_, fun _ => hactive⟩ (by simp)
      (fun hnull _ => ?_) ?_
    · show s.entry.ieBits.urefs + 1 < machPortUrefsMax
      rw [urefs]
      decide
    · constructor <;> simp [type, hc, taken, right]
    · simp [hc]
      exact .keep (by simp [type])
  | send type | sendReceive type => simp [type] at hsend
  | _ type => simp [CopyoutLegal, type] at hlegal

/-- A receive right is copied out: the port leaves limbo or transit for a space. -/
theorem copyoutReceive_effect (hname : name ≠ machPortNull)
    (overflow : Bool) (hactive : (s.ports.port s.entry.ieObject).ipActive = true)
    (hlegal : CopyoutLegal .portReceive s.entry) :
    RightEffect q s (ipcRightCopyout space name .portReceive overflow s).2 .zero
      (MachMsgTypePort.portReceive.taken s.entry.ieObject q
        (ipcRightCopyout space name .portReceive overflow s).1) := by
  have hdest : ∀ {s' : RightState} {gain lose : Rights}, RightEffect q s s' gain lose →
      RightEffect q s (if (s.ports.port s.entry.ieObject).ipDestination ≠ ipNull then
        s'.onPort (s.ports.port s.entry.ieObject).ipDestination .release else s')
        gain lose := by
    intro s' gain lose h'
    split
    · exact h'.onPort IpcPort.rights_release _
    · exact h'
  simp only [ipcRightCopyout]
  refine hdest ?_
  cases h.ok with
  | none type =>
    have urefs : s.entry.ieBits.urefs = 0 := by
      rcases hlegal with ⟨-, urefs⟩ | hlegal
      · exact urefs
      · simp [type] at hlegal
    simp only [type]
    refine ⟨⟨by simp, by simp, ?_, fun hnull _ => ?_⟩,
      .inr ⟨.receive rfl urefs, fun _ => hactive⟩, ?_⟩
    · simp [destination]
      grind
    · constructor <;> simp [type, h.handed, taken, right]
    · simp [h.handed]
      exact .keep (by simp [type])
  | send type pos lt =>
    simp only [type]
    refine ⟨⟨by simp, by simp, ?_, fun hnull _ => ?_⟩,
      .inr ⟨.sendReceive rfl pos lt, fun _ => hactive⟩, ?_⟩
    · simp [destination]
      grind
    · constructor <;> simp [type, h.handed, taken, right]
    · simp [h.handed]
      exact .delete (by simp [type]) (by simp)
  | _ type => simp [CopyoutLegal, type] at hlegal

theorem ipcRightCopyout_effect (hname : name ≠ machPortNull)
    (msgtName : MachMsgTypePort) (overflow : Bool)
    (hactive : (s.ports.port s.entry.ieObject).ipActive = true)
    (hlegal : CopyoutLegal msgtName s.entry) :
    RightEffect q s (ipcRightCopyout space name msgtName overflow s).2 .zero
      (msgtName.taken s.entry.ieObject q (ipcRightCopyout space name msgtName overflow s).1) := by
  cases msgtName with
  | portSendOnce =>
    have hc := h.handed (q := q)
    rcases hlegal with ⟨type, urefs⟩ | hlegal
    · simp only [ipcRightCopyout, type, urefs]
      refine .of_stays ⟨.sendOnce rfl rfl, by simp⟩ (by simp) (fun hnull _ => ?_) ?_
      · constructor <;> simp [type, hc, taken, right]
      · simp [hc]
        exact .keep (by simp [type])
    · cases hlegal
  | portSend => exact copyoutSend_effect h overflow hactive hlegal
  | portReceive => exact copyoutReceive_effect h hname overflow hactive hlegal

/-! ## The old interface -/

/-- The naked right that a copyin through the old interface makes. -/
@[local simp]
def MsgTypePort.right : MsgTypePort → Rights
  | .port => ⟨1, 0, 0⟩
  | .portAll => ⟨0, 0, 1⟩

/-- The rights that a copyin through the old interface returns. -/
def MsgTypePort.given (msgtName : MsgTypePort) (q : Nat) : Except KernReturn Nat → Rights
  | .error _ => .zero
  | .ok object => msgtName.right.only object q

/-- `ipc_right_copyin_compat` frees a live send right that is in the reverse hash table. -/
def CompatLeaks (msgtName : MsgTypePort) (dealloc : Bool) (s : RightState) : Prop :=
  msgtName = .port ∧ dealloc = true ∧ s.entry.ieBits.type = machPortTypeSend ∧
    (s.ports.port s.entry.ieObject).ipActive = true

theorem compatPort_dealloc (name : Nat) (type : s.entry.ieBits.type = machPortTypeSend) :
    EntryEffect q s
      (((ipcRightDncancel s.entry.ieObject s).2.cancelMarequest
      s.entry.ieBits).dealloc.notifyDeleted
        (ipcRightDncancel s.entry.ieObject s).1 name)
      ((⟨1, 0, 0⟩ : Rights).only s.entry.ieObject q) .zero := by
  refine ⟨.of_stays (by simp) fun hnull _ => ?_, .inl (by simp), ?_⟩
  · constructor <;> simp [type, h.handed, hnull.symm]
  · simp [h.handed]
    exact .dealloc (by simp)

theorem compatPortAll_dealloc (name : Nat) (hrecv : s.entry.ieBits.type.receive = true) :
    Gives q s (MsgTypePort.portAll.given q) (ipcRightCopyinCompat name .portAll true s) := by
  have hc := h.handed (q := q)
  cases h.ok with
  | receive type =>
    simp only [ipcRightCopyinCompat, type]
    refine ⟨⟨by simp, by simp, ?_, fun hnull _ => ?_⟩, .inl (by simp), ?_⟩
    · simp [destination]
      grind
    · constructor <;> simp [type, hc, hnull.symm, given]
    · simp [hc]
      exact .dealloc (by simp [type]) (by simp)
  | sendReceive type =>
    have hpos := h.srights (by simp [type]) (h.receiver (by simp [type]))
    simp only [ipcRightCopyinCompat, type]
    refine ⟨⟨by simp [dropSend], by simp [dropSend], ?_, fun hnull _ => ?_⟩,
      .inl (by simp [dropSend]), ?_⟩
    · simp [destination, dropSend]
      grind
    · constructor <;> simp [type, given, dropSend] <;> grind
    · simp [hc, dropSend]
      exact .dealloc (by simp [type]) (by simp)
  | _ type => simp [type] at hrecv

theorem compatPortAll_keep (name : Nat) (hrecv : s.entry.ieBits.type.receive = true) :
    Gives q s (MsgTypePort.portAll.given q) (ipcRightCopyinCompat name .portAll false s) := by
  have hc := h.handed (q := q)
  cases h.ok with
  | receive type urefs =>
    simp only [ipcRightCopyinCompat, type, urefs]
    refine ⟨⟨by simp, by simp, ?_, fun hnull _ => ?_⟩,
      .inr ⟨.send rfl Nat.one_pos (show 1 < 65535 by decide), by simp⟩, ?_⟩
    · simp [destination]
      grind
    · constructor <;> simp [type, given] <;> grind
    · simp [hc]
      exact .insert (by simp [type]) (by simp)
  | sendReceive type pos lt =>
    simp only [ipcRightCopyinCompat, type]
    refine ⟨⟨by simp, by simp, ?_, fun hnull _ => ?_⟩,
      .inr ⟨.send (by simp [type]) pos lt, by simp⟩, ?_⟩
    · simp [destination]
      grind
    · constructor <;> simp [type, hc, given]
    · simp [hc]
      exact .insert (by simp [type]) (by simp [type])
  | _ type => simp [type] at hrecv

/-- `ipc_right_copyin_compat` balances the rights, and it keeps the reverse hash table up to
date unless it pulls a live send right out. -/
theorem ipcRightCopyinCompat_effect (name : Nat) (msgtName : MsgTypePort) (dealloc : Bool) :
    EntryEffect q s (ipcRightCopyinCompat name msgtName dealloc s).2
        (msgtName.given q (ipcRightCopyinCompat name msgtName dealloc s).1) .zero ∧
      (¬ CompatLeaks msgtName dealloc s →
        Gives q s (msgtName.given q) (ipcRightCopyinCompat name msgtName dealloc s)) := by
  have hright : ∀ {r : Except KernReturn Nat × RightState} {gain : Rights},
      RightEffect q s r.2 gain .zero →
      EntryEffect q s r.2 gain .zero ∧
        (¬ CompatLeaks msgtName dealloc s → RightEffect q s r.2 gain .zero) :=
    fun h' => ⟨h'.entryEffect, fun _ => h'⟩
  cases msgtName with
  | port =>
    cases dealloc with
    | true =>
      simp only [ipcRightCopyinCompat]
      split
      · exact hright h.refl
      rename_i type
      rw [ne_eq, not_not] at type
      cases hactive : (s.ports.port s.entry.ieObject).ipActive with
      | true =>
        rw [ipcRightCheck_active hactive]
        refine ⟨compatPort_dealloc h name type, fun hleak => ?_⟩
        exact absurd ⟨rfl, rfl, type, hactive⟩ hleak
      | false =>
        obtain ⟨s', heq, heffect, -⟩ :=
          ipcRightCheck_dead h (by simp [type]) hactive
        rw [heq]
        simp only
        split
        · exact hright (r := (.error .invalidName, s')) heffect
        · exact hright (r := (.error .invalidRight, s')) heffect
    | false =>
      simp only [ipcRightCopyinCompat]
      split
      · exact hright h.refl
      rename_i htype
      rw [not_not] at htype
      refine hright (check_effect h (fun hdead => ?_) (by split <;> rfl) fun _ => ?_)
      · rcases Bool.or_eq_true_iff.mp htype with hsend | hrecv
        · simp [hsend]
        · rw [h.receiver hrecv] at hdead
          cases hdead
      · exact addSend_effect h fun p => by split <;> rfl
  | portAll =>
    cases dealloc with
    | true =>
      by_cases hrecv : s.entry.ieBits.type.receive = true
      · exact hright (compatPortAll_dealloc h name hrecv)
      · simp only [ipcRightCopyinCompat, hrecv]
        exact hright h.refl
    | false =>
      by_cases hrecv : s.entry.ieBits.type.receive = true
      · exact hright (compatPortAll_keep h name hrecv)
      · simp only [ipcRightCopyinCompat, hrecv]
        exact hright h.refl

end

/-- The right that was given. -/
def headerGiven (q : Nat) : Except KernReturn (Nat × MachMsgTypePort) → Rights
  | .error _ => .zero
  | .ok (object, msgtName) => msgtName.right.only object q

/-- A send right for the notify port is made if there is a live one. -/
theorem ipcSpaceMakeNotify_cases (isNotify : Nat) (s : RightState) :
    ipcSpaceMakeNotify isNotify s = (none, s) ∨ ipcSpaceMakeNotify isNotify s =
        (some isNotify, s.onPort isNotify fun p => p.reference.addSend 1) := by
  unfold ipcSpaceMakeNotify
  split
  · exact .inl rfl
  unfold ipcPortCopySend
  split
  · exact .inr rfl
  · exact .inl rfl

theorem headerSendOnce_effect (h : s.Ready) (isNotify name : Nat)
    (type : s.entry.ieBits.type = machPortTypeSendOnce) :
    let r := ipcRightDncancel s.entry.ieObject s
    let n := ipcSpaceMakeNotify isNotify r.2.dealloc
    RightEffect q s (match n.1 with
        | some notify =>
          (n.2.notifyDeleted r.1 name).call (.notifyPortDeletedCompat notify name)
        | none => n.2.notifyDeleted r.1 name)
      ((⟨0, 1, 0⟩ : Rights).only s.entry.ieObject q) .zero := by
  rcases ipcSpaceMakeNotify_cases isNotify (ipcRightDncancel s.entry.ieObject s).2.dealloc with
    heq | heq
  all_goals
    simp only [heq]
    refine .of_dealloc (by simp) (by simp) (fun hnull _ => ?_) ?_
    · constructor <;> simp [type, h.handed, hnull.symm] <;> grind
    · simp [h.handed]
      exact .dealloc (by simp [type]) (by simp)

theorem ipcRightCopyinHeader_effect (h : s.Ready) (isNotify name : Nat)
    (htyped : s.entry.ieBits.type ≠ machPortTypeNone) :
    Gives q s (headerGiven q) (ipcRightCopyinHeader isNotify name s) := by
  unfold ipcRightCopyinHeader
  dsimp only
  split
  · exact h.refl
  rename_i hne
  split
  · exact addSend_effect h fun _ => rfl
  rename_i hrecv
  split
  · rename_i hsend
    refine check_effect h (fun _ => ?_) (by split <;> rfl) fun _ => ?_
    · rcases hsend with hsend | hsend <;> simp [hsend]
    · exact addSend_effect h fun _ => rfl
  rename_i hsend
  have type : s.entry.ieBits.type = machPortTypeSendOnce := by
    cases h.ok with
    | sendOnce type => exact type
    | none t => exact absurd t htyped
    | send t => exact absurd (.inl t) hsend
    | receive t => exact absurd t hrecv
    | sendReceive t => exact absurd (.inr t) hsend
    | portSet t => exact absurd (.inl t) hne
    | deadName t => exact absurd (.inr t) hne
  refine check_effect h (fun _ => by simp [type]) (by split <;> rfl) fun _ => ?_
  exact headerSendOnce_effect h isNotify name type

end Mach
