import Mach.Ipc.RightBalance

/-!
# The effect of giving up rights
-/

namespace Mach

open RightState IeBits PortTypes RightCounts

attribute [local simp] RightState.dropSend clearRight

variable {s : RightState} {q : Nat}

theorem RightState.ne_of_inactive (h : (s.ports.port s.entry.ieObject).ipActive ≠ true)
    (ha : (s.ports.port q).rights.active = true) : s.entry.ieObject ≠ q := by
  rintro rfl
  exact h ha

/-! ## User references -/

section

variable (h : s.Ready)
include h

theorem deallocSend_effect (name : Nat) (type : s.entry.ieBits.type = machPortTypeSend)
    (hactive : (s.ports.port s.entry.ieObject).ipActive = true) :
    RightEffect q s (s.deallocSend s.entry.ieBits s.entry.ieObject name) .zero .zero := by
  have hpos := h.srights (by simp [type]) hactive
  simp only [deallocSend]
  refine .of_dealloc (by simp) (by simp) (fun hnull _ => ?_) ?_
  · constructor <;> simp [type, h.handed, hnull.symm]
    grind
  · simp [h.handed]
    exact .deleteDealloc (by simp [type]) (by simp)

theorem deallocSendReceive_effect (type : s.entry.ieBits.type = machPortTypeSendReceive) :
    RightEffect q s (s.deallocSendReceive s.entry.ieBits s.entry.ieObject) .zero .zero := by
  have hactive := h.receiver (by simp [type])
  have hpos := h.srights (by simp [type]) hactive
  simp only [deallocSendReceive]
  refine .of_stays ⟨.receive (by simp [type]) (by simp), fun _ => by simpa using hactive⟩ (by simp)
    (fun _ _ => ?_) ?_
  · constructor <;> simp [type, h.handed]
    grind
  · simp [h.handed]
    exact .keep (by simp [type])

theorem deallocSendOnce_effect (name : Nat) (type : s.entry.ieBits.type = machPortTypeSendOnce) :
    RightEffect q s (s.deallocSendOnce s.entry.ieObject name) .zero .zero := by
  simp only [deallocSendOnce]
  refine .of_dealloc (by simp) (by simp) (fun hnull _ => ?_) ?_
  · constructor <;> simp [type, h.handed, hnull.symm]
  · simp [h.handed]
    exact .dealloc (by simp [type]) (by simp)

theorem setUrefs_effect (hsend : s.entry.ieBits.type.send = true) {n : Nat}
    (hpos : 0 < n) (hlt : n < machPortUrefsMax) :
    RightEffect q s (s.setBits { s.entry.ieBits with urefs := n }) .zero .zero := by
  refine .of_stays ⟨h.ok.setUrefs hsend hpos hlt, h.receiver⟩ (by simp) (fun hnull _ => ?_) ?_
  · constructor <;> simp [h.handed]
  · simp [h.handed]
    exact .keep rfl

theorem subUref_effect (hsend : s.entry.ieBits.type.send = true) (hu : s.entry.ieBits.urefs ≠ 1) :
    RightEffect q s (s.setBits (s.entry.ieBits.add (-1))) .zero .zero := by
  obtain ⟨pos, lt⟩ := h.ok.of_sendRights (by simp [hsend])
  rw [show (-1 : Int) = -((1 : Nat) : Int) by rfl, add_neg h.fits pos]
  exact setUrefs_effect h hsend (by omega) (by omega)

theorem ipcRightDealloc_effect (name : Nat) :
    RightEffect q s (ipcRightDealloc name s).2 .zero .zero := by
  unfold ipcRightDealloc
  dsimp only
  split
  · rename_i type
    exact (h.deadState type).deallocDeadName
  split
  · rename_i type
    exact onCheck_effect (g := fun _ => .zero) h (fun _ => by simp [type]) rfl
      (fun _ hs => hs.deallocDeadName)
      fun _ => deallocSendOnce_effect h name type
  split
  · rename_i type
    refine onCheck_effect (g := fun _ => .zero) h (fun _ => by simp [type]) rfl
      (fun _ hs => hs.deallocDeadName)
      fun hactive => ?_
    split
    · exact deallocSend_effect h name type hactive
    · rename_i hu
      exact subUref_effect h (by simp [type]) hu
  · split
    · rename_i type
      split
      · exact deallocSendReceive_effect h type
      · rename_i hu
        exact subUref_effect h (by simp [type]) hu
    · exact h.refl

/-! ## Changing the number of user references -/

/-- The send right that goes with the receive right: `ipc_right_delta` leaves it to the
destruction of the port. -/
def deltaLost (right : MachPortRight) (delta : Int) (e : IpcEntry) (q : Nat) : Rights :=
  if right = .receive ∧ delta = -1 ∧ e.ieBits.type = machPortTypeSendReceive then
    (⟨1, 0, 0⟩ : Rights).only e.ieObject q
  else .zero

theorem deltaReceive_effect (name : Nat) : RightEffect q s (ipcRightDelta name .receive (-1) s).2
      (deltaLost .receive (-1) s.entry q) .zero := by
  have hc := h.handed (q := q)
  cases h.ok with
  | receive type =>
    have hlost : deltaLost .receive (-1) s.entry q = .zero := by simp [deltaLost, type]
    rw [hlost]
    cases hco : s.entry.ieBits.compat with
    | _ =>
      simp only [ipcRightDelta, type, hco]
      refine .of_dealloc (by simp) (by simp) (fun hnull _ => ?_) ?_
      · constructor <;> simp [type, hc, hnull.symm]
      · simp [hc]
        exact .dealloc (by simp [type]) (by simp)
  | sendReceive type pos lt =>
    have hlost : deltaLost .receive (-1) s.entry q =
        (⟨1, 0, 0⟩ : Rights).only s.entry.ieObject q := by simp [deltaLost, type]
    rw [hlost]
    cases hco : s.entry.ieBits.compat with
    | true =>
      simp only [ipcRightDelta, type, hco]
      refine .of_dealloc (by simp) (by simp) (fun hnull _ => ?_) ?_
      · constructor <;> simp [type, hc, hnull.symm]
      · simp [hc]
        exact .dealloc (by simp [type]) (by simp)
    | false =>
      have heq := toDeadName_of_lt (b := { s.entry.ieBits with marequest := false }) h.fits.gen lt
        s.entry.ieRequest
      have hmax : s.entry.ieBits.urefs + (if s.entry.ieRequest = 0 then 0 else 1) ≤
          machPortUrefsMax := by
        split
        · exact lt.le
        · exact lt
      have hpos := pos.trans_le (Nat.le_add_right _ (if s.entry.ieRequest = 0 then 0 else 1))
      simp only [type, hco] at heq
      simp only [ipcRightDelta, type, hco, quiet_cancelMarequest, heq]
      refine .of_stays ⟨.deadName (by simp) hpos hmax (by simp), by simp⟩ (by simp)
        (fun hnull _ => ?_) ?_
      · constructor <;> simp [type, hc]
      · simp [hc]
        exact .keep (by simp [type])
  | _ type => simpa [ipcRightDelta, deltaLost, type] using h.refl

theorem deltaReceive_destroys (type : s.entry.ieBits.type = machPortTypeSendReceive) (name : Nat) :
    ((ipcRightDelta name .receive (-1) s).2.ports.port q).rights = (s.ports.port q).rights ∧
      (handed q (ipcRightDelta name .receive (-1) s).2.calls).receive =
        if s.entry.ieObject = q then 1 else 0 := by
  cases hco : s.entry.ieBits.compat with
  | _ => simp [ipcRightDelta, type, hco, h.handed]

end

variable {s' : RightState}

theorem DeadState.delta (h : DeadState q s s') (delta : Int) : RightEffect q s
      (if machPortUrefsUnderflow s'.entry.ieBits.urefs delta then
        ((.error .invalidValue : Except KernReturn Unit), s')
      else if machPortUrefsOverflow s'.entry.ieBits.urefs delta then (.error .urefsOverflow, s')
      else if (s'.entry.ieBits.urefs : Int) + delta = 0 then (.ok (), s'.call .entryDealloc)
      else (.ok (), s'.setBits (s'.entry.ieBits.add delta))).2 .zero .zero := by
  split
  · exact h.toRightEffect
  rename_i hunder
  split
  · exact h.toRightEffect
  rename_i hover
  split
  · exact h.dealloc
  have hle := le_of_not_overflow (Nat.le_of_lt_succ h.fits.urefs) hover
  obtain ⟨n, hn⟩ := Int.eq_ofNat_of_zero_le (nonneg_of_not_underflow hunder)
  have hmax : n ≤ machPortUrefsMax := by omega
  rw [add_eq h.fits.gen hn.symm (Nat.lt_succ_of_le hmax)]
  refine h.setBits (.deadName h.type ?_ hmax h.object) (.inl h.type)
  show 0 < n
  omega

theorem deltaSend_effect (h : s.Ready) (name : Nat) (delta : Int) :
    RightEffect q s (ipcRightDelta name .send delta s).2 .zero .zero := by
  simp only [ipcRightDelta]
  split
  · exact h.refl
  rename_i hsend
  rw [not_not] at hsend
  split
  · exact h.refl
  rename_i hunder
  split
  · exact h.refl
  rename_i hover
  refine check_effect (g := fun _ => .zero) h (fun _ => by simp [hsend]) rfl fun hactive => ?_
  split
  · split
    · rename_i hrecv
      exact deallocSendReceive_effect h ((h.ok.of_send_type hsend).resolve_left
        fun type => by simp [type] at hrecv)
    · rename_i hrecv
      exact deallocSend_effect h name ((h.ok.of_send_type hsend).resolve_right
        fun type => by simp [type] at hrecv) hactive
  · have hle := le_of_not_overflow (h.ok.of_sendRights (by simp [hsend])).2 hover
    obtain ⟨n, hn⟩ := Int.eq_ofNat_of_zero_le (nonneg_of_not_underflow hunder)
    have hmax : n < machPortUrefsMax := by omega
    rw [add_eq h.fits.gen hn.symm (Nat.lt_succ_of_lt hmax)]
    exact setUrefs_effect h hsend (by omega) hmax

theorem deallocPortSet_effect (h : s.Ready)
    (type : s.entry.ieBits.type = machPortTypePortSet) {pset : Nat} :
    RightEffect q s (s.dealloc.call (.psetDestroy pset)) .zero .zero := by
  refine .of_dealloc (by simp) (by simp) (fun hnull _ => ?_) ?_
  · constructor <;> simp [type, h.handed]
  · simp [h.handed]
    exact .dealloc (by simp [type]) (by simp)

theorem ipcRightDelta_effect (h : s.Ready) (name : Nat) (right : MachPortRight) (delta : Int) :
    RightEffect q s (ipcRightDelta name right delta s).2 (deltaLost right delta s.entry q)
      .zero := by
  cases right with
  | receive =>
    by_cases hdelta : delta = -1
    · rw [hdelta]
      exact deltaReceive_effect h name
    rw [deltaLost, if_neg fun hd => hdelta hd.2.1]
    simp only [ipcRightDelta]
    split
    · exact h.refl
    · split
      · exact h.refl
      · exact h.refl
  | send =>
    exact deltaSend_effect h name delta
  | sendOnce =>
    simp only [ipcRightDelta]
    split
    · exact h.refl
    rename_i honce
    rw [not_not] at honce
    split
    · exact h.refl
    refine check_effect (g := fun _ => .zero) h (fun _ => by simp [honce]) rfl fun hactive => ?_
    split
    · exact h.refl
    · exact deallocSendOnce_effect h name (h.ok.of_sendOnce_type honce)
  | portSet =>
    simp only [ipcRightDelta]
    split
    · exact h.refl
    rename_i hset
    rw [not_not] at hset
    split
    · exact h.refl
    · split
      · exact h.refl
      · refine deallocPortSet_effect h ?_
        cases h.ok with
        | portSet type => exact type
        | _ type => simp [type] at hset
  | deadName =>
    simp only [ipcRightDelta]
    split
    · rename_i hright
      exact onCheck_effect (g := fun _ => .zero) h (fun _ => hright) rfl
        (fun _ hs => hs.delta delta)
        fun _ => h.refl
    split
    · exact h.refl
    · rename_i hdead
      rw [not_not] at hdead
      exact (h.deadState (h.ok.of_deadName hdead)).delta delta

/-! ## Destroying entries -/

theorem dropRights_effect (h : s.Ready) (name dnrequest : Nat)
    (hentry : s'.entry = { s.entry with ieObject := ioNull, ieRequest := 0 })
    (hports : ∀ q, (s'.ports.port q).rights = (s.ports.port q).rights)
    (hcalls : (handed q s'.calls).send = 0 ∧ (handed q s'.calls).sendOnce = 0 ∧
      (handed q s'.calls).receive = 0)
    (hactive : (s.ports.port s.entry.ieObject).ipActive = true) :
    PortEffect q s (s'.dropRights s.entry.ieBits.type s.entry.ieObject name dnrequest)
      .zero .zero := by
  obtain ⟨h1, h2, h3⟩ := hcalls
  cases h.ok with
  | send type | sendReceive type =>
    have hpos := h.srights (by simp [type]) hactive
    simp only [dropRights, type]
    refine .of_stays (by simp [hports]) fun hnull _ => ?_
    constructor <;> simp [type, hports, hentry, hnull.symm, h2, h3]
    grind
  | _ type =>
    simp only [dropRights, type]
    refine .of_stays (by simp [hports]) fun hnull _ => ?_
    constructor <;> simp [type, hports, hentry, hnull.symm, h1, h2, h3]

theorem entry_dropRights (type : MachPortType) (port name dnrequest : Nat) :
    (s.dropRights type port name dnrequest).entry = s.entry := by
  simp only [dropRights]
  split <;> split <;> simp <;> split <;> rfl

theorem space_dropRights (type : MachPortType) (port name dnrequest : Nat) :
    (handed q (s.dropRights type port name dnrequest).calls).space = (handed q s.calls).space := by
  simp only [dropRights]
  split <;> split <;> simp <;> split <;> simp

theorem setObject_dropRights (type : MachPortType) (port name dnrequest object : Nat) :
    (s.dropRights type port name dnrequest).setObject object =
      (s.setObject object).dropRights type port name dnrequest := by
  have hdeleted (s : RightState) : (s.notifyDeleted dnrequest name).setObject object =
      (s.setObject object).notifyDeleted dnrequest name := by
    unfold notifyDeleted
    split <;> rfl
  have hsenders (s : RightState) (r : Option (Nat × Nat)) :
      (s.notifyNoSenders r).setObject object = (s.setObject object).notifyNoSenders r := by
    cases r <;> rfl
  simp only [dropRights, hdeleted, hsenders]
  cases type.send <;> cases type.receive <;> cases type.sendOnce <;> rfl

@[simp] theorem unregister_spec (bits : IeBits) (port : Nat) (s : RightState) :
    (unregister bits port s).entry = s.entry ∧ (unregister bits port s).ports = s.ports ∧
      ∀ q, handed q (unregister bits port s).calls = { handed q s.calls with
        space := (handed q s.calls).space ++
          if bits.type = machPortTypeSend then [.hashDelete port] else [] } := by
  unfold unregister
  split <;> simp

theorem ipcRightDestroy_effect (h : s.Ready) (name : Nat) :
    RightEffect q s (ipcRightDestroy name s).2 .zero .zero := by
  have hc := h.handed (q := q)
  simp only [ipcRightDestroy]
  split
  · rename_i type
    exact (h.deadState type).dealloc
  split
  · rename_i type
    exact deallocPortSet_effect h type
  have hspace : ∀ {s' : RightState} {l : List RightCall}, s'.entry.ieObject = ioNull →
      l = (if s.entry.ieBits.type = machPortTypeSend then
        [.hashDelete s.entry.ieObject] else []) ++ [.entryDealloc] →
      SpaceCalls s.entry s'.entry l := by
    rintro s' l hobject rfl
    split
    · rename_i type
      exact .deleteDealloc (by simp [type]) hobject
    · rename_i type
      refine .dealloc ?_ hobject
      rw [IpcEntry.pureSend, if_neg type]
  split
  · rename_i hinactive
    rw [(unregister_spec ..).2.1] at hinactive
    have hne := ne_of_inactive (q := q) hinactive
    have hrecv := mt h.receiver hinactive
    refine .of_dealloc (by simp) (by simp) (fun hnull _ => ?_) (hspace (by simp) (by simp [hc]))
    constructor <;> simp <;> grind
  · rename_i hactive
    rw [not_not, (unregister_spec ..).2.1] at hactive
    refine ⟨dropRights_effect h name _ (by simp) (by simp) (by simp [hc]) hactive,
      .inl (by simp [space_dropRights]), hspace (by simp [entry_dropRights]) ?_⟩
    rw [space_dropRights]
    simp [hc]

/-- Cleaning an entry gives up its rights, after which it is not looked at again. -/
theorem ipcRightClean_effect (h : s.Ready) (name : Nat) :
    PortEffect q s ((ipcRightClean name s).setObject ioNull) .zero .zero := by
  have hc := h.handed (q := q)
  simp only [ipcRightClean]
  split
  · rename_i type
    refine .of_stays (by simp) fun hnull _ => ?_
    constructor <;> simp [type, hc]
  split
  · rename_i type
    refine .of_stays (by simp) fun hnull _ => ?_
    constructor <;> simp [type, hc]
  split
  · rename_i hinactive
    have hne := ne_of_inactive (q := q) hinactive
    have hrecv := mt h.receiver hinactive
    refine .of_stays (by simp) fun hnull _ => ?_
    constructor <;> simp <;> grind
  · rename_i hactive
    rw [not_not] at hactive
    rw [setObject_dropRights]
    exact dropRights_effect h name _ (by simp) (by simp) (by simp [hc]) hactive

/-- `ipc_right_check` deallocates no entry but that of a dead port of compatibility mode. -/
theorem ipcRightCheck_effect (h : s.Ready)
    (hright : s.entry.ieBits.type.sendRights = true ∨ s.entry.ieBits.type.receive = true) :
    RightEffect q s (ipcRightCheck s.entry.ieObject s).2 .zero .zero ∧
      (RightCall.entryDealloc ∈ (handed q (ipcRightCheck s.entry.ieObject s).2.calls).space →
        (ipcRightCheck s.entry.ieObject s).1 = true ∧ s.entry.ieBits.compat = true) := by
  cases hactive : (s.ports.port s.entry.ieObject).ipActive with
  | true =>
    rw [ipcRightCheck_active hactive]
    refine ⟨h.refl, fun hmem => ?_⟩
    rw [h.handed] at hmem
    cases hmem
  | false =>
    have hsend : s.entry.ieBits.type.sendRights = true :=
      hright.resolve_right fun hreceive => by simp [h.receiver hreceive] at hactive
    obtain ⟨s', heq, heffect, hdead⟩ := ipcRightCheck_dead h hsend hactive
    rw [heq]
    refine ⟨heffect, fun hmem => ⟨rfl, ?_⟩⟩
    rw [← Bool.not_eq_false]
    exact fun hcompat => (hdead hcompat).kept hmem

/-- `ipc_right_inuse` clears the entry of a dead port of compatibility mode. -/
theorem ipcRightInuse_effect (h : s.Ready) : RightEffect q s (ipcRightInuse s).2 .zero .zero := by
  simp only [ipcRightInuse]
  split
  · exact h.refl
  split
  · rename_i hdead
    obtain ⟨-, htype, hinactive⟩ := hdead
    have hne := ne_of_inactive (q := q) hinactive
    rcases htype with type | type
    · simp only [type]
      refine .of_stays ⟨.none rfl (Nat.zero_le _), by simp [ofGen]⟩ (by simp) (fun hnull _ => ?_) ?_
      · constructor <;> simp [type, h.handed, ofGen]
        grind
      · simp [h.handed]
        exact .delete (by simp [type]) (by simp [ofGen])
    · simp only [type]
      refine .of_stays ⟨.none rfl (Nat.zero_le _), by simp [ofGen]⟩ (by simp) (fun hnull _ => ?_) ?_
      · constructor <;> simp [type, h.handed, ofGen]
        grind
      · simp [h.handed]
        exact .keep (by simp [type, ofGen])
  · exact h.refl

end Mach
