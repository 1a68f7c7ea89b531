import Mach.Ipc.Sound

/-!
# Conservation of rights

In every state between operations the counts of a live port come out: `ip_srights` is the
number of send rights in spaces and outside of them, `ip_sorights` that of send-once rights,
and there is at most one receive right (`World.Conserved`).
-/

namespace Mach

open Function Finset Rights Option

/-! ## Copyout and rename -/

variable {s : RightState} {q object : Nat}

/-- The object of an entry without a type does not matter. -/
theorem EntryEffect.of_setObject {s' : RightState} {gain lose : Rights}
    (h : EntryEffect q (s.setObject object) s' gain lose)
    (hobject : s.entry.ieBits.type = machPortTypeNone ∨ s.entry.ieObject = object) :
    EntryEffect q s s' gain lose := by
  have hrights : rightsAt q (some (s.setObject object).entry) = rightsAt q (some s.entry) := by
    rcases hobject with htype | rfl
    · exact (rightsAt_of_type (e := (s.setObject object).entry) q htype).trans
        (rightsAt_of_type q htype).symm
    · rfl
  refine ⟨⟨h.active, h.pdrequest, h.transit, fun hnull hdead => ?_⟩, h.stored, h.shape⟩
  obtain ⟨hsend, honce, hreceive⟩ := h.balanced hnull hdead
  obtain ⟨h₁, h₂, h₃⟩ := Rights.mk.inj hrights
  rw [h₁] at hsend
  rw [h₂] at honce
  rw [h₃] at hreceive
  exact ⟨hsend, honce, hreceive⟩

theorem RightState.Ready.setObject (h : s.Ready)
    (hobject : s.entry.ieBits.type = machPortTypeNone ∨ s.entry.ieObject = object) :
    (s.setObject object).Ready := by
  rcases hobject with htype | rfl
  · refine ⟨.none htype h.ok.urefs_le, h.fits, h.calls, ?_, ?_⟩
    · simp [htype, machPortTypeNone]
    · simp [htype, machPortTypeNone]
  · exact h

/-- The first part of `ipc_right_rename` deallocates the entry only if it does not go on. -/
theorem renameCheck_effect (h : s.Ready) (nname : Nat) (hright : s.entry.ieRequest ≠ 0 →
      s.entry.ieBits.type.sendRights = true ∨ s.entry.ieBits.type.receive = true) :
    RightEffect q s (World.renameCheck nname s).2 .zero .zero ∧
      (RightCall.entryDealloc ∈ (handed q (World.renameCheck nname s).2.calls).space →
        (World.renameCheck nname s).1 = false) := by
  unfold World.renameCheck
  dsimp only
  split
  · rename_i hrequest
    obtain ⟨heffect, hdealloc⟩ := ipcRightCheck_effect h (hright hrequest)
    generalize ipcRightCheck s.entry.ieObject s = r at heffect hdealloc
    obtain ⟨dead, s'⟩ := r
    cases dead with
    | true =>
      refine ⟨heffect, fun hmem => ?_⟩
      simp [(hdealloc hmem).2]
    | false =>
      exact ⟨heffect.onPort (f := fun p => p.ipcPortDnrename s.entry.ieRequest nname)
        (fun _ => rfl) _, fun hmem => absurd (hdealloc hmem).1 Bool.false_ne_true⟩
  · refine ⟨h.refl, fun hmem => ?_⟩
    rw [h.handed] at hmem
    cases hmem

theorem renameCheck_false {nname : Nat} (h : (World.renameCheck nname s).1 = false) :
    s.entry.ieRequest ≠ 0 ∧ s.entry.ieBits.compat = true ∧
      (s.ports.port s.entry.ieObject).ipActive = false := by
  unfold World.renameCheck at h
  dsimp only at h
  split at h
  · rename_i hrequest
    cases hactive : (s.ports.port s.entry.ieObject).ipActive with
    | true =>
      rw [ipcRightCheck_active hactive] at h
      cases h
    | false =>
      refine ⟨hrequest, ?_, rfl⟩
      generalize ipcRightCheck s.entry.ieObject s = r at h
      obtain ⟨dead, s'⟩ := r
      cases dead with
      | true => simpa using h
      | false => cases h
  · cases h

/-- The ports differ in other things than their rights. -/
def IpcPorts.Agree (P P' : IpcPorts) : Prop :=
  ∀ q, (P.port q).ipActive = (P'.port q).ipActive ∧ (P.port q).ipSrights = (P'.port q).ipSrights ∧
    (P.port q).ipSorights = (P'.port q).ipSorights ∧ (P.port q).ipPdrequest =
      (P'.port q).ipPdrequest

/-- Only whether ports are active, their counts and their port-destroyed requests matter. -/
theorem PortState.Accounted.same {ports : Finset Nat} {held : Nat → Rights} {x : PortState}
    {P : IpcPorts} (h : x.Accounted ports held) (hP : P.Agree x.ports) :
    ({ x with ports := P } : PortState).Accounted ports held := by
  have hreq : ∀ q, P.requests ports q = x.ports.requests ports q := by
    intro q
    simp only [IpcPorts.requests, IpcPorts.requested, (hP _).2.2.2]
  refine ⟨fun q hq => ?_, fun q hq => ?_, fun q hq => ?_, fun p hp => ?_⟩
  · rw [(hP q).2.1, hreq]
    exact h.send q ((hP q).1.symm.trans hq)
  · rw [(hP q).2.2.1, hreq]
    exact h.sendOnce q ((hP q).1.symm.trans hq)
  · exact h.receive q ((hP q).1.symm.trans hq)
  · exact ((hP p).2.2.2).trans (h.outside p hp)

/-! ## Ports with a backup -/

namespace IpcPorts

/-- A port is the destination itself, or the destination is in transit to it, directly or in another
port. -/
def Circular (P : IpcPorts) (fuel port dest : Nat) : Prop :=
  port = dest ∨ Link.walk (update P.destination port none) fuel dest = some port

/-- A port that has a port-destroyed request, with a backup to which it can go. -/
def HasBackup (P : IpcPorts) (fuel port : Nat) : Prop :=
  (P.port port).ipPdrequest ≠ ipNull ∧
    ¬ P.Circular fuel port (IpcPort.pdTarget (P.port port).ipPdrequest)

variable {P P' : IpcPorts} {lockTry : Bool} {fuel port : Nat}

theorem HasBackup.congr (h : P.HasBackup fuel port)
    (hrights : ∀ q, (P.port q).rights = (P'.port q).rights) : P'.HasBackup fuel port := by
  have hdest : P.destination = P'.destination := by
    funext q
    change (P.port q).rights.destination = (P'.port q).rights.destination
    rw [hrights]
  have hpd : (P.port port).ipPdrequest = (P'.port port).ipPdrequest :=
    congrArg PortRights.pdrequest (hrights port)
  simpa only [HasBackup, Circular, hdest, hpd] using h

end IpcPorts

open IpcPorts

theorem hasBackup_of_destroy {P P' : IpcPorts} {lockTry : Bool} {fuel port : Nat}
    (h : ipcPortDestroy lockTry fuel P port = some (false, P')) : P.HasBackup fuel port := by
  simp only [ipcPortDestroy] at h
  split at h
  next hpd =>
    refine ⟨hpd, ?_⟩
    obtain ⟨⟨b, P₁⟩, hcheck, heq⟩ := map_eq_some_iff.mp h
    generalize IpcPort.pdTarget (P.port port).ipPdrequest = dest at *
    cases b with
    | true =>
      simp only at heq
      split at heq <;> cases heq
    | false =>
      have hdest : (P.modify port fun p => { p with ipPdrequest := ipNull }.toLimbo).destination =
          update P.destination port none := by
        funext q
        by_cases hq : q = port
        · simp [destination, modify_port, hq, IpcPort.InTransit, IpcPort.toLimbo]
        · simp [destination, modify_port, hq]
      rw [ipcPortCheckCircularity, hdest] at hcheck
      split at hcheck
      next => cases hcheck
      next hne =>
        rintro (hport | hwalk)
        · exact hne hport
        split at hcheck
        next hquick =>
          have hnone := congrFun hdest dest
          rw [destination, if_neg hquick.2] at hnone
          cases fuel with
          | zero => cases hwalk
          | succ =>
            rw [Link.walk, ← hnone] at hwalk
            exact hne (some.inj hwalk).symm
        next =>
          obtain ⟨base, hbase, heq⟩ := map_eq_some_iff.mp hcheck
          cases hwalk.symm.trans hbase
          rw [if_pos rfl] at heq
          cases heq
  next => cases h

namespace PortState

variable {x y : PortState} {lockTry : Bool} {fuel port : Nat} {calls : List RightCall}

theorem dead_of_calls (h : calls.foldlM (PortState.call lockTry fuel) x = some y)
    (hdead : (x.ports.port port).ipActive = false) : (y.ports.port port).ipActive = false := by
  induction calls generalizing x with
  | nil =>
    cases h
    exact hdead
  | cons c calls ih =>
    obtain ⟨x₁, hc, hrest⟩ := bind_eq_some_iff.mp h
    refine ih hrest ?_
    cases c with
    | portDestroy p =>
      obtain ⟨⟨died, P⟩, hr, rfl⟩ := map_eq_some_iff.mp hc
      have hspec := (ipcPortDestroy_spec hr port).2.1
      have hactive : (P.port port).ipActive = _ := hspec
      cases died <;> exact hactive.trans (by simp [IpcPort.rights, hdead, give])
    | _ =>
      cases hc
      exact hdead

theorem hasBackup_of_calls (h : calls.foldlM (PortState.call lockTry fuel) x = some y)
    (hcalls : ∀ p, .portDestroy p ∈ calls ↔ p = port)
    (hactive : (y.ports.port port).ipActive = true) : x.ports.HasBackup fuel port := by
  induction calls generalizing x with
  | nil => simpa using hcalls port
  | cons c calls ih =>
    obtain ⟨x₁, hc, hrest⟩ := bind_eq_some_iff.mp h
    by_cases hport : c = .portDestroy port
    · subst hport
      obtain ⟨⟨died, P⟩, hr, rfl⟩ := map_eq_some_iff.mp hc
      cases died with
      | false => exact hasBackup_of_destroy hr
      | true =>
        have hdead : (P.port port).ipActive = false :=
          (ipcPortDestroy_spec hr port).2.1.trans (by simp)
        cases hactive.symm.trans (dead_of_calls hrest hdead)
    · have hsame : x₁.ports = x.ports := by
        cases c with
        | portDestroy p =>
          obtain rfl := (hcalls p).mp List.mem_cons_self
          exact absurd rfl hport
        | _ =>
          cases hc
          rfl
      rw [← hsame]
      refine ih hrest fun p => ?_
      rw [← hcalls p, List.mem_cons, or_iff_right_of_imp]
      rintro rfl
      obtain rfl := (hcalls p).mp List.mem_cons_self
      exact absurd rfl hport

end PortState

theorem portDestroy_mem {calls : List RightCall} {p : Nat} :
    .portDestroy p ∈ calls ↔ (handed p calls).receive ≠ 0 := by
  induction calls with
  | nil => simp [handed]
  | cons c calls ih =>
    rw [List.mem_cons, ih]
    cases c with
    | portDestroy port =>
      rcases eq_or_ne port p with rfl | hne
      · simp [handed, RightCall.receives]
      · simp [handed, RightCall.receives, hne, hne.symm]
    | _ => simp [handed, RightCall.receives]

namespace World

variable {its : IpcTableSizes} {spaces ports : Finset Nat} {lost : Nat → Rights} {w w' : World}

namespace SoundBut

theorem renameMove (h : w.SoundBut its spaces ports lost) {old new : EntryPtr}
    (ha : old.space ∈ spaces)
    (hold : w.Points its old) (hnew : w.Points its new) (hspace : old.space = new.space)
    (hne : old.name ≠ new.name) (hzero : ∀ e, w.deref new = some e → e.right = .zero)
    (hstep : w.renameMove its old new = some w') : w'.SoundBut its spaces ports lost := by
  obtain ⟨free, m, e, hrep, href, hstore, he, hm, -⟩ := h.points ha hold
  obtain ⟨free₀, hcore₀, hrefn⟩ := hnew
  rw [← hspace] at hcore₀ hrefn
  obtain rfl := hrep.chain.unique hcore₀.chain
  obtain ⟨e₀, he₀, hm₀⟩ := hrep.deref hrefn
  have hm₀ : m new.name = some .zero := by
    rw [hm₀, hzero e₀ (by rw [deref, ← hspace]; exact he₀)]
  obtain ⟨e', he', hstep⟩ := bind_eq_some_iff.mp hstep
  obtain rfl : e = e' := some.inj (he.symm.trans he')
  obtain ⟨hash, -, hstep⟩ := bind_eq_some_iff.mp hstep
  obtain ⟨x, hx, rfl⟩ := map_eq_some_iff.mp hstep
  obtain ⟨⟨s, calls⟩, hs, hrest⟩ := bind_eq_some_iff.mp hx
  obtain ⟨hash', -, rfl⟩ := map_eq_some_iff.mp hrest
  obtain ⟨hrep₁, -⟩ := hrep.write hrefn e
  have href₁ := hrep.refers_write hrefn e href
  obtain ⟨hrep₂, href₂⟩ := hrep₁.write href₁ { e with ieRequest := 0, ieObject := ioNull }
  obtain ⟨s', free', hs', hrep', -⟩ :=
    hrep₂.dealloc href₂ fun e' he' => hrep₁.object_write href₁ _ he'
  obtain ⟨rfl, -⟩ := Prod.mk.inj (some.inj (hs.symm.trans hs'))
  rw [update_idem] at hrep'
  set P : IpcPorts := if e.ieBits.type.receive then
      w.ports.modify e.ieObject fun p => { p with ipReceiverName := new.name }
    else w.ports with hP
  have hports : P.Agree w.ports := by
    intro q
    rw [hP]
    split
    · rw [IpcPorts.modify_port]
      split <;> exact ⟨rfl, rfl, rfl, rfl⟩
    · exact ⟨rfl, rfl, rfl, rfl⟩
  set w₁ := w.setSpaceState old.space ⟨(w.space old.space).write new.ref e, w.hash⟩
  set w' : World := { (w.setSpaceState old.space ⟨s, hash'⟩) with ports := P }
  have hself₁ : w₁.space old.space = (w.space old.space).write new.ref e := update_self ..
  have hself' : w'.space old.space = s := update_self ..
  have hother₁ : ∀ b, b ≠ old.space → w₁.space b = w.space b :=
    fun b hb => update_of_ne hb ..
  have hother' : ∀ b, b ≠ old.space → w'.space b = w.space b :=
    fun b hb => update_of_ne hb ..
  have hheld : ∀ q, w'.held spaces q = w.held spaces q := by
    intro q
    have h₁ := held_update w w₁ ha hother₁ rfl hrep (hself₁ ▸ hrep₁) q
    have h₂ := held_update w₁ w' ha
      (fun b hb => (hother' b hb).trans (hother₁ b hb).symm) rfl (hself₁ ▸ hrep₁)
      (hself' ▸ hrep') q
    rw [update_of_ne hne, hm] at h₂
    rw [hm₀] at h₁
    exact add_cancel (h₂.trans h₁)
  have hstore' : ∀ n v, update (update m new.name (some e.right)) old.name none n
      = some v → Storable w.ports v :=
    storable_update (storable_update hstore fun v hv => hstore old.name v (hm.trans hv)) (by simp)
  obtain ⟨hsp, hquiet⟩ := h.space_update w' ha hrep.active (hself' ▸ hrep') hstore' hother' rfl
  refine .of_activeOr hsp h.dying hquiet h.null h.dead ?_ ?_
  · exact fun q => ⟨fun hq => (hports q).1.symm.trans hq, fun hq => .inl ((hports q).1.trans hq)⟩
  · exact (h.accounted.same hports).congr fun q _ => congrArg (· + lost q) (hheld q)

variable {lockTry : Bool} {fuel port : Nat} {f : IpcPort → IpcPort} {r : Bool × IpcPorts}
  {a : Nat} {P : IpcPorts}

section

variable (h : w.SoundBut its spaces ports lost)
include h

/-- `ipc_right_rename`, when the new entry is not the one that moves into the slot of an old
entry that goes away. -/
theorem rename {old new : EntryPtr} (ha : old.space ∈ spaces) {r : Except KernReturn Unit × World}
    (hlegal : w.Legal its (.rename old new))
    (hsafe : ∀ e, w.deref old = some e → e.ieBits.compat = true → e.ieRequest ≠ 0 →
      (w.ports.port e.ieObject).ipActive = false → (w.space old.space).moved old.ref ≠
      some new.name)
    (hstep : w.ipcRightRename its lockTry fuel old new = some r) : r.2.SoundBut its spaces
    ports lost := by
  obtain ⟨hold, hnew, hspace, hne, hright, hzero⟩ := hlegal
  obtain ⟨free, m, e, -, -, -, he, -, hready⟩ := h.points ha hold
  obtain ⟨⟨go, w₁⟩, hact, hrest⟩ := bind_eq_some_iff.mp hstep
  have heffect : ∀ q, RightEffect q ⟨e, w.ports, []⟩
      (renameCheck new.name ⟨e, w.ports, []⟩).2 .zero .zero ∧ _ :=
    fun q => renameCheck_effect hready new.name (hright e he).2
  have h₁ : w₁.SoundBut its spaces ports lost := h.act_keep ha hold (fun e₁ he₁ _ q => by
    obtain rfl : e = e₁ := some.inj (he.symm.trans he₁)
    exact (heffect q).1.entryEffect) (fun _ q => zero_le _) (congrArg (Option.map Prod.snd) hact)
  obtain ⟨hgo, hpoints⟩ := h.act_points ha hold he (heffect 0).1.entryEffect hact
  cases go with
  | true =>
    have hkept : .entryDealloc ∉ (handed 0 (renameCheck new.name ⟨e, w.ports, []⟩).2.calls).space :=
      fun hmem => absurd (hgo.symm.trans ((heffect 0).2 hmem)) Bool.true_eq_false.mp
    obtain ⟨w₂, hmove, rfl⟩ := map_eq_some_iff.mp hrest
    obtain ⟨hnew₁, hzero₁⟩ := hpoints new hspace.symm hnew (.inl hkept)
    refine h₁.renameMove ha (hpoints old rfl hold (.inl hkept)).1 hnew₁ hspace hne
      (fun e' he' => ?_) hmove
    obtain ⟨e₀, he₀, heq⟩ := hzero₁ hne.symm e' he'
    exact heq.trans (hzero e₀ he₀)
  | false =>
    obtain ⟨w₂, hdealloc, rfl⟩ := map_eq_some_iff.mp hrest
    obtain ⟨hrequest, hcompat, hdead⟩ := renameCheck_false hgo
    obtain ⟨hnew₁, hzero₁⟩ := hpoints new hspace.symm hnew
      (.inr ⟨hne.symm, hsafe e he hcompat hrequest hdead⟩)
    refine h₁.entryDealloc (hspace ▸ ha) hnew₁ (fun e' he' => ?_) hdealloc
    obtain ⟨e₀, he₀, heq⟩ := hzero₁ hne.symm e' he'
    have hright' : e'.right = .zero := heq.trans (hzero e₀ he₀)
    exact ⟨congrArg (fun e => e.ieBits.type) hright', congrArg (fun e => e.ieObject) hright'⟩

/-! ## Spaces that die -/

theorem spaceDestroy (ha : a ∈ spaces) : (w.ipcSpaceDestroy a).SoundBut its spaces ports lost := by
  unfold ipcSpaceDestroy
  dsimp only
  split
  · rename_i hactive
    obtain ⟨free, m, hrep, hstore⟩ := h.space a ha hactive
    set dying : List ((Nat × Bool) × IpcEntry) :=
      (w.space a).tableRights.map (fun e => ((e.1, false), e.2)) ++
        ((w.space a).treeList.filter fun e => e.2.ieBits.type ≠ machPortTypeNone).map
          fun e => ((e.1, true), e.2) with hdying
    set w' : World := { w with
      space := update w.space a { w.space a with isActive := false }
      dying := update w.dying a dying } with hw'
    have hdead : (w'.space a).isActive = false := by
      rw [show w'.space a = _ from update_self ..]
    have hother : ∀ b, b ≠ a → w'.space b = w.space b ∧ w'.dying b = w.dying b :=
      fun b hb => ⟨update_of_ne hb .., update_of_ne hb ..⟩
    have hself : w'.dying a = dying := update_self ..
    have hlive : w'.live a = [] := by
      rw [live, if_neg (by simp [hdead])]
    have hcount : ∀ c, w'.count spaces c = w.count spaces c := by
      intro c
      have hchange := count_change c w w' ha fun b hb => by
        rw [live, live, (hother b hb).1, (hother b hb).2]
        exact ⟨rfl, rfl⟩
      rw [hlive, hself, hdying, weight_append, weight_map, weight_map, ← weight_append,
        live, if_pos hactive, h.quiet a ha hactive] at hchange
      exact add_right_cancel (hchange.trans (congrArg _ (add_comm ..)))
    have hmem : ∀ e ∈ dying, (e.1.1, e.2) ∈ (w.space a).rights := by
      intro e he
      rcases List.mem_append.mp he with he | he
      · obtain ⟨e', he', rfl⟩ := List.mem_map.mp he
        exact List.mem_append_left _ he'
      · obtain ⟨e', he', rfl⟩ := List.mem_map.mp he
        exact List.mem_append_right _ he'
    have hne : ∀ b, (w'.space b).isActive = true → b ≠ a := by
      rintro b hact rfl
      rw [hdead] at hact
      cases hact
    refine ⟨fun b hb hact => ?_, fun b hb e he => ?_, fun b hb hact => ?_, h.null, h.dead, ?_⟩
    · have hne := hne b hact
      rw [(hother b hne).1] at hact ⊢
      exact h.space b hb hact
    · by_cases hba : b = a
      · subst hba
        rw [hself] at he
        have hright := hmem e he
        refine ⟨hstore _ _ (hrep.mem_rights.mp hright).1, ?_⟩
        rw [(hrep.bare_rights hright).2]
        decide
      · rw [(hother b hba).2] at he
        exact h.dying b hb e he
    · have hne := hne b hact
      rw [(hother b hne).1] at hact
      rw [(hother b hne).2]
      exact h.quiet b hb hact
    · refine h.accounted.congr fun q _ => ?_
      rw [held, hcount, hcount, hcount]
      rfl
  · exact h

theorem clean (ha : a ∈ spaces) (hstep : w.cleanOne lockTry fuel a = some w') :
    w'.SoundBut its spaces ports lost := by
  unfold cleanOne at hstep
  split at hstep
  · cases hstep
    exact h
  rename_i name inTree e rest hdying
  obtain ⟨y, hy, rfl⟩ := map_eq_some_iff.mp hstep
  have he : ((name, inTree), e) ∈ w.dying a := by
    rw [hdying]
    exact List.mem_cons_self
  obtain ⟨hstore, hgen⟩ := h.dying a ha _ he
  have hready := h.ready hstore hgen fun q =>
    le_count (c := fun e => e.sends q) ha (.inr ⟨_, he⟩)
  set s := ipcRightClean name ⟨e, w.ports, []⟩
  set w' : World := { (w.setPortState y) with
    hash := if inTree ∧ e.ieBits.type = machPortTypeSend then
        ipcHashGlobalDelete w.hash a e.ieObject name
      else w.hash
    dying := update w.dying a rest }
  have hself : w'.dying a = rest := update_self ..
  have hother : ∀ b, b ≠ a → w'.dying b = w.dying b := fun b hb => update_of_ne hb ..
  have hcount : ∀ c, w'.count spaces c + c e = w.count spaces c := by
    intro c
    have hchange := count_change c w w' ha fun b hb => ⟨rfl, hother b hb⟩
    have hlive : w'.live a = w.live a := rfl
    rw [hlive, hself, hdying, weight_cons] at hchange
    dsimp only at hchange
    omega
  have hheld : ∀ q, q ≠ ioNull → w'.held spaces q + lost q + rightsAt q (some e) =
        w.held spaces q + lost q + rightsAt q (some (s.setObject ioNull).entry) := by
    intro q hq
    have hzero : rightsAt q (some (s.setObject ioNull).entry) = .zero := by
      simp [rightsAt, IpcEntry.sends, IpcEntry.sendsOnce, IpcEntry.receives, hq.symm, zero]
    rw [hzero, add_right_comm, add_right_comm (w.held spaces q)]
    refine congrArg (· + lost q) ?_
    ext
    · exact hcount fun e => e.sends q
    · exact hcount fun e => e.sendsOnce q
    · exact hcount fun e => e.receives q
  obtain ⟨hacc, hactive⟩ := (h.accounted.effect (fun _ => .zero) (fun _ => .zero)
    (fun _ => .zero) h.null h.dead (fun q => ipcRightClean_effect hready name)
    (fun q => zero_le _) hheld).calls hy
  have hactive₁ : ∀ q, (s.ports.port q).ipActive = (w.ports.port q).ipActive :=
    fun q => (ipcRightClean_effect hready name).active
  refine .of_activeOr h.space (fun b hb e' he' => ?_) (fun b hb hact => ?_)
    h.null h.dead (fun q => ⟨fun hq => ?_, fun hq => ?_⟩) hacc
  · by_cases hba : b = a
    · subst hba
      rw [hself] at he'
      exact h.dying b hb e' (hdying ▸ List.mem_cons_of_mem _ he')
    · rw [hother b hba] at he'
      exact h.dying b hb e' he'
  · have hquiet := h.quiet b hb hact
    have hne : b ≠ a := by
      rintro rfl
      rw [hdying] at hquiet
      cases hquiet
    rw [hother b hne]
    exact hquiet
  · exact (hactive₁ q).symm.trans ((hactive q).1 hq)
  · have hheld : ActiveOr (w'.held spaces) _ y :=
      hactive.mono fun q => Nat.le_add_right _ (lost q).receive
    exact (hheld q).2 ((hactive₁ q).trans hq)

/-! ## Ports -/

theorem setPortState {x : PortState}
    (haccounted : x.Accounted ports fun q => w.held spaces q + lost q)
    (hactive : ActiveOr (fun q => w.held spaces q + lost q) w.toPortState x) :
    (w.setPortState x).SoundBut its spaces ports lost :=
  .of_activeOr h.space h.dying h.quiet h.null h.dead
    (hactive.mono fun _ => Nat.le_add_right ..) haccounted

/-- The counts of one port and the naked rights for it change together. -/
theorem portEffect (gain lose : Nat → Rights)
    (heffect : ∀ q, PortEffect q ⟨.zero, w.ports, []⟩ ⟨.zero, P, []⟩ (gain q) (lose q))
    (hlose : ∀ q, lose q ≤ w.naked q) :
    (w.setPortState (({ w.toPortState with ports := P }.give gain).take lose)).SoundBut its spaces
      ports lost := by
  refine h.setPortState ?_ fun q => ?_
  · exact (h.accounted.effect gain lose (fun _ => .zero) h.null h.dead heffect hlose fun _ _ => rfl)
  · have hq : (P.port q).ipActive = (w.ports.port q).ipActive := (heffect q).active
    exact ⟨fun hact => hq.symm.trans hact, fun hact => .inl (hq.trans hact)⟩

end

theorem portEffect_modify (P : IpcPorts) (port : Nat) (gain lose : Rights)
    (hf : ∀ p, (f p).rights.active = p.rights.active ∧ (f p).rights.pdrequest = p.rights.pdrequest ∧
      (f p).rights.receiverName = p.rights.receiverName ∧ (f p).rights.data = p.rights.data)
    (hsend : (P.port port).ipActive = true → (f (P.port port)).rights.srights + lose.send =
      (P.port port).rights.srights + gain.send)
    (honce : (P.port port).ipActive = true → (f (P.port port)).rights.sorights + lose.sendOnce =
      (P.port port).rights.sorights + gain.sendOnce)
    (hreceive : gain.receive = 0 ∧ lose.receive = 0) (q : Nat) :
    PortEffect q ⟨.zero, P, []⟩ ⟨.zero, P.modify port f, []⟩ (gain.only port q)
      (lose.only port q) := by
  by_cases hq : q = port
  · subst hq
    refine .of_stays ?_ fun _ _ => ⟨fun hact => ?_, fun hact => ?_, ?_⟩
    · simp [Stays, RightState.at, hf]
    · have := hsend hact
      simp [RightState.at, handed] at this ⊢
      omega
    · have := honce hact
      simp [RightState.at, handed] at this ⊢
      omega
    · simp [handed, hreceive]
  · have hne := Ne.symm hq
    refine .of_stays ?_ fun _ _ => ⟨fun hact => ?_, fun hact => ?_, ?_⟩
    · simp [Stays, RightState.at, hq]
    · simp [RightState.at, hq, hne, handed]
    · simp [RightState.at, hq, hne, handed]
    · simp [hne, handed]

variable (h : w.SoundBut its spaces ports lost)

include h

theorem gainPort {gain : Rights} (hf : ∀ p, (f p).rights = { p.rights with
      srights := p.rights.srights + gain.send, sorights := p.rights.sorights + gain.sendOnce })
    (hreceive : gain.receive = 0) :
    (w.setPortState ({ w.toPortState with ports := w.ports.modify port f }.give
      (gain.only port))).SoundBut its spaces ports lost := by
  refine h.portEffect (gain.only port) (fun _ => .zero) (fun q => ?_) fun _ => zero_le _
  have heffect := portEffect_modify w.ports port (f := f) gain .zero
    (fun p => by simp [hf]) (fun _ => by simp [hf, zero])
    (fun _ => by simp [hf, zero]) ⟨hreceive, rfl⟩ q
  rwa [only_zero] at heffect

theorem naked_le (hactive : (w.ports.port q).ipActive = true) :
    (w.naked q).send ≤ (w.ports.port q).ipSrights ∧
      (w.naked q).sendOnce ≤ (w.ports.port q).ipSorights := by
  rw [h.accounted.send q hactive, h.accounted.sendOnce q hactive]
  omega

theorem losePort {lose : Rights} (hf : ∀ p, (f p).rights = if p.ipActive then { p.rights with
      srights := p.rights.srights - lose.send, sorights := p.rights.sorights - lose.sendOnce }
      else p.rights)
    (hreceive : lose.receive = 0) (hlose : lose ≤ w.naked port) :
    (w.setPortState ({ w.toPortState with ports := w.ports.modify port f }.take
      (lose.only port))).SoundBut its spaces ports lost := by
  refine h.portEffect (fun _ => .zero) (lose.only port) (fun q => ?_) (only_le hlose)
  have heffect := portEffect_modify w.ports port (f := f) .zero lose
    (fun p => ?_) (fun hactive => ?_) (fun hactive => ?_) ⟨rfl, hreceive⟩ q
  · rwa [only_zero] at heffect
  · rw [hf]
    split <;> exact ⟨rfl, rfl, rfl, rfl⟩
  · have hle := hlose.1.trans (h.naked_le hactive).1
    rw [hf, if_pos hactive]
    exact Nat.sub_add_cancel hle
  · have hle := hlose.2.1.trans (h.naked_le hactive).2
    rw [hf, if_pos hactive]
    exact Nat.sub_add_cancel hle

theorem copySend (port : Nat) : (w.copySend port).SoundBut its spaces ports lost := by
  unfold World.copySend ipcPortCopySend
  cases (w.ports.port port).ipActive with
  | true => exact h.gainPort (fun _ => rfl) rfl
  | false => exact h

theorem releaseSend (hnaked : 1 ≤ (w.naked port).send) :
    (w.setPortState ({ w.toPortState with ports := (ipcPortReleaseSend w.ports port).2 }.take
      ((⟨1, 0, 0⟩ : Rights).only port))).SoundBut its spaces ports lost := by
  have hports : (ipcPortReleaseSend w.ports port).2 = w.ports.modify port fun p =>
      if p.ipActive then p.release.dropSend.2 else p.release := by
    unfold ipcPortReleaseSend
    split
    · rename_i hactive
      simp only [IpcPorts.modify, if_pos hactive]
    · rename_i hactive
      simp only [IpcPorts.modify, if_neg hactive]
  rw [hports]
  refine h.losePort (fun p => ?_) rfl ⟨hnaked, Nat.zero_le _, Nat.zero_le _⟩
  split
  · exact IpcPort.rights_dropSend p.release
  · rfl

theorem destroyPort (hnaked : 1 ≤ (w.naked port).receive)
    (hdestroy : ipcPortDestroy lockTry fuel w.ports port = some r) :
    (w.setPortState (w.toPortState.destroyed port r)).SoundBut its spaces ports lost :=
  h.setPortState (h.accounted.destroyed hdestroy) (h.accounted.destroyed_active hdestroy hnaked)

theorem samePorts (hP : P.Agree w.ports) :
    ({ w with ports := P } : World).SoundBut its spaces ports lost :=
  h.setPortState (h.accounted.same hP) fun q =>
    ⟨fun hq => (hP q).1.symm.trans hq, fun hq => .inl ((hP q).1.trans hq)⟩

theorem checkCircularity {dest : Nat}
    (hcheck : ipcPortCheckCircularity lockTry fuel w.ports port dest = some r) :
    ({ w with ports := r.2 } : World).SoundBut its spaces ports lost := by
  obtain ⟨b, P⟩ := r
  rcases ipcPortCheckCircularity_cases hcheck with ⟨-, rfl⟩ | ⟨-, rfl⟩
  · exact h
  refine h.samePorts fun q => ?_
  obtain ⟨d, hd⟩ : ∃ d, ((w.ports.send port dest).port q).rights =
      { (w.ports.port q).rights with data := d } := by
    rw [IpcPorts.rights_send]
    split <;> exact ⟨_, rfl⟩
  exact ⟨congrArg PortRights.active hd, congrArg PortRights.srights hd,
    congrArg PortRights.sorights hd, congrArg PortRights.pdrequest hd⟩

theorem releaseReceive (hnaked : 1 ≤ (w.naked port).receive)
    (hrelease : ipcPortReleaseReceive lockTry fuel w.ports port = some r) :
    (w.setPortState (w.toPortState.destroyed port r)).SoundBut its spaces ports lost := by
  obtain ⟨⟨died, P⟩, hdestroy, rfl⟩ := map_eq_some_iff.mp hrelease
  have hsound := h.destroyPort hnaked hdestroy
  dsimp only
  split
  · have hsame := hsound.samePorts
      (P := P.modify (w.ports.port port).ipDestination .release) fun q => by
        have hports : (w.setPortState (w.toPortState.destroyed port (died, P))).ports = P := by
          cases died <;> rfl
        rw [hports, IpcPorts.modify_port]
        split <;> exact ⟨rfl, rfl, rfl, rfl⟩
    cases died with
    | true | false => exact hsame
  · exact hsound

end SoundBut

/-! ## Every operation -/

/-- `ipc_right_delta` gives up the receive right of an entry that has a send right as well, and
leaves the send right to the destruction of the port.  But the port survives if it has a backup. -/
def Loses (fuel : Nat) (w : World) : IpcOp → Prop
  | .delta ptr right delta => right = .receive ∧ delta = -1 ∧ ∃ e, w.deref ptr = some e ∧
      e.ieBits.type = machPortTypeSendReceive ∧ w.ports.HasBackup fuel e.ieObject
  | _ => False

/-- The rights that an operation gives up and leaves counted. -/
def lostBy (w : World) : IpcOp → Nat → Rights
  | .delta ptr right delta, q =>
    match w.deref ptr with
    | some e => deltaLost right delta e q
    | none => .zero
  | _, _ => .zero

/-- `ipc_right_rename` of an entry whose port is dead deallocates it, and then the new entry.  This
is a dangling pointer if the new entry has moved into the slot of the old one. -/
def Strands (w : World) : IpcOp → Prop
  | .rename old new => ∃ e, w.deref old = some e ∧ e.ieBits.compat = true ∧ e.ieRequest ≠ 0 ∧
      (w.ports.port e.ieObject).ipActive = false ∧
      (w.space old.space).moved old.ref = some new.name
  | _ => False

namespace SoundBut

variable {lockTry : Bool} {fuel : Nat}

section

variable (h : w.SoundBut its spaces ports lost)
  {ptr : EntryPtr} {r : Except KernReturn Unit × World}

include h

theorem copyout (ha : ptr.space ∈ spaces)
    {msgtName : MachMsgTypePort} {overflow : Bool}
    (hlegal : w.Legal its (.copyout ptr msgtName overflow object))
    (hact : (w.act its lockTry fuel ptr
      (fun s => ipcRightCopyout ptr.space ptr.name msgtName overflow (s.setObject object))
      noRights fun r q => msgtName.taken object q r).map Prod.snd = some w') :
    w'.SoundBut its spaces ports lost := by
  obtain ⟨hptr, hactive, hnaked, hentry⟩ := hlegal
  refine h.act_keep ha hptr (fun e he hready q => ?_) (fun r q => ?_) hact
  · obtain ⟨hlegal, hobject⟩ := hentry e he
    exact .of_setObject (ipcRightCopyout_effect (hready.setObject hobject) hptr.name_ne msgtName
      overflow hactive hlegal).entryEffect hobject
  · cases r with
    | error => exact zero_le _
    | ok => exact only_le hnaked q

theorem delta (ha : ptr.space ∈ spaces)
    {right : MachPortRight} {delta : Int}
    (hptr : w.Points its ptr)
    (hact : w.act its lockTry fuel ptr (ipcRightDelta ptr.name right delta) noRights noRights =
      some r) :
    r.2.SoundBut its spaces ports fun q => lost q + w.lostBy (.delta ptr right delta) q := by
  refine h.act ha hptr (w.lostBy (.delta ptr right delta)) (fun e he hready q => ?_)
    (fun _ q => zero_le _) hact
  have heffect := (ipcRightDelta_effect (q := q) hready ptr.name right delta).entryEffect
  simp only [lostBy, he]
  exact (zero_add _).symm ▸ heffect

/-- Every operation keeps the invariant, but for what it loses. -/
theorem step_lost {op : IpcOp}
    (hspace : ∀ a, op.space = some a → a ∈ spaces) (hlegal : w.Legal its op)
    (hsafe : ¬ w.Strands op) (hstep : w.step its fuel lockTry op = some w') :
    w'.SoundBut its spaces ports fun q => lost q + w.lostBy op q := by
  have hzero : ∀ {α : Type} (r : α) q, noRights r q ≤ w.naked q := fun _ _ => zero_le _
  cases op with
  | entryGet a =>
    obtain ⟨m, -, free, hrep⟩ := hlegal
    rcases hrep.get with ⟨-, hget⟩ | ⟨name, ref, s', free', hget, -, -, hrep', hnone, -⟩
    · exact h.alloc (hspace a rfl) hrep (.inl (by rw [hget]; exact hrep)) hstep
    · exact h.alloc (hspace a rfl) hrep (.inr ⟨name, hnone, by rw [hget]; exact hrep'⟩) hstep
  | entryAlloc a mem =>
    obtain ⟨m, ht, free, hrep⟩ := hlegal
    obtain ⟨r, s', calls, free', halloc, hrep'⟩ :=
      IpcSpace.Rep.alloc mem ht its.num _ free hrep (Nat.le_add_right ..)
    obtain ⟨r', hr', hstep⟩ := bind_eq_some_iff.mp hstep
    rw [halloc] at hr'
    cases hr'
    rcases hrep' with ⟨kr, -, hrep'⟩ | ⟨name, ref, -, -, -, hnone, hrep', -⟩
    · exact h.alloc (hspace a rfl) hrep (.inl hrep') hstep
    · exact h.alloc (hspace a rfl) hrep (.inr ⟨name, hnone, hrep'⟩) hstep
  | entryAllocName a name mem ite =>
    obtain ⟨hvalid, m, ht, free, hrep⟩ := hlegal
    obtain ⟨r, s', calls, free', halloc, hrep'⟩ :=
      IpcSpace.Rep.allocName mem ite hvalid ht (its.num + 1) false _ free hrep (Nat.le_add_right ..)
    obtain ⟨r', hr', hstep⟩ := bind_eq_some_iff.mp hstep
    rw [halloc] at hr'
    cases hr'
    rcases hrep' with ⟨kr, -, hrep'⟩ | ⟨ref, v, -, -, hrep', -⟩ | ⟨ref, -, hnone, hrep', -⟩
    · exact h.alloc (hspace a rfl) hrep (.inl hrep') hstep
    · exact h.alloc (hspace a rfl) hrep (.inl hrep') hstep
    · exact h.alloc (hspace a rfl) hrep (.inr ⟨name, hnone, hrep'⟩) hstep
  | entryDealloc ptr => exact h.entryDealloc (hspace _ rfl) hlegal.1 hlegal.2 hstep
  | copyin ptr msgtName deadok =>
    exact h.act_keep (hspace _ rfl) hlegal
      (fun e he hready q => (ipcRightCopyin_effect hready msgtName deadok).entryEffect) hzero hstep
  | copyinUndo ptr msgtName object =>
    exact h.act_keep (hspace _ rfl) hlegal.1
      (fun e he hready q => (ipcRightCopyinUndo_effect hready (hlegal.2.2 e he)).entryEffect)
      (fun _ => only_le hlegal.2.1) hstep
  | copyinTwo ptr =>
    exact h.act_keep (hspace _ rfl) hlegal
      (fun e he hready q => (ipcRightCopyinTwo_effect hready).entryEffect) hzero hstep
  | copyinCompat ptr msgtName dealloc =>
    exact h.act_keep (hspace _ rfl) hlegal
      (fun e he hready q => (ipcRightCopyinCompat_effect hready ptr.name msgtName dealloc).1)
      hzero hstep
  | copyinHeader ptr =>
    exact h.act_keep (hspace _ rfl) hlegal.1
      (fun e he hready q => (ipcRightCopyinHeader_effect hready (w.isNotify ptr.space) ptr.name
        (hlegal.2 e he)).entryEffect) hzero hstep
  | copyout ptr =>
    exact h.copyout (hspace _ rfl) hlegal hstep
  | check ptr =>
    exact h.act_keep (hspace _ rfl) hlegal.1
      (fun e he hready q => (ipcRightCheck_effect hready (hlegal.2 e he)).1.entryEffect) hzero hstep
  | inuse ptr =>
    exact h.act_keep (hspace _ rfl) hlegal
      (fun e he hready q => (ipcRightInuse_effect hready).entryEffect) hzero hstep
  | dealloc ptr =>
    exact h.act_keep (hspace _ rfl) hlegal
      (fun e he hready q => (ipcRightDealloc_effect hready ptr.name).entryEffect) hzero hstep
  | delta ptr =>
    obtain ⟨r, hr, rfl⟩ := map_eq_some_iff.mp hstep
    exact h.delta (hspace _ rfl) hlegal hr
  | destroy ptr =>
    exact h.act_keep (hspace _ rfl) hlegal
      (fun e he hready q => (ipcRightDestroy_effect hready ptr.name).entryEffect) hzero hstep
  | rename =>
    obtain ⟨r, hr, rfl⟩ := map_eq_some_iff.mp hstep
    exact h.rename (hspace _ rfl) hlegal
      (fun e he hcompat hrequest hdead hmoved =>
        hsafe ⟨e, he, hcompat, hrequest, hdead, hmoved⟩) hr
  | spaceDestroy a =>
    cases hstep
    exact h.spaceDestroy (hspace a rfl)
  | clean a => exact h.clean (hspace a rfl) hstep
  | portCopySend port =>
    cases hstep
    exact h.copySend port
  | portMakeSend port | portMakeSonce port =>
    cases hstep
    exact h.gainPort (fun _ => rfl) rfl
  | portReleaseSend port =>
    cases hstep
    exact h.releaseSend hlegal
  | portReleaseSonce port =>
    cases hstep
    refine h.losePort (fun p => ?_) rfl ⟨Nat.zero_le _, hlegal, Nat.zero_le _⟩
    split <;> rfl
  | portCheckCircularity port =>
    obtain ⟨r, hr, rfl⟩ := map_eq_some_iff.mp hstep
    exact h.checkCircularity hr
  | portDestroy port =>
    obtain ⟨x, hx, rfl⟩ := map_eq_some_iff.mp hstep
    obtain ⟨r, hr, rfl⟩ := map_eq_some_iff.mp hx
    exact h.destroyPort hlegal.2 hr
  | portReleaseReceive =>
    obtain ⟨r, hr, rfl⟩ := map_eq_some_iff.mp hstep
    exact h.releaseReceive hlegal.2.2 hr

end

/-- What is lost is lost for a live port, which has a backup. -/
theorem loses_of_lost (h : w.SoundBut its spaces ports lost) {op : IpcOp} {q : Nat}
    (hspace : ∀ a, op.space = some a → a ∈ spaces) (hlegal : w.Legal its op)
    (hstep : w.step its fuel lockTry op = some w') (hq : (w'.ports.port q).ipActive = true)
    (hlost : w.lostBy op q ≠ .zero) : w.Loses fuel op := by
  cases op with
  | delta ptr right delta =>
    obtain ⟨⟨res, w₁⟩, hact, rfl⟩ := map_eq_some_iff.mp hstep
    obtain ⟨free, m, e, -, -, -, he, -, hready⟩ := h.points (hspace _ rfl) hlegal
    have hderef : w.deref ptr = some e := he
    simp only [lostBy, hderef, deltaLost] at hlost
    split at hlost
    next hdelta =>
      obtain ⟨rfl, rfl, htype⟩ := hdelta
      obtain rfl : e.ieObject = q := by
        by_contra hne
        exact hlost (only_of_ne _ hne)
      refine ⟨rfl, rfl, e, he, htype, ?_⟩
      obtain ⟨e', he', hfinish⟩ := bind_eq_some_iff.mp hact
      cases he.symm.trans he'
      have hdestroys := fun p => deltaReceive_destroys (q := p) hready htype ptr.name
      generalize ipcRightDelta ptr.name .receive (-1) ⟨e, w.ports, []⟩ = r at hfinish hdestroys
      obtain ⟨r, s⟩ := r
      obtain ⟨w₂, hw₂, heq⟩ := map_eq_some_iff.mp hfinish
      cases heq
      obtain ⟨x, -, hcalls⟩ := bind_eq_some_iff.mp hw₂
      obtain ⟨y, hy, rfl⟩ := map_eq_some_iff.mp hcalls
      have hbackup := PortState.hasBackup_of_calls hy (fun p => ?_) hq
      · exact hbackup.congr fun p => (hdestroys p).1
      · rw [portDestroy_mem, (hdestroys p).2]
        simp [eq_comm]
    next => exact absurd rfl hlost
  | _ => exact absurd rfl hlost

/-- Every operation keeps the invariant, but for the two. -/
theorem step (h : w.SoundBut its spaces ports lost) {op : IpcOp}
    (hspace : ∀ a, op.space = some a → a ∈ spaces) (hlegal : w.Legal its op)
    (hkeep : ¬ w.Loses fuel op) (hsafe : ¬ w.Strands op)
    (hstep : w.step its fuel lockTry op = some w') : w'.SoundBut its spaces ports lost := by
  have h' := h.step_lost hspace hlegal hsafe hstep
  refine { h' with accounted := h'.accounted.congr fun q hq => ?_ }
  have hlost : w.lostBy op q = .zero := by
    by_contra hne
    exact hkeep (h.loses_of_lost hspace hlegal hstep hq hne)
  rw [hlost]
  rfl

end SoundBut

/-! ## Runs -/

/-- The counts of every live port are the numbers of rights there are for it. -/
def Conserved (spaces ports : Finset Nat) (w : World) : Prop :=
  ∀ q, (w.ports.port q).ipActive = true →
    (w.ports.port q).ipSrights = w.count spaces (fun e => e.sends q) + (w.naked q).send +
        (w.ports.requests ports q).send ∧
      (w.ports.port q).ipSorights = w.count spaces (fun e => e.sendsOnce q) +
        (w.naked q).sendOnce + (w.ports.requests ports q).sendOnce ∧
      w.count spaces (fun e => e.receives q) + (w.naked q).receive ≤ 1

theorem Sound.conserved (h : w.Sound its spaces ports) : w.Conserved spaces ports :=
  fun q hq => ⟨h.accounted.send q hq, h.accounted.sendOnce q hq, h.accounted.receive q hq⟩

theorem Sound.run {fuel : Nat} {w₀ : World} (h₀ : w₀.Sound its spaces ports)
    (hrun : Run its fuel spaces (fun w op => ¬ w.Loses fuel op ∧ ¬ w.Strands op) w₀ w) :
    w.Sound its spaces ports := by
  induction hrun with
  | start => exact h₀
  | step _ hspace hlegal hok hstep ih => exact ih.step hspace hlegal hok.1 hok.2 hstep

/-- In every state that is reached without one of the two operations that lose track of a
right, the counts of every live port come out, and a send-once right that is destroyed goes
into a notification. -/
theorem conserved_of_run {fuel : Nat} {w₀ : World} (h₀ : w₀.Sound its spaces ports)
    (hrun : Run its fuel spaces (fun w op => ¬ w.Loses fuel op ∧ ¬ w.Strands op) w₀ w) :
    w.Conserved spaces ports ∧
      ∀ ptr e, w.deref ptr = some e → e.ieBits.type = machPortTypeSendOnce →
        (w.ports.port e.ieObject).ipActive = true →
        .notifySendOnce e.ieObject ∈ (ipcRightDestroy ptr.name ⟨e, w.ports, []⟩).2.calls := by
  refine ⟨(h₀.run hrun).conserved, fun ptr e _ htype hactive => ?_⟩
  have hports : ((RightState.unregister e.ieBits e.ieObject ⟨e, w.ports, []⟩).ports.port
      e.ieObject).ipActive = true := by simp [hactive]
  have hmem : ∀ {s : RightState} {dnrequest : Nat} {c : RightCall}, c ∈ s.calls →
      c ∈ (s.notifyDeleted dnrequest ptr.name).calls := by
    intro s dnrequest c hc
    unfold RightState.notifyDeleted
    split
    · exact List.mem_append_left _ hc
    · exact hc
  simp only [ipcRightDestroy, htype, hports, machPortTypeSendOnce]
  refine hmem ?_
  simp [RightState.notifyNoSenders, RightState.call]

/-! ### A port with a backup -/

/-- A send and a receive right for port 64. -/
def backedEntry : IpcEntry := ⟨⟨1, machPortTypeSendReceive, false, false, false, 0⟩, 64, 0⟩

/-- A space whose only name is 256. -/
def backedSpace : IpcSpace := oneEntrySpace backedEntry

/-- Port 64 has a port-destroyed request for port 128, whose receive right is naked. -/
def backedWorld : World where
  ports := ⟨fun q =>
    if q = 64 then ⟨true, 2, 16, 256, 0, 1, 0, ipNull, 128, 0, fun _ => ⟨0, machPortNull⟩⟩
    else if q = 128 then ⟨true, 2, ipNull, machPortNull, 0, 0, 1, ipNull, ipNull, 0,
      fun _ => ⟨0, machPortNull⟩⟩
    else ⟨false, 0, 0, machPortNull, 0, 0, 0, ipNull, ipNull, 0, fun _ => ⟨0, machPortNull⟩⟩, 0⟩
  naked := (⟨0, 0, 1⟩ : Rights).only 128
  space _ := backedSpace
  dying _ := []
  isNotify _ := ipNull
  hash := ⟨fun _ _ => 0, fun _ => 0, 0, fun _ => []⟩

theorem backedSpace_rep : ∃ free, backedSpace.Rep ipcTableEntries free
    (update (fun _ => none) 256 (some backedEntry)) ∧ backedSpace.Refers free 256 (.table 1) :=
  oneEntrySpace_rep backedEntry

theorem backedWorld_active (h : (backedWorld.ports.port q).ipActive = true) : q = 64 ∨ q = 128 := by
  by_contra! hne
  simp [backedWorld, hne] at h

theorem backedWorld_sound : backedWorld.Sound ipcTableEntries {16} {64} where
  space a _ _ := by
    obtain ⟨free, hrep, -⟩ := backedSpace_rep
    refine ⟨free, _, hrep, fun n v hv => ?_⟩
    by_cases hn : n = 256
    · rw [hn, update_self] at hv
      cases hv
      exact ⟨.sendReceive rfl (by decide) (by decide), fun _ => rfl⟩
    · rw [update_of_ne hn] at hv
      cases hv
  dying _ _ _ he := nomatch he
  quiet _ _ _ := rfl
  null := rfl
  dead := rfl
  accounted := by
    refine ⟨fun q hq => ?_, fun q hq => ?_, fun q hq => ?_, fun p hp => ?_⟩
    · rcases backedWorld_active hq with rfl | rfl <;> decide +kernel
    · rcases backedWorld_active hq with rfl | rfl <;> decide +kernel
    · rcases backedWorld_active hq with rfl | rfl <;> decide +kernel
    · have hp : p ≠ 64 := by simpa using hp
      simp only [backedWorld, if_neg hp]
      split <;> rfl

/-- The pointer to the entry of 256. -/
def backedPtr : EntryPtr := ⟨16, 256, .table 1⟩

theorem backedWorld_points : backedWorld.Points ipcTableEntries backedPtr := by
  obtain ⟨free, hrep, href⟩ := backedSpace_rep
  exact ⟨free, hrep.toCore, href⟩

/-- A send right is made for the port. -/
theorem conserved_of_run_copyin :
    ∃ w, backedWorld.step ipcTableEntries 1 true (.copyin backedPtr .makeSend false) = some w ∧
      w.Conserved {16} {64} := by
  have hsome : (backedWorld.step ipcTableEntries 1 true
      (.copyin backedPtr .makeSend false)).isSome = true := by decide +kernel
  obtain ⟨w, hw⟩ := isSome_iff_exists.mp hsome
  have hrun : Run ipcTableEntries 1 {16} (fun w op => ¬ w.Loses 1 op ∧ ¬ w.Strands op)
      backedWorld w := by
    refine .step .start (fun a ha => ?_) ?_ ?_ hw
    · cases ha
      exact Finset.mem_singleton_self _
    · exact backedWorld_points
    · exact ⟨id, id⟩
  exact ⟨w, hw, (conserved_of_run backedWorld_sound hrun).1⟩

/-- A port whose count of send rights does not come out. -/
theorem not_conserved_of_count (port : Nat) (next : Option World)
    (h : next.map (fun w => ((w.ports.port port).ipActive, (w.ports.port port).ipSrights,
      w.count {16} (fun e => e.sends port) + (w.naked port).send +
        (w.ports.requests {port} port).send)) = some (true, 1, 0)) :
    ∃ w, next = some w ∧ ¬ w.Conserved {16} {port} := by
  obtain ⟨w, hw, heq⟩ := map_eq_some_iff.mp h
  simp only [Prod.mk.injEq] at heq
  obtain ⟨hactive, hsrights, hcount⟩ := heq
  refine ⟨w, hw, fun hconserved => ?_⟩
  have hsend := (hconserved port hactive).1
  rw [hcount, hsrights] at hsend
  cases hsend

/-! ### A name that moves -/

/-- The space after `ipc_entry_alloc_name`. -/
def allocated (name : Nat) (s : IpcSpace) : IpcSpace :=
  match ipcEntryAllocName ipcTableEntries (fun _ => true) true name (ipcTableEntries.num + 1) false
    s with
  | some (_, s, _) => s
  | none => s

theorem allocated_rep {s : IpcSpace} {free : List Nat} {m : Nat → Option IpcEntry} (name : Nat)
    (h : s.Rep ipcTableEntries free m) (ht : Typed m) (hvalid : MachPortValid name)
    (hm : m name = none) (hok : ((ipcEntryAllocName ipcTableEntries (fun _ => true) true name
      (ipcTableEntries.num + 1) false s).bind fun r => r.1.toOption) = some (.tree name)) :
    ∃ free', (allocated name s).Rep ipcTableEntries free' (update m name (some .zero)) ∧
      (allocated name s).Refers free' name (.tree name) := by
  obtain ⟨r, s', calls, free', halloc, hspec⟩ :=
    IpcSpace.Rep.allocName (fun _ => true) true hvalid ht (ipcTableEntries.num + 1) false s free h
      (Nat.le_add_right ..)
  rw [halloc] at hok
  rw [allocated, halloc]
  rcases hspec with ⟨kr, rfl, -⟩ | ⟨ref, v, -, hv, -⟩ | ⟨ref, rfl, -, hrep, href⟩
  · cases hok
  · rw [hm] at hv
    cases hv
  · cases hok
    exact ⟨free', hrep, href⟩

/-- A send-once right for a dead port, with a dead-name request, of the old interface. -/
def strandedEntry : IpcEntry := ⟨⟨1, machPortTypeSendOnce, false, true, false, 0⟩, 64, 1⟩

/-- A send right for port 128. -/
def otherEntry : IpcEntry := ⟨⟨1, machPortTypeSend, false, false, false, 0⟩, 128, 0⟩

/-- The names 256, and 257 and 258, which are in the tree. -/
def strandedSpace : IpcSpace :=
  allocated 257 ((allocated 258 (oneEntrySpace strandedEntry)).write (.tree 258) otherEntry)

/-- Port 128 is active, and the others are dead. -/
def strandedWorld : World where
  ports := ⟨fun q =>
    ⟨q = 128, 2, ipNull, machPortNull, 0, if q = 128 then 1 else 0, 0, ipNull, ipNull, 0,
      fun _ => ⟨0, machPortNull⟩⟩, 0⟩
  naked _ := .zero
  space _ := strandedSpace
  dying _ := []
  isNotify _ := ipNull
  hash := ⟨fun _ _ => 0, fun _ => 0, 0, fun _ => []⟩

theorem strandedWorld_space (a : Nat) : strandedWorld.space a = strandedSpace := by
  rw [strandedWorld]

theorem strandedWorld_rep (a : Nat) : ∃ free, (strandedWorld.space a).Rep ipcTableEntries free
      (update (update (update (fun _ => none) 256 (some strandedEntry.right)) 258
        (some otherEntry.right)) 257 (some .zero)) ∧
    (strandedWorld.space a).Refers free 256 (.table 1) ∧
    (strandedWorld.space a).Refers free 257 (.tree 257) := by
  rw [strandedWorld_space]
  obtain ⟨free, hrep, href⟩ := oneEntrySpace_rep strandedEntry
  obtain ⟨htyped, -⟩ := oneEntrySpace_represents (e := strandedEntry) (by decide)
  obtain ⟨free₁, hrep₁, href₁⟩ := allocated_rep 258 hrep htyped (by decide)
    (update_of_ne (by decide) ..) (by decide +kernel)
  obtain ⟨hrep₂, -⟩ := hrep₁.write href₁ otherEntry
  rw [update_idem] at hrep₂
  obtain ⟨free₂, hrep₃, href₃⟩ := allocated_rep 257 hrep₂
    (IpcSpace.typed_update htyped 258 (by decide)) (by decide)
    ((update_of_ne (by decide) ..).trans (update_of_ne (by decide) ..)) (by decide +kernel)
  refine ⟨free₂, hrep₃, hrep.refers_frame hrep₃ href (by simp) (iff_of_false ?_ ?_), href₃⟩
  all_goals
    rintro ⟨v, hv⟩
    have hmem : 256 ∈ _ := List.mem_map_of_mem (f := Prod.fst) hv
    clear hv
    revert hmem
    decide +kernel

theorem strandedWorld_sound : strandedWorld.Sound ipcTableEntries {16} {128} where
  space a _ _ := by
    obtain ⟨free, hrep, -⟩ := strandedWorld_rep a
    refine ⟨free, _, hrep,
      storable_update (storable_update (storable_update (by simp) ?_) ?_) ?_⟩
    all_goals
      intro v hv
      cases hv
    · exact ⟨.sendOnce rfl rfl, by decide⟩
    · exact ⟨.send rfl (by decide) (by decide), by decide⟩
    · exact ⟨.none rfl (by decide), by decide⟩
  dying _ _ _ he := nomatch he
  quiet _ _ _ := rfl
  null := rfl
  dead := rfl
  accounted := by
    refine ⟨fun q hq => ?_, fun q hq => ?_, fun q hq => ?_, fun p hp => rfl⟩
    all_goals
      obtain rfl : q = 128 := by simpa [strandedWorld] using hq
      decide +kernel

/-- The name 256 is renamed to 257. -/
def strandedOp : IpcOp := .rename ⟨16, 256, .table 1⟩ ⟨16, 257, .tree 257⟩

/-- When its receive right is given up, the port goes to its backup and one send right too
many is counted.  When the name 257 has moved into the slot of 256, the name 258 is deallocated
in its place, and its send right is still counted. -/
theorem not_conserved :
    (∃ w, backedWorld.Sound ipcTableEntries {16} {64} ∧
      backedWorld.Legal ipcTableEntries (.delta backedPtr .receive (-1)) ∧
      backedWorld.step ipcTableEntries 1 true (.delta backedPtr .receive (-1)) = some w ∧
      ¬ w.Conserved {16} {64}) ∧
    ∃ w, strandedWorld.Sound ipcTableEntries {16} {128} ∧
      strandedWorld.Legal ipcTableEntries strandedOp ∧
      strandedWorld.step ipcTableEntries 1 true strandedOp = some w ∧
      ¬ w.Conserved {16} {128} := by
  constructor
  · obtain ⟨w, hw, hnot⟩ := not_conserved_of_count 64
      (backedWorld.step ipcTableEntries 1 true (.delta backedPtr .receive (-1)))
      (by decide +kernel)
    exact ⟨w, backedWorld_sound, backedWorld_points, hw, hnot⟩
  · obtain ⟨w, hw, hnot⟩ := not_conserved_of_count 128
      (strandedWorld.step ipcTableEntries 1 true strandedOp) (by decide +kernel)
    obtain ⟨free, hrep, hold, hnew⟩ := strandedWorld_rep 16
    obtain ⟨e, he, hm⟩ := hrep.deref hold
    obtain ⟨e', he', hm'⟩ := hrep.deref hnew
    rw [update_of_ne (by decide), update_of_ne (by decide), update_self, some.injEq] at hm
    rw [update_self, some.injEq] at hm'
    refine ⟨w, strandedWorld_sound, ⟨⟨free, hrep.toCore, hold⟩, ⟨free, hrep.toCore, hnew⟩, rfl,
      by decide, fun v hv => ?_, fun v hv => ?_⟩, hw, hnot⟩
    · obtain rfl : e = v := some.inj (he.symm.trans hv)
      rw [← IpcEntry.right_type, ← hm]
      exact ⟨by decide, fun _ => .inl (by decide)⟩
    · obtain rfl : e' = v := some.inj (he'.symm.trans hv)
      exact hm'.symm

end World

end Mach
