import Mach.Ipc.RightBalance
import Mach.Ipc.Object

/-!
# User references

The source counts user references by arithmetic on the word `ie_bits`, whose sixteen low
bits are the count and whose next bits are the type.  `Held` is what an entry holds with an
unbounded count, and each operation of `ipc/ipc_right.c` that counts has its meaning on it,
in integer arithmetic.  An entry that holds what it should, within bounds, holds what this
meaning says after the operation (`UrefsOp.does`): the packed arithmetic never leaves the
sixteen bits.

The run is that of one entry.  Everything else is its environment, of which it is only assumed that
the port of an entry with the receive right is alive.
-/

namespace Mach

/-! ## Unbounded counts -/

/-- What an entry holds. -/
inductive Held where
  | none
  | send (urefs : Int)
  | receive
  | sendReceive (urefs : Int)
  | sendOnce
  | portSet
  | deadName (urefs : Int)
deriving Repr, DecidableEq

/-- What else matters: whether the port is alive, whether there is a dead-name request, and
whether the entry is an old-style one. -/
structure Around where
  live : Bool
  request : Bool
  compat : Bool

namespace Held

/-- The bounds of the counts.  A send right leaves room for the user reference that a
dead-name request adds when the port dies. -/
def Bounded : Held → Prop
  | .send n => 1 ≤ n ∧ n ≤ 65534
  | .sendReceive n => 1 ≤ n ∧ n ≤ 65534
  | .deadName n => 1 ≤ n ∧ n ≤ 65535
  | _ => True

/-- The port is found to be dead. -/
def died (a : Around) (n : Int) : Held :=
  if a.compat then .none else .deadName (n + a.request.toNat)

/-- `ipc_right_check`. -/
def check (a : Around) : Held → Held
  | .send n => if a.live then .send n else died a n
  | .sendOnce => if a.live then .sendOnce else died a 1
  | h => h

/-- A number of user references goes. -/
def sub (k : Int) : Held → Held
  | .send n => if n = k then .none else .send (n - k)
  | .sendReceive n => if n = k then .receive else .sendReceive (n - k)
  | .deadName n => if n = k then .none else .deadName (n - k)
  | .sendOnce => .none
  | h => h

/-- `ipc_right_copyin`. -/
def copyin (a : Around) (deadok : Bool) : MachMsgTypeName → Held → Held
  | .makeSend, h => h
  | .makeSendOnce, h => h
  | .moveReceive, .receive => .none
  | .moveReceive, .sendReceive n => .send n
  | .moveReceive, h => h
  | .copySend, h => h.check a
  | .moveSend, h =>
    match h.check a with
    | .deadName n => if deadok then sub 1 (.deadName n) else .deadName n
    | .sendOnce => .sendOnce
    | h => h.sub 1
  | .moveSendOnce, h =>
    match h.check a with
    | .deadName n => if deadok then sub 1 (.deadName n) else .deadName n
    | .sendOnce => .none
    | h => h

/-- `ipc_right_copyin_undo`, for a port that is dead now. -/
def copyinUndo (a : Around) (msgtName : MachMsgTypeName) (soright : Bool) : Held → Held
  | .none => .deadName (if soright then 2 else 1)
  | .deadName n => .deadName (if msgtName = .copySend then n else n + 1)
  | .send n => check a (.send (if msgtName = .copySend then n else n + 1))
  | h => h

/-- `ipc_right_copyin_two`. -/
def copyinTwo (a : Around) : Held → Held
  | .send n =>
    if n < 2 then .send n
    else
      match check a (.send n) with
      | .send n => sub 2 (.send n)
      | h => h
  | .sendReceive n => if n < 2 then .sendReceive n else sub 2 (.sendReceive n)
  | h => h

/-- `ipc_right_copyout`. -/
def copyout : MachMsgTypePort → Held → Held
  | .portSendOnce, .none => .sendOnce
  | .portSend, .none => .send 1
  | .portSend, .receive => .sendReceive 1
  | .portSend, .send n => .send (if n + 1 = 65535 then n else n + 1)
  | .portSend, .sendReceive n => .sendReceive (if n + 1 = 65535 then n else n + 1)
  | .portReceive, .none => .receive
  | .portReceive, .send n => .sendReceive n
  | _, h => h

/-- `ipc_right_dealloc`. -/
def dealloc (a : Around) (h : Held) : Held := (h.check a).sub 1

/-- A change of the user references of a dead name, unless it goes out of bounds. -/
def deltaDead (d n : Int) : Held :=
  if n + d < 0 ∨ 65535 < n + d then .deadName n else sub (-d) (.deadName n)

/-- `ipc_right_delta`. -/
def delta (a : Around) (d : Int) : MachPortRight → Held → Held
  | .portSet, .portSet => if d = -1 then .none else .portSet
  | .portSet, h => h
  | .receive, .receive => if d = -1 then .none else .receive
  | .receive, .sendReceive n => if d = -1 then died a n else .sendReceive n
  | .receive, h => h
  | .sendOnce, .sendOnce =>
    if 0 < d ∨ d < -1 then .sendOnce
    else
      match check a .sendOnce with
      | .sendOnce => if d = 0 then .sendOnce else .none
      | h => h
  | .sendOnce, h => h
  | .deadName, h =>
    match h.check a with
    | .deadName n => deltaDead d n
    | h => h
  | .send, .send n =>
    if n + d < 0 ∨ 65535 < n + 1 + d then .send n
    else
      match check a (.send n) with
      | .send n => sub (-d) (.send n)
      | h => h
  | .send, .sendReceive n =>
    if n + d < 0 ∨ 65535 < n + 1 + d then .sendReceive n else sub (-d) (.sendReceive n)
  | .send, h => h

/-- A dead name is notified of at once. -/
def dnrequestDead (immediate : Bool) (n : Int) : Held :=
  .deadName (if immediate ∧ n + 1 ≤ 65535 then n + 1 else n)

/-- `ipc_right_dnrequest`. -/
def dnrequest (a : Around) (immediate : Bool) (h : Held) : Held :=
  match h.check a with
  | .deadName n => dnrequestDead immediate n
  | h => h

end Held

open Held

/-! ## Counts -/

/-- The user references, if they are counted. -/
def Held.count : Held → Option Int
  | .send n => some n
  | .sendReceive n => some n
  | .deadName n => some n
  | _ => Option.none

/-- The same with another count. -/
def Held.recount (m : Int) : Held → Held
  | .send _ => .send m
  | .sendReceive _ => .sendReceive m
  | .deadName _ => .deadName m
  | h => h

variable {h : Held} {n : Int}

theorem Held.Bounded.of_count (hb : h.Bounded) (hn : h.count = some n) : 1 ≤ n ∧ n ≤ 65535 := by
  cases h <;> simp_all [count, Bounded] <;> omega

theorem Held.Bounded.recount {m : Int} (hb : h.Bounded) (hn : h.count = some n)
    (hlo : 1 ≤ m) (hle : m ≤ n) : (h.recount m).Bounded := by
  cases h <;> simp_all [count, Held.recount, Bounded] <;> omega

/-! ## Entries -/

/-- The entry holds this. -/
inductive IpcEntry.Holds (e : IpcEntry) : Held → Prop where
  | none (type : e.ieBits.type = machPortTypeNone) : e.Holds .none
  | send {n : Int} (type : e.ieBits.type = machPortTypeSend) (urefs : (e.ieBits.urefs : Int) = n) :
      e.Holds (.send n)
  | receive (type : e.ieBits.type = machPortTypeReceive) (urefs : e.ieBits.urefs = 0) :
      e.Holds .receive
  | sendReceive {n : Int} (type : e.ieBits.type = machPortTypeSendReceive)
      (urefs : (e.ieBits.urefs : Int) = n) : e.Holds (.sendReceive n)
  | sendOnce (type : e.ieBits.type = machPortTypeSendOnce) (urefs : e.ieBits.urefs = 1) :
      e.Holds .sendOnce
  | portSet (type : e.ieBits.type = machPortTypePortSet) (urefs : e.ieBits.urefs = 0) :
      e.Holds .portSet
  | deadName {n : Int} (type : e.ieBits.type = machPortTypeDeadName)
      (urefs : (e.ieBits.urefs : Int) = n) : e.Holds (.deadName n)

/-- What an operation leaves: an entry, unless it has deallocated it. -/
def RightState.Holds (s : RightState) (h : Held) : Prop :=
  if .entryDealloc ∈ s.calls then h = .none else s.entry.Holds h

/-- What an operation sees besides the right. -/
def around (e : IpcEntry) (P : IpcPorts) : Around :=
  ⟨(P.port e.ieObject).ipActive, e.ieRequest ≠ 0, e.ieBits.compat⟩

attribute [local simp] RightState.dealloc

open RightState PortTypes

variable {s : RightState}

theorem RightState.Holds.intro (hc : .entryDealloc ∉ s.calls)
    (he : s.entry.Holds h) : s.Holds h := by
  rw [Holds, if_neg hc]
  exact he

theorem RightState.Holds.gone (hc : .entryDealloc ∈ s.calls) : s.Holds .none := by
  rw [Holds, if_pos hc]

/-- A port whose receive right is here is active. -/
def Receives (e : IpcEntry) (P : IpcPorts) : Prop :=
  e.ieBits.type.receive = true → (P.port e.ieObject).ipActive = true

/-! ## Refusals -/

/-- The operation was refused. -/
def KernReturn.Refusal : KernReturn → Prop
  | .urefsOverflow => True
  | .invalidValue => True
  | .invalidRight => True
  | _ => False

/-- The port was found to be dead, and nothing has happened but that the entry is a dead name
now. -/
structure FoundDead (e : IpcEntry) (P : IpcPorts) (s : RightState) : Prop where
  right : e.ieBits.type.sendRights = true
  inactive : (P.port e.ieObject).ipActive = false
  compat : e.ieBits.compat = false
  eq : s = ⟨e.toDead, P.modify e.ieObject IpcPort.release, e.checkCalls⟩

/-- A refusal changes nothing else. -/
def Harmless {α : Type} (e : IpcEntry) (P : IpcPorts) (r : Except KernReturn α × RightState) :
    Prop :=
  ∀ kr, r.1 = .error kr → kr.Refusal → r.2 = ⟨e, P, []⟩ ∨ FoundDead e P r.2

section Refuse

variable {α : Type} {e : IpcEntry} {P : IpcPorts}

theorem Harmless.ok (v : α) (s : RightState) : Harmless e P (.ok v, s) := by
  intro kr hkr
  cases hkr

theorem Harmless.same (r : Except KernReturn α) : Harmless e P (r, ⟨e, P, []⟩) :=
  fun _ _ _ => .inl rfl

theorem Harmless.invalidName (s : RightState) :
    Harmless e P ((.error .invalidName, s) : Except KernReturn α × RightState) := by
  intro kr hkr href
  cases hkr
  cases href

end Refuse

/-- What `ipc_right_dnrequest` returns. -/
def Dnrequest.kr : Dnrequest → Except KernReturn Unit
  | .failed kr => .error kr
  | _ => .ok ()

/-- What is known of every reachable entry. -/
structure Counted (e : IpcEntry) (P : IpcPorts) (h : Held) : Prop where
  gen : e.ieBits.gen < 2 ^ 8
  bounded : h.Bounded
  holds : e.Holds h
  receives : Receives e P

theorem machPortUrefsOverflow_iff_int {u : Nat} (hu : (u : Int) = n) (hhi : n ≤ 65535) (d : Int) :
    machPortUrefsOverflow u d ↔ 65535 < n + d := by
  have hmax : u ≤ machPortUrefsMax := by
    show u ≤ 65535
    omega
  rw [machPortUrefsOverflow_iff hmax, hu]
  rfl

section Entries

variable {e : IpcEntry} {P : IpcPorts} {h : Held} {n : Int} {e' : IpcEntry} {d : Int}

section

variable (he : e.Holds h)
include he

theorem IpcEntry.Holds.eq_none (type : e.ieBits.type = machPortTypeNone) : h = .none := by
  cases he with
  | none t => rfl
  | _ t => simp [type] at t

theorem IpcEntry.Holds.urefs_eq (hn : h.count = some n) : (e.ieBits.urefs : Int) = n := by
  cases he <;> simp_all [count]

theorem IpcEntry.Holds.congr
    (htype : e'.ieBits.type = e.ieBits.type) (hurefs : e'.ieBits.urefs = e.ieBits.urefs) :
    e'.Holds h := by
  cases he with
  | none type => exact .none (htype.trans type)
  | send type urefs => exact .send (htype.trans type) (by rw [hurefs]; exact urefs)
  | receive type urefs => exact .receive (htype.trans type) (hurefs.trans urefs)
  | sendReceive type urefs => exact .sendReceive (htype.trans type) (by rw [hurefs]; exact urefs)
  | sendOnce type urefs => exact .sendOnce (htype.trans type) (hurefs.trans urefs)
  | portSet type urefs => exact .portSet (htype.trans type) (hurefs.trans urefs)
  | deadName type urefs => exact .deadName (htype.trans type) (by rw [hurefs]; exact urefs)

theorem IpcEntry.Holds.withUrefs {m : Int} (hn : h.count = some n) (hlo : 0 ≤ m)
    (hbits : e'.ieBits = { e.ieBits with urefs := m.toNat }) : e'.Holds (h.recount m) := by
  have hint : (e'.ieBits.urefs : Int) = m := by
    rw [hbits]
    exact Int.toNat_of_nonneg hlo
  have htype : e'.ieBits.type = e.ieBits.type := by rw [hbits]
  cases he with
  | send type => exact .send (htype.trans type) hint
  | sendReceive type => exact .sendReceive (htype.trans type) hint
  | deadName type => exact .deadName (htype.trans type) hint
  | _ => cases hn

theorem IpcEntry.Holds.recount (hg : e.ieBits.gen < 2 ^ 8)
    (hn : h.count = some n) (hb : (h.recount (n + d)).Bounded)
    (hbits : e'.ieBits = e.ieBits.add d) :
    e'.Holds (h.recount (n + d)) ∧ e'.ieBits.gen < 2 ^ 8 := by
  have hcount : (h.recount (n + d)).count = some (n + d) := by
    cases h <;> simp_all [count, recount]
  obtain ⟨hlo, hhi⟩ := hb.of_count hcount
  have hu := he.urefs_eq hn
  have hadd : e'.ieBits = { e.ieBits with urefs := (n + d).toNat } :=
    hbits.trans (IeBits.add_eq hg (by omega) (by omega))
  exact ⟨he.withUrefs hn (by omega) hadd, by rw [hadd]; exact hg⟩

end

/-- An operation has left this, within its bounds. -/
inductive RightState.Leaves (s : RightState) : Held → Prop where
  | gone (dealloc : .entryDealloc ∈ s.calls) : s.Leaves .none
  | stays {h : Held} (stays : .entryDealloc ∉ s.calls) (gen : s.entry.ieBits.gen < 2 ^ 8)
      (bounded : h.Bounded) (holds : s.entry.Holds h) : s.Leaves h

variable {s : RightState}

section

variable (hs : s.Leaves h)
include hs

theorem RightState.Leaves.holds : s.Holds h := by
  cases hs with
  | gone hmem => exact .gone hmem
  | stays hmem _ _ he => exact .intro hmem he

theorem RightState.Leaves.bounded : h.Bounded := by
  cases hs with
  | gone => trivial
  | stays _ _ hb => exact hb

theorem RightState.Leaves.of_stays (hmem : .entryDealloc ∉ s.calls) :
    s.entry.ieBits.gen < 2 ^ 8 ∧ h.Bounded ∧ s.entry.Holds h := by
  cases hs with
  | gone hgone => exact absurd hgone hmem
  | stays _ hg hb he => exact ⟨hg, hb, he⟩

theorem RightState.Leaves.onPort (port : Nat) (f : IpcPort → IpcPort) :
    (s.onPort port f).Leaves h := by
  cases hs with
  | gone hmem => exact .gone hmem
  | stays hmem hg hb he => exact .stays hmem hg hb he

end

theorem RightState.Leaves.recount (hg : e.ieBits.gen < 2 ^ 8) (he : e.Holds h)
    (hn : h.count = some n) (hb : (h.recount (n + d)).Bounded)
    (hmem : .entryDealloc ∉ s.calls) (hbits : s.entry.ieBits = e.ieBits.add d) :
    s.Leaves (h.recount (n + d)) := by
  obtain ⟨he', hg'⟩ := he.recount hg hn hb hbits
  exact .stays hmem hg' hb he'

/-- What an operation comes to. -/
structure Does {α : Type} (e : IpcEntry) (P : IpcPorts) (h : Held)
    (r : Except KernReturn α × RightState) : Prop where
  leaves : r.2.Leaves h
  harmless : Harmless e P r

section Does

variable {α : Type} {s : RightState} (hc : Counted e P h)
include hc

theorem Counted.leaves {Q : IpcPorts} : RightState.Leaves ⟨e, Q, []⟩ h :=
  .stays (by simp) hc.gen hc.bounded hc.holds

theorem Counted.same (r : Except KernReturn α) : Does e P h (r, ⟨e, P, []⟩) := ⟨hc.leaves, .same r⟩

omit hc

theorem Does.ok (hs : s.Leaves h) (v : α) : Does e P h (.ok v, s) := ⟨hs, .ok v s⟩

theorem Does.gone (hmem : .entryDealloc ∈ s.calls) :
    Does e P .none ((.error .invalidName, s) : Except KernReturn α × RightState) :=
  ⟨.gone hmem, .invalidName s⟩

theorem Does.ite {c : Prop} [Decidable c] {r r' : Except KernReturn α × RightState}
    (ht : c → Does e P h r) (hf : ¬ c → Does e P h r') : Does e P h (if c then r else r') := by
  split
  · exact ht (by assumption)
  · exact hf (by assumption)

end Does

/-! ## Dead names -/

/-- A dead name, which the entry was before or has been found to be. -/
structure DeadAt (e : IpcEntry) (P : IpcPorts) (n : Int) (s : RightState) : Prop where
  stays : .entryDealloc ∉ s.calls
  gen : s.entry.ieBits.gen < 2 ^ 8
  bounded : Held.Bounded (.deadName n)
  holds : s.entry.Holds (.deadName n)
  found : s = ⟨e, P, []⟩ ∨ FoundDead e P s

/-- What `ipc_right_check` finds. -/
inductive Finds (e : IpcEntry) (P : IpcPorts) (h : Held) : Prop where
  | live (check : ipcRightCheck e.ieObject ⟨e, P, []⟩ = (false, ⟨e, P, []⟩))
      (held : h.check (around e P) = h)
  | gone (s : RightState) (check : ipcRightCheck e.ieObject ⟨e, P, []⟩ = (true, s))
      (compat : e.ieBits.compat = true) (held : h.check (around e P) = .none)
      (dealloc : .entryDealloc ∈ s.calls)
  | dead (s : RightState) (n : Int) (check : ipcRightCheck e.ieObject ⟨e, P, []⟩ = (true, s))
      (compat : e.ieBits.compat = false) (held : h.check (around e P) = .deadName n)
      (dead : DeadAt e P n s)

theorem Counted.finds (hc : Counted e P h) (hright : e.ieBits.type.portRights = true) :
    Finds e P h := by
  have hlive : (P.port e.ieObject).ipActive = true → h.check (around e P) = h → Finds e P h :=
    fun hactive => .live (ipcRightCheck_active hactive)
  have hsend : ∀ n, e.ieBits.type.sendRights = true → Held.Bounded (.send n) →
      (e.ieBits.urefs : Int) = n →
      h.check (around e P) = (if (around e P).live then h else .died (around e P) n) →
      Finds e P h := by
    intro n hr hbn urefs hheld
    obtain ⟨hlo, hhi⟩ := hbn
    have hlt : e.ieBits.urefs < machPortUrefsMax := by
      show e.ieBits.urefs < 65535
      omega
    cases hactive : (P.port e.ieObject).ipActive with
    | true => exact hlive hactive (hheld.trans (by simp [around, hactive]))
    | false =>
      rw [if_neg (by simp [around, hactive]), died] at hheld
      cases hcompat : e.ieBits.compat with
      | true =>
        exact .gone _ (ipcRightCheck_compat hactive hcompat) hcompat
          (hheld.trans (by simp [around, hcompat])) (by simp)
      | false =>
        have hrequest : (around e P).request.toNat ≤ 1 := Bool.toNat_le _
        refine .dead _ (n + (around e P).request.toNat) (ipcRightCheck_died hactive hcompat
          hc.gen hlt) hcompat
          (hheld.trans (if_neg (by simp [around, hcompat]))) ⟨?_, hc.gen, ⟨by omega, by omega⟩,
            .deadName rfl ?_, .inr ⟨hr, hactive, hcompat, rfl⟩⟩
        · simpa using e.entryDealloc_notMem_checkCalls
        · simp only [IpcEntry.toDead, around]
          split <;> simp_all
  obtain ⟨-, hb, he, hrecv⟩ := hc
  cases he with
  | send type urefs => exact hsend _ (by simp [type]) hb urefs rfl
  | sendOnce type => exact hsend 1 (by simp [type]) ⟨by omega, by omega⟩ (by omega) rfl
  | receive type | sendReceive type => exact hlive (hrecv (by simp [type])) rfl
  | _ type => simp [type] at hright

theorem Counted.check (hc : Counted e P h) (hright : e.ieBits.type.portRights = true) :
    (ipcRightCheck e.ieObject ⟨e, P, []⟩).2.Leaves (h.check (around e P)) := by
  cases hc.finds hright with
  | live heq hheld => rw [heq, hheld]; exact hc.leaves
  | gone s heq _ hheld hmem => rw [heq, hheld]; exact .gone hmem
  | dead s n heq _ hheld hdead =>
    rw [heq, hheld]
    exact .stays hdead.stays hdead.gen hdead.bounded hdead.holds

section Dead

variable {α : Type} {s : RightState} {n : Int} (hd : DeadAt e P n s)
include hd

theorem DeadAt.refuse (r : Except KernReturn α) : Does e P (.deadName n) (r, s) :=
  ⟨.stays hd.stays hd.gen hd.bounded hd.holds, fun _ _ _ => hd.found⟩

theorem DeadAt.urefs : s.entry.ieBits.type = machPortTypeDeadName ∧
    (s.entry.ieBits.urefs : Int) = n ∧ 1 ≤ n ∧ n ≤ 65535 := by
  obtain ⟨-, -, ⟨hlo, hhi⟩, he, -⟩ := hd
  cases he with
  | deadName type urefs => exact ⟨type, urefs, hlo, hhi⟩

theorem DeadAt.recount {m : Int} (d : Int) (hm : m = n + d) (hlo : 1 ≤ m) (hhi : m ≤ 65535)
    {s' : RightState} (hmem : .entryDealloc ∉ s'.calls)
    (hbits : s'.entry.ieBits = s.entry.ieBits.add d) (v : α) : Does e P (.deadName m)
    (.ok v, s') := by
  subst hm
  exact .ok (.recount hd.gen hd.holds rfl ⟨hlo, hhi⟩ hmem hbits) v

theorem DeadAt.deallocDeadName (v : α) :
    Does e P (Held.sub 1 (.deadName n)) (.ok v, s.deallocDeadName) := by
  obtain ⟨-, hu, hlo, hhi⟩ := hd.urefs
  rw [RightState.deallocDeadName, sub]
  by_cases hone : n = 1
  · rw [if_pos hone, if_pos (by omega)]
    exact .ok (.gone (by simp)) v
  · rw [if_neg hone, if_neg (by omega)]
    exact hd.recount (-1) (by omega) (by omega) (by omega) (by exact hd.stays) rfl v

variable (deadok : Bool)

theorem DeadAt.moveDead :
    Does e P (if deadok then Held.sub 1 (.deadName n) else .deadName n)
      (Mach.moveDead deadok s) := by
  obtain ⟨type, hu, hlo, hhi⟩ := hd.urefs
  cases deadok with
  | false => exact hd.refuse _
  | true =>
    simp only [Mach.moveDead, not_true_eq_false, if_false, if_true, sub]
    by_cases hone : n = 1
    · rw [if_pos hone, if_pos (by omega)]
      exact .ok (.stays (by exact hd.stays) (by exact hd.gen) (by trivial)
        (.none (by simp [type]))) _
    · rw [if_neg hone, if_neg (by omega)]
      exact hd.recount (-1) (by omega) (by omega) (by omega) (by exact hd.stays) rfl _

theorem DeadAt.copyDead : Does e P (.deadName n) (Mach.copyDead deadok s) := by
  cases deadok with
  | false | true => exact hd.refuse _

theorem DeadAt.delta (d : Int) : Does e P (Held.deltaDead d n)
      (if machPortUrefsUnderflow s.entry.ieBits.urefs d then
          ((.error .invalidValue, s) : Except KernReturn Unit × RightState)
        else if machPortUrefsOverflow s.entry.ieBits.urefs d then (.error .urefsOverflow, s)
        else if (s.entry.ieBits.urefs : Int) + d = 0 then (.ok (), s.call .entryDealloc)
        else (.ok (), s.setBits (s.entry.ieBits.add d))) := by
  obtain ⟨-, hu, hlo, hhi⟩ := hd.urefs
  simp only [machPortUrefsUnderflow_iff, machPortUrefsOverflow_iff_int hu hhi, hu, deltaDead]
  by_cases hunder : n + d < 0
  · rw [if_pos hunder, if_pos (.inl hunder)]
    exact hd.refuse _
  rw [if_neg hunder]
  by_cases hover : 65535 < n + d
  · rw [if_pos hover, if_pos (.inr hover)]
    exact hd.refuse _
  rw [if_neg hover, if_neg (not_or.mpr ⟨hunder, hover⟩), sub]
  by_cases hzero : n + d = 0
  · rw [if_pos hzero, if_pos (by omega)]
    exact .ok (.gone (by simp)) _
  · rw [if_neg hzero, if_neg (by omega), sub_neg_eq_add]
    exact hd.recount d rfl (by omega) (by omega) (by exact hd.stays) rfl _

theorem DeadAt.dnrequestDead (name : Nat) (immediate : Bool) (notify : Nat) :
    Does e P (Held.dnrequestDead (immediate && notify ≠ ipNull) n)
      ((Mach.dnrequestDead name immediate notify s).1.kr,
        (Mach.dnrequestDead name immediate notify s).2) := by
  obtain ⟨type, hu, hlo, hhi⟩ := hd.urefs
  have hdn : Mach.dnrequestDead name immediate notify s =
      if immediate && notify ≠ ipNull then
        if 65535 < n + 1 then (.failed .urefsOverflow, s)
        else (.done ipNull, (s.setBits (s.entry.ieBits.add 1)).call (.notifyDeadName notify name))
      else (.failed .invalidArgument, s) := by
    simp only [Mach.dnrequestDead, machPortUrefsOverflow_iff_int hu hhi, type]
    simp
  rw [hdn, Held.dnrequestDead]
  cases immediate && decide (notify ≠ ipNull) with
  | false => exact hd.refuse _
  | true =>
    by_cases hover : 65535 < n + 1
    · simp only [hover, if_true]
      rw [if_neg (by omega)]
      exact hd.refuse _
    · simp only [hover]
      rw [if_pos ⟨trivial, by omega⟩]
      exact hd.recount 1 rfl (by omega) (by omega) (by simpa using hd.stays) rfl _

end Dead

/-! ## Send rights -/

section Send

variable (hc : Counted e P h) {n : Int} {s : RightState} {k : Int}
include hc

theorem Counted.dead (hh : h = .deadName n) : DeadAt e P n ⟨e, P, []⟩ :=
  ⟨by simp, hc.gen, hh ▸ hc.bounded, hh ▸ hc.holds, .inl rfl⟩

theorem Counted.send (hsend : e.ieBits.type.send = true) :
    ∃ n, h.count = some n ∧ (e.ieBits.urefs : Int) = n ∧ 1 ≤ n ∧ n ≤ 65534 := by
  obtain ⟨-, hb, he, -⟩ := hc
  cases he with
  | send _ urefs | sendReceive _ urefs => exact ⟨_, rfl, urefs, hb⟩
  | _ type => simp [type] at hsend

theorem Counted.dropped (hsend : e.ieBits.type.send = true) (hn : h.count = some n)
    (hmem : .entryDealloc ∉ s.calls)
    (hbits : s.entry.ieBits =
      { e.ieBits with urefs := 0, type := { e.ieBits.type with send := false } }) :
    s.Leaves (h.sub n) := by
  obtain ⟨hg, -, he, -⟩ := hc
  have hg' : s.entry.ieBits.gen < 2 ^ 8 := by rw [hbits]; exact hg
  cases he with
  | send type =>
    cases hn
    rw [sub, if_pos rfl]
    exact .stays hmem hg' trivial (.none (by simp [hbits, type]))
  | sendReceive type =>
    cases hn
    rw [sub, if_pos rfl]
    exact .stays hmem hg' trivial (.receive (by simp [hbits, type]) (by simp [hbits]))
  | _ type => simp [type] at hsend

theorem Counted.changed {d : Int} (hk : k = -d) (hn : h.count = some n) (hne : n + d ≠ 0)
    (hb : (h.recount (n + d)).Bounded) (hmem : .entryDealloc ∉ s.calls)
    (hbits : s.entry.ieBits = e.ieBits.add d) : s.Leaves (h.sub k) := by
  have hsub : h.sub k = h.recount (n + d) := by
    have hne' : n ≠ k := by omega
    cases h <;> simp_all [count, sub, recount]
  rw [hsub]
  exact .recount hc.gen hc.holds hn hb hmem hbits

theorem Counted.less (hn : h.count = some n) (hk : 0 ≤ k) (hlt : k < n)
    (hmem : .entryDealloc ∉ s.calls) (hbits : s.entry.ieBits = e.ieBits.add (-k)) :
    s.Leaves (h.sub k) :=
  hc.changed (neg_neg k).symm hn (by omega) (hc.bounded.recount hn (by omega) (by omega)) hmem hbits

end Send

/-! ## Copyin -/

/-- If a copyin of a send or a send-once right succeeds, this is left to be undone. -/
structure Copied (e : IpcEntry) (msgtName : MachMsgTypeName) (object soright : Nat)
    (s : RightState) : Prop where
  calls : RightCall.entryDealloc ∉ s.calls
  soright : soright ≠ ipNull → s.entry.ieBits.type = machPortTypeNone
  live : s.entry.ieBits.type ≠ machPortTypeNone → s.entry.ieBits.type ≠ machPortTypeDeadName →
    s.entry.ieBits.type.sendReceive = true ∧ object = e.ieObject ∧
      s.entry.ieObject = e.ieObject ∧ s.calls = []
  /-- There is room for the user reference to come back. -/
  room : msgtName ≠ .copySend →
    (s.entry.ieBits.type = machPortTypeSend → s.entry.ieBits.urefs + 1 ≤ 65534) ∧
      (s.entry.ieBits.type = machPortTypeDeadName → s.entry.ieBits.urefs + 1 ≤ 65535)

/-- A copyin that can be undone. -/
def CanUndo (e : IpcEntry) (msgtName : MachMsgTypeName) (r : Copyin × RightState) : Prop :=
  ∀ object soright, r.1 = .ok (object, soright) → Copied e msgtName object soright r.2

theorem CanUndo.error (msgtName : MachMsgTypeName) (kr : KernReturn) (s : RightState) :
    CanUndo e msgtName (.error kr, s) := by
  intro object soright hok
  cases hok

variable {msgtName : MachMsgTypeName}

theorem CanUndo.none {v : Nat × Nat}
    (hmem : .entryDealloc ∉ s.calls) (type : s.entry.ieBits.type = machPortTypeNone) :
    CanUndo e msgtName (.ok v, s) :=
  fun _ _ _ => ⟨hmem, fun _ => type, fun ht => absurd type ht,
    fun _ => ⟨fun ht => by simp [type] at ht, fun ht => by simp [type] at ht⟩⟩

theorem Counted.copyinSendRight (hc : Counted e P h) {dead live : RightState → Copyin × RightState}
    {g : Held} (hgone : h.check (around e P) = .none → g = .none)
    (hother : e.ieBits.type.sendRights = false → e.ieBits.type.deadName = false →
      h.check (around e P) = h → g = h)
    (hdead : ∀ s n, h.check (around e P) = .deadName n → DeadAt e P n s →
      Does e P g (dead s) ∧ CanUndo e msgtName (dead s))
    (hlive : e.ieBits.type.sendRights = true → h.check (around e P) = h →
      Does e P g (live ⟨e, P, []⟩) ∧ CanUndo e msgtName (live ⟨e, P, []⟩)) :
    Does e P g (Mach.copyinSendRight dead live ⟨e, P, []⟩) ∧
      CanUndo e msgtName (Mach.copyinSendRight dead live ⟨e, P, []⟩) := by
  cases hr : e.ieBits.type.sendRights with
  | true =>
    have hname : e.ieBits.type.deadName = false := by
      cases hc.holds with
      | deadName type => simp [type] at hr
      | _ type => simp [type]
    simp only [Mach.copyinSendRight, hr, hname]
    cases hc.finds (by simp_all; grind) with
    | live heq hheld => simpa [heq] using hlive hr hheld
    | gone s heq hcompat hheld hmem =>
      rw [hgone hheld]
      simpa [heq, hcompat] using ⟨.gone hmem, .error _ _ _⟩
    | dead s n heq hcompat hheld hd => simpa [heq, hcompat] using hdead s n hheld hd
  | false =>
    cases hname : e.ieBits.type.deadName with
    | true =>
      simp only [Mach.copyinSendRight, hname]
      obtain ⟨n, hh⟩ : ∃ n, h = .deadName n := by
        cases hc.holds with
        | deadName => exact ⟨_, rfl⟩
        | _ type => simp [type] at hname
      exact hdead _ n (by rw [hh]; rfl) (hc.dead hh)
    | false =>
      simp only [Mach.copyinSendRight, hr, hname]
      have hheld : h.check (around e P) = h := by
        cases hc.holds with
        | send type | sendOnce type => simp [type] at hr
        | _ => rfl
      rw [hother hr hname hheld]
      exact ⟨hc.same _, .error _ _ _⟩

theorem DeadAt.canUndo_moveDead (hd : DeadAt e P n s) (deadok : Bool)
    (msgtName : MachMsgTypeName) : CanUndo e msgtName (Mach.moveDead deadok s) := by
  obtain ⟨type, hu, hlo, hhi⟩ := hd.urefs
  cases deadok with
  | false => exact .error _ _ _
  | true =>
    simp only [Mach.moveDead, not_true_eq_false, if_false]
    split
    · exact .none hd.stays (by simp [type])
    have hadd : s.entry.ieBits.add (-1) = { s.entry.ieBits with urefs := (n - 1).toNat } :=
      IeBits.add_eq hd.gen (by omega) (by omega)
    intro object soright hok
    cases hok
    refine ⟨hd.stays, fun hso => absurd rfl hso, fun _ ht => absurd (by simp [hadd, type]) ht,
      fun _ => ⟨fun ht => by simp [hadd, type] at ht, fun _ => ?_⟩⟩
    simp only [setBits, hadd]
    omega

section Copyin

variable (hc : Counted e P h)
include hc

variable (deadok : Bool)

theorem Counted.copySend :
    Does e P (h.copyin (around e P) deadok .copySend) (ipcRightCopyin .copySend deadok ⟨e, P, []⟩) ∧
      CanUndo e .copySend (ipcRightCopyin .copySend deadok ⟨e, P, []⟩) := by
  simp only [copyin]
  refine hc.copyinSendRight id (fun _ _ => id) ?_ ?_
  · intro s n hheld hd
    rw [hheld]
    refine ⟨hd.copyDead deadok, fun object soright hok => ?_⟩
    have type := hd.urefs.1
    cases deadok with
    | false => cases hok
    | true =>
      cases hok
      exact ⟨hd.stays, fun hso => absurd rfl hso, fun _ ht => absurd type ht,
        fun hne => absurd rfl hne⟩
  · intro _ hheld
    rw [hheld]
    split
    · exact ⟨hc.same _, .error _ _ _⟩
    rename_i hsend
    refine ⟨.ok hc.leaves _, fun object soright hok => ?_⟩
    cases hok
    refine ⟨by simp, fun hso => absurd rfl hso, fun _ _ => ⟨?_, rfl, rfl, rfl⟩,
      fun hne => absurd rfl hne⟩
    simpa using .inl (not_not.mp hsend)

theorem Counted.moveSend :
    Does e P (h.copyin (around e P) deadok .moveSend) (ipcRightCopyin .moveSend deadok ⟨e, P, []⟩) ∧
      CanUndo e .moveSend (ipcRightCopyin .moveSend deadok ⟨e, P, []⟩) := by
  have hkeep : h.check (around e P) = h → e.ieBits.type.send = false →
      e.ieBits.type.deadName = false → h.copyin (around e P) deadok .moveSend = h := by
    intro hheld hsend hname
    rw [copyin, hheld]
    cases hc.holds with
    | send type | sendReceive type => simp [type] at hsend
    | deadName type => simp [type] at hname
    | _ => rfl
  refine hc.copyinSendRight (fun hheld => by rw [copyin, hheld]; rfl) ?_ ?_ ?_
  · exact fun hr hname hheld => hkeep hheld (by simp_all) hname
  · intro s n hheld hd
    rw [copyin, hheld]
    exact ⟨hd.moveDead deadok, hd.canUndo_moveDead deadok _⟩
  · intro hr hheld
    by_cases hsend : e.ieBits.type.send = true
    · obtain ⟨n, hn, hu, hlo, hhi⟩ := hc.send hsend
      have hsub : h.copyin (around e P) deadok .moveSend = h.sub 1 := by
        rw [copyin, hheld]
        cases hc.holds with
        | deadName type | sendOnce type => simp [type] at hsend
        | _ => rfl
      rw [hsub]
      dsimp only
      rw [if_neg (not_not.mpr hsend)]
      by_cases hone : n = 1
      · subst hone
        rw [if_pos (by omega)]
        refine ⟨.ok (hc.dropped hsend hn ?_ rfl) _, ?_⟩
        · cases e.ieBits.type.receive <;> simp
        · cases hc.holds with
          | send type => exact .none (by simp [type]) (by simp [type])
          | sendReceive type =>
            simp only [type]
            intro object soright hok
            cases hok
            exact ⟨by simp, fun hso => absurd rfl hso, fun _ _ => ⟨rfl, rfl, rfl, rfl⟩,
              fun _ => ⟨fun ht => by simp at ht, fun ht => by simp at ht⟩⟩
          | _ type => simp [type] at hsend
      · have hadd : e.ieBits.add (-1) = { e.ieBits with urefs := (n - 1).toNat } :=
          IeBits.add_eq hc.gen (by omega) (by omega)
        rw [if_neg (by omega)]
        refine ⟨.ok (hc.less hn (by omega) (by omega) (by simp) rfl) _,
          fun object soright hok => ?_⟩
        cases hok
        refine ⟨by simp, fun hso => absurd rfl hso, fun _ _ => ⟨?_, rfl, rfl, rfl⟩,
          fun _ => ⟨fun _ => ?_, fun ht => ?_⟩⟩
        · simp [hadd, hsend]
        · simp only [setBits, hadd]
          omega
        · simp [hadd] at ht
          simp [ht] at hsend
    · rw [hkeep hheld (by simpa using hsend) (by
        cases hc.holds with
        | deadName type => simp [type] at hr
        | _ type => simp [type])]
      rw [if_pos hsend]
      exact ⟨hc.same _, .error _ _ _⟩

theorem Counted.moveSendOnce : Does e P (h.copyin (around e P) deadok .moveSendOnce)
        (ipcRightCopyin .moveSendOnce deadok ⟨e, P, []⟩) ∧
      CanUndo e .moveSendOnce (ipcRightCopyin .moveSendOnce deadok ⟨e, P, []⟩) := by
  simp only [copyin]
  refine hc.copyinSendRight (fun hheld => by rw [hheld]) ?_ ?_ ?_
  · intro hr hname hheld
    rw [hheld]
    cases hc.holds with
    | sendOnce type => simp [type] at hr
    | deadName type => simp [type] at hname
    | _ => rfl
  · intro s n hheld hd
    rw [hheld]
    exact ⟨hd.moveDead deadok, hd.canUndo_moveDead deadok _⟩
  · intro hr hheld
    rw [hheld]
    cases hc.holds with
    | sendOnce type =>
      simp only [type]
      exact ⟨.ok (.stays (by simp) (by simpa using hc.gen) (by trivial) (.none (by simp))) _,
        .none (by simp) (by simp)⟩
    | send type | sendReceive type =>
      simp only [type]
      exact ⟨hc.same _, .error _ _ _⟩
    | _ type => simp [type] at hr

theorem Counted.copyin (msgtName : MachMsgTypeName) :
    Does e P (h.copyin (around e P) deadok msgtName)
      (ipcRightCopyin msgtName deadok ⟨e, P, []⟩) := by
  have hmake : ∀ {r : Copyin} {Q : IpcPorts}, Does e P h
      (if ¬ e.ieBits.type.receive = true then (.error .invalidRight, ⟨e, P, []⟩)
        else (.ok (e.ieObject, ipNull), ⟨e, Q, []⟩)) :=
    .ite (fun _ => hc.same _) fun _ => .ok hc.leaves _
  cases msgtName with
  | makeSend | makeSendOnce => exact hmake (r := .error .invalidRight)
  | copySend => exact (hc.copySend deadok).1
  | moveSend => exact (hc.moveSend deadok).1
  | moveSendOnce => exact (hc.moveSendOnce deadok).1
  | moveReceive =>
    have hkeep : e.ieBits.type.receive = false →
        Does e P h (ipcRightCopyin .moveReceive deadok ⟨e, P, []⟩) := by
      intro hr
      simp only [ipcRightCopyin, hr]
      exact hc.same _
    obtain ⟨hg, hb, he, -⟩ := hc
    cases he with
    | receive type urefs =>
      simp only [ipcRightCopyin, type]
      exact .ok (.stays (by simp) (by simpa using hg) (by trivial) (.none (by simp))) _
    | sendReceive type urefs =>
      simp only [ipcRightCopyin, type]
      exact .ok (.stays (by simp) (by simpa using hg) (by exact hb)
        (.send (by simp) (by simpa using urefs))) _
    | _ type => exact hkeep (by simp [type])

end Copyin

/-- `ipc_right_copyin_undo`, with the reference of the copyin still held. -/
def undoRight (msgtName : MachMsgTypeName) (object soright : Nat) (s : RightState) : RightState :=
  if soright ≠ ipNull then
    s.setBits { s.entry.ieBits.clearRight with type := machPortTypeDeadName, urefs := 2 }
  else if s.entry.ieBits.type = machPortTypeNone then
    s.setBits { s.entry.ieBits.clearRight with type := machPortTypeDeadName, urefs := 1 }
  else if s.entry.ieBits.type = machPortTypeDeadName then
    if msgtName ≠ .copySend then s.setBits (s.entry.ieBits.add 1) else s
  else
    (ipcRightCheck object
      (if msgtName ≠ .copySend then s.setBits (s.entry.ieBits.add 1) else s)).2

theorem Copied.undo {object soright : Nat}
    (hcopied : Copied e msgtName object soright s) (hg : s.entry.ieBits.gen < 2 ^ 8)
    (hb : h.Bounded) (he : s.entry.Holds h) (hobject : e.ieObject ≠ ioDead) {P' : IpcPorts}
    (hrecv : Receives s.entry P') (hdead : object = ioDead ∨ (P'.port object).ipActive = false) :
    (ipcRightCopyinUndo msgtName object soright { s with ports := P' }).Leaves
      (h.copyinUndo (around s.entry P') msgtName (soright ≠ ipNull)) := by
  obtain ⟨hcalls, hsoright, hlive, hroom⟩ := hcopied
  suffices hs : (undoRight msgtName object soright { s with ports := P' }).Leaves _ by
    show Leaves (if object ≠ ioDead then (undoRight ..).onPort object .release else undoRight ..) _
    split
    · exact hs.onPort _ _
    · exact hs
  rw [undoRight]
  by_cases hso : soright ≠ ipNull
  · have hnone := he.eq_none (hsoright hso)
    subst hnone
    rw [if_pos hso, copyinUndo, if_pos (by simpa using hso)]
    exact .stays hcalls hg ⟨by omega, by omega⟩ (.deadName rfl rfl)
  rw [if_neg hso]
  have hport : s.entry.ieBits.type ≠ machPortTypeNone → s.entry.ieBits.type ≠ machPortTypeDeadName →
      s.entry.ieBits.type.receive = false ∧ s.entry.ieBits.type.sendReceive = true ∧
        object = s.entry.ieObject ∧ s.calls = [] := by
    intro h₁ h₂
    obtain ⟨hsr, ho, hse, hc⟩ := hlive h₁ h₂
    have hinactive : (P'.port s.entry.ieObject).ipActive = false := by
      rw [hse, ← ho]
      exact hdead.resolve_left (by rw [ho]; exact hobject)
    refine ⟨?_, hsr, ho.trans hse.symm, hc⟩
    cases hr : s.entry.ieBits.type.receive with
    | false => rfl
    | true =>
      rw [hrecv hr] at hinactive
      cases hinactive
  cases he with
  | none type =>
    rw [if_pos type, copyinUndo, if_neg (by simpa using hso)]
    exact .stays hcalls hg ⟨by omega, by omega⟩ (.deadName rfl rfl)
  | @deadName n type urefs =>
    rw [if_neg (by simp [type]), if_pos type, copyinUndo]
    by_cases hcopy : msgtName = .copySend
    · rw [if_pos hcopy, if_neg (not_not.mpr hcopy)]
      exact .stays hcalls hg hb (.deadName type urefs)
    · have hfit := (hroom hcopy).2 type
      rw [if_neg hcopy, if_pos hcopy]
      exact .recount hg (.deadName type urefs) rfl ⟨by omega, by omega⟩ hcalls rfl
  | @send n type urefs =>
    obtain ⟨-, -, ho, hc⟩ := hport (by simp [type]) (by simp [type])
    rw [if_neg (by simp [type]), if_neg (by simp [type]), copyinUndo, ho]
    have hs : { s with ports := P' } = ⟨s.entry, P', []⟩ := by rw [hc]
    rw [hs]
    by_cases hcopy : msgtName = .copySend
    · rw [if_pos hcopy, if_neg (not_not.mpr hcopy)]
      exact Counted.check ⟨hg, hb, .send type urefs, hrecv⟩ (by simp [type])
    have hfit := (hroom hcopy).1 type
    have hadd : s.entry.ieBits.add 1 = { s.entry.ieBits with urefs := (n + 1).toNat } :=
      IeBits.add_eq hg (by omega) (by omega)
    rw [if_neg hcopy, if_pos hcopy, hadd]
    exact Counted.check ⟨hg, ⟨by omega, by omega⟩, .send type (by simp; omega), hrecv⟩
      (by simp [type])
  | receive type | sendReceive type =>
    have := (hport (by simp [type]) (by simp [type])).1
    simp [type] at this
  | sendOnce type | portSet type =>
    have := (hport (by simp [type]) (by simp [type])).2.1
    simp [type] at this

/-! ## The other operations -/

/-- A number of user references of a send right goes. -/
def Held.subSend (k : Int) : Held → Held
  | .send n => sub k (.send n)
  | .sendReceive n => sub k (.sendReceive n)
  | h => h

section Operations

variable (hc : Counted e P h)
  {α : Type} {g : Held} {live : RightState → Except KernReturn α × RightState}
include hc

theorem Counted.subSend (hsend : e.ieBits.type.send = true) (k : Int) : h.subSend k = h.sub k := by
  cases hc.holds with
  | send | sendReceive => rfl
  | _ type => simp [type] at hsend

theorem Counted.onCheck {dead : RightState → Except KernReturn α × RightState}
    (hright : e.ieBits.type.portRights = true) (hgone : h.check (around e P) = .none → g = .none)
    (hdead : ∀ s n, h.check (around e P) = .deadName n → DeadAt e P n s → Does e P g (dead s))
    (hlive : h.check (around e P) = h → Does e P g (live ⟨e, P, []⟩)) :
    Does e P g (match ipcRightCheck e.ieObject ⟨e, P, []⟩ with
      | (true, s) => if e.ieBits.compat then (.error .invalidName, s) else dead s
      | (false, s) => live s) := by
  cases hc.finds hright with
  | live heq hheld => simpa [heq] using hlive hheld
  | gone s heq hcompat hheld hmem =>
    rw [hgone hheld]
    simpa [heq, hcompat] using .gone hmem
  | dead s n heq hcompat hheld hd => simpa [heq, hcompat] using hdead s n hheld hd

theorem Counted.onCheck_refuse
    (hright : e.ieBits.type.portRights = true) (hgone : h.check (around e P) = .none → g = .none)
    (hdead : ∀ n, h.check (around e P) = .deadName n → g = .deadName n)
    (hlive : h.check (around e P) = h → Does e P g (live ⟨e, P, []⟩)) :
    Does e P g (match ipcRightCheck e.ieObject ⟨e, P, []⟩ with
      | (true, s) =>
        (if e.ieBits.compat then .error .invalidName else .error .invalidRight, s)
      | (false, s) => live s) := by
  have hrefuse : ∀ s n, h.check (around e P) = .deadName n → DeadAt e P n s →
      Does e P g ((.error .invalidRight, s) : Except KernReturn α × RightState) := by
    intro s n hheld hd
    rw [hdead n hheld]
    exact hd.refuse _
  have h' := hc.onCheck hright hgone hrefuse hlive
  cases hcompat : e.ieBits.compat <;> simpa [hcompat] using h'

theorem Counted.copyinTwo : Does e P (h.copyinTwo (around e P)) (ipcRightCopyinTwo ⟨e, P, []⟩) := by
  cases hsend : e.ieBits.type.send with
  | false =>
    have hkeep : h.copyinTwo (around e P) = h := by
      cases hc.holds with
      | send type | sendReceive type => simp [type] at hsend
      | _ => rfl
    simp only [ipcRightCopyinTwo, hsend, hkeep]
    exact hc.same _
  | true =>
    obtain ⟨n, hn, hu, hlo, hhi⟩ := hc.send hsend
    have htwo : h.copyinTwo (around e P) =
        if n < 2 then h else (h.check (around e P)).subSend 2 := by
      cases hc.holds with
      | send =>
        cases hn
        rw [copyinTwo, Held.check, died]
        split_ifs <;> rfl
      | sendReceive =>
        cases hn
        rfl
      | _ type => simp [type] at hsend
    simp only [ipcRightCopyinTwo, hsend, not_true_eq_false, if_false, htwo]
    by_cases hlow : n < 2
    · rw [if_pos hlow, if_pos (by omega)]
      exact hc.same _
    rw [if_neg hlow, if_neg (by omega)]
    refine hc.onCheck_refuse (by simp [hsend]) (fun hheld => by rw [hheld]; rfl)
      (fun n hheld => by rw [hheld]; rfl) fun hheld => ?_
    rw [hheld, hc.subSend hsend]
    by_cases hone : n = 2
    · subst hone
      rw [if_pos (show e.ieBits.urefs = 2 by omega)]
      refine .ok (hc.dropped hsend hn ?_ rfl) _
      cases e.ieBits.type.receive <;> simp
    · rw [if_neg (show ¬ e.ieBits.urefs = 2 by omega)]
      exact .ok (hc.less hn (by omega) (by omega) (by simp) rfl) _

variable (name : Nat)

theorem Counted.dealloc : Does e P (h.dealloc (around e P)) (ipcRightDealloc name ⟨e, P, []⟩) := by
  have hfound : ∀ {live : RightState → Except KernReturn Unit × RightState},
      e.ieBits.type.portRights = true → Does e P (h.sub 1) (live ⟨e, P, []⟩) →
      Does e P (h.dealloc (around e P)) (match ipcRightCheck e.ieObject ⟨e, P, []⟩ with
        | (true, s) => if e.ieBits.compat then (.error .invalidName, s)
            else (.ok (), s.deallocDeadName)
        | (false, s) => live s) := by
    intro live hright hlive
    rw [Held.dealloc]
    exact hc.onCheck hright (fun hheld => by rw [hheld]; rfl)
      (fun s n hheld hd => by rw [hheld]; exact hd.deallocDeadName ()) fun hheld => by rwa [hheld]
  have hless : ∀ {n : Int}, h.count = some n → n ≠ 1 → Does e P (h.sub 1)
      ((.ok (), setBits ⟨e, P, []⟩ (e.ieBits.add (-1))) : Except KernReturn Unit × RightState) := by
    intro n hn hone
    have hpos := (hc.bounded.of_count hn).1
    exact .ok (hc.less hn (by omega) (by omega) (by simp) rfl) _
  cases he : hc.holds with
  | none type | receive type | portSet type =>
    simp only [ipcRightDealloc, type]
    exact hc.same _
  | deadName type =>
    simp only [ipcRightDealloc, type]
    exact (hc.dead rfl).deallocDeadName ()
  | sendOnce type =>
    simp only [ipcRightDealloc, type]
    exact hfound (by simp [type]) (.ok (.gone (by simp [deallocSendOnce])) _)
  | @send n type urefs =>
    simp only [ipcRightDealloc, type]
    refine hfound (by simp [type]) (.ite (fun hone => ?_) fun hone => ?_)
    · rw [sub, if_pos (by omega)]
      exact .ok (.gone (by simp [deallocSend])) _
    · exact hless rfl (by omega)
  | @sendReceive n type =>
    simp only [ipcRightDealloc, type]
    rw [if_neg (by decide), if_neg (by decide), if_neg (by decide), if_pos trivial]
    refine .ite (fun hone => ?_) fun hone => hless rfl (by omega)
    obtain rfl : n = 1 := by omega
    exact .ok (hc.dropped (by simp [type]) rfl (by simp [deallocSendReceive, dropSend])
      (by simp [deallocSendReceive])) _

theorem Counted.delta_portSet (d : Int) :
    Does e P (h.delta (around e P) d .portSet) (ipcRightDelta name .portSet d ⟨e, P, []⟩) := by
  cases hc.holds with
  | portSet type =>
    simp only [ipcRightDelta, type, delta]
    by_cases hone : d = -1
    · subst hone
      exact .ok (.gone (by simp)) _
    · rw [if_neg hone]
      exact .ite (fun _ => hc.same _) fun _ => .ite (fun _ => hc.same _) fun _ =>
        .ite (fun _ => hc.same _) fun h => absurd hone h
  | _ type =>
    simp only [ipcRightDelta, type]
    exact hc.same _

theorem Counted.delta_receive (d : Int) :
    Does e P (h.delta (around e P) d .receive) (ipcRightDelta name .receive d ⟨e, P, []⟩) := by
  by_cases hone : d = -1
  · subst hone
    cases hc.holds with
    | receive type =>
      simp only [ipcRightDelta, type]
      exact .ok (.gone (by cases e.ieBits.compat <;> simp)) _
    | @sendReceive n type =>
      simp only [ipcRightDelta, type, machPortTypeSendReceive, delta, if_true, died]
      cases hcompat : e.ieBits.compat with
      | true =>
        rw [if_pos (by simp [around, hcompat])]
        exact .ok (.gone (by simp)) _
      | false =>
        obtain ⟨hlo, hhi⟩ := hc.bounded
        have := (around e P).request.toNat_le
        have hlt : e.ieBits.urefs < machPortUrefsMax := by
          show e.ieBits.urefs < 65535
          omega
        have hb : Held.Bounded (.deadName (n + (around e P).request.toNat)) := ⟨by omega, by omega⟩
        rw [if_neg (by simp [around, hcompat])]
        simp only [Bool.false_eq_true, if_false]
        rw [IeBits.toDeadName_of_lt (by exact hc.gen) (by exact hlt)]
        refine .ok (.stays (by simp) (by simpa using hc.gen) hb (.deadName (by simp) ?_)) _
        simp only [around]
        split <;> simp_all
    | _ type =>
      simp only [ipcRightDelta, type]
      exact hc.same _
  · have hkeep : h.delta (around e P) d .receive = h := by
      cases h <;> simp [delta, hone]
    rw [hkeep]
    exact .ite (fun _ => hc.same _) fun _ => .ite (fun _ => hc.same _) fun _ =>
      .ite (fun _ => hc.same _) fun h => absurd hone h

theorem Counted.delta_sendOnce (d : Int) :
    Does e P (h.delta (around e P) d .sendOnce) (ipcRightDelta name .sendOnce d ⟨e, P, []⟩) := by
  cases hc.holds with
  | sendOnce type =>
    simp only [ipcRightDelta, type, delta]
    by_cases hrange : 0 < d ∨ d < -1
    · simp only [hrange]
      exact hc.same _
    simp only [hrange]
    refine hc.onCheck_refuse (by simp [type]) (fun hheld => by rw [hheld]; rfl)
      (fun n hheld => by rw [hheld]; rfl) fun hheld => ?_
    rw [hheld]
    by_cases hzero : d = 0
    · simp only [hzero]
      exact hc.same _
    · simp only [hzero]
      exact .ok (.gone (by simp [deallocSendOnce])) _
  | _ type =>
    simp only [ipcRightDelta, type]
    exact hc.same _

theorem Counted.delta_deadName (d : Int) :
    Does e P (h.delta (around e P) d .deadName) (ipcRightDelta name .deadName d ⟨e, P, []⟩) := by
  rw [delta]
  cases hr : e.ieBits.type.sendRights with
  | true =>
    simp only [ipcRightDelta, hr]
    refine hc.onCheck (by simp_all; grind)
      (fun hheld => by rw [hheld]) (fun s n hheld hd => by rw [hheld]; exact hd.delta d)
      fun hheld => ?_
    rw [hheld]
    cases hc.holds with
    | deadName type => simp [type] at hr
    | _ => exact hc.same _
  | false =>
    have heq : ipcRightDelta name .deadName d ⟨e, P, []⟩ = _ := if_neg (by simp [hr])
    rw [heq]
    cases hc.holds with
    | send type | sendReceive type | sendOnce type => simp [type] at hr
    | deadName type =>
      rw [if_neg (by simp [type])]
      exact (hc.dead rfl).delta d
    | _ type =>
      rw [if_pos (by simp [type])]
      exact hc.same _

theorem Counted.delta_send (d : Int) :
    Does e P (h.delta (around e P) d .send) (ipcRightDelta name .send d ⟨e, P, []⟩) := by
  cases hsend : e.ieBits.type.send with
  | false =>
    have hkeep : h.delta (around e P) d .send = h := by
      cases hc.holds with
      | send type | sendReceive type => simp [type] at hsend
      | _ => rfl
    simp only [ipcRightDelta, hsend, hkeep]
    exact hc.same _
  | true =>
    obtain ⟨n, hn, hu, hlo, hhi⟩ := hc.send hsend
    have hheld : h.delta (around e P) d .send =
        if n + d < 0 ∨ 65535 < n + 1 + d then h else (h.check (around e P)).subSend (-d) := by
      cases hc.holds with
      | send =>
        cases hn
        rw [delta, Held.check, died]
        split_ifs <;> rfl
      | sendReceive =>
        cases hn
        rfl
      | _ type => simp [type] at hsend
    have hsucc : ((e.ieBits.urefs + 1 : Nat) : Int) = n + 1 := by omega
    simp only [ipcRightDelta, hsend, not_true_eq_false, if_false, machPortUrefsUnderflow_iff,
      machPortUrefsOverflow_iff_int hsucc (by omega), hu, hheld]
    refine .ite (fun hunder => ?_) fun hunder => .ite (fun hover => ?_) fun hover => ?_
    · rw [if_pos (.inl hunder)]
      exact hc.same _
    · rw [if_pos (.inr hover)]
      exact hc.same _
    · rw [if_neg (not_or.mpr ⟨hunder, hover⟩)]
      refine hc.onCheck_refuse (by simp [hsend])
        (fun hheld => by rw [hheld]; rfl) (fun n hheld => by rw [hheld]; rfl) fun hheld => ?_
      rw [hheld, hc.subSend hsend]
      by_cases hzero : n + d = 0
      · obtain rfl : n = -d := by omega
        simp only [hzero, if_true]
        refine .ite (fun hrecv => ?_) fun hrecv => ?_
        · exact .ok (hc.dropped hsend hn (by simp [deallocSendReceive, dropSend])
            (by simp [deallocSendReceive])) _
        · cases hc.holds with
          | send type =>
            cases hn
            rw [sub, if_pos rfl]
            exact .ok (.gone (by simp [deallocSend])) _
          | sendReceive type => simp [type] at hrecv
          | _ type => simp [type] at hsend
      · simp only [hzero]
        refine .ok (hc.changed rfl hn hzero ?_ (by simp) rfl) _
        cases hc.holds with
        | send | sendReceive => exact ⟨by omega, by omega⟩
        | _ type => simp [type] at hsend

theorem Counted.delta (right : MachPortRight) (d : Int) :
    Does e P (h.delta (around e P) d right) (ipcRightDelta name right d ⟨e, P, []⟩) := by
  cases right with
  | portSet => exact hc.delta_portSet name d
  | receive => exact hc.delta_receive name d
  | sendOnce => exact hc.delta_sendOnce name d
  | deadName => exact hc.delta_deadName name d
  | send => exact hc.delta_send name d

/-- A send right goes into an entry, whose count is pegged. -/
theorem Counted.copyoutSend (hlegal : CopyoutLegal .portSend e) (space name : Nat) (overflow : Bool)
    (object : Nat) :
    (ipcRightCopyout space name .portSend overflow ⟨{ e with ieObject := object }, P, []⟩).2.Leaves
      (h.copyout .portSend) := by
  obtain ⟨hg, hb, he, -⟩ := hc
  have hadd : ∀ n : Int, (e.ieBits.urefs : Int) = n → 0 ≤ n → n < 65535 →
      .add { e.ieBits with type := { e.ieBits.type with send := true } } 1 =
        { e.ieBits with
            type := { e.ieBits.type with send := true }, urefs := (n + 1).toNat } := by
    intro n hn hlo hhi
    exact IeBits.add_eq (b := { e.ieBits with type := { e.ieBits.type with send := true } })
      hg (by simp; omega) (by omega)
  have hmerge : ∀ n : Int, h.count = some n → e.ieBits.type.send = true → 1 ≤ n → n ≤ 65534 →
      h.copyout .portSend = h.recount (if n + 1 = 65535 then n else n + 1) →
      (h.copyout .portSend).Bounded →
      (ipcRightCopyout space name .portSend overflow ⟨{ e with ieObject := object },
        P, []⟩).2.Leaves
        (h.copyout .portSend) := by
    intro n hn hsend hlo hhi hheld hbound
    have hu := he.urefs_eq hn
    have hnat : e.ieBits.urefs = n.toNat := by omega
    have htype : { e.ieBits.type with send := true } = e.ieBits.type := by
      rw [← hsend]
    have hcast : machPortUrefsMax = 65535 := rfl
    rw [hheld] at hbound ⊢
    simp only [ipcRightCopyout, hadd n hu (by omega) (by omega)]
    simp only [hsend, if_true, htype]
    by_cases hmax : n + 1 = 65535
    · rw [if_pos (by omega)]
      rw [if_pos hmax] at hbound ⊢
      cases overflow with
      | true | false =>
        exact .stays (by simp) (by exact hg) hbound (he.withUrefs hn (by omega) (by simp [← hnat]))
    · rw [if_neg (by omega)]
      rw [if_neg hmax] at hbound ⊢
      exact .stays (by simp) (by exact hg) hbound (he.withUrefs hn (by omega) rfl)
  cases he with
  | none type =>
    have hu : (e.ieBits.urefs : Int) = 0 := by
      rcases hlegal with ⟨-, urefs⟩ | hlegal
      · exact Int.natCast_eq_zero.mpr urefs
      · simp [type] at hlegal
    simp only [ipcRightCopyout, hadd 0 hu (by omega) (by omega)]
    exact .stays (by simp [type]) (by simpa [type] using hg) ⟨by omega, by omega⟩
      (.send (by simp [type]) (by simp [type]))
  | receive type urefs =>
    simp only [ipcRightCopyout, hadd 0 (by omega) (by omega) (by omega)]
    exact .stays (by simp [type]) (by simpa [type] using hg) ⟨by omega, by omega⟩
      (.sendReceive (by simp [type]) (by simp [type]))
  | @send n type | @sendReceive n type =>
    obtain ⟨hlo, hhi⟩ := hb
    exact hmerge n rfl (by simp [type]) hlo hhi rfl ⟨by split <;> omega, by split <;> omega⟩
  | _ type => simp [CopyoutLegal, type] at hlegal

theorem Counted.copyout {msgtName : MachMsgTypePort} (hlegal : CopyoutLegal msgtName e)
    (space name : Nat) (overflow : Bool) {object : Nat}
    (hobject : e.ieBits.type = machPortTypeNone ∨ object = e.ieObject) :
    Does e P (h.copyout msgtName)
      (ipcRightCopyout space name msgtName overflow ⟨{ e with ieObject := object }, P, []⟩) := by
  cases msgtName with
  | portSend =>
    refine ⟨hc.copyoutSend hlegal space name overflow object, ?_⟩
    rcases hobject with type | rfl
    · simp only [ipcRightCopyout, type]
      exact .ok _ _
    · simp only [ipcRightCopyout]
      split_ifs
      all_goals first | exact .ok _ _ | exact .same _
  | portSendOnce =>
    rcases hlegal with ⟨type, urefs⟩ | hlegal
    · obtain rfl := hc.holds.eq_none type
      exact .ok (.stays (by simp) (by simpa using hc.gen) (by trivial)
        (.sendOnce (by simp [type]) (by simp [urefs]))) _
    · cases hlegal
  | portReceive =>
    have hdest : ∀ {g : Held} (s : RightState) (dest : Nat), s.Leaves g →
        Leaves (if dest ≠ ipNull then s.onPort dest .release else s) g := by
      intro g s dest hs
      split
      · exact hs.onPort _ _
      · exact hs
    refine .ok (hdest _ _ ?_) _
    obtain ⟨hg, hb, he, -⟩ := hc
    rcases hlegal with ⟨type, urefs⟩ | type
    · obtain rfl := he.eq_none type
      exact .stays (by simp [type]) (by simpa using hg) (by trivial)
        (.receive (by simp [type]) (by simp [urefs]))
    cases he with
    | send _ urefs =>
      exact .stays (by simp [type]) (by simpa using hg) (by exact hb)
        (.sendReceive (by simp [type]) (by simpa using urefs))
    | _ t => simp [type] at t

theorem Counted.dnrequest (immediate : Bool) (notify : Nat) :
    Does e P (h.dnrequest (around e P) (immediate && notify ≠ ipNull))
      ((ipcRightDnrequest name immediate notify ⟨e, P, []⟩).1.kr,
        (ipcRightDnrequest name immediate notify ⟨e, P, []⟩).2) := by
  rw [Held.dnrequest]
  cases hright : e.ieBits.type.portRights with
  | true =>
    cases hc.finds hright with
    | live heq hheld =>
      have hkeep : ∀ {s : RightState} {r : Dnrequest}, .entryDealloc ∉ s.calls →
          s.entry.ieBits.type = e.ieBits.type → s.entry.ieBits.urefs = e.ieBits.urefs →
          s.entry.ieBits.gen = e.ieBits.gen → r.kr = .ok () → Does e P h (r.kr, s) := by
        intro s r hmem htype hurefs hgen hr
        rw [hr]
        exact .ok (.stays hmem (hgen ▸ hc.gen) hc.bounded (hc.holds.congr htype hurefs)) _
      have hh : (match h with
          | .deadName n => .dnrequestDead (immediate && decide (notify ≠ ipNull)) n
          | h => h) = h := by
        cases hc.holds with
        | deadName type => simp [type] at hright
        | _ => rfl
      simp only [ipcRightDnrequest, hright, if_true, heq, hheld, hh]
      split
      · split
        · exact hkeep (by simp) rfl rfl rfl rfl
        · exact hkeep (by simp) (by simp) (by simp) (by simp) rfl
      · split
        · exact hkeep (by simp) (by simp) (by simp) (by simp) rfl
        · exact hkeep (by simp) (by simp) (by simp) (by simp) rfl
    | gone s heq hcompat hheld hmem =>
      simp only [ipcRightDnrequest, hright, heq, hcompat, hheld]
      exact .gone hmem
    | dead s n heq hcompat hheld hd =>
      simp only [ipcRightDnrequest, hright, heq, hcompat, hheld]
      exact hd.dnrequestDead name immediate notify
  | false =>
    simp only [ipcRightDnrequest, hright]
    cases hc.holds with
    | deadName => exact (hc.dead rfl).dnrequestDead name immediate notify
    | none type | portSet type =>
      simp only [dnrequestDead, type, machPortTypeNone, machPortTypePortSet, Bool.false_eq_true,
        false_and, if_false]
      split_ifs <;> exact hc.same _
    | _ type => simp [type] at hright

end Operations

end Entries

/-! ## Runs -/

/-- An operation on an entry. -/
inductive UrefsOp where
  | check
  | copyin (msgtName : MachMsgTypeName) (deadok : Bool)
  | copyinTwo
  /-- A copyin that is undone if it succeeds, the ports being what they are by then. -/
  | copyinUndo (msgtName : MachMsgTypeName) (deadok : Bool) (ports : IpcPorts)
  | copyout (space name : Nat) (msgtName : MachMsgTypePort) (overflow : Bool) (object : Nat)
  | dealloc (name : Nat)
  | delta (name : Nat) (right : MachPortRight) (delta : Int)
  /-- A round of the loop. -/
  | dnrequest (name : Nat) (immediate : Bool) (notify : Nat)

namespace UrefsOp

/-- Undo a copyin that has succeeded. -/
def undo (msgtName : MachMsgTypeName) (ports : IpcPorts) :
    Copyin × RightState → Except KernReturn Unit × RightState
  | (.error kr, s) => (.error kr, s)
  | (.ok (object, soright), s) =>
    (.ok (), ipcRightCopyinUndo msgtName object soright { s with ports := ports })

/-- Execute the operation. -/
def run (s : RightState) : UrefsOp → Except KernReturn Unit × RightState
  | .check => (.ok (), (ipcRightCheck s.entry.ieObject s).2)
  | .copyin msgtName deadok =>
    let (r, s) := ipcRightCopyin msgtName deadok s
    (r.map fun _ => (), s)
  | .copyinTwo =>
    let (r, s) := ipcRightCopyinTwo s
    (r.map fun _ => (), s)
  | .copyinUndo msgtName deadok ports => undo msgtName ports (ipcRightCopyin msgtName deadok s)
  | .copyout space name msgtName overflow object =>
    ipcRightCopyout space name msgtName overflow (s.setObject object)
  | .dealloc name => ipcRightDealloc name s
  | .delta name right d => ipcRightDelta name right d s
  | .dnrequest name immediate notify =>
    let (r, s) := ipcRightDnrequest name immediate notify s
    (r.kr, s)

/-- What undoing a copyin means. -/
def heldUndo (msgtName : MachMsgTypeName) (ports : IpcPorts) (h : Held) :
    Copyin × RightState → Held
  | (.error _, _) => h
  | (.ok (_, soright), s) => h.copyinUndo (around s.entry ports) msgtName (soright ≠ ipNull)

/-- What the operation means for what the entry holds. -/
def held (s : RightState) (h : Held) : UrefsOp → Held
  | .check => h.check (around s.entry s.ports)
  | .copyin msgtName deadok => h.copyin (around s.entry s.ports) deadok msgtName
  | .copyinTwo => h.copyinTwo (around s.entry s.ports)
  | .copyinUndo msgtName deadok ports =>
    heldUndo msgtName ports (h.copyin (around s.entry s.ports) deadok msgtName)
      (ipcRightCopyin msgtName deadok s)
  | .copyout _ _ msgtName _ _ => h.copyout msgtName
  | .dealloc _ => h.dealloc (around s.entry s.ports)
  | .delta _ right d => h.delta (around s.entry s.ports) d right
  | .dnrequest _ immediate notify =>
    h.dnrequest (around s.entry s.ports) (immediate && notify ≠ ipNull)

end UrefsOp

/-- The conditions of the operations: `ipc_right_check` is for port rights, a right is copied
out to a new entry or to one that has rights for the port, and a copyin is undone if it was for
a send or a send-once right and the object is dead. -/
def UrefsOp.Legal (e : IpcEntry) (P : IpcPorts) : UrefsOp → Prop
  | .check => e.ieBits.type.portRights = true
  | .copyinUndo msgtName deadok ports =>
    (msgtName = .copySend ∨ msgtName = .moveSend ∨ msgtName = .moveSendOnce) ∧
      e.ieObject ≠ ioDead ∧
      ∀ object soright, (ipcRightCopyin msgtName deadok ⟨e, P, []⟩).1 = .ok (object, soright) →
        (object = ioDead ∨ (ports.port object).ipActive = false) ∧
          Receives (ipcRightCopyin msgtName deadok ⟨e, P, []⟩).2.entry ports
  | .copyout _ _ msgtName _ object =>
    CopyoutLegal msgtName e ∧ (e.ieBits.type = machPortTypeNone ∨ object = e.ieObject)
  | _ => True

/-- A new entry, of `ipc_object_copyout`, `ipc_pset_alloc`, `ipc_port_alloc` and
`ipc_object_alloc_dead`. -/
def IpcEntry.Fresh (e : IpcEntry) : Prop :=
  e.ieBits.gen < 2 ^ 8 ∧
    (e.ieBits.urefs = 0 ∧ (e.ieBits.type = machPortTypeNone ∨ e.ieBits.type = machPortTypePortSet ∨
        e.ieBits.type = machPortTypeReceive) ∨
      e.ieBits.urefs = 1 ∧ e.ieBits.type = machPortTypeDeadName)

/-- The states that an entry and its ports can be in.  Between operations ports die and
change, and requests, the collision bit and the generation of the entry may change. -/
inductive UrefsReachable : IpcEntry → IpcPorts → Prop where
  | alloc {e : IpcEntry} {P : IpcPorts} (fresh : e.Fresh) (receives : Receives e P) :
      UrefsReachable e P
  | environment {e e' : IpcEntry} {P P' : IpcPorts} (h : UrefsReachable e P)
      (type : e'.ieBits.type = e.ieBits.type) (urefs : e'.ieBits.urefs = e.ieBits.urefs)
      (gen : e'.ieBits.gen < 2 ^ 8) (receives : Receives e' P') : UrefsReachable e' P'
  | op {e : IpcEntry} {P P' : IpcPorts} (h : UrefsReachable e P) (op : UrefsOp)
      (legal : op.Legal e P) (stays : .entryDealloc ∉ (op.run ⟨e, P, []⟩).2.calls)
      (receives : Receives (op.run ⟨e, P, []⟩).2.entry P') :
      UrefsReachable (op.run ⟨e, P, []⟩).2.entry P'

section Step

variable {e : IpcEntry} {P : IpcPorts} {h : Held}

theorem Does.map {α : Type} {r : Except KernReturn α × RightState} (hr : Does e P h r) :
    Does e P h (r.1.map fun _ => (), r.2) := by
  obtain ⟨r, s⟩ := r
  cases r with
  | error kr =>
    refine ⟨hr.leaves, fun kr' hkr href => ?_⟩
    cases hkr
    exact hr.harmless kr rfl href
  | ok => exact .ok hr.leaves ()

/-- The packed arithmetic does what is meant, the counts stay in bounds, and a refusal changes
nothing. -/
theorem UrefsOp.does (hc : Counted e P h) {op : UrefsOp} (hlegal : op.Legal e P) :
    Does e P (op.held ⟨e, P, []⟩ h) (op.run ⟨e, P, []⟩) := by
  cases op with
  | check => exact .ok (hc.check hlegal) ()
  | copyin msgtName deadok => exact (hc.copyin deadok msgtName).map
  | copyinTwo => exact hc.copyinTwo.map
  | copyinUndo msgtName deadok =>
    obtain ⟨hmsgt, hobject, hdead⟩ := hlegal
    have hundo : CanUndo e msgtName (ipcRightCopyin msgtName deadok ⟨e, P, []⟩) := by
      rcases hmsgt with rfl | rfl | rfl
      · exact (hc.copySend deadok).2
      · exact (hc.moveSend deadok).2
      · exact (hc.moveSendOnce deadok).2
    have hdoes := hc.copyin deadok msgtName
    simp only [run, held]
    generalize ipcRightCopyin msgtName deadok ⟨e, P, []⟩ = r at hundo hdoes hdead ⊢
    obtain ⟨r, s⟩ := r
    cases r with
    | error => exact hdoes.map
    | ok v =>
      obtain ⟨object, soright⟩ := v
      have hcopied := hundo object soright rfl
      obtain ⟨hd, hrecv⟩ := hdead object soright rfl
      obtain ⟨hg, hb, he⟩ := hdoes.leaves.of_stays hcopied.calls
      exact .ok (hcopied.undo hg hb he hobject hrecv hd) ()
  | copyout space name msgtName overflow => exact hc.copyout hlegal.1 space name overflow hlegal.2
  | dealloc name => exact hc.dealloc name
  | delta name right d => exact hc.delta name right d
  | dnrequest name immediate notify => exact hc.dnrequest name immediate notify

end Step

variable {e : IpcEntry} {P : IpcPorts}

theorem IpcEntry.Fresh.counted (h : e.Fresh) (hrecv : Receives e P) : ∃ h, Counted e P h := by
  obtain ⟨hg, ⟨urefs, type | type | type⟩ | ⟨urefs, type⟩⟩ := h
  · exact ⟨.none, hg, trivial, .none type, hrecv⟩
  · exact ⟨.portSet, hg, trivial, .portSet type urefs, hrecv⟩
  · exact ⟨.receive, hg, trivial, .receive type urefs, hrecv⟩
  · exact ⟨.deadName 1, hg, ⟨by omega, by omega⟩, .deadName type (by omega), hrecv⟩

/-- One operation, on an entry that is left. -/
theorem Counted.step {P' : IpcPorts} (hc : Counted e P h) {op : UrefsOp}
    (hlegal : op.Legal e P) (hstays : .entryDealloc ∉ (op.run ⟨e, P, []⟩).2.calls)
    (hrecv : Receives (op.run ⟨e, P, []⟩).2.entry P') :
    Counted (op.run ⟨e, P, []⟩).2.entry P' (op.held ⟨e, P, []⟩ h) := by
  obtain ⟨hg, hb, he⟩ := (UrefsOp.does hc hlegal).leaves.of_stays hstays
  exact ⟨hg, hb, he, hrecv⟩

theorem UrefsReachable.counted (h : UrefsReachable e P) : ∃ h, Counted e P h := by
  induction h with
  | alloc fresh receives => exact fresh.counted receives
  | environment _ type urefs gen receives ih =>
    obtain ⟨h, hc⟩ := ih
    exact ⟨h, gen, hc.bounded, hc.holds.congr type urefs, receives⟩
  | op _ op legal stays receives ih =>
    obtain ⟨h, hc⟩ := ih
    exact ⟨_, hc.step legal stays receives⟩

/-- The bounds of the user references, by the type of the entry. -/
structure IpcEntry.UrefsBounds (e : IpcEntry) : Prop where
  deadName : e.ieBits.type = machPortTypeDeadName → 1 ≤ e.ieBits.urefs ∧ e.ieBits.urefs ≤ 65535
  send : e.ieBits.type = machPortTypeSend → 1 ≤ e.ieBits.urefs ∧ e.ieBits.urefs ≤ 65534
  sendReceive : e.ieBits.type = machPortTypeSendReceive →
    1 ≤ e.ieBits.urefs ∧ e.ieBits.urefs ≤ 65534
  sendOnce : e.ieBits.type = machPortTypeSendOnce → e.ieBits.urefs = 1
  receive : e.ieBits.type = machPortTypeReceive → e.ieBits.urefs = 0
  portSet : e.ieBits.type = machPortTypePortSet → e.ieBits.urefs = 0

theorem Counted.urefsBounds (hc : Counted e P h) : e.UrefsBounds := by
  obtain ⟨-, hb, he, -⟩ := hc
  cases he with
  | none type => constructor <;> simp [type]
  | receive type urefs
  | sendOnce type urefs
  | portSet type urefs => constructor <;> simp [type, urefs]
  | _ type =>
    obtain ⟨hlo, hhi⟩ := hb
    constructor <;> simp [type]
    omega

/-- In every reachable state the user references are within bounds.  Every operation leaves
what integer arithmetic makes of them, so none of its sums leaves the field, and a refused
operation changes nothing but that the entry of a dead port has become a dead name. -/
theorem urefs_bounded {e : IpcEntry} {P : IpcPorts} (h : UrefsReachable e P) :
    e.UrefsBounds ∧ ∃ h : Held, e.Holds h ∧ h.Bounded ∧ ∀ op : UrefsOp, op.Legal e P →
      (op.run ⟨e, P, []⟩).2.Holds (op.held ⟨e, P, []⟩ h) ∧ (op.held ⟨e, P, []⟩ h).Bounded ∧
        Harmless e P (op.run ⟨e, P, []⟩) := by
  obtain ⟨h, hc⟩ := h.counted
  refine ⟨hc.urefsBounds, h, hc.holds, hc.bounded, fun op hlegal => ?_⟩
  have hdoes := UrefsOp.does hc hlegal
  exact ⟨hdoes.leaves.holds, hdoes.leaves.bounded, hdoes.harmless⟩

/-- A dead name. -/
def newDeadName : IpcEntry := ⟨⟨1, machPortTypeDeadName, false, false, false, 4⟩, ioNull, 0⟩

/-- A dead name gets four more references.  Then one is deallocated. -/
theorem urefs_bounded_newDeadName :
    let e := ((UrefsOp.delta 1024 .deadName 4).run ⟨newDeadName, deadPorts, []⟩).2.entry
    UrefsReachable e deadPorts ∧ e.ieBits.urefs = 5 ∧ e.UrefsBounds ∧
      Harmless e deadPorts ((UrefsOp.dealloc 1024).run ⟨e, deadPorts, []⟩) := by
  have halloc : UrefsReachable newDeadName deadPorts :=
    .alloc ⟨by decide, .inr ⟨rfl, rfl⟩⟩ (fun h => by cases h)
  have hreach : UrefsReachable _ deadPorts :=
    halloc.op (.delta 1024 .deadName 4) trivial (by decide) (fun h => by cases h)
  obtain ⟨hbounds, h, -, -, hop⟩ := urefs_bounded hreach
  exact ⟨hreach, rfl, hbounds, (hop (.dealloc 1024) trivial).2.2⟩

end Mach
