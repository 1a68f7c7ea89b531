import Mach.Ipc.SpaceRights
import Mach.Ipc.RightEffect

/-!
# Taking a capability out of a space

`ipc_object_copyin` looks a name up, takes a right out of its entry, and deallocates the
entry if nothing is left in it.  `ipc_right_copyin` deallocates the entry itself where it
finds that the port of an old-style entry has died, and the caller looks at the entry all
the same.  What it sees is a slot of the table that may be free or in use for another name,
or the memory of a tree entry that has been given back.  The latter is a parameter here
(`stale`).

The reverse hash tables are no part of this state: of the calls that an operation makes, the
deallocation of the entry is executed and the others are recorded.
-/

namespace Mach

open Function Option

/-- A space and the ports, with the calls that were made into other parts of the kernel. -/
structure IpcState where
  space : IpcSpace
  ports : IpcPorts
  calls : List RightCall

namespace IpcState

/-- `ipc_entry_dealloc`. -/
def entryDealloc (its : IpcTableSizes) (name : Nat) (entry : EntryRef) (x : IpcState) :
    Option IpcState :=
  (ipcEntryDealloc its x.space name entry).map fun (s, _) => { x with space := s }

/-- The call is made, or listed. -/
def call (its : IpcTableSizes) (name : Nat) (entry : EntryRef) (x : IpcState) :
    RightCall → Option IpcState
  | .entryDealloc => x.entryDealloc its name entry
  | c => some { x with calls := x.calls ++ [c] }

/-- Do an operation on the right of an entry. -/
def act {α : Type} (its : IpcTableSizes) (name : Nat) (entry : EntryRef)
    (f : RightState → α × RightState) (x : IpcState) : Option (α × IpcState) :=
  (x.space.deref entry).bind fun e =>
    match f ⟨e, x.ports, []⟩ with
    | (r, s) =>
      (s.calls.foldlM (call its name entry)
        { x with space := x.space.write entry s.entry, ports := s.ports }).map (r, ·)

/-- `ie_bits`, read through a pointer that may be stale. -/
def ieBits (stale : IeBits) (entry : EntryRef) (x : IpcState) : IeBits :=
  ((x.space.deref entry).map IpcEntry.ieBits).getD stale

/-- The entry is deallocated if it has no type. -/
def deallocIfNone (its : IpcTableSizes) (stale : IeBits) (name : Nat) (entry : EntryRef)
    (x : IpcState) : Option IpcState :=
  if (x.ieBits stale entry).type = machPortTypeNone then x.entryDealloc its name entry
  else some x

/-- Send a port-deleted notification if there is a request. -/
def notifyDeleted (soright name : Nat) (x : IpcState) : IpcState :=
  if soright ≠ ipNull then { x with calls := x.calls ++ [.notifyPortDeleted soright name] }
  else x

end IpcState

open IpcState

/-- `ipc_right_lookup_write`. -/
def ipcRightLookupWrite (name : Nat) (x : IpcState) : Except KernReturn EntryRef × IpcState :=
  if ¬ x.space.isActive then (.error .invalidTask, x)
  else
    match ipcEntryLookup x.space name with
    | (none, s) => (.error .invalidName, { x with space := s })
    | (some entry, s) => (.ok entry, { x with space := s })

/-- Return what was copied in, and notify whoever asked to know that the name is gone. -/
def objectCopyin (name : Nat) (r : Copyin) (x : IpcState) : Except KernReturn Nat × IpcState :=
  match r with
  | .error kr => (.error kr, x)
  | .ok (object, soright) => (.ok object, x.notifyDeleted soright name)

/-- `ipc_object_copyin`, once the entry has been looked up. -/
def objectCopyinEntry (its : IpcTableSizes) (stale : IeBits) (name : Nat)
    (msgtName : MachMsgTypeName) (entry : EntryRef) (x : IpcState) :
    Option (Except KernReturn Nat × IpcState) :=
  (x.act its name entry (ipcRightCopyin msgtName true)).bind fun (r, x) =>
    (x.deallocIfNone its stale name entry).map (objectCopyin name r)

/-- `ipc_object_copyin`. -/
def ipcObjectCopyin (its : IpcTableSizes) (stale : IeBits) (name : Nat)
    (msgtName : MachMsgTypeName) (x : IpcState) : Option (Except KernReturn Nat × IpcState) :=
  match ipcRightLookupWrite name x with
  | (.error kr, x) => some (.error kr, x)
  | (.ok entry, x) => objectCopyinEntry its stale name msgtName entry x

/-! ## What is taken -/

/-- An entry for send or send-once rights to a port that has died. -/
def IpcEntry.PortDied (P : IpcPorts) (e : IpcEntry) : Prop :=
  e.ieBits.type.sendRights = true ∧ (P.port e.ieObject).ipActive = false

/-- An old-style entry for rights to a port that has died. -/
def IpcEntry.DeadCompat (P : IpcPorts) (e : IpcEntry) : Prop :=
  e.PortDied P ∧ e.ieBits.compat = true

/-- Copying in finds out whether the port has died. -/
def MachMsgTypeName.Looks : MachMsgTypeName → Prop
  | .copySend => True
  | .moveSend => True
  | .moveSendOnce => True
  | _ => False

/-- One user reference is all that there is, also once the right is a dead name. -/
def IpcEntry.OneDead (P : IpcPorts) (e : IpcEntry) : Prop :=
  (e.ieBits.type = machPortTypeDeadName ∧ e.ieBits.urefs = 1) ∨
    (e.PortDied P ∧ e.ieBits.compat = false ∧ e.ieBits.urefs = 1 ∧ e.ieRequest = 0)

/-- Copying in takes all that is in the entry. -/
@[local simp]
def IpcEntry.Consumed (P : IpcPorts) (e : IpcEntry) : MachMsgTypeName → Prop
  | .moveReceive => e.ieBits.type = machPortTypeReceive
  | .moveSend =>
    e.OneDead P ∨
      (e.ieBits.type = machPortTypeSend ∧ e.ieBits.urefs = 1 ∧
        (P.port e.ieObject).ipActive = true)
  | .moveSendOnce =>
    e.OneDead P ∨
      (e.ieBits.type = machPortTypeSendOnce ∧ (P.port e.ieObject).ipActive = true)
  | _ => False

open RightState PortTypes

/-- What copying in does to an entry that it does not deallocate. -/
structure CopyinKeeps (consumed : Prop) (r : Copyin × RightState) : Prop where
  calls : RightCall.entryDealloc ∉ r.2.calls
  type : r.2.entry.ieBits.type = machPortTypeNone ↔ consumed
  object : r.2.entry.ieBits.type = machPortTypeNone → r.2.entry.ieObject = ioNull
  ok : consumed → ∃ v, r.1 = .ok v

variable {consumed : Prop} {s : RightState} {e : IpcEntry}

theorem CopyinKeeps.refl {r : Copyin × RightState}
    (htype : r.2.entry.ieBits.type ≠ machPortTypeNone) (hc : .entryDealloc ∉ r.2.calls)
    (h : ¬ consumed) : CopyinKeeps consumed r :=
  ⟨hc, ⟨fun ht => absurd ht htype, fun hc => absurd hc h⟩, fun ht => absurd ht htype,
    fun hc => absurd hc h⟩

theorem moveDead_keeps (hc : .entryDealloc ∉ s.calls)
    (htype : s.entry.ieBits.type = machPortTypeDeadName) (hobject : s.entry.ieObject = ioNull)
    (hfits : s.entry.ieBits.Fits) (hpos : 0 < s.entry.ieBits.urefs)
    (h : consumed ↔ s.entry.ieBits.urefs = 1) :
    CopyinKeeps consumed (moveDead true s) := by
  by_cases hone : s.entry.ieBits.urefs = 1
  · constructor <;> simp [moveDead, hone, hc, htype, hobject, h]
  · have hadd := IeBits.add_neg hfits hpos
    constructor <;> simp_all [moveDead]

theorem IpcEntry.Ok.not_deadName (h : e.Ok)
    (hright : e.ieBits.type.sendRights = true) : e.ieBits.type.deadName = false := by
  cases h with
  | deadName type => simp [type] at hright
  | _ type => simp [type]

section SendRight

variable {e : IpcEntry} {P : IpcPorts} {dead live : RightState → Copyin × RightState}

/-- An old-style entry is deallocated once it is found to be dead. -/
theorem copyinSendRight_compat (hok : e.Ok) (h : e.DeadCompat P) :
    copyinSendRight dead live ⟨e, P, []⟩ = (.error .invalidName,
        ⟨{ e with ieObject := ioNull, ieRequest := 0 }, P.modify e.ieObject IpcPort.release,
          e.checkCalls ++ [.entryDealloc]⟩) := by
  obtain ⟨⟨hright, hdead⟩, hcompat⟩ := h
  have hname := hok.not_deadName hright
  simp only [copyinSendRight, hname, hright, ipcRightCheck_compat hdead hcompat, hcompat]
  rfl

theorem copyinSendRight_keeps (hok : e.Ok) (hgen : e.ieBits.gen < 2 ^ 8)
    (htype : e.ieBits.type ≠ machPortTypeNone) (h : ¬ e.DeadCompat P)
    (hdead : ∀ s : RightState, .entryDealloc ∉ s.calls →
      s.entry.ieBits.type = machPortTypeDeadName → s.entry.ieObject = ioNull →
      s.entry.ieBits.Fits → 0 < s.entry.ieBits.urefs →
      (e.ieBits.type.sendRights = true → (P.port e.ieObject).ipActive = false) →
      (s.entry.ieBits.urefs = 1 ↔ e.OneDead P) → CopyinKeeps consumed (dead s))
    (hlive : e.ieBits.type.sendRights = true → (P.port e.ieObject).ipActive = true →
      CopyinKeeps consumed (live ⟨e, P, []⟩))
    (herror : e.ieBits.type.deadName = false → e.ieBits.type.sendRights = false → ¬ consumed) :
    CopyinKeeps consumed (copyinSendRight dead live ⟨e, P, []⟩) := by
  have hfits : e.ieBits.Fits := ⟨Nat.lt_succ_of_le hok.urefs_le, hgen⟩
  cases hname : e.ieBits.type.deadName with
  | true =>
    have hd := hok.of_deadName hname
    simp only [copyinSendRight, hname]
    cases hok with
    | deadName _ pos _ object =>
      refine hdead _ (by simp) hd object hfits pos (by simp [hd]) ⟨fun hone => .inl ⟨hd, hone⟩, ?_⟩
      rintro (⟨-, hone⟩ | ⟨⟨hright, -⟩, -⟩)
      · exact hone
      · simp [hd] at hright
    | _ t => simp [hd] at t
  | false =>
    cases hright : e.ieBits.type.sendRights with
    | false =>
      simp only [copyinSendRight, hname, hright]
      exact .refl htype (by simp) (herror hname hright)
    | true =>
      cases hactive : (P.port e.ieObject).ipActive with
      | true =>
        simp only [copyinSendRight, hname, hright, ipcRightCheck_active (s := ⟨e, P, []⟩) hactive]
        exact hlive hright hactive
      | false =>
        have hcompat : e.ieBits.compat = false := by
          cases hc : e.ieBits.compat with
          | false => rfl
          | true => exact absurd ⟨⟨hright, hactive⟩, hc⟩ h
        obtain ⟨hpos, hlt⟩ := hok.of_sendRights hright
        simp only [copyinSendRight, hname, hright,
          ipcRightCheck_died hactive hcompat hgen hlt, hcompat]
        refine hdead _ ?_ rfl rfl ⟨?_, hgen⟩ ?_ (fun _ => hactive) ?_
        · exact e.entryDealloc_notMem_checkCalls
        · simp only [IpcEntry.toDead]
          simp only [machPortUrefsMax] at hlt
          split <;> omega
        · exact hpos.trans_le (Nat.le_add_right ..)
        · constructor
          · intro hone
            simp only [IpcEntry.toDead] at hone
            split at hone
            · exact .inr ⟨⟨hright, hactive⟩, hcompat, hone, by assumption⟩
            · omega
          · rintro (⟨hd, -⟩ | ⟨-, -, hone, hrequest⟩)
            · simp [hd] at hname
            · simp [IpcEntry.toDead, hone, hrequest]

end SendRight

variable {P : IpcPorts}

theorem IpcEntry.not_oneDead (hdead : e.ieBits.type.deadName = false)
    (hactive : e.ieBits.type.sendRights = true → (P.port e.ieObject).ipActive = true) :
    ¬ e.OneDead P := by
  rintro (⟨type, -⟩ | ⟨⟨hright, hdied⟩, -⟩)
  · simp [type] at hdead
  · rw [hactive hright] at hdied
    cases hdied

/-- Only a right that is consumed leaves the entry empty. -/
theorem ipcRightCopyin_keeps (hok : e.Ok)
    (hgen : e.ieBits.gen < 2 ^ 8) (htype : e.ieBits.type ≠ machPortTypeNone)
    (msgtName : MachMsgTypeName) (h : ¬ (e.DeadCompat P ∧ msgtName.Looks)) :
    CopyinKeeps (e.Consumed P msgtName) (ipcRightCopyin msgtName true ⟨e, P, []⟩) := by
  cases msgtName with
  | makeSend | makeSendOnce =>
    simp only [ipcRightCopyin]
    split <;> exact .refl htype (by simp) id
  | moveReceive =>
    cases hok with
    | none type => exact absurd type htype
    | receive type | sendReceive type =>
      constructor <;> simp [ipcRightCopyin, type]
    | _ type => constructor <;> simp [ipcRightCopyin, type]
  | copySend =>
    refine copyinSendRight_keeps hok hgen htype (fun hd => h ⟨hd, trivial⟩) ?_ ?_ fun _ _ => id
    · intro s hc ht _ _ _ _ _
      exact .refl (by simp [copyDead, ht]) hc id
    · intro _ _
      split <;> exact .refl htype (by simp) id
  | moveSend =>
    refine copyinSendRight_keeps hok hgen htype (fun hd => h ⟨hd, trivial⟩) ?_ ?_ ?_
    · intro s hc ht ho hf hp hdead hone
      refine moveDead_keeps hc ht ho hf hp ⟨?_, fun hu => .inl (hone.mp hu)⟩
      rintro (hd | ⟨type, -, hactive⟩)
      · exact hone.mpr hd
      · rw [hdead (by simp [type])] at hactive
        cases hactive
    · intro hright hactive
      have hone := IpcEntry.not_oneDead (hok.not_deadName hright) fun _ => hactive
      have hfits : e.ieBits.Fits := ⟨Nat.lt_succ_of_le hok.urefs_le, hgen⟩
      have hadd := IeBits.add_neg hfits (hok.of_sendRights hright).1
      cases hsend : e.ieBits.type.send with
      | false =>
        refine .refl htype (by simp) ?_
        rintro (hd | ⟨type, -⟩)
        · exact hone hd
        · simp [type] at hsend
      | true =>
        by_cases hu : e.ieBits.urefs = 1
        · rcases hok.of_send_type hsend with type | type
          · constructor <;> simp [type, hu, hactive]
          · constructor <;> simp [type, hu, hone]
        · rcases hok.of_send_type hsend with type | type
          · constructor <;> simp_all
          · constructor <;> simp_all
    · intro hname hright
      rintro (hd | ⟨type, -, -⟩)
      · exact IpcEntry.not_oneDead hname (by simp [hright]) hd
      · simp [type] at hright
  | moveSendOnce =>
    refine copyinSendRight_keeps hok hgen htype (fun hd => h ⟨hd, trivial⟩) ?_ ?_ ?_
    · intro s hc ht ho hf hp hdead hone
      refine moveDead_keeps hc ht ho hf hp ⟨?_, fun hu => .inl (hone.mp hu)⟩
      rintro (hd | ⟨type, hactive⟩)
      · exact hone.mpr hd
      · rw [hdead (by simp [type])] at hactive
        cases hactive
    · intro hright hactive
      have hone := IpcEntry.not_oneDead (hok.not_deadName hright) fun _ => hactive
      cases honce : e.ieBits.type.sendOnce with
      | false =>
        refine .refl htype (by simp) ?_
        rintro (hd | ⟨type, -⟩)
        · exact hone hd
        · simp [type] at honce
      | true =>
        have type := hok.of_sendOnce_type honce
        constructor <;> simp [type, hactive]
    · intro hname hright
      rintro (hd | ⟨type, -⟩)
      · exact IpcEntry.not_oneDead hname (by simp [hright]) hd
      · simp [type] at hright

/-! ## What is left of the space -/

namespace IpcState

variable {its : IpcTableSizes} {x : IpcState} {name : Nat} {ref : EntryRef}
  {α : Type} {f : RightState → α × RightState} {e : IpcEntry} {stale : IeBits}

theorem foldlM_call {l : List RightCall} (h : .entryDealloc ∉ l) :
    l.foldlM (call its name ref) x = some { x with calls := x.calls ++ l } := by
  induction l generalizing x with
  | nil => simp
  | cons c l ih =>
    simp only [List.mem_cons, not_or] at h
    have hc : x.call its name ref c = some { x with calls := x.calls ++ [c] } := by
      cases c with
      | entryDealloc => exact absurd rfl h.1
      | _ => rfl
    rw [List.foldlM_cons, hc]
    simpa using ih (x := { x with calls := x.calls ++ [c] }) h.2

theorem deallocIfNone_write {free : List Nat} {m : Nat → Option IpcEntry} {v : IpcEntry}
    {s : IpcSpace} (stale : IeBits) (ht : Typed m) (h : s.Rep its free m)
    (href : s.Refers free name ref)
    (hobject : v.ieBits.type = machPortTypeNone → v.ieObject = ioNull) (P : IpcPorts)
    (calls : List RightCall) :
    ∃ s' m', deallocIfNone its stale name ref ⟨s.write ref v, P, calls⟩ =
        some ⟨s', P, calls⟩ ∧ s'.Represents its m' ∧ (∀ n, n ≠ name → m' n = m n) ∧
      (m' name = none ↔ v.ieBits.type = machPortTypeNone) := by
  obtain ⟨hrep, href'⟩ := h.write href v
  obtain ⟨e, he, hright⟩ := h.deref_write href v
  have htype : e.ieBits.type = v.ieBits.type := congrArg (fun e => e.ieBits.type) hright
  simp only [deallocIfNone, ieBits, he, map_some, getD_some, htype]
  by_cases hnone : v.ieBits.type = machPortTypeNone
  · obtain ⟨s', free', heq, hrep', -⟩ := hrep.dealloc href' fun e he =>
      (h.object_write href v he).trans (hobject hnone)
    rw [update_idem] at hrep'
    refine ⟨s', _, ?_, ⟨IpcSpace.typed_erase ht name, free', hrep'⟩,
      fun n hn => update_of_ne hn .., by simp [hnone]⟩
    simp only [if_pos hnone, entryDealloc, heq]
    rfl
  · rw [if_neg hnone]
    refine ⟨_, _, rfl, ⟨IpcSpace.typed_update ht name ?_, free, hrep⟩,
      fun n hn => update_of_ne hn .., ?_⟩
    · exact hnone
    · exact iff_of_false (by simp) hnone

end IpcState

namespace IpcSpace

variable {its : IpcTableSizes} {s : IpcSpace} {free : List Nat} {m : Nat → Option IpcEntry}
  {name : Nat} {ref : EntryRef} {s' : IpcSpace}

theorem Core.lookup_head (h : s.Core its free) : ipcEntryLookup s 255 = (none, s) := by
  have hindex : machPortIndex 255 = 0 := rfl
  simp only [ipcEntryLookup, hindex, h.size_pos, h.head_gen, h.head_type]
  rfl

theorem Core.refers_unique (h : s.Core its free) {ref' : EntryRef} (href : s.Refers free name ref)
    (href' : s.Refers free name ref') : ref = ref' := by
  cases ref with
  | table =>
    obtain ⟨rfl, hslot⟩ := href
    cases ref' with
    | table =>
      obtain ⟨rfl, -⟩ := href'
      rfl
    | tree =>
      obtain ⟨-, v, hv⟩ := href'
      exact absurd hv (h.not_mem_tree hslot v)
  | tree =>
    obtain ⟨rfl, v, hv⟩ := href
    cases ref' with
    | table => exact absurd hv (h.not_mem_tree href'.2 v)
    | tree =>
      obtain ⟨rfl, -⟩ := href'
      rfl

theorem deleteTree_frame (hvalid : s.isTree.Valid) (h : s.deleteTree its name = some s') :
    ∃ tree, ipcSplayTreeDelete s.isTree name = some tree ∧ s'.treeList = tree.contents ∧
      s'.isTableSize = s.isTableSize ∧ ∀ i, (s'.isTable i).ieBits.gen =
        (s.isTable i).ieBits.gen := by
  obtain ⟨tree, hdel, rfl⟩ := map_eq_some_iff.mp h
  have hne : s.isTree.contents ≠ [] := by
    intro hnil
    rw [ipcSplayTreeDelete_nil hnil] at hdel
    cases hdel
  obtain ⟨splay', -, -, -, hdel', hv, -⟩ := hvalid.delete name hne
  obtain rfl : tree = splay' := some.inj (hdel.symm.trans hdel')
  obtain ⟨-, -, -, hc⟩ := hv.bounds name
  refine ⟨tree, hdel, ?_⟩
  rcases hres : ipcEntryTreeCollision
    { s with isTree := tree, isTreeTotal := s.isTreeTotal - 1 } name with ⟨b, t⟩
  obtain rfl : { s with isTree := (ipcSplayTreeBounds tree name).2
                        isTreeTotal := s.isTreeTotal - 1 } = t := congrArg Prod.snd hres
  simp only [hres]
  split
  · cases b with
    | true => exact ⟨hc, rfl, fun _ => rfl⟩
    | false =>
      refine ⟨hc, rfl, fun i => ?_⟩
      simp only [update_apply]
      split
      · rename_i hi
        rw [hi]
      · rfl
  · split
    · cases b with
      | true | false => exact ⟨hc, rfl, fun _ => rfl⟩
    · exact ⟨rfl, rfl, fun _ => rfl⟩

/-- Deleting a name that is not there takes another one away. -/
theorem Rep.deleteTree_absent (h : s.Rep its free m) (hnone : m name = none)
    (hs : s.deleteTree its name = some s') {m' : Nat → Option IpcEntry}
    (h' : s'.Represents its m') : ∃ n, n ≠ name ∧ m' n ≠ m n := by
  obtain ⟨-, free', h'⟩ := h'
  obtain ⟨tree, hdel, htree, hsize, hgen⟩ := deleteTree_frame h.tree hs
  have hne : s.isTree.contents ≠ [] := by
    intro hnil
    rw [ipcSplayTreeDelete_nil hnil] at hdel
    cases hdel
  obtain ⟨splay', lo, e, hi, hdel', -, hlist, hleft, -⟩ := h.tree.delete name hne
  obtain rfl : tree = splay' := some.inj (hdel.symm.trans hdel')
  have hmem : e ∈ s.treeList := by
    rw [treeList, hlist]
    simp
  refine ⟨e.1, h.tree_ne hnone e hmem, fun heq => ?_⟩
  have hm := (h.maps e.1 e.2).mp (.inr hmem)
  rcases (h'.maps e.1 e.2).mpr (heq.trans hm) with ⟨⟨hpos, hlt, -, hg⟩, -⟩ | hin
  · rw [hsize] at hlt
    rw [hgen] at hg
    exact (h.shadow e hmem hpos hlt).2 hg
  rw [htree, hleft] at hin
  have hasc := h.tree.ascending
  rw [hlist] at hasc
  obtain ⟨-, hbelow, habove, -⟩ := ascending_middle.mp hasc
  rcases List.mem_append.mp hin with hin | hin
  · exact lt_irrefl _ (hbelow _ hin)
  · exact lt_irrefl _ (habove _ hin)

end IpcSpace

/-- The entry of the name reads as empty once it has been deallocated. -/
def IpcSpace.ReadsNone (s : IpcSpace) (stale : IeBits) (name : Nat) : Prop :=
  match s.holder name with
  | .table index => (s.isTable index).ieBits.collision = false
  | .tree _ => stale.type = machPortTypeNone

/-- What is in the space after `ipc_object_copyin`: the other names are as they were, and the
name is gone just if it was not there, or its right was consumed, or it was found to be
dead. -/
structure ObjectCopied (its : IpcTableSizes) (name : Nat) (msgtName : MachMsgTypeName)
    (P : IpcPorts) (m : Nat → Option IpcEntry) (r : Except KernReturn Nat) (s' : IpcSpace)
    (m' : Nat → Option IpcEntry) : Prop where
  represents : s'.Represents its m'
  others : ∀ n, n ≠ name → m' n = m n
  gone : m' name = none ↔ m name = none ∨
    ∃ v, m name = some v ∧ (v.Consumed P msgtName ∧ (∃ object, r = .ok object) ∨ v.DeadCompat P)

theorem IpcEntry.DeadCompat.not_consumed
    {msgtName : MachMsgTypeName} (h : e.DeadCompat P) (hlooks : ¬ msgtName.Looks) :
    ¬ e.Consumed P msgtName := by
  cases msgtName with
  | makeSend | makeSendOnce => exact id
  | moveReceive =>
    intro type
    have hright := h.1.1
    rw [show e.ieBits.type = machPortTypeReceive from type] at hright
    cases hright
  | _ => exact absurd trivial hlooks

section Copied

variable {its : IpcTableSizes} {stale : IeBits} {name : Nat} {msgtName : MachMsgTypeName}
  {x : IpcState} {m : Nat → Option IpcEntry} {free : List Nat} {ref : EntryRef} {e : IpcEntry}

theorem objectCopyinEntry_keeps (stale : IeBits) (ht : Typed m) (hrep : x.space.Rep its free m)
    (href : x.space.Refers free name ref) (he : x.space.deref ref = some e) (hok : e.Ok)
    (hkeep : ¬ (e.DeadCompat x.ports ∧ msgtName.Looks)) :
    ∃ r x' m', objectCopyinEntry its stale name msgtName ref x = some (r, x') ∧
      x'.space.Represents its m' ∧ (∀ n, n ≠ name → m' n = m n) ∧
      (m' name = none ↔ e.Consumed x.ports msgtName) ∧
      (e.Consumed x.ports msgtName → ∃ object, r = .ok object) := by
  obtain ⟨e', he', hm⟩ := hrep.deref href
  obtain rfl : e = e' := some.inj (he.symm.trans he')
  have hk := ipcRightCopyin_keeps (P := x.ports) hok (hrep.gen_lt_of_deref href he)
    (show e.right.ieBits.type ≠ _ from ht _ _ hm) msgtName hkeep
  generalize hres : ipcRightCopyin msgtName true ⟨e, x.ports, []⟩ = r at hk
  obtain ⟨r, s⟩ := r
  obtain ⟨s', m', hdealloc, hrep', hothers, hgone⟩ := deallocIfNone_write stale ht hrep
    href hk.object s.ports (x.calls ++ s.calls)
  have hcopyin : objectCopyinEntry its stale name msgtName ref x =
      some (objectCopyin name r ⟨s', s.ports, x.calls ++ s.calls⟩) := by
    simp [objectCopyinEntry, act, he, hres, foldlM_call hk.calls, hdealloc]
  have hobject : e.Consumed x.ports msgtName → ∃ object,
      (objectCopyin name r ⟨s', s.ports, x.calls ++ s.calls⟩).1 = .ok object := by
    intro hc
    obtain ⟨v, rfl⟩ := hk.ok hc
    exact ⟨v.1, rfl⟩
  have hspace : (objectCopyin name r ⟨s', s.ports, x.calls ++ s.calls⟩).2.space = s' := by
    cases r with
    | error => rfl
    | ok =>
      simp only [objectCopyin, IpcState.notifyDeleted]
      split <;> rfl
  generalize objectCopyin name r ⟨s', s.ports, x.calls ++ s.calls⟩ = y at hcopyin hobject hspace
  exact ⟨y.1, y.2, m', hcopyin, hspace ▸ hrep', hothers, hgone.trans hk.type, hobject⟩

/-- An old-style entry that is found to be dead is deallocated, and then looked at. -/
theorem objectCopyinEntry_compat (he : x.space.deref ref = some e) (hok : e.Ok)
    (hdead : e.DeadCompat x.ports) (hlooks : msgtName.Looks) :
    objectCopyinEntry its stale name msgtName ref x =
      (ipcEntryDealloc its (x.space.write ref { e with ieObject := ioNull, ieRequest := 0 }) name
        ref).bind fun t =>
          (IpcState.deallocIfNone its stale name ref ⟨t.1,
            x.ports.modify e.ieObject IpcPort.release, x.calls ++ e.checkCalls⟩).map
            (.error .invalidName, ·) := by
  have hres : ipcRightCopyin msgtName true ⟨e, x.ports, []⟩ = (.error .invalidName,
        ⟨{ e with ieObject := ioNull, ieRequest := 0 },
          x.ports.modify e.ieObject .release, e.checkCalls ++ [.entryDealloc]⟩) := by
    cases msgtName with
    | makeSend | makeSendOnce | moveReceive => cases hlooks
    | _ => exact copyinSendRight_compat hok hdead
  simp only [objectCopyinEntry, act, he, bind_some, hres, List.foldlM_append,
    foldlM_call e.entryDealloc_notMem_checkCalls]
  simp [IpcState.call, IpcState.entryDealloc]
  rw [bind_map]
  rfl

/-- The entry is deallocated twice just if it reads as empty after the first time. -/
theorem objectCopyinEntry_dead (stale : IeBits) (ht : Typed m) (hrep : x.space.Rep its free m)
    (href : x.space.Refers free name ref) (he : x.space.deref ref = some e) (hok : e.Ok)
    (hdead : e.DeadCompat x.ports) (hlooks : msgtName.Looks) :
    (∃ r x' m', objectCopyinEntry its stale name msgtName ref x = some (r, x') ∧
      x'.space.Represents its m' ∧ (∀ n, n ≠ name → m' n = m n) ∧ m' name = none) ↔
    ¬ x.space.ReadsNone stale name := by
  obtain ⟨e', -, hm⟩ := hrep.deref href
  have hholder : x.space.holder name = ref :=
    hrep.refers_unique (hrep.holder ht (by rw [hm]; simp)) href
  rw [IpcSpace.ReadsNone, hholder, objectCopyinEntry_compat he hok hdead hlooks]
  generalize hv : ({ e with ieObject := ioNull, ieRequest := 0 } : IpcEntry) = v
  have htyped := IpcSpace.typed_erase ht name
  obtain ⟨hrep', href'⟩ := hrep.write href v
  cases ref with
  | table =>
    obtain ⟨rfl, hslot⟩ := href'
    have hcol : ((x.space.write (.table (machPortIndex name)) v).isTable
        (machPortIndex name)).ieBits.collision =
          (x.space.isTable (machPortIndex name)).ieBits.collision := by
      rw [IpcSpace.isTable_write_self]
      rfl
    rw [ipcEntryDealloc, if_pos ⟨hslot.2.1, rfl⟩, hcol]
    dsimp only
    cases hc : (x.space.isTable (machPortIndex name)).ieBits.collision with
    | true =>
      obtain ⟨_, _, s', -, -, -, heq, hrep'', hsize, -⟩ :=
        hrep'.migrate hslot (hcol.trans hc)
      rw [update_idem] at hrep''
      have htype : (s'.isTable (machPortIndex name)).ieBits.type ≠ machPortTypeNone :=
        fun hnone => hslot.2.2.1 (hrep''.free_of_type_none htyped hslot.1 (hsize ▸ hslot.2.1) hnone)
      refine iff_of_true ⟨.error .invalidName, ⟨s', x.ports.modify e.ieObject .release,
        x.calls ++ e.checkCalls⟩, _, ?_, ⟨htyped, free, hrep''⟩, ?_, ?_⟩ (by simp)
      · rw [if_pos rfl, heq, bind_some, deallocIfNone, if_neg (by exact htype)]
        rfl
      · exact fun n hn => update_of_ne hn ..
      · exact update_self ..
    | false =>
      refine iff_of_false ?_ (by simp)
      rintro ⟨r, x', m', h, hrep'', -⟩
      generalize x.space.write (.table (machPortIndex name)) v = s at h hslot
      have hbits : ((s.freeSlot (machPortIndex name)).isTable (machPortIndex name)).ieBits =
          .ofGen (s.isTable (machPortIndex name)).ieBits.gen := by
        simp [IpcSpace.freeSlot, hslot.1.ne']
      have hdealloc : ipcEntryDealloc its (s.freeSlot (machPortIndex name)) name
          (.table (machPortIndex name)) =
            some ((s.freeSlot (machPortIndex name)).freeSlot (machPortIndex name), []) := by
        rw [ipcEntryDealloc, if_pos ⟨hslot.2.1, rfl⟩, hbits]
        rfl
      rw [if_neg Bool.false_ne_true, bind_some, deallocIfNone,
        if_pos (by exact congrArg IeBits.type hbits), entryDealloc, hdealloc] at h
      cases h
      obtain ⟨-, free, hcore⟩ := hrep''
      exact hcore.chain.next_ne_self hslot.1.ne' (by simp [IpcSpace.freeSlot, hslot.1.ne'])
  | tree tname =>
    obtain ⟨rfl, w, hw⟩ := href'
    obtain ⟨s', heq, hrep'', -, hmem⟩ := hrep'.deleteTree hw
    rw [update_idem] at hrep''
    have hderef : s'.deref (.tree tname) = none := by
      cases hlook : s'.treeList.lookup tname with
      | none => exact hlook
      | some =>
        exact absurd rfl ((hmem _).mp (mem_of_lookup hlook)).2
    have hdealloc : ∀ t : IpcSpace, ipcEntryDealloc its t tname (.tree tname) =
        (t.deleteTree its tname).map fun s => (s, []) := by
      simp [ipcEntryDealloc]
    simp only [hdealloc, heq, map_some, bind_some, deallocIfNone,
      ieBits, hderef, map_none, getD_none, entryDealloc]
    by_cases hstale : stale.type = machPortTypeNone
    · -- Another entry goes.
      refine iff_of_false ?_ (by simpa using hstale)
      rintro ⟨r, x', m', h, hx', hothers, -⟩
      rw [if_pos hstale] at h
      cases hdel : s'.deleteTree its tname with
      | none =>
        rw [hdel] at h
        cases h
      | some =>
        rw [hdel] at h
        cases h
        obtain ⟨n, hn, hne⟩ := hrep''.deleteTree_absent (update_self ..) hdel hx'
        exact hne ((hothers n hn).trans (update_of_ne hn ..).symm)
    · refine iff_of_true ⟨.error .invalidName, ⟨s', x.ports.modify e.ieObject .release,
        x.calls ++ e.checkCalls⟩, _, ?_, ⟨htyped, free, hrep''⟩, ?_, ?_⟩ hstale
      · rw [if_neg hstale]
        rfl
      · exact fun n hn => update_of_ne hn ..
      · exact update_self ..

theorem objectCopied_missing (stale : IeBits) (msgtName : MachMsgTypeName) (ht : Typed m)
    (hrep : x.space.Rep its free m)
    (h : m name = none ∨ name = 255) :
    (∃ m', ObjectCopied its name msgtName x.ports m (.error .invalidName) x.space m') ↔
      ¬ ∃ v, m name = some v ∧ v.DeadCompat x.ports ∧
        (¬ msgtName.Looks ∨ name = 255 ∨ x.space.ReadsNone stale name) := by
  constructor
  · rintro ⟨m', ⟨-, free', hrep'⟩, -, hgone⟩ ⟨v, hm, hdead, -⟩
    obtain rfl := hrep.map_unique hrep'
    rw [hgone.mpr (.inr ⟨v, hm, .inr hdead⟩)] at hm
    cases hm
  · intro hnot
    refine ⟨m, ⟨ht, free, hrep⟩, fun _ _ => rfl, .inl, ?_⟩
    rintro (hnone | ⟨v, hm, ⟨-, object, ho⟩ | hdead⟩)
    · exact hnone
    · cases ho
    · rcases h with hnone | hname
      · exact hnone
      · exact absurd ⟨v, hm, hdead, .inr (.inl hname)⟩ hnot

theorem objectCopied_found (ht : Typed m) (hrep : x.space.Rep its free m)
    (href : x.space.Refers free name ref) (hname : name ≠ 255)
    (hok : ∀ v, m name = some v → v.Ok) :
    (∃ r x' m', objectCopyinEntry its stale name msgtName ref x = some (r, x') ∧
      ObjectCopied its name msgtName x.ports m r x'.space m') ↔
    ¬ ∃ v, m name = some v ∧ v.DeadCompat x.ports ∧
      (¬ msgtName.Looks ∨ name = 255 ∨ x.space.ReadsNone stale name) := by
  obtain ⟨e, he, hm⟩ := hrep.deref href
  have hok : e.Ok := (hok _ hm).congr rfl
  have hsome : ∀ {p : IpcEntry → Prop}, (∃ v, m name = some v ∧ p v) ↔ p e.right := by
    simp [hm]
  rw [hsome]
  have hdead : e.right.DeadCompat x.ports ↔ e.DeadCompat x.ports := .rfl
  have hconsumed : e.right.Consumed x.ports msgtName ↔ e.Consumed x.ports msgtName := by
    cases msgtName <;> exact .rfl
  by_cases hfound : e.DeadCompat x.ports ∧ msgtName.Looks
  · obtain ⟨hd, hlooks⟩ := hfound
    have hiff := objectCopyinEntry_dead stale ht hrep href he hok hd hlooks
    simp only [hdead, hd, hlooks, hname, not_true_eq_false, false_or, true_and]
    rw [← hiff]
    constructor
    · rintro ⟨r, x', m', h, hrep', hothers, hgone⟩
      exact ⟨r, x', m', h, hrep', hothers, hgone.mpr (.inr ⟨_, hm, .inr hd⟩)⟩
    · rintro ⟨r, x', m', h, hrep', hothers, hgone⟩
      exact ⟨r, x', m', h, hrep', hothers, iff_of_true hgone (.inr ⟨_, hm, .inr hd⟩)⟩
  obtain ⟨r, x', m', h, hrep', hothers, hgone, hobject⟩ :=
    objectCopyinEntry_keeps stale ht hrep href he hok hfound
  by_cases hd : e.DeadCompat x.ports
  · have hlooks : ¬ msgtName.Looks := fun hl => hfound ⟨hd, hl⟩
    refine iff_of_false ?_ (not_not.mpr ⟨hd, .inl hlooks⟩)
    rintro ⟨r₁, x₁, m₁, h₁, ⟨-, free₁, hrep₁⟩, -, hgone₁⟩
    cases h.symm.trans h₁
    obtain ⟨-, free', hrep'⟩ := hrep'
    obtain rfl := hrep'.map_unique hrep₁
    exact hd.not_consumed hlooks (hgone.mp (hgone₁.mpr (.inr ⟨_, hm, .inr hd⟩)))
  · refine iff_of_true ⟨r, x', m', h, hrep', hothers, ?_⟩ fun hnot => hd hnot.1
    rw [hgone, hsome, hm]
    constructor
    · intro hc
      exact .inr (.inl ⟨hconsumed.mpr hc, hobject hc⟩)
    · rintro (hnone | ⟨hc, -⟩ | hdead)
      · cases hnone
      · exact hconsumed.mp hc
      · exact absurd hdead hd

/-- `ipc_object_copyin` leaves a good space, with the name gone as it should be, just if the
entry is not an old-style one that it fails to find out about or deallocates twice. -/
theorem ipcObjectCopyin_copied_iff (hrep : x.space.Represents its m)
    (hok : ∀ v, m name = some v → v.Ok) (stale : IeBits) (msgtName : MachMsgTypeName) :
    (∃ r x' m', ipcObjectCopyin its stale name msgtName x = some (r, x') ∧
      ObjectCopied its name msgtName x.ports m r x'.space m') ↔
    ¬ ∃ v, m name = some v ∧ v.DeadCompat x.ports ∧
      (¬ msgtName.Looks ∨ name = 255 ∨ x.space.ReadsNone stale name) := by
  obtain ⟨ht, free, hrep⟩ := hrep
  obtain ⟨r, tree, hlook, hv, hc, hr⟩ := hrep.lookup ht name
  have hrep₁ := hrep.congr_tree hv hc
  rcases hr with ⟨rfl, hnone⟩ | ⟨ref, rfl, href⟩
  · -- Nothing is changed.
    have hcopyin : ipcObjectCopyin its stale name msgtName x =
        some (.error .invalidName, { x with space := { x.space with isTree := tree } }) := by
      simp [ipcObjectCopyin, ipcRightLookupWrite, hrep.active, hlook]
    have hiff := objectCopied_missing stale msgtName
      (x := { x with space := { x.space with isTree := tree } }) ht hrep₁ hnone
    rw [hcopyin]
    constructor
    · rintro ⟨r, x', m', h, hcopied⟩
      cases h
      exact hiff.mp ⟨m', hcopied⟩
    · intro hnot
      obtain ⟨m', hcopied⟩ := hiff.mpr hnot
      exact ⟨_, _, m', rfl, hcopied⟩
  · have hcopyin : ipcObjectCopyin its stale name msgtName x =
        objectCopyinEntry its stale name msgtName ref
          { x with space := { x.space with isTree := tree } } := by
      simp [ipcObjectCopyin, ipcRightLookupWrite, hrep.active, hlook]
    rw [hcopyin]
    refine objectCopied_found ht hrep₁ ?_ ?_ hok
    · cases ref with
      | table => exact href
      | tree =>
        obtain ⟨rfl, v, hv⟩ := href
        rw [← hc] at hv
        exact ⟨rfl, v, hv⟩
    · rintro rfl
      rw [hrep.lookup_head] at hlook
      cases hlook

end Copied

/-- All ports are dead. -/
def deadPorts : IpcPorts :=
  ⟨fun _ => ⟨false, 1, 0, machPortNull, 0, 0, 0, ipNull, ipNull, 0, fun _ => ⟨0, machPortNull⟩⟩, 0⟩

/-- The last user reference of a dead name is moved. -/
theorem ipcObjectCopyin_copied_iff_deadName :
    ∃ r x' m', ipcObjectCopyin ipcTableEntries .zero 256 .moveSend
        ⟨oneEntrySpace oneDeadName, deadPorts, []⟩ = some (r, x') ∧
      ObjectCopied ipcTableEntries 256 .moveSend deadPorts
        (update (fun _ => none) 256 (some oneDeadName)) r x'.space m' := by
  have hrep : (oneEntrySpace oneDeadName).Represents ipcTableEntries
      (update (fun _ => none) 256 (some oneDeadName)) :=
    oneEntrySpace_represents (by decide)
  refine (ipcObjectCopyin_copied_iff (x := ⟨oneEntrySpace oneDeadName, deadPorts, []⟩) hrep ?_ .zero
    .moveSend).mpr ?_
  · intro v hv
    cases hv
    exact .deadName rfl Nat.one_pos (show 1 ≤ 65535 by omega) rfl
  · rintro ⟨v, hv, ⟨⟨hright, -⟩, -⟩, -⟩
    cases hv
    cases hright

/-- An old-style send right for a port that has died. -/
def deadSend : IpcEntry := ⟨⟨1, machPortTypeSend, false, true, false, 0⟩, 64, 0⟩

/-- The slot of an old-style send right for a dead port is put on the free list twice. -/
theorem not_objectCopied_deadSend : (oneEntrySpace deadSend).Represents ipcTableEntries
        (update (fun _ => none) 256 (some deadSend)) ∧ deadSend.Ok ∧
      ∃ x', ipcObjectCopyin ipcTableEntries .zero 256 .copySend
          ⟨oneEntrySpace deadSend, deadPorts, []⟩ = some (.error .invalidName, x') ∧
        (x'.space.isTable 0).ieNext = 1 ∧ (x'.space.isTable 1).ieNext = 1 ∧
        ∀ m', ¬ x'.space.Represents ipcTableEntries m' := by
  have hrun : (ipcObjectCopyin ipcTableEntries .zero 256 .copySend
      ⟨oneEntrySpace deadSend, deadPorts, []⟩).map (fun r =>
        (decide (r.1 = .error .invalidName), (r.2.space.isTable 0).ieNext,
          (r.2.space.isTable 1).ieNext)) = some (true, 1, 1) := by
    decide +kernel
  obtain ⟨⟨r, x'⟩, hr, heq⟩ := map_eq_some_iff.mp hrun
  simp only [Prod.mk.injEq, decide_eq_true_eq] at heq
  obtain ⟨rfl, hhead, hself⟩ := heq
  refine ⟨oneEntrySpace_represents (by decide), .send rfl Nat.one_pos (show 1 < 65535 by omega),
    x', hr, hhead, hself, ?_⟩
  rintro m' ⟨-, free, hrep⟩
  have hchain := hrep.chain
  rw [hhead] at hchain
  exact hchain.next_ne_self one_ne_zero hself

end Mach
