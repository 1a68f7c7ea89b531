import Mach.Vm.MapOps

/-!
# Copies of memory

`vm_map_copyin` makes a copy of a region: a list of entries of its own, that is put into another map
by `vm_map_copyout`.  An entry of a map can refer to a *share map*, which has the objects for
several maps; then the entry of the share map is the one that is copied.

An entry is copied in one of three ways.  If the source is destroyed anyhow, then the reference to
the object moves to the copy.  Temporary objects are copied symmetrically, so that both entries need
a copy before they are written.  Anything else is copied while no map is locked.  Then the maps can
change, and it is verified afterwards that the same object is still there.

What objects do is in `ObjectOps`, over any type of stores.  It also says how the maps change while
they are not locked, if they do.  The locks that a call takes are recorded in `VmSystem.locks`.
-/

universe u

namespace Mach

open Ring

/-- `VM_PROT_READ`. -/
def vmProtRead : Nat := 1

/-- The maps that a call locks. -/
inductive MapId where
  /-- The map that the call is made on. -/
  | main
  | share (n : Nat)
deriving Repr, DecidableEq

/-- `vm_map_lock` and `vm_map_unlock`. -/
inductive LockOp where
  | lock (m : MapId)
  | unlock (m : MapId)
deriving Repr, DecidableEq

/-- What a call works on. -/
structure VmSystem (σ : Type u) where
  map : VmMap
  shareMaps : Nat → VmMap
  store : σ
  /-- The locks that were taken and released, the latest first. -/
  locks : List LockOp

/-- The object layer. -/
structure ObjectOps (σ : Type u) where
  /-- `object->temporary`. -/
  temporary : Nat → σ → Bool
  /-- `vm_object_reference`. -/
  reference : Nat → σ → σ
  /-- `vm_object_deallocate`. -/
  deallocate : Nat → σ → σ
  /-- `vm_map_create`, for the references to a share map. -/
  mapCreate : Nat → σ → σ
  /-- `vm_map_reference`. -/
  mapReference : Nat → σ → σ
  /-- The last reference to a share map is gone. -/
  mapGone : Nat → σ → Bool
  /-- `vm_map_entry_delete`, up to the list of entries. -/
  entryDelete : VmMapEntry → Bool → σ → σ
  /-- `vm_object_copy_slowly`, with the object, the offset, the size and whether to wire the
  copy. -/
  copySlowly : Nat → Nat → Nat → Bool → σ → Nat × σ
  /-- `vm_object_copy_strategically`: an object, an offset and whether a copy is needed. -/
  copyStrategically : Nat → Nat → Nat → σ → Except VmReturn (Nat × Nat × Bool) × σ
  /-- What other threads do to the map and the share maps while they are not locked.  If this is
  nothing then the timestamps of the maps are the same. -/
  unlocked : VmMap → (Nat → VmMap) → σ → Option (VmMap × (Nat → VmMap)) × σ

namespace VmSystem

variable {σ : Type u}

/-- `vm_map_lock`. -/
def lock (m : MapId) (s : VmSystem σ) : VmSystem σ := { s with locks := .lock m :: s.locks }

/-- `vm_map_unlock`. -/
def unlock (m : MapId) (s : VmSystem σ) : VmSystem σ := { s with locks := .unlock m :: s.locks }

/-- Change a share map. -/
def setShareMap (n : Nat) (m : VmMap) (s : VmSystem σ) : VmSystem σ :=
  { s with shareMaps := Function.update s.shareMaps n m }

end VmSystem

/-- Another reference to what an entry has. -/
def ObjectOps.entryReference {σ : Type u} (ops : ObjectOps σ) (v : VmMapEntry) (store : σ) : σ :=
  if v.isAMap || v.isSubMap then ops.mapReference v.object store
  else ops.reference v.object store

/-- `vm_object_copy_temporary`: whether both entries need a copy. -/
def ObjectOps.copyTemporary {σ : Type u} (ops : ObjectOps σ) (object : Nat) (store : σ) :
    Option Bool × σ :=
  if object = vmObjectNull then (some false, store)
  else if ops.temporary object store then (some true, ops.reference object store)
  else (none, store)

namespace VmSystem

variable {σ : Type u} (ops : ObjectOps σ)

/-- `vm_map_clip_start` on the map. -/
def clipStart (e startaddr : Nat) (s : VmSystem σ) : VmSystem σ :=
  { s with
      map := s.map.clipStart e startaddr
      store :=
        if (s.map.hdr.entry e).vmeStart < startaddr then
          ops.entryReference (s.map.hdr.entry e) s.store
        else s.store }

/-- `vm_map_clip_end` on the map. -/
def clipEnd (e endaddr : Nat) (s : VmSystem σ) : VmSystem σ :=
  { s with
      map := s.map.clipEnd e endaddr
      store :=
        if endaddr < (s.map.hdr.entry e).vmeEnd then
          ops.entryReference (s.map.hdr.entry e) s.store
        else s.store }

/-- `vm_map_clip_start` on a share map. -/
def clipShareStart (n e startaddr : Nat) (s : VmSystem σ) : VmSystem σ :=
  let m := s.shareMaps n
  { s.setShareMap n (m.clipStart e startaddr) with
      store :=
        if (m.hdr.entry e).vmeStart < startaddr then ops.entryReference (m.hdr.entry e) s.store
        else s.store }

/-- `vm_map_clip_end` on a share map. -/
def clipShareEnd (n e endaddr : Nat) (s : VmSystem σ) : VmSystem σ :=
  let m := s.shareMaps n
  { s.setShareMap n (m.clipEnd e endaddr) with
      store :=
        if endaddr < (m.hdr.entry e).vmeEnd then ops.entryReference (m.hdr.entry e) s.store
        else s.store }

/-- The map is locked again.  Says whether the maps have changed meanwhile. -/
def relock (s : VmSystem σ) : Bool × VmSystem σ :=
  match ops.unlocked s.map s.shareMaps s.store with
  | (none, store) => (false, { s with store := store }.lock .main)
  | (some (map, shareMaps), store) =>
    (true, { s with map := map, shareMaps := shareMaps, store := store }.lock .main)

end VmSystem

/-! ## Copying in -/

/-- The arguments of `vm_map_copyin`. -/
structure CopyinArgs where
  pageMask : Nat
  srcAddr : Nat
  len : Nat
  srcDestroy : Bool
  keepWired : Bool
deriving Repr, DecidableEq

namespace CopyinArgs

/-- `src_start`. -/
def srcStart (a : CopyinArgs) : Nat := truncPage a.pageMask a.srcAddr

/-- `src_end`. -/
def srcEnd (a : CopyinArgs) : Nat := roundPage a.pageMask ((a.srcAddr + a.len) % 2 ^ 32)

/-- The header of a copy remembers the endpoints prior to rounding. -/
def copy (a : CopyinArgs) : VmMapHeader where
  next := fun _ => vmMapToEntry
  prev := fun _ => vmMapToEntry
  entry := fun _ =>
    ⟨a.srcAddr, (a.srcAddr + a.len) % 2 ^ 32, vmObjectNull, 0, false, false, false, 0, 0, 0, 0, 0⟩
  nentries := 0
  zone := 1

end CopyinArgs

/-- The variables of the loop of `vm_map_copyin`. -/
structure CopyinLoop (σ : Type u) where
  sys : VmSystem σ
  copy : VmMapHeader
  srcStart : Nat
  tmpEntry : Nat

/-- How an entry is left by the copy of its object. -/
inductive EntryCopied (σ : Type u) where
  /-- `CopySuccessful`, with the entry for the copy and the top-level entry. -/
  | success (new : VmMapEntry) (srcEntry : Nat) (s : VmSystem σ)
  /-- `VerificationFailed`: start over with the top-level entry. -/
  | again (srcEntry : Nat) (s : VmSystem σ)
  /-- `RETURN`. -/
  | fail (kr : VmReturn) (s : VmSystem σ)

/-- How a round of the loop ends. -/
inductive CopyinStep (σ : Type u) where
  | next (c : CopyinLoop σ)
  /-- The entire region has been copied. -/
  | finished (c : CopyinLoop σ)
  /-- `RETURN`. -/
  | fail (kr : VmReturn) (c : CopyinLoop σ)
  | panicked

namespace VmSystem

variable {σ : Type u} (ops : ObjectOps σ) (a : CopyinArgs)

/-- Follow an entry that refers to a share map: the entry there and the size of both.  `none` is the
panic for an address that is not in the share map. -/
def followShareMap (srcEntry srcStart srcSize : Nat) (s : VmSystem σ) :
    Option (Nat × Nat × VmSystem σ) :=
  let v := s.map.hdr.entry srcEntry
  if v.isAMap then
    let n := v.object
    let s := s.lock (.share n)
    match (s.shareMaps n).lookupEntry v.offset with
    | (false, _, _) => none
    | (true, tmp, m) =>
      let s := (s.setShareMap n m).clipShareStart ops n tmp v.offset
      let u := (s.shareMaps n).hdr.entry tmp
      let subSize := u.vmeEnd - u.vmeStart
      if srcSize < subSize then
        some (tmp, srcSize, s.clipShareEnd ops n tmp ((v.offset + srcSize) % 2 ^ 32))
      else if subSize < srcSize then
        some (tmp, subSize, s.clipEnd ops srcEntry ((srcStart + subSize) % 2 ^ 32))
      else some (tmp, srcSize, s)
  else some (srcEntry, srcSize, s)

/-- The entry that has the object: the top-level one, or one of a share map. -/
def objectEntry (srcEntry tmpEntry : Nat) (s : VmSystem σ) : VmMapEntry :=
  let v := s.map.hdr.entry srcEntry
  if v.isAMap then (s.shareMaps v.object).hdr.entry tmpEntry else v

/-- The entry for the copy, with the fields from the source entries. -/
def newEntry (srcEntry tmpEntry : Nat) (s : VmSystem σ) : VmMapEntry :=
  let v := s.map.hdr.entry srcEntry
  let u := s.objectEntry srcEntry tmpEntry
  if v.isAMap then
    { v with object := u.object, offset := u.offset, isSubMap := false, isAMap := false }
  else v

/-- The source has to be copied before it is written. -/
def setNeedsCopy (srcEntry tmpEntry : Nat) (s : VmSystem σ) : VmSystem σ :=
  let v := s.map.hdr.entry srcEntry
  if v.isAMap then
    let m := s.shareMaps v.object
    s.setShareMap v.object
      { m with hdr := m.hdr.setEntry tmpEntry { m.hdr.entry tmpEntry with needsCopy := true } }
  else
    { s with map := { s.map with hdr := s.map.hdr.setEntry srcEntry { v with needsCopy := true } } }

/-- The share map of an entry is unlocked. -/
def unlockShare (v : VmMapEntry) (s : VmSystem σ) : VmSystem σ :=
  if v.isAMap then s.unlock (.share v.object) else s

/-- The map has changed, and the entry is looked up again. -/
def copyAgain (new : VmMapEntry) (srcEntry : Nat) (s : VmSystem σ) : EntryCopied σ :=
  .again srcEntry { s with store := ops.deallocate new.object s.store }

/-- Verify that the share map has the same object, and clip the copy to the size of its entry. -/
def verifyShare (srcEntry srcSize : Nat) (old new : VmMapEntry) (s : VmSystem σ) : EntryCopied σ :=
  let v := s.map.hdr.entry srcEntry
  match (s.shareMaps v.object).lookupEntry v.offset with
  | (_, tmp, m) =>
    let s := ((s.lock (.share v.object)).setShareMap v.object m).unlock (.share v.object)
    let u := m.hdr.entry tmp
    if u.object ≠ old.object ∨ u.offset ≠ old.offset then s.copyAgain ops new srcEntry
    else
      let subSize := u.vmeEnd - u.vmeStart
      .success
        (if subSize < srcSize then { new with vmeEnd := new.vmeStart + subSize } else new)
        srcEntry s

/-- The maps have changed.  Verify that the object is still there, at `srcStart`. -/
def verifyCopy (srcStart srcSize : Nat) (old new : VmMapEntry) (s : VmSystem σ) : EntryCopied σ :=
  match s.map.lookupEntry srcStart with
  | (false, _, m) => .fail .invalidAddress { s with map := m }
  | (true, srcEntry, m) =>
    let s := { s with map := m }.clipStart ops srcEntry srcStart
    let v := s.map.hdr.entry srcEntry
    if v.protection &&& vmProtRead = 0 then s.copyAgain ops new srcEntry
    else
      let srcSize := if v.vmeEnd < new.vmeEnd then v.vmeEnd - srcStart else srcSize
      let new := if v.vmeEnd < new.vmeEnd then { new with vmeEnd := v.vmeEnd } else new
      if v.isAMap then s.verifyShare ops srcEntry srcSize old new
      else if v.object ≠ old.object ∨ v.offset ≠ old.offset then s.copyAgain ops new srcEntry
      else .success new srcEntry s

/-- The contents of an entry are copied. -/
def copyContents (wired : Bool) (srcSize : Nat) (old new : VmMapEntry) (store : σ) :
    Except VmReturn VmMapEntry × σ :=
  if wired then
    match ops.copySlowly old.object old.offset srcSize a.keepWired store with
    | (object, store) =>
      (.ok
        { new with
            object := object
            offset := 0
            needsCopy := false
            wiredCount := if a.keepWired then 1 else 0 },
        store)
  else
    match ops.copyStrategically old.object old.offset srcSize store with
    | (.error kr, store) => (.error kr, store)
    | (.ok (object, offset, needsCopy), store) =>
      (.ok { new with object := object, offset := offset, needsCopy := needsCopy }, store)

/-- Copy the object of an entry while no map is locked. -/
def copyUnlocked (srcEntry tmpEntry srcStart srcSize : Nat) (s : VmSystem σ) : EntryCopied σ :=
  let v := s.map.hdr.entry srcEntry
  let old := s.objectEntry srcEntry tmpEntry
  let new := { s.newEntry srcEntry tmpEntry with needsCopy := false }
  let s := ({ s with store := ops.reference old.object s.store }.unlockShare v).unlock .main
  match copyContents ops a (v.wiredCount ≠ 0) srcSize old new s.store with
  | (.error kr, store) => .fail kr ({ s with store := store }.relock ops).2
  | (.ok new, store) =>
    match { s with store := ops.deallocate old.object store }.relock ops with
    | (false, s) => .success new srcEntry s
    | (true, s) => s.verifyCopy ops srcStart srcSize old new

/-- The object is taken from the source. -/
def movesObject (srcEntry tmpEntry : Nat) (s : VmSystem σ) : Bool :=
  let old := s.objectEntry srcEntry tmpEntry
  a.srcDestroy && (old.object = vmObjectNull || ops.temporary old.object s.store)

/-- Copy the object of an entry.  If its reference moves to the copy then the share map stays
locked. -/
def copyEntry (srcEntry tmpEntry srcStart srcSize : Nat) (s : VmSystem σ) : EntryCopied σ :=
  let v := s.map.hdr.entry srcEntry
  let old := s.objectEntry srcEntry tmpEntry
  let new := s.newEntry srcEntry tmpEntry
  if s.movesObject ops a srcEntry tmpEntry then
    .success
      (if v.wiredCount ≠ 0 then { new with wiredCount := if a.keepWired then 1 else 0 } else new)
      srcEntry { s with store := ops.reference old.object s.store }
  else
    match if v.wiredCount ≠ 0 then (none, s.store) else ops.copyTemporary old.object s.store with
    | (some needsCopy, store) =>
      let s := { s with store := store }
      let s :=
        if needsCopy && !old.needsCopy then s.setNeedsCopy srcEntry tmpEntry else s
      .success { new with needsCopy := needsCopy } srcEntry (s.unlockShare v)
    | (none, _) => s.copyUnlocked ops a srcEntry tmpEntry srcStart srcSize

end VmSystem

namespace CopyinLoop

variable {σ : Type u} (ops : ObjectOps σ) (a : CopyinArgs)

/-- Link in the new copy entry, and go to the next entry if there is no gap. -/
def linkEntry (new : VmMapEntry) (srcEntry : Nat) (s : VmSystem σ) (c : CopyinLoop σ) :
    CopyinStep σ :=
  let copy := (c.copy.entryCreate new).entryLink (c.copy.prev vmMapToEntry) c.copy.zone
  let tmpEntry := s.map.hdr.next srcEntry
  let c := ⟨s, copy, new.vmeEnd, tmpEntry⟩
  if a.srcEnd ≤ new.vmeEnd ∧ a.srcEnd ≠ 0 then .finished c
  else if (s.map.hdr.entry tmpEntry).vmeStart ≠ new.vmeEnd then .fail .invalidAddress c
  else .next c

/-- How a round goes on after the copy of an object. -/
def afterCopy (c : CopyinLoop σ) : EntryCopied σ → CopyinStep σ
  | .success new srcEntry s => c.linkEntry a new srcEntry s
  | .again srcEntry s => .next { c with sys := s, tmpEntry := srcEntry }
  | .fail kr s => .fail kr { c with sys := s }

/-- The top-level entry is clipped to the end of the region, and followed to its object. -/
def follow (c : CopyinLoop σ) : Option (Nat × Nat × VmSystem σ) :=
  let s := c.sys.clipEnd ops c.tmpEntry a.srcEnd
  let srcSize := (s.map.hdr.entry c.tmpEntry).vmeEnd - c.srcStart
  s.followShareMap ops c.tmpEntry c.srcStart srcSize

/-- One round of the loop of `vm_map_copyin`. -/
def step (c : CopyinLoop σ) : CopyinStep σ :=
  if (c.sys.map.hdr.entry c.tmpEntry).protection &&& vmProtRead = 0 then
    .fail .protectionFailure c
  else
    match c.follow ops a with
    | none => .panicked
    | some (tmpEntry, srcSize, s) =>
      c.afterCopy a (s.copyEntry ops a c.tmpEntry tmpEntry c.srcStart srcSize)

/-- The loop of `vm_map_copyin`.  `none` if the fuel is used up. -/
def run : Nat → CopyinLoop σ → Option (CopyinStep σ)
  | 0, _ => none
  | fuel + 1, c =>
    match c.step ops a with
    | .next c => run fuel c
    | r => some r

theorem run_succ {c : CopyinLoop σ} {fuel : Nat} {r : CopyinStep σ}
    (hr : c.run ops a (fuel + 1) = some r) :
    (∃ c', c.step ops a = .next c' ∧ c'.run ops a fuel = some r) ∨
      (c.step ops a = r ∧ ∀ c', r ≠ .next c') := by
  rw [run] at hr
  cases hc : c.step ops a with
  | next c' =>
    rw [hc] at hr
    exact .inl ⟨c', rfl, hr⟩
  | _ =>
    rw [hc] at hr
    cases hr
    exact .inr ⟨rfl, nofun⟩

end CopyinLoop

/-- The objects of a copy, from an entry on. -/
def VmMapHeader.objectsFrom (h : VmMapHeader) : Nat → Nat → List Nat
  | 0, _ => []
  | fuel + 1, e =>
    if e = vmMapToEntry then [] else (h.entry e).object :: h.objectsFrom fuel (h.next e)

/-- `vm_map_copy_discard`, for the references to objects. -/
def ObjectOps.copyDiscard {σ : Type u} (ops : ObjectOps σ) (copy : VmMapHeader) (store : σ) : σ :=
  (copy.objectsFrom copy.nentries (copy.next vmMapToEntry)).foldl (fun s o => ops.deallocate o s)
    store

/-- The entries that the loop of `vm_map_delete` disposes of. -/
def VmMap.deletedFrom (stop : Nat) : Nat → Nat → VmMap → List VmMapEntry
  | 0, _, _ => []
  | fuel + 1, entry, m =>
    if entry ≠ vmMapToEntry ∧ (m.hdr.entry entry).vmeStart < stop then
      let m := m.clipEnd entry stop
      m.hdr.entry entry :: deletedFrom stop fuel (m.hdr.next entry) (m.entryDelete entry)
    else []

/-- The entries that `vm_map_delete` disposes of. -/
def VmMap.deletedEntries (start stop : Nat) (m : VmMap) : List VmMapEntry :=
  match m.deleteStart start with
  | (entry, m) => deletedFrom stop (m.hdr.nentries + 1) entry m

namespace VmSystem

variable {σ : Type u} (ops : ObjectOps σ)

/-- The end of `vm_map_deallocate`, for a share map that nobody refers to. -/
def mapDestroy (n : Nat) (s : VmSystem σ) : VmSystem σ :=
  let m := s.shareMaps n
  { s.setShareMap n (m.delete m.minOffset m.maxOffset) with
      store :=
        (m.deletedEntries m.minOffset m.maxOffset).foldl (fun s v => ops.entryDelete v false s)
          s.store }

/-- `vm_map_entry_delete`, with the share map if this was the last entry that refers to it. -/
def entryDelete (entry : Nat) (keepWired : Bool) (s : VmSystem σ) : VmSystem σ :=
  let v := s.map.hdr.entry entry
  let s :=
    { s with map := s.map.entryDelete entry, store := ops.entryDelete v keepWired s.store }
  if v.isAMap && ops.mapGone v.object s.store then s.mapDestroy ops v.object else s

/-- The loop of `vm_map_delete`. -/
def deleteLoop (stop : Nat) (keepWired : Bool) : Nat → Nat → VmSystem σ → VmSystem σ
  | 0, _, s => s
  | fuel + 1, entry, s =>
    if entry ≠ vmMapToEntry ∧ (s.map.hdr.entry entry).vmeStart < stop then
      let s := s.clipEnd ops entry stop
      let next := s.map.hdr.next entry
      deleteLoop stop keepWired fuel next (s.entryDelete ops entry keepWired)
    else s

theorem deleteLoop_keeps (stop : Nat) (keepWired : Bool) (fuel entry : Nat) (s : VmSystem σ) :
    (s.deleteLoop ops stop keepWired fuel entry).map = VmMap.deleteLoop stop fuel entry s.map ∧
      (s.deleteLoop ops stop keepWired fuel entry).locks = s.locks := by
  induction fuel generalizing entry s with
  | zero => exact ⟨rfl, rfl⟩
  | succ fuel ih =>
    have hentry (s : VmSystem σ) : (s.entryDelete ops entry keepWired).map =
        s.map.entryDelete entry ∧
        (s.entryDelete ops entry keepWired).locks = s.locks := by
      simp only [entryDelete]
      split <;> exact ⟨rfl, rfl⟩
    rw [deleteLoop, VmMap.deleteLoop]
    split
    next =>
      rw [(ih ..).1, (ih ..).2, (hentry _).1, (hentry _).2]
      exact ⟨rfl, rfl⟩
    next => exact ⟨rfl, rfl⟩

/-- The start of `vm_map_delete`. -/
def deleteStart (start : Nat) (s : VmSystem σ) : Nat × VmSystem σ :=
  match s.map.deleteStart start with
  | (entry, m) =>
    (entry,
      { s with
          map := m
          store :=
            match s.map.lookupEntry start with
            | (false, _, _) => s.store
            | (true, e, _) =>
              if (s.map.hdr.entry e).vmeStart < start then
                ops.entryReference (s.map.hdr.entry e) s.store
              else s.store })

/-- `vm_map_delete`, with the references that go with the entries. -/
def delete (start stop : Nat) (keepWired : Bool) (s : VmSystem σ) : VmSystem σ :=
  match s.deleteStart ops start with
  | (entry, s) => s.deleteLoop ops stop keepWired (s.map.hdr.nentries + 1) entry

end VmSystem

/-- The result of `vm_map_copyin`. -/
inductive CopyinResult (σ : Type u) where
  /-- It returns, with the copy if there is one. -/
  | returned (kr : VmReturn) (copy : Option VmMapHeader) (s : VmSystem σ)
  | panicked
  /-- The fuel is used up. -/
  | running

namespace VmSystem

variable {σ : Type u} (ops : ObjectOps σ) (a : CopyinArgs)

/-- The end of `vm_map_copyin`. -/
def copyinDone : Option (CopyinStep σ) → CopyinResult σ
  | none => .running
  | some (.next _) => .running
  | some .panicked => .panicked
  | some (.fail kr c) =>
    .returned kr none
      { c.sys.unlock .main with store := ops.copyDiscard c.copy c.sys.store }
  | some (.finished c) =>
    let s := if a.srcDestroy then c.sys.delete ops a.srcStart a.srcEnd a.keepWired else c.sys
    .returned .success (some c.copy) (s.unlock .main)

/-- `vm_map_copyin`. -/
def copyin (fuel : Nat) (s : VmSystem σ) : CopyinResult σ :=
  if a.len = 0 then .returned .success none s
  else if a.srcEnd ≤ a.srcStart ∧ (a.srcEnd < a.srcStart ∨ a.srcStart ≠ 0) then
    .returned .invalidAddress none s
  else
    let s := s.lock .main
    match s.map.lookupEntry a.srcStart with
    | (false, tmpEntry, m) =>
      copyinDone ops a
        (some (.fail .invalidAddress ⟨{ s with map := m }, a.copy, a.srcStart, tmpEntry⟩))
    | (true, tmpEntry, m) =>
      let s := { s with map := m }.clipStart ops tmpEntry a.srcStart
      copyinDone ops a (CopyinLoop.run ops a fuel ⟨s, a.copy, a.srcStart, tmpEntry⟩)

end VmSystem

/-! ## Copying out -/

/-- `vm_map_copy_t`: no copy, an object from `vm_map_copyin_object`, or a list of entries. -/
inductive VmMapCopy where
  | null
  | object (object offset size : Nat)
  | entryList (hdr : VmMapHeader)

/-- An entry of a copy at its place in a map, with the region attributes reset. -/
def VmMapEntry.adjust (adjustment : Nat) (v : VmMapEntry) : VmMapEntry :=
  { v with
      vmeStart := (v.vmeStart + adjustment) % 2 ^ 32
      vmeEnd := (v.vmeEnd + adjustment) % 2 ^ 32
      inheritance := vmInheritDefault
      protection := vmProtDefault
      maxProtection := vmProtAll }

namespace VmMapHeader

/-- Adjust the addresses in a copy, from an entry on. -/
def adjustFrom (adjustment : Nat) : Nat → Nat → VmMapHeader → VmMapHeader
  | 0, _, h => h
  | fuel + 1, e, h =>
    if e = vmMapToEntry then h
    else adjustFrom adjustment fuel (h.next e) (h.setEntry e ((h.entry e).adjust adjustment))

/-- The entries of a copy get numbers of the zone of a map. -/
def absorb (h copy : VmMapHeader) : VmMapHeader where
  next x := if x < h.zone then h.next x else h.zone + copy.next (x - h.zone)
  prev x := if x < h.zone then h.prev x else h.zone + copy.prev (x - h.zone)
  entry x := if x < h.zone then h.entry x else copy.entry (x - h.zone)
  nentries := h.nentries
  zone := h.zone + copy.zone

/-- `vm_map_copy_insert`. -/
def copyInsert (afterWhere : Nat) (h copy : VmMapHeader) : VmMapHeader :=
  let first := h.zone + copy.next vmMapToEntry
  let last := h.zone + copy.prev vmMapToEntry
  let h' := h.absorb copy
  { h' with
      next := spliceNext h'.next afterWhere first last
      prev := splicePrev h'.next h'.prev afterWhere first last
      nentries := h.nentries + copy.nentries }

end VmMapHeader

namespace VmMap

/-- The loop of `vm_map_copyout`: the entry before the place, and its start. -/
def copyoutLoop (h : VmMapHeader) (size : Nat) : Nat → Nat → Nat → Option (Nat × Nat)
  | 0, _, _ => none
  | fuel + 1, last, start =>
    let next := h.next last
    let stop := (start + size) % 2 ^ 32
    if h.maxOffset < stop ∨ stop < start then none
    else if next = vmMapToEntry ∨ stop < (h.entry next).vmeStart then some (last, start)
    else copyoutLoop h size fuel next (h.entry next).vmeEnd

/-- The entries of a copy are linked into a map, after `last`. -/
def insertCopy (last size start minOffset : Nat) (copy : VmMapHeader) (m : VmMap) : VmMap :=
  let copy := copy.adjustFrom (sub32 start minOffset) copy.nentries (copy.next vmMapToEntry)
  let lastEntry := m.hdr.zone + copy.prev vmMapToEntry
  { m with
      hdr := m.hdr.copyInsert last copy
      size := (m.size + size) % 2 ^ 32
      firstFree := if m.firstFree = last then lastEntry else m.firstFree
      hint := lastEntry }

/-- `vm_map_copyout`: the result, the address and the map.  Entries are not taken from another zone
when they are linked into the map. -/
def copyout (pageMask : Nat) (coalesce : Bool) (copy : VmMapCopy) (m : VmMap) :
    VmReturn × Nat × VmMap :=
  match copy with
  | .null => (.success, 0, m)
  | .object object offset size =>
    m.enter coalesce 0 size 0 true
      ⟨object, offset, false, vmProtDefault, vmProtAll, vmInheritDefault⟩
  | .entryList hdr =>
    let minOffset := truncPage pageMask hdr.minOffset
    let size := sub32 (roundPage pageMask hdr.maxOffset) minOffset
    let last := m.firstFree
    let start := if last = vmMapToEntry then m.minOffset else (m.hdr.entry last).vmeEnd
    match copyoutLoop m.hdr size (m.hdr.nentries + 1) last start with
    | none =>
      if m.waitForSpace ∧ size ≤ m.maxOffset - m.minOffset then (.wait, 0, m)
      else (.noSpace, 0, m)
    | some (last, start) =>
      (.success, (start + (hdr.minOffset - minOffset)) % 2 ^ 32,
        m.insertCopy last size start minOffset hdr)

end VmMap

end Mach
