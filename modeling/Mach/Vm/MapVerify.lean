import Mach.Lib.Versioned
import Mach.Vm.MapCopyInvariant

/-!
# Lookups and versions of maps

`vm_map_lookup` finds the object that is at an address, through a share map if the entry has one,
and returns the timestamps of both maps with it.  On the way it may have to change an entry, under
the lock of the map of that entry: an object that needs a copy gets a shadow before it is written,
and memory that nobody touched gets an object.  `vm_map_verify` compares the timestamps, and holds
the locks if they are the same.

Threads take turns at the points where locks are taken and released.  A thread that is not in one of
the two routines locks maps to write, and changes what it has locked in any way (`Act.write`).  The
one change of a share map that is made without its lock is in `vm_map_fork`, which has the map
locked that alone refers to it (`Act.link`).

A map has a timestamp of 32 bits, so that what the timestamps say depends on how often they were
incremented in between.  A write lock is not always one increment: the upgrade for a shadow is two.
The maps have no submaps.
-/

universe u

namespace Mach

open Function Versioned Option Resource List

/-- `VM_PROT_WRITE`. -/
def vmProtWrite : Nat := 2

/-- The part of the object layer that lookups use.  Neither routine returns without an object. -/
structure ObjectMaker (σ : Type u) where
  /-- `vm_object_allocate`, with a size. -/
  allocate : Nat → σ → Nat × σ
  /-- `vm_object_shadow`, with the object, the offset and a size.  The offset becomes zero. -/
  shadow : Nat → Nat → Nat → σ → Nat × σ
  allocate_ne (size : Nat) (store : σ) : (allocate size store).1 ≠ vmObjectNull
  shadow_ne (object offset size : Nat) (store : σ) :
    (shadow object offset size store).1 ≠ vmObjectNull

/-- `struct vm_map_version`.  The timestamp of the share map is unused if that is the map itself. -/
structure VmMapVersion where
  mainTimestamp : Nat
  shareMap : MapId
  shareTimestamp : Nat
deriving DecidableEq

/-- What a lookup would find, without a change of the maps. -/
structure Seen where
  object : Nat
  offset : Nat
  prot : Nat
  shareMap : MapId
deriving DecidableEq

/-- What a lookup returned. -/
structure Found where
  vaddr : Nat
  object : Nat
  offset : Nat
  prot : Nat
  wired : Bool
  version : VmMapVersion
  /-- How often the timestamps were incremented before. -/
  mainIncrements : Nat
  shareIncrements : Nat
  /-- How often the maps were locked to write before. -/
  mainWriteLocks : Nat
  shareWriteLocks : Nat
deriving DecidableEq

/-- The variables of a lookup that has an entry of the map. -/
structure Looking where
  vaddr : Nat
  faultType : Nat
  prot : Nat
  wired : Bool
  shareMap : MapId
  shareOffset : Nat

/-- Where a thread is. -/
inductive Phase where
  /-- In another routine, or in none. -/
  | idle
  /-- At `RetryLookup`. -/
  | retry (vaddr faultType : Nat)
  /-- Before a share map is locked. -/
  | shared (c : Looking)
  /-- With the entry that has the object, and with the maps locked to read. -/
  | found (c : Looking) (entry : Nat)
  /-- At the end of a call that failed, with the maps locked to read. -/
  | leaving (shareMap : MapId)
  /-- In `vm_map_verify`, before the share map is locked. -/
  | verifying (r : Found)
  /-- Between `vm_map_verify` and `vm_map_verify_done`. -/
  | verified (r : Found)

/-! ## Looking up an address -/

/-- The entry at an address, at first the hint. -/
def VmMap.lookupHint (vaddr : Nat) (m : VmMap) : Bool × Nat × VmMap :=
  let entry := m.hint
  if entry = vmMapToEntry ∨ vaddr < (m.hdr.entry entry).vmeStart ∨
      (m.hdr.entry entry).vmeEnd ≤ vaddr then
    m.lookupEntry vaddr
  else (true, entry, m)

/-- The variables of a lookup after it has found an entry. -/
def VmMapEntry.looking (vaddr faultType : Nat) (v : VmMapEntry) : Looking where
  vaddr := vaddr
  faultType := if v.wiredCount ≠ 0 then v.protection else faultType
  prot := v.protection
  wired := v.wiredCount ≠ 0
  shareMap := if v.isAMap then .share v.object else .main
  shareOffset := if v.isAMap then (sub32 vaddr v.vmeStart + v.offset) % 2 ^ 32 else vaddr

/-- The first part of `vm_map_lookup`, in the map itself. -/
def VmMap.lookupTop (vaddr faultType : Nat) (m : VmMap) : Option (Looking × Nat) × VmMap :=
  match m.lookupHint vaddr with
  | (false, _, m) => (none, m)
  | (true, entry, m) =>
    let v := m.hdr.entry entry
    if v.isSubMap then (none, m)
    else if faultType &&& v.protection ≠ faultType then (none, m)
    else (some (v.looking vaddr faultType, entry), m)

namespace Looking

/-- A copy has to be made before the access. -/
def needsShadow (c : Looking) (v : VmMapEntry) : Bool :=
  v.needsCopy && (c.faultType &&& vmProtWrite) ≠ 0

/-- `*offset`. -/
def outOffset (c : Looking) (v : VmMapEntry) : Nat :=
  (sub32 c.shareOffset v.vmeStart + v.offset) % 2 ^ 32

/-- `*out_prot`. -/
def outProt (c : Looking) (v : VmMapEntry) : Nat :=
  if v.needsCopy then c.prot &&& not32 vmProtWrite else c.prot

/-- The result for an entry that needs no change. -/
def seen (c : Looking) (v : VmMapEntry) : Option Seen :=
  if c.needsShadow v || v.object = vmObjectNull then none
  else some ⟨v.object, c.outOffset v, c.outProt v, c.shareMap⟩

end Looking

/-- What a lookup would return.  It is nothing if the lookup fails or has to change an entry. -/
def freshLookup (vaddr faultType : Nat) (maps : MapId → VmMap) : Option Seen :=
  match ((maps .main).lookupTop vaddr faultType).1 with
  | none => none
  | some (c, entry) =>
    if c.shareMap = .main then c.seen ((maps .main).hdr.entry entry)
    else
      match (maps c.shareMap).lookupEntry c.shareOffset with
      | (false, _, _) => none
      | (true, entry, m) => c.seen (m.hdr.entry entry)

/-- An entry gets another object, from its start on. -/
def VmMapEntry.setObject (object : Nat) (needsCopy : Bool) (v : VmMapEntry) : VmMapEntry :=
  { v with object := object, offset := 0, needsCopy := needsCopy }

/-- Change an entry. -/
def VmMap.setEntry (e : Nat) (v : VmMapEntry) (m : VmMap) : VmMap :=
  { m with hdr := m.hdr.setEntry e v }

/-! ## Threads -/

/-- The maps and the threads. -/
structure MapThreads (σ : Type u) where
  maps : MapId → Resource Nat VmMap
  store : σ
  phase : Nat → Phase
  /-- What the lookups returned so far. -/
  results : List Found

/-- What a thread does next. -/
inductive Act where
  /-- `vm_map_lock`. -/
  | lockWrite (m : MapId)
  /-- `vm_map_unlock`. -/
  | unlockWrite (m : MapId)
  /-- A change of a map that is locked. -/
  | write (m : MapId) (f : VmMap → VmMap)
  /-- `vm_map_fork` adds an entry to a share map, with the map locked. -/
  | link (n : Nat) (f : VmMap → VmMap)
  /-- `vm_map_lookup`, up to the share map. -/
  | lookup (vaddr faultType : Nat)
  /-- `vm_map_lookup` again. -/
  | retry
  /-- Follow a share map. -/
  | follow
  /-- Make a shadow, if `vm_map_lock_read_to_write` grants it. -/
  | shadow (granted : Bool)
  /-- Make an object, if `vm_map_lock_read_to_write` grants it. -/
  | allocate (granted : Bool)
  /-- The end of `vm_map_lookup`. -/
  | lookupDone
  /-- The end of a `vm_map_lookup` or `vm_map_verify` that failed. -/
  | leave
  /-- `vm_map_verify` for the version of a lookup, up to the share map. -/
  | verify (k : Nat)
  /-- The part of `vm_map_verify` for the share map. -/
  | verifyShare
  /-- `vm_map_verify_done`. -/
  | verifyDone

namespace MapThreads

variable {σ : Type u} (objects : ObjectMaker σ)

/-- Store a map, with its lock. -/
def setMap (m : MapId) (r : Resource Nat VmMap) (s : MapThreads σ) : MapThreads σ :=
  { s with maps := update s.maps m r }

/-- A thread goes on to a phase. -/
def setPhase (t : Nat) (p : Phase) (s : MapThreads σ) : MapThreads σ :=
  { s with phase := update s.phase t p }

/-- Release the read locks of a map and of a share map, which may be the map itself. -/
def unlockBoth (t : Nat) (shareMap : MapId) (s : MapThreads σ) : MapThreads σ :=
  let maps :=
    if shareMap ≠ .main then update s.maps shareMap ((s.maps shareMap).unlockRead t)
    else s.maps
  { s with maps := update maps .main ((maps .main).unlockRead t) }

/-- `vm_map_lookup`, up to the share map. -/
def lookup (t vaddr faultType : Nat) (s : MapThreads σ) : Option (MapThreads σ) :=
  (s.maps .main).lockRead t |>.map fun r =>
    match r.value.lookupTop vaddr faultType with
    | (none, m) => (s.setMap .main { r with value := m }).setPhase t (.leaving .main)
    | (some (c, entry), m) =>
      (s.setMap .main { r with value := m }).setPhase t
        (if c.shareMap = .main then .found c entry else .shared c)

/-- Lock the share map, and look up the entry in it. -/
def follow (t : Nat) (c : Looking) (s : MapThreads σ) : Option (MapThreads σ) :=
  ((s.maps c.shareMap).lockRead t).map fun r =>
    match r.value.lookupEntry c.shareOffset with
    | (false, _, m) =>
      (s.setMap c.shareMap { r with value := m }).setPhase t (.leaving c.shareMap)
    | (true, entry, m) => (s.setMap c.shareMap { r with value := m }).setPhase t (.found c entry)

/-- The entry that was found gets an object, with the read lock upgraded for it.  If the upgrade is
refused then the lookup starts again. -/
def upgrade (t : Nat) (c : Looking) (entry : Nat) (granted again : Bool) (object : Nat)
    (needsCopy : Bool) (store : σ) (s : MapThreads σ) : Option (MapThreads σ) :=
  if granted then
    ((s.maps c.shareMap).readToWrite (2 ^ 32) t).map fun r =>
      let r := if again then r.increment (2 ^ 32) else r
      let v := (r.value.hdr.entry entry).setObject object needsCopy
      { s.setMap c.shareMap ({ r with value := r.value.setEntry entry v }.writeToRead t) with
          store := store }
  else some ((s.unlockBoth t c.shareMap).setPhase t (.retry c.vaddr c.faultType))

/-- An entry that needs a copy gets a shadow of its object.  The timestamp is incremented once
more. -/
def shadow (t : Nat) (c : Looking) (entry : Nat) (granted : Bool) (s : MapThreads σ) :
    Option (MapThreads σ) :=
  let v := (s.maps c.shareMap).value.hdr.entry entry
  if c.needsShadow v then
    let made := objects.shadow v.object v.offset (v.vmeEnd - v.vmeStart) s.store
    s.upgrade t c entry granted true made.1 false made.2
  else none

/-- An entry without an object gets one. -/
def allocate (t : Nat) (c : Looking) (entry : Nat) (granted : Bool) (s : MapThreads σ) :
    Option (MapThreads σ) :=
  let v := (s.maps c.shareMap).value.hdr.entry entry
  if ¬ c.needsShadow v ∧ v.object = vmObjectNull then
    let made := objects.allocate (v.vmeEnd - v.vmeStart) s.store
    s.upgrade t c entry granted false made.1 v.needsCopy made.2
  else none

/-- What a lookup returns for an entry. -/
def result (c : Looking) (r : Seen) (s : MapThreads σ) : Found where
  vaddr := c.vaddr
  object := r.object
  offset := r.offset
  prot := r.prot
  wired := c.wired
  version :=
    ⟨(s.maps .main).timestamp, c.shareMap,
      if c.shareMap ≠ .main then (s.maps c.shareMap).timestamp else 0⟩
  mainIncrements := (s.maps .main).increments
  shareIncrements := (s.maps c.shareMap).increments
  mainWriteLocks := (s.maps .main).writeLocks
  shareWriteLocks := (s.maps c.shareMap).writeLocks

/-- The end of `vm_map_lookup`. -/
def lookupDone (t : Nat) (c : Looking) (entry : Nat) (s : MapThreads σ) : Option (MapThreads σ) :=
  (c.seen ((s.maps c.shareMap).value.hdr.entry entry)).map fun r =>
    { (s.unlockBoth t c.shareMap).setPhase t .idle with
        results := s.results ++ [s.result c r] }

/-- `vm_map_verify`, up to the share map. -/
def verify (t : Nat) (r : Found) (s : MapThreads σ) : Option (MapThreads σ) :=
  ((s.maps .main).lockRead t).map fun m =>
    (s.setMap .main m).setPhase t
      (if m.timestamp = r.version.mainTimestamp then
        if r.version.shareMap ≠ .main then .verifying r else .verified r
      else .leaving .main)

/-- The part of `vm_map_verify` for the share map. -/
def verifyShare (t : Nat) (r : Found) (s : MapThreads σ) : Option (MapThreads σ) :=
  ((s.maps r.version.shareMap).lockRead t).map fun m =>
    (s.setMap r.version.shareMap m).setPhase t
      (if m.timestamp = r.version.shareTimestamp then .verified r
      else .leaving r.version.shareMap)

/-- A thread acts.  There is no result if it cannot do so now. -/
def step (t : Nat) (a : Act) (s : MapThreads σ) : Option (MapThreads σ) :=
  match a, s.phase t with
  | .lockWrite m, .idle => ((s.maps m).lockWrite (2 ^ 32) t).map fun r => s.setMap m r
  | .unlockWrite m, .idle => ((s.maps m).unlockWrite t).map fun r => s.setMap m r
  | .write m f, .idle => ((s.maps m).write t f).map fun r => s.setMap m r
  | .link n f, .idle =>
    if (s.maps .main).writer = some t then
      some (s.setMap (.share n) { s.maps (.share n) with value := f (s.maps (.share n)).value })
    else none
  | .lookup vaddr faultType, .idle => s.lookup t vaddr faultType
  | .retry, .retry vaddr faultType => s.lookup t vaddr faultType
  | .follow, .shared c => s.follow t c
  | .shadow granted, .found c entry => s.shadow objects t c entry granted
  | .allocate granted, .found c entry => s.allocate objects t c entry granted
  | .lookupDone, .found c entry => s.lookupDone t c entry
  | .leave, .leaving shareMap => some ((s.unlockBoth t shareMap).setPhase t .idle)
  | .verify k, .idle => s.results[k]?.bind fun r => s.verify t r
  | .verifyShare, .verifying r => s.verifyShare t r
  | .verifyDone, .verified r => some ((s.unlockBoth t r.version.shareMap).setPhase t .idle)
  | _, _ => none

end MapThreads

/-! ## What lookups find -/

/-- The entry of a list at an address. -/
def VmMapHeader.At (h : VmMapHeader) (a e : Nat) : Prop :=
  ∃ l, h.Wf l ∧ e ∈ l ∧ (h.entry e).vmeStart ≤ a ∧ a < (h.entry e).vmeEnd

namespace VmMap

variable {m : VmMap} {l : List Nat}

/-- A lookup in a map: the map is the same but for the hint, and the entry is the one at the
address. -/
structure LookedUp (m : VmMap) (a : Nat) (r : Bool × Nat × VmMap) : Prop where
  hdr : r.2.2.hdr = m.hdr
  wf : ∃ l, r.2.2.Wf l
  at_iff (e : Nat) : m.hdr.At a e ↔ r.1 = true ∧ r.2.1 = e

theorem lookupEntry_lookedUp (hw : m.Wf l) (a : Nat) : LookedUp m a (m.lookupEntry a) := by
  have hdone := lookupEntry_spec hw a
  generalize m.lookupEntry a = r at hdone ⊢
  obtain ⟨found, x, m'⟩ := r
  obtain ⟨y, hy, hm'⟩ := hdone.hint
  change m' = m.saveHint y at hm'
  subst hm'
  refine ⟨rfl, ⟨l, hw.saveHint hy⟩, fun e => ⟨fun hat => ?_, fun hr => ?_⟩⟩
  · obtain ⟨l', hw', he, hstart, hend⟩ := hat
    obtain rfl := hw.hdr.ring.unique hw'.ring
    have hr := hdone.lookup.eq_of_mem hw'.sorted he hstart hend
    exact ⟨congrArg Prod.fst hr, congrArg Prod.snd hr⟩
  · obtain ⟨hfound, hx⟩ := hr
    change found = true at hfound
    change x = e at hx
    subst hfound hx
    cases hdone.lookup with
    | found hl hstart hend =>
      exact ⟨l, hw.hdr, hl ▸ mem_append_right _ mem_cons_self, hstart, hend⟩

theorem lookupHint_lookedUp (hw : m.Wf l) (a : Nat) : LookedUp m a (m.lookupHint a) := by
  simp only [lookupHint]
  split
  next => exact lookupEntry_lookedUp hw a
  rename_i hhint
  obtain ⟨hne, hrange⟩ := not_or.mp hhint
  obtain ⟨hstart, hend⟩ := not_or.mp hrange
  have hmem : m.hint ∈ l := (mem_cons.mp hw.hint).resolve_left hne
  have hat : m.hdr.At a m.hint :=
    ⟨l, hw.hdr, hmem, not_lt.mp hstart, Nat.lt_of_not_le hend⟩
  have hentry := ((lookupEntry_lookedUp hw a).at_iff _).mp hat
  refine ⟨rfl, ⟨l, hw⟩, fun e => ?_⟩
  rw [(lookupEntry_lookedUp hw a).at_iff e, hentry.2]
  exact ⟨fun hr => ⟨rfl, hr.2⟩, fun hr => ⟨hentry.1, hr.2⟩⟩

/-- What the first part of a lookup finds. -/
structure TopFound (h : VmMapHeader) (vaddr faultType : Nat) (c : Looking) (e : Nat) : Prop where
  at_ : h.At vaddr e
  notSubMap : (h.entry e).isSubMap = false
  allowed : faultType &&& (h.entry e).protection = faultType
  looking : c = (h.entry e).looking vaddr faultType

theorem lookupTop_spec (hw : m.Wf l) (vaddr faultType : Nat) :
    (m.lookupTop vaddr faultType).2.hdr = m.hdr ∧ (∃ l, (m.lookupTop vaddr faultType).2.Wf l) ∧
      ∀ c e, (m.lookupTop vaddr faultType).1 = some (c, e) ↔
        TopFound m.hdr vaddr faultType c e := by
  have hlooked := lookupHint_lookedUp hw vaddr
  unfold lookupTop
  generalize m.lookupHint vaddr = r at hlooked ⊢
  obtain ⟨found, x, m'⟩ := r
  have hhdr : m'.hdr = m.hdr := hlooked.hdr
  cases found with
  | false =>
    refine ⟨hhdr, hlooked.wf, fun c e => ⟨(nomatch ·), fun h => ?_⟩⟩
    cases ((hlooked.at_iff e).mp h.at_).1
  | true =>
    have hat : m.hdr.At vaddr x := (hlooked.at_iff x).mpr ⟨rfl, rfl⟩
    have hx {e : Nat} (he : m.hdr.At vaddr e) : x = e := ((hlooked.at_iff e).mp he).2
    simp only [hhdr]
    split
    next hsub =>
      refine ⟨hhdr, hlooked.wf, fun c e => ⟨(nomatch ·), fun h => ?_⟩⟩
      obtain rfl := hx h.at_
      cases hsub.symm.trans h.notSubMap
    rename_i hsub
    split
    next hprot =>
      refine ⟨hhdr, hlooked.wf, fun c e => ⟨(nomatch ·), fun h => ?_⟩⟩
      obtain rfl := hx h.at_
      exact absurd h.allowed hprot
    next hprot =>
      refine ⟨hhdr, hlooked.wf, fun c e => ⟨fun h => ?_, fun h => ?_⟩⟩
      · cases h
        exact ⟨hat, Bool.eq_false_iff.mpr hsub, not_not.mp hprot, rfl⟩
      · obtain rfl := hx h.at_
        rw [h.looking]

end VmMap

namespace Looking

theorem seen_eq_some {c : Looking} {v : VmMapEntry} {r : Seen} (h : c.seen v = some r) :
    c.needsShadow v = false ∧ v.object ≠ vmObjectNull ∧
      r = ⟨v.object, c.outOffset v, c.outProt v, c.shareMap⟩ := by
  unfold seen at h
  split at h
  next => cases h
  next hno =>
    cases h
    obtain ⟨hshadow, hobject⟩ := not_or.mp (fun h => hno (Bool.or_eq_true_iff.mpr h))
    exact ⟨Bool.eq_false_iff.mpr hshadow, fun h => hobject (decide_eq_true h), rfl⟩

end Looking

variable {c : Looking} {a vaddr faultType e : Nat} {r : Seen} {h : VmMapHeader}
  {u : VmMapEntry} {v : VmMapEntry}

/-- The accesses that a lookup permits are permitted by the entry. -/
theorem and_protection_of_outProt (ha : a &&& c.outProt u = a) : a &&& c.prot = a := by
  unfold Looking.outProt at ha
  split at ha
  next =>
    calc a &&& c.prot = a &&& (c.prot &&& not32 vmProtWrite) &&& c.prot := by rw [ha]
      _ = a &&& (c.prot &&& not32 vmProtWrite) := by
        rw [Nat.and_assoc, Nat.and_comm _ c.prot, ← Nat.and_assoc c.prot, Nat.and_self]
      _ = a := ha
  next => exact ha

theorem and_write_of_not_write {p : Nat} (ha : a &&& (p &&& not32 vmProtWrite) = a) :
    a &&& vmProtWrite = 0 := by
  have hbit : not32 vmProtWrite &&& vmProtWrite = 0 := by decide
  rw [← ha, Nat.and_assoc, Nat.and_assoc, hbit, Nat.and_zero, Nat.and_zero]

/-- An access that a lookup permits finds the same without a change. -/
theorem seen_of_permitted
    (hseen : (v.looking vaddr faultType).seen u = some r) (ha : a &&& r.prot = a) :
    a &&& v.protection = a ∧ (v.looking vaddr a).seen u = some r := by
  obtain ⟨hshadow, hobject, rfl⟩ := Looking.seen_eq_some hseen
  have hnot : (v.looking vaddr a).needsShadow u = false := by
    unfold Looking.needsShadow at hshadow ⊢
    cases hcopy : u.needsCopy with
    | false => rfl
    | true =>
      rw [hcopy, Bool.true_and] at hshadow
      -- A wired entry is looked up for all accesses, whatever the access is.
      by_cases hwired : v.wiredCount ≠ 0
      · have hsame : (v.looking vaddr a).faultType = (v.looking vaddr faultType).faultType := by
          change (if _ then _ else _) = (if _ then _ else _)
          rw [if_pos hwired, if_pos hwired]
        rw [hsame]
        exact hshadow
      · have hfault : (v.looking vaddr a).faultType = a := if_neg hwired
        have hprot : (v.looking vaddr faultType).outProt u = v.protection &&& not32 vmProtWrite :=
          if_pos hcopy
        rw [hprot] at ha
        rw [hfault, and_write_of_not_write ha]
        rfl
  refine ⟨and_protection_of_outProt ha, ?_⟩
  unfold Looking.seen
  rw [hnot, decide_eq_false hobject]
  rfl

/-- What a lookup finds, by the entries of the maps. -/
def Sees (h : MapId → VmMapHeader) (vaddr faultType : Nat) (r : Seen) : Prop :=
  ∃ c e u, VmMap.TopFound (h .main) vaddr faultType c e ∧ (h c.shareMap).At c.shareOffset u ∧
    c.seen ((h c.shareMap).entry u) = some r

theorem Sees.congr {h h' : MapId → VmMapHeader}
    (hs : Sees h vaddr faultType r) (hmain : h' .main = h .main)
    (hshare : h' r.shareMap = h r.shareMap) : Sees h' vaddr faultType r := by
  obtain ⟨c, e, u, htop, hat, hseen⟩ := hs
  have hmap : r.shareMap = c.shareMap := by
    obtain ⟨-, -, rfl⟩ := Looking.seen_eq_some hseen
    rfl
  rw [hmap] at hshare
  exact ⟨c, e, u, hmain ▸ htop, hshare ▸ hat, hshare ▸ hseen⟩

theorem VmMap.TopFound.main
    (ht : TopFound h vaddr faultType c e) (hmain : c.shareMap = .main) : c.shareOffset = vaddr := by
  rw [ht.looking] at hmain ⊢
  unfold VmMapEntry.looking at hmain ⊢
  cases ha : (h.entry e).isAMap with
  | false => rfl
  | true =>
    rw [ha] at hmain
    cases hmain

/-- A lookup that changes nothing returns what there is. -/
theorem freshLookup_of_sees {maps : MapId → VmMap} (hwf : ∀ m, ∃ l, (maps m).Wf l)
    (hs : Sees (fun m => (maps m).hdr) vaddr faultType r) :
    freshLookup vaddr faultType maps = some r := by
  obtain ⟨c, e, u, htop, hat, hseen⟩ := hs
  obtain ⟨l, hw⟩ := hwf .main
  have hfound := ((VmMap.lookupTop_spec hw vaddr faultType).2.2 c e).mpr htop
  simp only [freshLookup, hfound]
  split
  next hmain =>
    rw [hmain] at hat hseen
    have hu := ((VmMap.lookupEntry_lookedUp hw vaddr).at_iff u).mp (htop.main hmain ▸ hat)
    have he := ((VmMap.lookupEntry_lookedUp hw vaddr).at_iff e).mp htop.at_
    rw [← hu.2, he.2] at hseen
    exact hseen
  obtain ⟨l', hw'⟩ := hwf c.shareMap
  have hlooked := VmMap.lookupEntry_lookedUp hw' c.shareOffset
  have hu := (hlooked.at_iff u).mp hat
  have hhdr := hlooked.hdr
  generalize (maps c.shareMap).lookupEntry c.shareOffset = x at hu hhdr ⊢
  obtain ⟨found, entry, m⟩ := x
  obtain ⟨rfl, rfl⟩ := hu
  change c.seen (m.hdr.entry entry) = some r
  rw [hhdr]
  exact hseen

theorem VmMapHeader.At.setEntry {b u : Nat} (hat : h.At a e) (hu : h.At b u)
    (hstart : v.vmeStart = (h.entry u).vmeStart)
    (hend : v.vmeEnd = (h.entry u).vmeEnd) : (h.setEntry u v).At a e := by
  obtain ⟨l, hw, he, hle, hlt⟩ := hat
  obtain ⟨l', hw', hmem, -⟩ := hu
  obtain rfl := hw.ring.unique hw'.ring
  refine ⟨l, hw.setEntry_of_span hmem hstart hend, he, ?_⟩
  rcases eq_or_ne e u with rfl | hne
  · rw [setEntry_self, hstart, hend]
    exact ⟨hle, hlt⟩
  · rw [setEntry_of_ne h v hne]
    exact ⟨hle, hlt⟩

theorem VmMap.TopFound.setEntry {b u : Nat}
    (ht : TopFound h vaddr faultType c e) (hmain : c.shareMap = .main) (hu : h.At b u)
    (object : Nat) (needsCopy : Bool) :
    TopFound (h.setEntry u ((h.entry u).setObject object needsCopy)) vaddr faultType c e := by
  have hat := ht.at_.setEntry hu (v := (h.entry u).setObject object needsCopy) rfl rfl
  rcases eq_or_ne e u with rfl | hne
  · have hmap : (h.entry e).isAMap = false := by
      have hshare := hmain
      rw [ht.looking] at hshare
      unfold VmMapEntry.looking at hshare
      cases hmap : (h.entry e).isAMap with
      | false => rfl
      | true =>
        rw [hmap] at hshare
        cases hshare
    refine ⟨hat, ?_, ?_, ?_⟩
    · rw [VmMapHeader.setEntry_self]
      exact ht.notSubMap
    · rw [VmMapHeader.setEntry_self]
      exact ht.allowed
    · rw [VmMapHeader.setEntry_self, ht.looking]
      unfold VmMapEntry.looking VmMapEntry.setObject
      simp [hmap]
  · refine ⟨hat, ?_, ?_, ?_⟩
    · rw [VmMapHeader.setEntry_of_ne h _ hne]
      exact ht.notSubMap
    · rw [VmMapHeader.setEntry_of_ne h _ hne]
      exact ht.allowed
    · rw [VmMapHeader.setEntry_of_ne h _ hne]
      exact ht.looking

/-! ## The invariant of the threads -/

/-- The maps that a thread has locked to read. -/
def Phase.Reads : Phase → MapId → Prop
  | .idle, _ => False
  | .retry _ _, _ => False
  | .shared _, m => m = .main
  | .leaving shareMap, m => m = .main ∨ m = shareMap
  | .found c _, m => m = .main ∨ m = c.shareMap
  | .verifying _, m => m = .main
  | .verified r, m => m = .main ∨ m = r.version.shareMap

namespace MapThreads

variable {σ : Type u} {objects : ObjectMaker σ} {s s' : MapThreads σ} {t t' : Nat}

/-- The entries of the maps. -/
def hdrs (s : MapThreads σ) (m : MapId) : VmMapHeader := (s.maps m).value.hdr

/-- What a thread knows where it is. -/
def Knows (s : MapThreads σ) : Phase → Prop
  | .idle => True
  | .retry _ _ => True
  | .leaving _ => True
  | .shared c =>
    c.shareMap ≠ .main ∧ ∃ faultType e, VmMap.TopFound (s.hdrs .main) c.vaddr faultType c e
  | .found c u =>
    (∃ faultType e, VmMap.TopFound (s.hdrs .main) c.vaddr faultType c e) ∧
      (s.hdrs c.shareMap).At c.shareOffset u
  | .verifying r =>
    r ∈ s.results ∧ r.version.shareMap ≠ .main ∧
      (s.maps .main).timestamp = r.version.mainTimestamp
  | .verified r =>
    r ∈ s.results ∧ (s.maps .main).timestamp = r.version.mainTimestamp ∧
      (r.version.shareMap ≠ .main →
        (s.maps r.version.shareMap).timestamp = r.version.shareTimestamp)

/-- The maps are as a lookup saw them, or their timestamps were incremented.  The share map is under
the lock of the map, too. -/
structure Later (s : MapThreads σ) (r : Found) (h : MapId → VmMapHeader) : Prop where
  main : Since VmMap.hdr (h .main) r.mainIncrements (s.maps .main)
  share : r.mainIncrements < (s.maps .main).increments ∨
    Since VmMap.hdr (h r.version.shareMap) r.shareIncrements
      (s.maps r.version.shareMap)
  mainLocks : (s.maps .main).Counted r.mainIncrements r.mainWriteLocks
  shareLocks : (s.maps r.version.shareMap).Counted r.shareIncrements r.shareWriteLocks

/-- What a lookup saw when it returned. -/
structure Saw (r : Found) (h : MapId → VmMapHeader) : Prop where
  mainTimestamp : r.version.mainTimestamp = r.mainIncrements % 2 ^ 32
  shareTimestamp : r.version.shareMap ≠ .main →
    r.version.shareTimestamp = r.shareIncrements % 2 ^ 32
  sees (a : Nat) : a &&& r.prot = a →
    Sees h r.vaddr a ⟨r.object, r.offset, r.prot, r.version.shareMap⟩

/-- The invariant of the threads. -/
structure Inv (s : MapThreads σ) : Prop where
  ok (m : MapId) : (s.maps m).Ok (2 ^ 32)
  wf (m : MapId) : ∃ l, (s.maps m).value.Wf l
  reads (t : Nat) (m : MapId) : t ∈ (s.maps m).readers ↔ (s.phase t).Reads m
  knows (t : Nat) : s.Knows (s.phase t)
  later (r : Found) : r ∈ s.results → ∃ h, Saw r h ∧ s.Later r h

variable {p : Phase} {m : MapId} {u : Nat} {granted : Bool}

/-- What a thread knows stays true as long as the maps that it reads stay the same. -/
theorem Knows.of_same (hk : s.Knows p)
    (hsame : ∀ m, p.Reads m → s'.hdrs m = s.hdrs m ∧ (s'.maps m).timestamp = (s.maps m).timestamp)
    (hresults : s.results ⊆ s'.results) : s'.Knows p := by
  cases p with
  | shared c =>
    obtain ⟨hne, faultType, e, htop⟩ := hk
    exact ⟨hne, faultType, e, (hsame .main rfl).1 ▸ htop⟩
  | found =>
    obtain ⟨⟨faultType, e, htop⟩, hat⟩ := hk
    exact ⟨⟨faultType, e, (hsame .main (.inl rfl)).1 ▸ htop⟩, (hsame _ (.inr rfl)).1 ▸ hat⟩
  | verifying r =>
    obtain ⟨hr, hne, hts⟩ := hk
    exact ⟨hresults hr, hne, (hsame .main rfl).2.trans hts⟩
  | verified =>
    obtain ⟨hr, hmain, hshare⟩ := hk
    exact ⟨hresults hr, (hsame .main (.inl rfl)).2.trans hmain,
      fun hne => (hsame _ (.inr rfl)).2.trans (hshare hne)⟩
  | _ => trivial

/-- What a thread does, other than to change a share map without its lock. -/
structure Stepped (t : Nat) (s s' : MapThreads σ) : Prop where
  change (m : MapId) : Change (2 ^ 32) VmMap.hdr t (s.maps m) (s'.maps m)
  wf (m : MapId) : ∃ l, (s'.maps m).value.Wf l
  others (t' : Nat) : t' ≠ t → s'.phase t' = s.phase t'
  reads (m : MapId) : t ∈ (s'.maps m).readers ↔ (s'.phase t).Reads m
  knows : s'.Knows (s'.phase t)
  old : s.results ⊆ s'.results
  new (r : Found) : r ∈ s'.results → r ∈ s.results ∨ ∃ h, Saw r h ∧ s.Later r h

theorem Later.change {r : Found} {h : MapId → VmMapHeader} (hl : s.Later r h)
    (hc : ∀ m, Change (2 ^ 32) VmMap.hdr t (s.maps m) (s'.maps m)) : s'.Later r h where
  main := (hc .main).since hl.main
  share :=
    hl.share.imp (fun hlt => hlt.trans_le (hc .main).increments_le) (hc _).since
  mainLocks := (hc .main).counted hl.mainLocks
  shareLocks := (hc _).counted hl.shareLocks

theorem Stepped.inv (hs : Stepped t s s') (hinv : s.Inv) : s'.Inv where
  ok m := (hs.change m).ok (hinv.ok m)
  wf := hs.wf
  reads t' m := by
    rcases eq_or_ne t' t with rfl | hne
    · exact hs.reads m
    · rw [(hs.change m).reads_iff hne, hs.others t' hne]
      exact hinv.reads t' m
  knows t' := by
    rcases eq_or_ne t' t with rfl | hne
    · exact hs.knows
    · rw [hs.others t' hne]
      exact (hinv.knows t').of_same
        (fun m hm => (hs.change m).held (hinv.ok m) hne ((hinv.reads t' m).mpr hm)) hs.old
  later r hr := by
    have hlater : ∃ h, Saw r h ∧ s.Later r h := (hs.new r hr).elim (hinv.later r) id
    obtain ⟨h, hsaw, hl⟩ := hlater
    exact ⟨h, hsaw, hl.change hs.change⟩

theorem stepped_of_update (hinv : s.Inv) {x : Resource Nat VmMap}
    (hmaps : s'.maps = update s.maps m x) (hphase : s'.phase = update s.phase t p)
    (hresults : s'.results = s.results) (hc : Change (2 ^ 32) VmMap.hdr t (s.maps m) x)
    (hwf : ∃ l, x.value.Wf l) (hreads : t ∈ x.readers ↔ p.Reads m)
    (hothers : ∀ m', m' ≠ m → ((s.phase t).Reads m' ↔ p.Reads m')) (hknows : s'.Knows p) :
    Stepped t s s' := by
  have hself : s'.phase t = p := by rw [hphase, update_self]
  constructor
  case change =>
    rw [hmaps]
    exact (forall_update_iff _ fun m' y => Change _ VmMap.hdr t (s.maps m') y).mpr
      ⟨hc, fun _ _ => .same⟩
  case wf =>
    rw [hmaps]
    exact (forall_update_iff _ fun _ (y : Resource Nat VmMap) => ∃ l, y.value.Wf l).mpr
      ⟨hwf, fun m' _ => hinv.wf m'⟩
  case others =>
    intro t' hne
    rw [hphase, update_of_ne hne]
  case reads =>
    rw [hself, hmaps]
    exact (forall_update_iff _ fun m' (y : Resource Nat VmMap) => t ∈ y.readers ↔ p.Reads m').mpr
      ⟨hreads, fun m' hne => (hinv.reads t m').trans (hothers m' hne)⟩
  case knows => exact hself.symm ▸ hknows
  case old => exact hresults ▸ fun _ h => h
  case new => exact fun r hr => .inl (hresults ▸ hr)

theorem setMap_self (m : MapId) (x : Resource Nat VmMap) (s : MapThreads σ) :
    (s.setMap m x).maps m = x :=
  update_self ..

theorem setMap_of_ne {m' : MapId} (hne : m' ≠ m) (x : Resource Nat VmMap) (s : MapThreads σ) :
    (s.setMap m x).maps m' = s.maps m' :=
  update_of_ne hne ..

theorem unlockBoth_maps (t : Nat) (shareMap : MapId) (s : MapThreads σ) (m : MapId) :
    (s.unlockBoth t shareMap).maps m =
      if m = .main ∨ m = shareMap then (s.maps m).unlockRead t else s.maps m := by
  simp only [unlockBoth]
  by_cases hshare : shareMap = .main
  · rw [if_neg (not_not.mpr hshare)]
    rcases eq_or_ne m .main with rfl | hm
    · rw [update_self, if_pos (.inl rfl)]
    · rw [update_of_ne hm, if_neg (not_or.mpr ⟨hm, hshare ▸ hm⟩)]
  · rw [if_pos hshare]
    rcases eq_or_ne m .main with rfl | hm
    · rw [update_self, update_of_ne (symm hshare), if_pos (.inl rfl)]
    rw [update_of_ne hm]
    rcases eq_or_ne m shareMap with rfl | hne
    · rw [update_self, if_pos (.inr rfl)]
    · rw [update_of_ne hne, if_neg (not_or.mpr ⟨hm, hne⟩)]

theorem stepped_of_unlock (hinv : s.Inv) {shareMap : MapId}
    (hmaps : s'.maps = (s.unlockBoth t shareMap).maps)
    (hphase : s'.phase = update s.phase t p)
    (hreads : ∀ m, (s.phase t).Reads m → m = .main ∨ m = shareMap) (hp : ∀ m, ¬ p.Reads m)
    (hknows : s'.Knows p) (hold : s.results ⊆ s'.results)
    (hnew : ∀ r ∈ s'.results, r ∈ s.results ∨ ∃ h, Saw r h ∧ s.Later r h) : Stepped t s s' := by
  have hself : s'.phase t = p := by rw [hphase, update_self]
  have hmap (m : MapId) := congrFun hmaps m
  simp only [unlockBoth_maps] at hmap
  constructor
  case change =>
    intro m
    rw [hmap]
    split
    next => exact .unlockRead
    next => exact .same
  case wf =>
    intro m
    rw [hmap]
    split
    next => exact hinv.wf m
    next => exact hinv.wf m
  case others =>
    intro t' hne
    rw [hphase, update_of_ne hne]
  case reads =>
    intro m
    rw [hself, hmap]
    refine iff_of_false ?_ (hp m)
    split
    next => exact (hinv.ok m).nodup.not_mem_erase
    next hm => exact fun h => hm (hreads m ((hinv.reads t m).mp h))
  case knows => exact hself.symm ▸ hknows
  case old => exact hold
  case new => exact hnew

/-! ## The steps -/

section

variable (hinv : s.Inv)

include hinv

theorem Inv.not_reads (h : ¬ (s.phase t).Reads m) : t ∉ (s.maps m).readers :=
  fun ht => h ((hinv.reads t m).mp ht)

/-- A thread that reads a map keeps the others from writing. -/
theorem Inv.writer (h : (s.phase t).Reads m) : (s.maps m).writer = none := by
  by_contra hwriter
  have ht := (hinv.reads t m).mpr h
  rw [(hinv.ok m).exclusive hwriter] at ht
  cases ht

section

variable (hphase : s.phase t = .idle)
include hphase

theorem stepped_of_idle {x : Resource Nat VmMap}
    (hc : Change (2 ^ 32) VmMap.hdr t (s.maps m) x) (hwf : ∃ l, x.value.Wf l)
    (hreaders : x.readers = (s.maps m).readers) : Stepped t s (s.setMap m x) := by
  have hnot := hinv.not_reads (m := m) (t := t) (hphase ▸ id)
  exact stepped_of_update hinv rfl (hphase ▸ (update_eq_self t s.phase).symm) rfl hc hwf
    (iff_of_false (hreaders ▸ hnot) id)
    (fun m' _ => iff_of_eq (congrFun (congrArg Phase.Reads hphase) m')) trivial

end

theorem lookup_stepped (hphase : ∀ m, ¬ (s.phase t).Reads m)
    (h : s.lookup t vaddr faultType = some s') : Stepped t s s' := by
  obtain ⟨r, hr, hs'⟩ := map_eq_some_iff.mp h
  obtain ⟨hwriter, rfl⟩ := lockRead_eq_some hr
  obtain ⟨l, hw⟩ := hinv.wf .main
  obtain ⟨hhdr, hwf, htop⟩ := VmMap.lookupTop_spec hw vaddr faultType
  have hnew := hinv.not_reads (hphase .main)
  generalize (s.maps .main).value.lookupTop vaddr faultType = found at hhdr hwf htop hs'
  obtain ⟨found, m⟩ := found
  cases found with
  | none =>
    subst hs'
    exact stepped_of_update hinv rfl rfl rfl (.lockRead m hwriter hnew hhdr) hwf
      (iff_of_true mem_cons_self (.inl rfl))
      (fun m' hne => iff_of_false (hphase m') (not_or.mpr ⟨hne, hne⟩)) trivial
  | some found =>
    obtain ⟨c, e⟩ := found
    have hfound := (htop c e).mp rfl
    have hvaddr : c.vaddr = vaddr := by rw [hfound.looking, VmMapEntry.looking]
    have htop' (p : Phase) : VmMap.TopFound (((s.setMap .main
        { s.maps .main with value := m, readers := t :: (s.maps .main).readers }).setPhase t p).hdrs
          .main) c.vaddr faultType c e := by
      change VmMap.TopFound ((s.setMap .main _).maps .main).value.hdr ..
      rw [setMap_self, hvaddr]
      change VmMap.TopFound m.hdr ..
      have hm : m.hdr = (s.maps .main).value.hdr := hhdr
      rw [hm]
      exact hfound
    change (s.setMap .main _).setPhase t (if c.shareMap = .main then _ else _) = s' at hs'
    by_cases hshare : c.shareMap = .main
    · rw [if_pos hshare] at hs'
      subst hs'
      refine stepped_of_update hinv rfl rfl rfl (.lockRead m hwriter hnew hhdr) hwf
        (iff_of_true mem_cons_self (.inl rfl))
        (fun m' hne => iff_of_false (hphase m') (not_or.mpr ⟨hne, hshare ▸ hne⟩))
        ⟨⟨faultType, e, htop' _⟩, ?_⟩
      rw [hshare, hfound.main hshare, ← hvaddr]
      exact (htop' _).at_
    · rw [if_neg hshare] at hs'
      subst hs'
      exact stepped_of_update hinv rfl rfl rfl (.lockRead m hwriter hnew hhdr) hwf
        (iff_of_true mem_cons_self rfl) (fun m' hne => iff_of_false (hphase m') hne)
        ⟨hshare, faultType, e, htop' _⟩

theorem follow_stepped (hphase : s.phase t = .shared c)
    (h : s.follow t c = some s') : Stepped t s s' := by
  obtain ⟨r, hr, hs'⟩ := map_eq_some_iff.mp h
  obtain ⟨hwriter, rfl⟩ := lockRead_eq_some hr
  have hknows := hinv.knows t
  rw [hphase] at hknows
  obtain ⟨hne, faultType, e, htop⟩ := hknows
  obtain ⟨l, hw⟩ := hinv.wf c.shareMap
  have hlooked := VmMap.lookupEntry_lookedUp hw c.shareOffset
  have hnew : t ∉ (s.maps c.shareMap).readers := hinv.not_reads (hphase ▸ hne)
  have hreads (m' : MapId) (h' : m' ≠ c.shareMap) :
      (s.phase t).Reads m' ↔ m' = .main ∨ m' = c.shareMap := by
    rw [hphase, or_iff_left h']
    rfl
  generalize (s.maps c.shareMap).value.lookupEntry c.shareOffset = found at hlooked hs'
  obtain ⟨found, u, m⟩ := found
  cases found with
  | false =>
    subst hs'
    exact stepped_of_update hinv rfl rfl rfl (.lockRead m hwriter hnew hlooked.hdr) hlooked.wf
      (iff_of_true mem_cons_self (.inr rfl)) hreads trivial
  | true =>
    subst hs'
    refine stepped_of_update hinv rfl rfl rfl (.lockRead m hwriter hnew hlooked.hdr) hlooked.wf
      (iff_of_true mem_cons_self (.inr rfl)) hreads ⟨⟨faultType, e, ?_⟩, ?_⟩
    · change VmMap.TopFound ((s.setMap c.shareMap _).maps .main).value.hdr ..
      rw [setMap_of_ne (symm hne)]
      exact htop
    · change ((s.setMap c.shareMap _).maps c.shareMap).value.hdr.At ..
      rw [setMap_self]
      have hhdr : m.hdr = (s.maps c.shareMap).value.hdr := hlooked.hdr
      change m.hdr.At ..
      rw [hhdr]
      exact (hlooked.at_iff u).mpr ⟨rfl, rfl⟩

end

theorem writeToRead_upgraded {r r' : Resource Nat VmMap} (h : r.readToWrite (2 ^ 32) t = some r')
    (again : Bool) (x : VmMap) :
    { (if again then r'.increment (2 ^ 32) else r') with value := x }.writeToRead t =
      r.upgraded (2 ^ 32) again.toNat x := by
  obtain ⟨hwriter, hreaders, rfl⟩ := readToWrite_eq_some h
  cases again with
  | false =>
    simp [writeToRead, increment, upgraded, hwriter, hreaders, Bool.toNat_false]
  | true =>
    simp [writeToRead, increment, upgraded, hwriter, hreaders, Bool.toNat_true, Nat.mod_add_mod]

section

variable (hinv : s.Inv)

include hinv

section

variable (hphase : s.phase t = .found c u)
include hphase

/-- The entry that was found gets another object, and the timestamp is incremented. -/
theorem upgrade_stepped
    {again : Bool} {object : Nat} {needsCopy : Bool} {store : σ}
    (h : s.upgrade t c u granted again object needsCopy store = some s') : Stepped t s s' := by
  have hknows := hinv.knows t
  have hreads (m : MapId) : (s.phase t).Reads m ↔ (Phase.found c u).Reads m := by rw [hphase]
  rw [hphase] at hknows
  obtain ⟨⟨faultType, e, htop⟩, hat⟩ := hknows
  unfold upgrade at h
  cases granted with
  | false =>
    cases h
    exact stepped_of_unlock hinv rfl rfl
      (fun m hm => (hreads m).mp hm) (fun _ => id) trivial (fun _ h => h) (fun _ h => .inl h)
  | true =>
    obtain ⟨r, hr, rfl⟩ := map_eq_some_iff.mp h
    have hvalue :
        (if again then r.increment (2 ^ 32) else r).value = (s.maps c.shareMap).value := by
      obtain ⟨-, -, rfl⟩ := readToWrite_eq_some hr
      cases again <;> rfl
    obtain ⟨hwriter, hreaders, -⟩ := readToWrite_eq_some hr
    obtain ⟨l, hw⟩ := hinv.wf c.shareMap
    obtain ⟨l', hw', hu, -⟩ := id hat
    obtain rfl := hw.hdr.ring.unique hw'.ring
    have hwf : ((s.maps c.shareMap).value.setEntry u
        (((s.maps c.shareMap).value.hdr.entry u).setObject object needsCopy)).Wf l :=
      ⟨hw'.setEntry_of_span hu rfl rfl, hw.hint, hw.firstFree⟩
    simp only [writeToRead_upgraded hr, hvalue]
    refine stepped_of_update hinv rfl (hphase ▸ (update_eq_self t s.phase).symm) rfl
      (.upgrade _ _ again.toNat_le hwriter hreaders) ⟨l, hwf⟩ ((hinv.reads t _).trans (hreads _))
      (fun m _ => hreads m) ⟨⟨faultType, e, ?_⟩, ?_⟩
    · change VmMap.TopFound ((s.setMap c.shareMap _).maps .main).value.hdr ..
      by_cases hmain : c.shareMap = .main
      · rw [hmain, setMap_self]
        exact htop.setEntry hmain (hmain ▸ hat) object needsCopy
      · rw [setMap_of_ne (symm hmain)]
        exact htop
    · change ((s.setMap c.shareMap _).maps c.shareMap).value.hdr.At ..
      rw [setMap_self]
      exact hat.setEntry hat rfl rfl

theorem result_saw (hr : c.seen ((s.maps c.shareMap).value.hdr.entry u) = some r) :
    Saw (s.result c r) s.hdrs ∧ s.Later (s.result c r) s.hdrs := by
  have hknows := hinv.knows t
  have hwriter (m : MapId) (hm : (Phase.found c u).Reads m) : (s.maps m).writer = none :=
    hinv.writer (hphase ▸ hm)
  rw [hphase] at hknows
  obtain ⟨⟨faultType, e, htop⟩, hat⟩ := hknows
  constructor
  · refine ⟨(hinv.ok .main).timestamp, fun hne => ?_, fun a ha => ?_⟩
    · exact (if_pos hne).trans (hinv.ok c.shareMap).timestamp
    · -- The same entries give the same for every access that is permitted.
      have hc := htop.looking
      have hshare : r.shareMap = c.shareMap := by
        obtain ⟨-, -, rfl⟩ := Looking.seen_eq_some hr
        rfl
      rw [hc] at hr
      obtain ⟨hallowed, hseen⟩ := seen_of_permitted hr ha
      refine ⟨_, e, u, ⟨htop.at_, htop.notSubMap, hallowed, rfl⟩, ?_, ?_⟩
      · rw [hc] at hat
        exact hat
      · refine .trans ?_ (congrArg some (congrArg (Seen.mk r.object r.offset r.prot) hshare))
        exact hseen
  · exact ⟨.same rfl rfl (hwriter .main (.inl rfl)),
      .inr (.same rfl rfl (hwriter c.shareMap (.inr rfl))), Nat.le_refl _, Nat.le_refl _⟩

theorem lookupDone_stepped (h : s.lookupDone t c u = some s') : Stepped t s s' := by
  obtain ⟨r, hr, rfl⟩ := map_eq_some_iff.mp h
  refine stepped_of_unlock hinv rfl rfl (fun m hm => ?_) (fun _ => id) trivial
    (subset_append_left ..) fun x hx => ?_
  · rw [hphase] at hm
    exact hm
  · cases mem_append.mp hx with
    | inl hx => exact .inl hx
    | inr hx =>
      rw [mem_singleton.mp hx]
      exact .inr ⟨s.hdrs, result_saw hinv hphase hr⟩

end

theorem unlock_stepped {shareMap : MapId}
    (hreads : ∀ m, (s.phase t).Reads m → m = .main ∨ m = shareMap) :
    Stepped t s ((s.unlockBoth t shareMap).setPhase t .idle) :=
  stepped_of_unlock hinv rfl rfl hreads (fun _ => id) trivial (fun _ h => h) (fun _ h => .inl h)

theorem verify_stepped (hphase : s.phase t = .idle) {r : Found}
    (hmem : r ∈ s.results) (h : s.verify t r = some s') : Stepped t s s' := by
  obtain ⟨x, hx, rfl⟩ := map_eq_some_iff.mp h
  obtain ⟨hwriter, rfl⟩ := lockRead_eq_some hx
  have hnot (m : MapId) : ¬ (s.phase t).Reads m := by
    rw [hphase]
    exact id
  have hnew := hinv.not_reads (hnot .main)
  have hts : ((s.setMap .main { s.maps .main with readers := t :: (s.maps .main).readers }).maps
      .main).timestamp = (s.maps .main).timestamp := by
    rw [setMap_self]
  refine stepped_of_update hinv rfl rfl rfl (.lockRead _ hwriter hnew rfl) (hinv.wf .main)
    (iff_of_true mem_cons_self ?_) (fun m hne => iff_of_false (hnot m) ?_) ?_
  · split
    next =>
      split
      next => rfl
      next => exact .inl rfl
    next => exact .inl rfl
  · split
    next =>
      split
      next => exact hne
      next hmain => exact not_or.mpr ⟨hne, (not_not.mp hmain) ▸ hne⟩
    next => exact not_or.mpr ⟨hne, hne⟩
  · split
    next heq =>
      split
      next hne => exact ⟨hmem, hne, hts.trans heq⟩
      next hmain => exact ⟨hmem, hts.trans heq, fun hne => absurd hne hmain⟩
    next => trivial

theorem verifyShare_stepped {r : Found} (hphase : s.phase t = .verifying r)
    (h : s.verifyShare t r = some s') : Stepped t s s' := by
  obtain ⟨x, hx, rfl⟩ := map_eq_some_iff.mp h
  obtain ⟨hwriter, rfl⟩ := lockRead_eq_some hx
  have hknows := hinv.knows t
  rw [hphase] at hknows
  obtain ⟨hmem, hne, hts⟩ := hknows
  have hnew : t ∉ (s.maps r.version.shareMap).readers := hinv.not_reads (hphase ▸ hne)
  have hreads (m : MapId) (h' : m ≠ r.version.shareMap) :
      (s.phase t).Reads m ↔ m = .main ∨ m = r.version.shareMap := by
    rw [hphase, or_iff_left h']
    rfl
  refine stepped_of_update hinv rfl rfl rfl (.lockRead _ hwriter hnew rfl) (hinv.wf _)
    (iff_of_true mem_cons_self ?_) (fun m h' => (hreads m h').trans ?_) ?_
  · split
    next => exact .inr rfl
    next => exact .inr rfl
  · split
    next => exact .rfl
    next => exact .rfl
  · split
    next heq =>
      refine ⟨hmem, ?_, fun _ => ?_⟩
      · change ((s.setMap ..).maps .main).timestamp = _
        rw [setMap_of_ne (symm hne)]
        exact hts
      · change ((s.setMap ..).maps r.version.shareMap).timestamp = _
        rw [setMap_self]
        exact heq
    next => trivial

/-- A share map is changed under the lock of the map.  Then nobody is in a lookup, and what lookups
returned before has another timestamp of the map. -/
theorem link_inv {n : Nat} {f : VmMap → VmMap} (hf : ∃ l, (f (s.maps (.share n)).value).Wf l)
    (hwriter : (s.maps .main).writer = some t) :
    (s.setMap (.share n) { s.maps (.share n) with value := f (s.maps (.share n)).value }).Inv := by
  have hnone (t' : Nat) : ¬ (s.phase t').Reads .main := by
    intro h
    cases (hinv.writer h).symm.trans hwriter
  have hsame (m : MapId) : ((s.setMap (.share n) { s.maps (.share n) with
      value := f (s.maps (.share n)).value }).maps m).readers = (s.maps m).readers := by
    rcases eq_or_ne m (.share n) with rfl | hm
    · rw [setMap_self]
    · rw [setMap_of_ne hm]
  constructor
  case ok =>
    exact (forall_update_iff _ fun _ (y : Resource Nat VmMap) => y.Ok (2 ^ 32)).mpr
      ⟨{ hinv.ok (.share n) with }, fun m _ => hinv.ok m⟩
  case wf =>
    exact (forall_update_iff _ fun _ (y : Resource Nat VmMap) => ∃ l, y.value.Wf l).mpr
      ⟨hf, fun m _ => hinv.wf m⟩
  case reads =>
    intro t' m
    rw [hsame]
    exact hinv.reads t' m
  case knows =>
    intro t'
    have hphase := hnone t'
    change Knows _ (s.phase t')
    generalize s.phase t' = p at hphase
    cases p with
    | shared c | verifying r => exact absurd rfl hphase
    | found | verified => exact absurd (.inl rfl) hphase
    | _ => trivial
  case later =>
    intro r hr
    obtain ⟨h, hsaw, hl⟩ := hinv.later r hr
    refine ⟨h, hsaw, hl.main, .inl ?_, hl.mainLocks, ?_⟩
    · cases hl.main with
      | incremented hlt => exact hlt
      | same heq hview hnone => exact absurd hnone (hwriter ▸ some_ne_none t)
    · rcases eq_or_ne r.version.shareMap (.share n) with hm | hm
      · have hlocks := hl.shareLocks
        rw [hm] at hlocks ⊢
        rw [setMap_self]
        exact hlocks
      · rw [setMap_of_ne hm]
        exact hl.shareLocks

end

/-! ## Runs -/

/-- A change leaves a well-formed map. -/
def KeepsMap (s : MapThreads σ) : Act → Prop
  | .write m f => ∃ l, (f (s.maps m).value).Wf l
  | .link n f => ∃ l, (f (s.maps (.share n)).value).Wf l
  | _ => True

theorem step_inv (hinv : s.Inv) {a : Act} (ha : s.KeepsMap a) (h : s.step objects t a = some s') :
    s'.Inv := by
  unfold step at h
  split at h
  next m hphase =>
    obtain ⟨r, hr, rfl⟩ := map_eq_some_iff.mp h
    unfold Resource.lockWrite at hr
    split at hr
    next hwriter hreaders =>
      cases hr
      exact (stepped_of_idle hinv hphase (.lockWrite hwriter hreaders) (hinv.wf m) rfl).inv hinv
    next => cases hr
  next m hphase =>
    obtain ⟨r, hr, rfl⟩ := map_eq_some_iff.mp h
    obtain ⟨hwriter, ⟨⟩⟩ := ite_none_right_eq_some.mp hr
    exact (stepped_of_idle hinv hphase (.unlockWrite hwriter) (hinv.wf m) rfl).inv hinv
  next f hphase =>
    obtain ⟨r, hr, rfl⟩ := map_eq_some_iff.mp h
    obtain ⟨hwriter, ⟨⟩⟩ := ite_none_right_eq_some.mp hr
    exact (stepped_of_idle hinv hphase (.write _ hwriter) ha rfl).inv hinv
  next hphase =>
    split at h
    next hwriter =>
      cases h
      exact link_inv hinv ha hwriter
    next => cases h
  next vaddr faultType hphase =>
    exact (lookup_stepped hinv (fun _ => hphase ▸ id) h).inv hinv
  next hphase =>
    exact (lookup_stepped hinv (fun _ => hphase ▸ id) h).inv hinv
  next c hphase => exact (follow_stepped hinv hphase h).inv hinv
  next granted c u hphase =>
    obtain ⟨-, h⟩ := ite_none_right_eq_some.mp h
    exact (upgrade_stepped hinv hphase h).inv hinv
  next c u hphase =>
    obtain ⟨-, h⟩ := ite_none_right_eq_some.mp h
    exact (upgrade_stepped hinv hphase h).inv hinv
  next hphase => exact (lookupDone_stepped hinv hphase h).inv hinv
  next hphase =>
    cases h
    exact (unlock_stepped hinv fun _ hm => by rw [hphase] at hm; exact hm).inv hinv
  next hphase =>
    obtain ⟨r, hr, h⟩ := bind_eq_some_iff.mp h
    exact (verify_stepped hinv hphase (mem_of_getElem? hr) h).inv hinv
  next r hphase => exact (verifyShare_stepped hinv hphase h).inv hinv
  next hphase =>
    cases h
    exact (unlock_stepped hinv fun _ hm => by rw [hphase] at hm; exact hm).inv hinv
  next => cases h

/-- Maps that nobody has locked, before the first lookup. -/
structure Start (s : MapThreads σ) : Prop where
  wf (m : MapId) : ∃ l, (s.maps m).value.Wf l
  readers (m : MapId) : (s.maps m).readers = []
  writer (m : MapId) : (s.maps m).writer = none
  timestamp (m : MapId) : (s.maps m).timestamp = (s.maps m).increments % 2 ^ 32
  phase (t : Nat) : s.phase t = .idle
  results : s.results = []

theorem Start.inv (hs : s.Start) : s.Inv where
  ok m := ⟨fun _ => hs.readers m, by rw [hs.readers]; exact nodup_nil, hs.timestamp m⟩
  wf := hs.wf
  reads t m := by
    rw [hs.readers, hs.phase]
    exact iff_of_false not_mem_nil id
  knows t := by
    rw [hs.phase]
    trivial
  later r hr := by
    rw [hs.results] at hr
    cases hr

/-- The states that threads reach when they take turns. -/
inductive Reachable (objects : ObjectMaker σ) : MapThreads σ → Prop
  | start {s : MapThreads σ} (hs : s.Start) : Reachable objects s
  | step {s s' : MapThreads σ} {t : Nat} {a : Act} (h : Reachable objects s) (ha : s.KeepsMap a)
      (hstep : s.step objects t a = some s') : Reachable objects s'

theorem Reachable.inv (h : Reachable objects s) : s.Inv := by
  induction h with
  | start hs => exact hs.inv
  | step h ha hstep ih => exact step_inv ih ha hstep

/-- Between `vm_map_verify` and `vm_map_verify_done` the maps are as the lookup saw them. -/
theorem Inv.hdrs_eq (hinv : s.Inv) {r : Found} (hphase : s.phase t = .verified r)
    (hmainFew : (s.maps .main).increments < r.mainIncrements + 2 ^ 32)
    (hshareFew : (s.maps r.version.shareMap).increments < r.shareIncrements + 2 ^ 32) :
    ∃ h, Saw r h ∧ s.hdrs .main = h .main ∧ s.hdrs r.version.shareMap = h r.version.shareMap := by
  have hknows := hinv.knows t
  rw [hphase] at hknows
  obtain ⟨hmem, hmain, hshare⟩ := hknows
  obtain ⟨h, hsaw, hl⟩ := hinv.later r hmem
  have hnot := (hinv.ok .main).not_incremented (hmain.trans hsaw.mainTimestamp) hmainFew
  refine ⟨h, hsaw, hl.main.view_eq hnot, ?_⟩
  by_cases hne : r.version.shareMap = .main
  · rw [hne]
    exact hl.main.view_eq hnot
  · exact (hl.share.resolve_left hnot).view_eq
      ((hinv.ok _).not_incremented ((hshare hne).trans (hsaw.shareTimestamp hne)) hshareFew)

/-- Less than `2 ^ 31` write locks since a lookup make less than `2 ^ 32` increments. -/
theorem Reachable.increments_lt (h : Reachable objects s) {r : Found} (hr : r ∈ s.results) :
    ((s.maps .main).writeLocks < r.mainWriteLocks + 2 ^ 31 →
      (s.maps .main).increments < r.mainIncrements + 2 ^ 32) ∧
    ((s.maps r.version.shareMap).writeLocks < r.shareWriteLocks + 2 ^ 31 →
      (s.maps r.version.shareMap).increments < r.shareIncrements + 2 ^ 32) := by
  obtain ⟨_, -, hl⟩ := h.inv.later r hr
  exact ⟨hl.mainLocks.increments_lt, hl.shareLocks.increments_lt⟩

/-- `vm_map_verify` is sound: if it returns true, and the timestamps were incremented less than
`2 ^ 32` times since the lookup, then up to `vm_map_verify_done` a lookup for any access that was
permitted finds the same object and offset, with the same permission, and changes nothing.  A thread
that is not in one of the calls, in particular one for which `vm_map_verify` returned false, has no
read lock. -/
theorem verify_sound (h : Reachable objects s) (t : Nat) : (∀ r, s.phase t = .verified r →
      (s.maps .main).increments < r.mainIncrements + 2 ^ 32 →
      (s.maps r.version.shareMap).increments < r.shareIncrements + 2 ^ 32 →
      ∀ a, a &&& r.prot = a → freshLookup r.vaddr a (fun m => (s.maps m).value) =
          some ⟨r.object, r.offset, r.prot, r.version.shareMap⟩) ∧
      (s.phase t = .idle → ∀ m, t ∉ (s.maps m).readers) := by
  have hinv := h.inv
  refine ⟨fun r hphase hmainFew hshareFew a ha => ?_, fun hphase m => hinv.not_reads (hphase ▸ id)⟩
  obtain ⟨h, hsaw, hmain, hshare⟩ := hinv.hdrs_eq hphase hmainFew hshareFew
  exact freshLookup_of_sees hinv.wf ((hsaw.sees a ha).congr hmain hshare)

/-- Threads take turns. -/
def steps (objects : ObjectMaker σ) : List (Nat × Act) → MapThreads σ → Option (MapThreads σ)
  | [], s => some s
  | (t, a) :: as, s => (s.step objects t a).bind (steps objects as)

/-- An action that is part of a lookup or of `vm_map_verify`, or takes or releases a lock. -/
def locks : Act → Bool
  | .write _ _ => false
  | .link _ _ => false
  | _ => true

theorem Reachable.steps {as : List (Nat × Act)} (h : Reachable objects s)
    (has : ∀ x ∈ as, locks x.2 = true) (hsteps : s.steps objects as = some s') :
    Reachable objects s' := by
  induction as generalizing s with
  | nil =>
    cases hsteps
    exact h
  | cons x as ih =>
    obtain ⟨t, a⟩ := x
    obtain ⟨s₁, hstep, hrest⟩ := bind_eq_some_iff.mp hsteps
    have hlocks : locks a = true := has _ mem_cons_self
    have hkeeps : s.KeepsMap a := by
      cases a with
      | write m f | link => cases hlocks
      | _ => trivial
    exact ih (.step h hkeeps hstep) (fun y hy => has y (mem_cons_of_mem _ hy)) hrest

/-! ### A timestamp that comes round again -/

/-- Objects are numbered. -/
def numbered : ObjectMaker Nat where
  allocate _ store := (store + 1, store + 1)
  shadow _ _ _ store := (store + 1, store + 1)
  allocate_ne _ _ := Nat.succ_ne_zero _
  shadow_ne _ _ _ _ := Nat.succ_ne_zero _

/-- A map with one page, which needs a copy. -/
def copyPage : VmMap := VmMap.onePage.setEntry 1 ((VmMap.onePage.hdr.entry 1).setObject 1 true)

theorem onePage_setEntry_wf {v : VmMapEntry} (hstart : v.vmeStart = 0) (hend : v.vmeEnd = 4096) :
    (VmMap.onePage.setEntry 1 v).Wf [1] where
  hdr := VmMap.onePage_wf.hdr.setEntry_of_span (mem_singleton_self 1) hstart hend
  hint := VmMap.onePage_wf.hint
  firstFree := VmMap.onePage_wf.firstFree

theorem copyPage_wf : copyPage.Wf [1] := onePage_setEntry_wf rfl rfl

/-- Nobody has looked up the page yet. -/
def copyPageThreads : MapThreads Nat where
  maps _ := ⟨copyPage, [], none, 0, 0, 0⟩
  store := 1
  phase _ := .idle
  results := []

theorem copyPageThreads_start : copyPageThreads.Start where
  wf _ := ⟨[1], copyPage_wf⟩
  readers _ := rfl
  writer _ := rfl
  timestamp _ := rfl
  phase _ := rfl
  results := rfl

/-- What a lookup of the page returns that reads it. -/
def readFound : Found := ⟨0, 1, 0, 1, false, ⟨0, .main, 0⟩, 0, 0, 0, 0⟩

/-- The page is in a share map. -/
def sharePageThreads : MapThreads Nat where
  maps
    | .main => ⟨VmMap.onePage.setEntry 1
        { VmMap.onePage.hdr.entry 1 with isAMap := true, object := 2 }, [], none, 0, 0, 0⟩
    | .share _ => ⟨copyPage, [], none, 0, 0, 0⟩
  store := 1
  phase _ := .idle
  results := []

theorem sharePageThreads_start : sharePageThreads.Start where
  wf m := by
    cases m with
    | main => exact ⟨[1], onePage_setEntry_wf rfl rfl⟩
    | share n => exact ⟨[1], copyPage_wf⟩
  readers m := by cases m <;> rfl
  writer m := by cases m <;> rfl
  timestamp m := by cases m <;> rfl
  phase _ := rfl
  results := rfl

/-- What a lookup of the page in the share map returns. -/
def shareFound : Found := ⟨0, 1, 0, 1, false, ⟨0, .share 2, 0⟩, 0, 0, 0, 0⟩

/-- A lookup that follows the share map, and `vm_map_verify`. -/
def verifyShared : List (Nat × Act) :=
  [(0, .lookup 0 1), (0, .follow), (0, .lookupDone), (0, .verify 0), (0, .verifyShare)]

/-- A thread looks up the page in the share map to read it, and verifies the version. -/
theorem verify_sound_sharePage :
    ∃ s, sharePageThreads.steps numbered verifyShared = some s ∧ s.phase 0 = .verified shareFound ∧
      freshLookup 0 1 (fun m => (s.maps m).value) = some ⟨1, 0, 1, .share 2⟩ := by
  obtain ⟨s, hs, hphase, hmain, hshare⟩ :
      ∃ s, sharePageThreads.steps numbered verifyShared = some s ∧
        s.phase 0 = .verified shareFound ∧ (s.maps .main).increments = 0 ∧
        (s.maps (.share 2)).increments = 0 :=
    ⟨_, rfl, rfl, rfl, rfl⟩
  have hreach : Reachable numbered s := .steps (.start sharePageThreads_start) (by decide) hs
  have hlt : 0 < 0 + 2 ^ 32 := by decide
  exact ⟨s, hs, hphase, (verify_sound hreach 0).1 shareFound hphase (hmain ▸ hlt) (hshare ▸ hlt) 1
    (by decide)⟩

/-- A map is locked to write and released, and nothing else. -/
def lockTimes : Nat → List (Nat × Act)
  | 0 => []
  | k + 1 => (1, .lockWrite .main) :: (1, .unlockWrite .main) :: lockTimes k

theorem lockTimes_locks (k : Nat) : ∀ x ∈ lockTimes k, locks x.2 = true := by
  induction k with
  | zero => exact nofun
  | succ k ih =>
    intro x hx
    cases hx with
    | head => rfl
    | tail _ hx =>
      cases hx with
      | head => rfl
      | tail _ hx => exact ih x hx

theorem setMap_setMap (m : MapId) (x y : Resource Nat VmMap) (s : MapThreads σ) :
    (s.setMap m x).setMap m y = s.setMap m y := by
  unfold setMap
  rw [update_idem]

/-- Each time that a map is locked its timestamp is one more. -/
theorem steps_lockTimes (objects : ObjectMaker σ) (hphase : s.phase 1 = .idle) (v : VmMap)
    (i w k : Nat) :
    (s.setMap .main ⟨v, [], none, i % 2 ^ 32, i, w⟩).steps objects (lockTimes k) =
      some (s.setMap .main ⟨v, [], none, (i + k) % 2 ^ 32, i + k, w + k⟩) := by
  induction k generalizing i w with
  | zero => rfl
  | succ k ih =>
    have hidle (x : Resource Nat VmMap) : (s.setMap .main x).phase 1 = .idle := hphase
    have hlock : (s.setMap .main ⟨v, [], none, i % 2 ^ 32, i, w⟩).step objects 1
        (.lockWrite .main) =
          some (s.setMap .main ⟨v, [], some 1, (i + 1) % 2 ^ 32, i + 1, w + 1⟩) := by
      unfold step
      rw [hidle]
      simp [setMap_self, setMap_setMap, lockWrite, increment, Nat.mod_add_mod]
    have hunlock : (s.setMap .main ⟨v, [], some 1, (i + 1) % 2 ^ 32, i + 1, w + 1⟩).step objects 1
        (.unlockWrite .main) =
          some (s.setMap .main ⟨v, [], none, (i + 1) % 2 ^ 32, i + 1, w + 1⟩) := by
      unfold step
      rw [hidle]
      simp [setMap_self, setMap_setMap, unlockWrite]
    rw [lockTimes, steps, hlock, bind_some, steps, hunlock, bind_some, ih]
    simp only [add_assoc, add_comm 1 k]

/-- A thread looks up the page to read it.  Another one looks it up to write it, which makes a
shadow. -/
def readThenWrite : List (Nat × Act) :=
  [(0, .lookup 0 1), (0, .lookupDone), (1, .lookup 0 2), (1, .shadow true), (1, .lookupDone)]

/-- After the shadow is made, the map is locked `2 ^ 32 - 2` times.  With the lock for the shadow
that is less than `2 ^ 32` write locks, but the timestamp is the same again.  `vm_map_verify`
returns true, and a lookup finds the shadow. -/
theorem not_verify_sound_writeLocks : ∃ s, Reachable numbered s ∧ s.phase 0 = .verified readFound ∧
      (s.maps .main).writeLocks = 2 ^ 32 - 1 ∧
      (s.maps .main).writeLocks < readFound.mainWriteLocks + 2 ^ 32 ∧
      freshLookup readFound.vaddr readFound.prot (fun m => (s.maps m).value) =
        some ⟨2, 0, 3, .main⟩ ∧
      readFound.object = 1 := by
  obtain ⟨s₁, hs₁, hphase₀, hphase₁, hmain, hresults, hlookup⟩ :
      ∃ s, copyPageThreads.steps numbered readThenWrite = some s ∧ s.phase 0 = .idle ∧
        s.phase 1 = .idle ∧ s.maps .main = ⟨(s.maps .main).value, [], none, 2 % 2 ^ 32, 2, 1⟩ ∧
        s.results[0]? = some readFound ∧
        freshLookup 0 1 (fun m => (s.maps m).value) = some ⟨2, 0, 3, .main⟩ :=
    ⟨_, rfl, rfl, rfl, rfl, rfl, rfl⟩
  have hsame : s₁.setMap .main ⟨(s₁.maps .main).value, [], none, 2 % 2 ^ 32, 2, 1⟩ = s₁ := by
    rw [← hmain]
    unfold setMap
    rw [update_eq_self]
  have hlocked := steps_lockTimes numbered hphase₁ (s₁.maps .main).value 2 1 (2 ^ 32 - 2)
  rw [hsame] at hlocked
  generalize hs₂ : s₁.setMap .main _ = s₂ at hlocked
  have hmain₂ : s₂.maps .main = ⟨(s₁.maps .main).value, [], none, 0, 2 ^ 32, 2 ^ 32 - 1⟩ := by
    rw [← hs₂, setMap_self]
    rfl
  have hreach : Reachable numbered s₂ :=
    .steps (.steps (.start copyPageThreads_start) (by decide) hs₁) (lockTimes_locks _) hlocked
  have hverify : s₂.step numbered 0 (.verify 0) = some ((s₂.setMap .main { s₂.maps .main with
        readers := 0 :: (s₂.maps .main).readers }).setPhase 0 (.verified readFound)) := by
    unfold step
    rw [show s₂.phase 0 = .idle from hs₂ ▸ hphase₀]
    simp only [show s₂.results[0]? = some readFound from hs₂ ▸ hresults, bind_some, verify,
      lockRead, hmain₂]
    rfl
  generalize hs : (s₂.setMap .main _).setPhase 0 _ = s at hverify
  have hmaps : (fun m => (s.maps m).value) = fun m => (s₁.maps m).value := by
    funext m
    rw [← hs]
    change ((s₂.setMap .main _).maps m).value = _
    rcases eq_or_ne m .main with rfl | hm
    · rw [setMap_self, hmain₂]
    · rw [setMap_of_ne hm, ← hs₂, setMap_of_ne hm]
  have hlocks : (s.maps .main).writeLocks = 2 ^ 32 - 1 := by
    rw [← hs]
    change ((s₂.setMap .main _).maps .main).writeLocks = _
    rw [setMap_self, hmain₂]
    rfl
  refine ⟨s, .step (a := .verify 0) hreach trivial hverify, by rw [← hs]; simp [setPhase],
    hlocks, ?_, ?_,
    rfl⟩
  · rw [hlocks]
    decide
  · rw [hmaps]
    exact hlookup

end MapThreads

end Mach
