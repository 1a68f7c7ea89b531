import Mach.Ipc.Entry

/-!
# Lock requests of a memory manager

`memory_object_lock_request` goes over a range of an object page by page.  It restricts the access
to each page, cleans dirty pages and flushes pages, as it is asked to.  Dirty pages are moved or
copied into a new object, a cluster, which is sent as one message when the next page does not
continue it, when a page is in the way or when it has `DATA_WRITE_MAX` pages.  Until then a page
that is flushed is covered by a place-holder.

`RangeLock.Meets` is what the description of the call promises, and `RangeLock.Served` says of which
pages it is kept (`lockRequest_meets_iff`).  There are two reasons why it is not kept of all.

* `vm_pageout_setup` deactivates a page that it has copied while the page is busy, and
  `vm_page_deactivate` only takes a busy page off its queue.  So a page that is cleaned and stays in
  the cache is on no queue afterwards.
* The pages that the loop comes to, `RangeLock.Visits`, are not those of the range.  The size is
  rounded up to pages in 32 bits, so that of a size in the last page nothing is left, and a range
  that goes beyond the last offset goes on at the first.

Offsets have 32 bits.  Nothing else runs during the call: if a page is busy then the call waits for
ever, which is `none`.
-/

universe u

namespace Mach

open Function

/-- `DATA_WRITE_MAX`. -/
def dataWriteMax : Nat := 32

/-- A resident page. -/
structure CachedPage (δ : Type u) where
  contents : δ
  absent : Bool
  busy : Bool
  /-- `wire_count` is not 0. -/
  wired : Bool
  dirty : Bool
  /-- `pmap_is_modified`. -/
  modified : Bool
  pageLock : Nat
  unlockRequest : Nat
  /-- The page is on the active queue. -/
  active : Bool
  /-- The page is on the inactive queue. -/
  inactive : Bool
deriving Repr, DecidableEq

/-- The arguments of the call, and what it meets. -/
structure RangeLock where
  pageSize : Nat
  offset : Nat
  size : Nat
  shouldClean : Bool
  shouldFlush : Bool
  prot : Nat
  /-- `reply_to` is valid. -/
  reply : Bool
  /-- `paging_offset` of the object. -/
  pagingOffset : Nat
  /-- Whether `vm_page_alloc` finds a page for the copy of the page at an offset. -/
  alloc : Nat → Bool

/-- A `memory_object_data_write` message. -/
structure DataWrite (δ : Type u) where
  offset : Nat
  data : List δ
deriving Repr, DecidableEq

/-- Dirty pages that are to be sent together: `new_object`, and what is kept with it. -/
structure Cluster (δ : Type u) where
  /-- `paging_offset`. -/
  start : Nat
  data : List δ
  /-- The offsets of the place-holders. -/
  holding : List Nat
  /-- `last_offset`. -/
  last : Nat
deriving Repr, DecidableEq

/-- The object, the cluster if there is one, and what has been sent. -/
structure LockScan (δ : Type u) where
  pages : Nat → Option (CachedPage δ)
  cluster : Option (Cluster δ)
  sent : List (DataWrite δ)

/-- What `memory_object_lock_page` finds, with the page after it. -/
inductive LockPageResult (δ : Type u) where
  | done (page : Option (CachedPage δ))
  | mustBlock
  | mustClean (page : CachedPage δ)

/-- What the call leaves. -/
structure LockOutcome (δ : Type u) where
  pages : Nat → Option (CachedPage δ)
  sent : List (DataWrite δ)
  /-- The offset and the size of `memory_object_lock_completed`. -/
  completed : Option (Nat × Nat)

variable {δ : Type u}

namespace CachedPage

/-- `vm_page_deactivate`. -/
def deactivate (m : CachedPage δ) : CachedPage δ :=
  if m.busy then { m with active := false, inactive := false }
  else { m with active := false, inactive := m.inactive || !m.wired }

/-- A place-holder, whose contents are not there. -/
def holdingPage [Inhabited δ] : CachedPage δ :=
  ⟨default, false, true, false, false, false, 0, 0, false, false⟩

/-- The page after `vm_pageout_setup` has copied it. -/
def copyOut (m : CachedPage δ) : CachedPage δ :=
  { { m with dirty := false, modified := false }.deactivate with busy := false }

/-- The page was modified. -/
def Dirty (m : CachedPage δ) : Prop := m.dirty = true ∨ m.modified = true

instance (m : CachedPage δ) : Decidable m.Dirty := inferInstanceAs (Decidable (_ ∨ _))

end CachedPage

open CachedPage

/-- `memory_object_lock_page`. -/
def memoryObjectLockPage (call : RangeLock) (m : CachedPage δ) : LockPageResult δ :=
  if m.absent then .done (some m)
  else if m.busy ∨ m.wired then
    -- nothing is left to do if no change would take place
    if call.shouldFlush = false ∧ m.pageLock = call.prot ∧
        (call.shouldClean = false ∨
          call.prot &&& 2 ≠ 0 ∧ m.dirty = false ∧ m.modified = false) then
      .done (some { m with unlockRequest := 0 })
    else .mustBlock
  else
    let m := { m with
      pageLock := if call.shouldFlush then 7 else call.prot
      unlockRequest := 0
      dirty := m.dirty || (call.shouldClean && m.modified) }
    if call.shouldClean ∧ m.dirty then .mustClean { m with active := false, inactive := false }
    else if call.shouldFlush then .done none
    else .done (some (if call.shouldClean then m.deactivate else m))

namespace LockScan

/-- `CLEAN_DIRTY_PAGES`, if there is a cluster. -/
def cleanDirtyPages (s : LockScan δ) : LockScan δ :=
  match s.cluster with
  | none => s
  | some c =>
    { pages := fun x => if x ∈ c.holding then none else s.pages x
      cluster := none
      sent := s.sent ++ [⟨c.start, c.data⟩] }

/-- Store what is at an offset. -/
def set (s : LockScan δ) (x : Nat) (page : Option (CachedPage δ)) : LockScan δ :=
  { s with pages := update s.pages x page }

variable (call : RangeLock)

/-- A cluster that the page at the offset does not continue is sent. -/
def cut (x : Nat) (s : LockScan δ) : LockScan δ :=
  if ∀ c ∈ s.cluster, c.last = x then s else s.cleanDirtyPages

/-- The cluster that a page is added to. -/
def clusterFor (x : Nat) (s : LockScan δ) : Cluster δ :=
  s.cluster.getD ⟨(x + call.pagingOffset) % 2 ^ 32, [], [], x⟩

variable [Inhabited δ]

/-- `MEMORY_OBJECT_LOCK_RESULT_MUST_CLEAN`, with `vm_pageout_setup`. -/
def collect (x : Nat) (m : CachedPage δ) (s : LockScan δ) : LockScan δ :=
  let m := { m with busy := true }
  let s := s.cut x
  let c := s.clusterFor call x
  let last := (x + call.pageSize) % 2 ^ 32
  if call.shouldFlush ∨ call.alloc x = false then
    { s.set x (some .holdingPage) with
        cluster := some ⟨c.start, c.data ++ [m.contents], c.holding ++ [x], last⟩ }
  else
    { s.set x (some m.copyOut) with
        cluster := some ⟨c.start, c.data ++ [m.contents], c.holding, last⟩ }

/-- A round of the inner loop while there is no cluster. -/
def visitAlone (x : Nat) (s : LockScan δ) : Option (LockScan δ) :=
  match s.pages x with
  | none => some s
  | some m =>
    match memoryObjectLockPage call m with
    | .done page => some (s.set x page)
    | .mustBlock => none
    | .mustClean m => some (s.collect call x m)

/-- The inner loop.  If the cluster is sent for the sake of the page, then the page is looked at
again. -/
def visit (x : Nat) (s : LockScan δ) : Option (LockScan δ) :=
  if s.cluster = none then s.visitAlone call x
  else
    match s.pages x with
    | none => some s
    | some m =>
      match memoryObjectLockPage call m with
      | .done page => (s.set x page).cleanDirtyPages.visitAlone call x
      | .mustBlock => s.cleanDirtyPages.visitAlone call x
      | .mustClean m => some (s.collect call x m)

/-- The cluster is sent if it is full. -/
def limit (s : LockScan δ) : LockScan δ :=
  if ∀ c ∈ s.cluster, c.data.length < dataWriteMax then s else s.cleanDirtyPages

/-- The loop over a number of pages. -/
def scan : Nat → Nat → LockScan δ → Option (LockScan δ)
  | 0, _, s => some s
  | n + 1, x, s => (s.limit.visit call x).bind (scan n ((x + call.pageSize) % 2 ^ 32))

end LockScan

namespace RangeLock

/-- `round_page`, in pages. -/
def pageCount (call : RangeLock) : Nat :=
  (call.size + (call.pageSize - 1)) % 2 ^ 32 / call.pageSize

/-- The offset in the object where the call starts. -/
def start (call : RangeLock) : Nat :=
  (call.offset + (2 ^ 32 - call.pagingOffset % 2 ^ 32)) % 2 ^ 32

end RangeLock

open RangeLock

/-- `memory_object_lock_request`. -/
def memoryObjectLockRequest [Inhabited δ] (call : RangeLock) (pages : Nat → Option (CachedPage δ)) :
    Except KernReturn (Option (LockOutcome δ)) :=
  if 8 ≤ call.prot then .error .invalidArgument
  else
    .ok ((LockScan.scan call call.pageCount call.start ⟨pages, none, []⟩).map fun s =>
      { pages := s.cleanDirtyPages.pages
        sent := s.cleanDirtyPages.sent
        completed := if call.reply then some (call.offset, call.size) else none })

/-! ## What the call is for -/

/-- The pages of a message, each with its offset in the memory object. -/
def DataWrite.pages (pageSize : Nat) (w : DataWrite δ) : List (Nat × δ) :=
  w.data.mapIdx fun k data => ((w.offset + k * pageSize) % 2 ^ 32, data)

namespace RangeLock

variable (call : RangeLock) (pages : Nat → Option (CachedPage δ))

/-- The offset in the memory object of an offset in the object. -/
def within (x : Nat) : Nat := (x + call.pagingOffset) % 2 ^ 32

/-- The page is one of those that are asked for. -/
def InRange (x : Nat) : Prop :=
  call.offset ≤ call.within x ∧ call.within x < call.offset + call.size

/-- The page is written back. -/
def Owes (m : CachedPage δ) : Prop := call.shouldClean = true ∧ m.absent = false ∧ m.Dirty

instance (m : CachedPage δ) : Decidable (call.Owes m) := inferInstanceAs (Decidable (_ ∧ _))

/-- What is to be written of the page at an offset. -/
def owed (x : Nat) : Option (Nat × δ) :=
  (pages x).bind fun m => if call.Owes m then some (call.within x, m.contents) else none

/-- The offset of a page of the range. -/
def pageAt (i : Nat) : Nat := (call.start + i * call.pageSize) % 2 ^ 32

/-- The page is cleaned and stays. -/
def Copies (x : Nat) (m : CachedPage δ) : Prop :=
  call.shouldFlush = false ∧ call.Owes m ∧ call.alloc x = true

/-- What the description of the call says. -/
structure Meets (out : LockOutcome δ) : Prop where
  /-- The dirty pages of the range are sent, and nothing else. -/
  writes : ∀ e, e ∈ out.sent.flatMap (DataWrite.pages call.pageSize) ↔
    ∃ x, call.InRange x ∧ call.owed pages x = some e
  /-- Each is sent once, and in ascending order. -/
  once : (out.sent.flatMap (DataWrite.pages call.pageSize)).Pairwise fun e e' => e.1 < e'.1
  runs : ∀ w ∈ out.sent, w.data ≠ [] ∧ w.data.length ≤ dataWriteMax
  flushed : call.shouldFlush = true → ∀ x m, pages x = some m → m.absent = false →
    call.InRange x → out.pages x = none
  /-- A page stays unless there is no page for its copy. -/
  kept : call.shouldFlush = false → ∀ x m, pages x = some m → m.absent = false →
    call.InRange x → (call.Owes m → call.alloc x = true) →
    ∃ m', out.pages x = some m' ∧ m'.contents = m.contents ∧ m'.busy = false ∧
      (call.shouldClean = true → ¬ m'.Dirty) ∧ m'.pageLock = call.prot ∧
      (m'.active = true ∨ m'.inactive = true)
  /-- There is no place-holder. -/
  settled : ∀ x m, out.pages x = some m → m.busy = false
  outside : ∀ x, (∀ m, pages x = some m → m.absent = false → ¬ call.InRange x) →
    out.pages x = pages x
  completed : out.completed = if call.reply then some (call.offset, call.size) else none

/-- The arguments are legal. -/
structure Legal : Prop where
  pos : 0 < call.pageSize
  dvd : call.pageSize ∣ 2 ^ 32
  aligned : call.pageSize ∣ call.offset
  lt : call.offset < 2 ^ 32
  prot : call.prot < 8

/-- The page is neither busy nor wired, and at a place for a page. -/
structure IdleAt (x : Nat) (m : CachedPage δ) : Prop where
  lt : x < 2 ^ 32
  dvd : call.pageSize ∣ call.within x
  busy : m.busy = false
  wired : m.wired = false

/-- No page is busy or wired. -/
def Idle : Prop := ∀ x m, pages x = some m → call.IdleAt x m

/-- The offset is among the pages that the rounded size has from the start on. -/
def Visits (x : Nat) : Prop := ∃ i < call.pageCount, call.pageAt i = x

/-- The page is neither flushed nor written, and has the lock that is asked for. -/
structure Rests (m : CachedPage δ) : Prop where
  kept : call.shouldFlush = false
  clean : ¬ call.Owes m
  lock : m.pageLock = call.prot

/-- What a page has to be for the call to do to it what the description says. -/
structure Served (x : Nat) (m : CachedPage δ) : Prop where
  copied : call.InRange x → call.Visits x → ¬ call.Copies x m
  /-- Only cleaning puts a page on a queue. -/
  queued : call.InRange x → call.Visits x → call.shouldFlush = false → call.shouldClean = false →
    m.active = true ∨ m.inactive = true
  /-- A page that the loop does not come to stays as it is. -/
  missed : call.InRange x → ¬ call.Visits x → call.Rests m ∧ (m.active = true ∨ m.inactive = true)
  /-- A page that the loop comes to is locked. -/
  passed : ¬ call.InRange x → call.Visits x → call.Rests m ∧ m.unlockRequest = 0 ∧
    (call.shouldClean = true → m.active = false ∧ m.inactive = true)

end RangeLock

/-! ## One page -/

namespace CachedPage

variable (call : RangeLock) (m : CachedPage δ)

/-- The page after a call that does not clean it. -/
def locked : CachedPage δ :=
  if call.shouldClean then { m with pageLock := call.prot, unlockRequest := 0 }.deactivate
  else { m with pageLock := call.prot, unlockRequest := 0 }

/-- The page after a call that has copied it. -/
def cleaned : CachedPage δ :=
  { m with
      pageLock := call.prot
      unlockRequest := 0
      dirty := false
      modified := false
      active := false
      inactive := false }

/-- A page that `memory_object_lock_page` leaves to be cleaned. -/
def soiled : CachedPage δ :=
  { m with
      pageLock := if call.shouldFlush then 7 else call.prot
      unlockRequest := 0
      dirty := true
      active := false
      inactive := false }

end CachedPage

namespace RangeLock

variable (call : RangeLock) (pages : Nat → Option (CachedPage δ))

/-- What the call leaves of a page. -/
def left (x : Nat) (m : CachedPage δ) : Option (CachedPage δ) :=
  if m.absent then some m
  else if call.shouldFlush then none
  else if call.Owes m then if call.alloc x then some (m.cleaned call) else none
  else some (m.locked call)

/-- The pages when some pages of the range are done. -/
def after : Nat → Nat → Option (CachedPage δ)
  | 0 => pages
  | i + 1 => update (after i) (call.pageAt i) ((pages (call.pageAt i)).bind
      (call.left (call.pageAt i)))

/-- What is owed for the first pages of the range. -/
def owedUpTo (i : Nat) : List (Nat × δ) :=
  (List.range i).filterMap fun j => call.owed pages (call.pageAt j)

variable {call} in
theorem left_busy {x : Nat} {m m' : CachedPage δ} (hm : m.busy = false)
    (h : call.left x m = some m') : m'.busy = false := by
  rw [left] at h
  split at h
  · cases h
    exact hm
  split at h
  · cases h
  split at h
  · split at h <;> cases h
    exact hm
  · cases h
    rw [locked]
    split <;> simp [deactivate, hm]

theorem owedUpTo_succ (i : Nat) :
    call.owedUpTo pages (i + 1) = call.owedUpTo pages i ++
      (call.owed pages (call.pageAt i)).toList := by
  cases h : call.owed pages (call.pageAt i) <;> simp [owedUpTo, List.range_succ, h]

end RangeLock

section Page

variable {call : RangeLock} {m : CachedPage δ}

theorem memoryObjectLockPage_eq (hbusy : m.busy = false) (hwired : m.wired = false) :
    memoryObjectLockPage call m =
      if m.absent then .done (some m)
      else if call.Owes m then .mustClean (m.soiled call)
      else .done (if call.shouldFlush then none else some (m.locked call)) := by
  obtain ⟨contents, absent, busy, wired, dirty, modified⟩ := m
  obtain rfl : busy = false := hbusy
  obtain rfl : wired = false := hwired
  cases absent <;> cases hclean : call.shouldClean <;> cases hflush : call.shouldFlush <;>
    cases dirty <;> cases modified <;>
    simp [memoryObjectLockPage, RangeLock.Owes, CachedPage.Dirty, soiled, locked, hclean, hflush]

theorem CachedPage.locked_kept {x : Nat} (m : CachedPage δ) (hidle : call.IdleAt x m)
    (habsent : m.absent = false) (howes : ¬ call.Owes m)
    (hqueued : call.shouldClean = false → m.active = true ∨ m.inactive = true) :
    (m.locked call).contents = m.contents ∧ (m.locked call).busy = false ∧
      (call.shouldClean = true → ¬ (m.locked call).Dirty) ∧ (m.locked call).pageLock = call.prot ∧
      ((m.locked call).active = true ∨ (m.locked call).inactive = true) := by
  have hbusy := hidle.busy
  have hwired := hidle.wired
  cases hclean : call.shouldClean with
  | true =>
    have hdirty : ¬ m.Dirty := fun h => howes ⟨hclean, habsent, h⟩
    simpa [locked, deactivate, Dirty, hclean, hbusy, hwired] using hdirty
  | false => simp [locked, hclean, hbusy, hqueued hclean]

theorem CachedPage.locked_eq_iff {x : Nat} (m : CachedPage δ) (hidle : call.IdleAt x m) :
    m.locked call = m ↔ m.pageLock = call.prot ∧ m.unlockRequest = 0 ∧
      (call.shouldClean = true → m.active = false ∧ m.inactive = true) := by
  obtain ⟨-, -, hbusy, hwired⟩ := hidle
  obtain ⟨contents, absent, busy, wired, dirty, modified, pageLock, unlockRequest, active,
      inactive⟩ := m
  obtain rfl : busy = false := hbusy
  obtain rfl : wired = false := hwired
  cases hclean : call.shouldClean <;> simp [locked, deactivate, hclean, eq_comm]

theorem copyOut_soiled (hbusy : m.busy = false) (hflush : call.shouldFlush = false) :
    { m.soiled call with busy := true }.copyOut = m.cleaned call := by
  simp [copyOut, soiled, deactivate, cleaned, hbusy, hflush]

end Page

/-! ## The loop -/

namespace LockScan

/-- The offsets of the place-holders. -/
def holding (s : LockScan δ) : List Nat := (s.cluster.map Cluster.holding).getD []

/-- The pages that are collected and not yet sent. -/
def pending (s : LockScan δ) (pageSize : Nat) : List (Nat × δ) :=
  (s.cluster.map fun c => DataWrite.pages pageSize ⟨c.start, c.data⟩).getD []

variable [Inhabited δ] (call : RangeLock) (pages : Nat → Option (CachedPage δ))

/-- The first `i` pages of the range are done, but for the cluster. -/
structure Inv (i : Nat) (s : LockScan δ) : Prop where
  cached : ∀ x, s.pages x = if x ∈ s.holding then some .holdingPage else call.after pages i x
  held : ∀ x ∈ s.holding, call.after pages i x = none ∧ pages x ≠ none
  writes : s.sent.flatMap (DataWrite.pages call.pageSize) ++ s.pending call.pageSize =
    call.owedUpTo pages i
  runs : ∀ w ∈ s.sent, w.data ≠ [] ∧ w.data.length ≤ dataWriteMax
  cluster : ∀ c ∈ s.cluster, c.data ≠ [] ∧ c.data.length ≤ dataWriteMax ∧
    call.within c.last = (c.start + c.data.length * call.pageSize) % 2 ^ 32

variable {call pages} {i : Nat} {s : LockScan δ} {m : CachedPage δ}

omit [Inhabited δ] in
@[simp] theorem cluster_cleanDirtyPages (s : LockScan δ) : s.cleanDirtyPages.cluster = none := by
  rw [cleanDirtyPages]
  split <;> simp_all

theorem Inv.clean (h : s.Inv call pages i) : s.cleanDirtyPages.Inv call pages i := by
  cases hc : s.cluster with
  | none => rwa [cleanDirtyPages, hc]
  | some c =>
    have hholding : s.holding = c.holding := by simp [holding, hc]
    have hpages := h.cached
    rw [hholding] at hpages
    rw [cleanDirtyPages, hc]
    constructor
    · intro x
      by_cases hx : x ∈ c.holding
      · simpa [hx, holding] using (h.held x (hholding ▸ hx)).1.symm
      · simp [hx, holding, hpages]
    · simp [holding]
    · have hw := h.writes
      simpa [pending, hc] using hw
    · intro w hw
      rcases List.mem_append.mp hw with hw | hw
      · exact h.runs w hw
      · obtain rfl := List.mem_singleton.mp hw
        obtain ⟨hne, hle, -⟩ := h.cluster c hc
        exact ⟨hne, hle⟩
    · simp

theorem Inv.limit (h : s.Inv call pages i) :
    s.limit.Inv call pages i ∧ ∀ c ∈ s.limit.cluster, c.data.length < dataWriteMax := by
  rw [LockScan.limit]
  split
  · exact ⟨h, by assumption⟩
  · exact ⟨h.clean, by simp⟩

theorem Inv.lookup (h : s.Inv call pages i)
    (hfresh : call.after pages i (call.pageAt i) = pages (call.pageAt i)) :
    call.pageAt i ∉ s.holding ∧ s.pages (call.pageAt i) = pages (call.pageAt i) := by
  have hnot : call.pageAt i ∉ s.holding := fun hx =>
    (h.held _ hx).2 (hfresh.symm.trans (h.held _ hx).1)
  exact ⟨hnot, by rw [h.cached, if_neg hnot, hfresh]⟩

omit [Inhabited δ] in
variable {page : Option (CachedPage δ)}

section

variable (h : s.Inv call pages i)
include h

theorem Inv.set (hfresh : call.pageAt i ∉ s.holding)
    (howes : call.owed pages (call.pageAt i) = none)
    (hpage : (pages (call.pageAt i)).bind (call.left (call.pageAt i)) = page) :
    (s.set (call.pageAt i) page).Inv call pages (i + 1) := by
  have hne : ∀ x ∈ s.holding, x ≠ call.pageAt i := fun x hx he => hfresh (he ▸ hx)
  constructor
  · intro x
    change update s.pages _ page x = if x ∈ s.holding then _ else _
    rw [after, hpage]
    rcases eq_or_ne x (call.pageAt i) with rfl | hx
    · simp [hfresh]
    · simpa [update_of_ne hx] using h.cached x
  · intro x hx
    rw [after, update_of_ne (hne x hx)]
    exact h.held x hx
  · rw [owedUpTo_succ, howes, ← h.writes]
    exact (List.append_nil _).symm
  · exact h.runs
  · exact h.cluster

/-- The cluster has room for the next page, which continues it. -/
structure Takes (call : RangeLock) (pages : Nat → Option (CachedPage δ)) (i : Nat) (s : LockScan δ)
    (c : Cluster δ) : Prop where
  inv : s.Inv call pages i
  holding : s.holding = c.holding
  pending : s.pending call.pageSize = DataWrite.pages call.pageSize ⟨c.start, c.data⟩
  room : c.data.length < dataWriteMax
  place : call.within (call.pageAt i) = (c.start + c.data.length * call.pageSize) % 2 ^ 32

section

variable (hfull : ∀ c ∈ s.cluster, c.data.length < dataWriteMax)
include hfull

theorem Inv.takes (hlast : ∀ c ∈ s.cluster, c.last = call.pageAt i) :
    s.Takes call pages i (s.clusterFor call (call.pageAt i)) := by
  rw [clusterFor]
  cases hc : s.cluster with
  | none =>
    exact ⟨h, by rw [holding, hc]; rfl, by rw [pending, hc]; rfl, Nat.zero_lt_succ _,
      by simp [within]⟩
  | some c =>
    refine ⟨h, by rw [holding, hc]; rfl, by rw [pending, hc]; rfl, hfull c hc, ?_⟩
    rw [← hlast c hc]
    exact (h.cluster c hc).2.2

theorem Inv.takes_cut : (s.cut (call.pageAt i)).Takes call pages i
      ((s.cut (call.pageAt i)).clusterFor call (call.pageAt i)) := by
  rw [cut]
  split
  · exact h.takes hfull (by assumption)
  · exact h.clean.takes (by simp) (by simp)

theorem Inv.collect (hfresh : call.after pages i (call.pageAt i) = pages (call.pageAt i))
    (hm : pages (call.pageAt i) = some m) (howes : call.Owes m) (hbusy : m.busy = false) :
    (s.collect call (call.pageAt i) (m.soiled call)).Inv call pages (i + 1) := by
  have ht := h.takes_cut hfull
  rw [LockScan.collect]
  generalize s.cut (call.pageAt i) = s' at ht ⊢
  generalize hc : s'.clusterFor call (call.pageAt i) = c at ht ⊢
  have hnot : call.pageAt i ∉ c.holding := ht.holding ▸ (ht.inv.lookup hfresh).1
  have hne : ∀ x ∈ c.holding, x ≠ call.pageAt i := fun x hx he => hnot (he ▸ hx)
  have hplace : call.within ((call.pageAt i + call.pageSize) % 2 ^ 32) =
      (c.start + (c.data.length + 1) * call.pageSize) % 2 ^ 32 := by
    have := ht.place
    simp only [within] at this ⊢
    rw [Nat.add_mul]
    omega
  have hcached := ht.inv.cached
  have hheld := ht.inv.held
  have hwrites := ht.inv.writes
  rw [ht.holding] at hcached hheld
  rw [ht.pending] at hwrites
  have howed : call.owed pages (call.pageAt i) = some (call.within (call.pageAt i),
      m.contents) := by
    simp [owed, hm, howes]
  have hleft : (pages (call.pageAt i)).bind (call.left (call.pageAt i)) =
      if call.shouldFlush ∨ call.alloc (call.pageAt i) = false then none
      else some (m.cleaned call) := by
    rw [hm, Option.bind_some, left]
    cases hflush : call.shouldFlush <;> cases halloc : call.alloc (call.pageAt i) <;>
      simp [howes, howes.2.1]
  have hlog : s'.sent.flatMap (DataWrite.pages call.pageSize) ++
      DataWrite.pages call.pageSize ⟨c.start, c.data ++ [m.contents]⟩ =
        call.owedUpTo pages (i + 1) := by
    rw [owedUpTo_succ, howed, ← hwrites, ht.place]
    simp [DataWrite.pages]
  have hrun : c.data ++ [m.contents] ≠ [] ∧ (c.data ++ [m.contents]).length ≤ dataWriteMax ∧
      call.within ((call.pageAt i + call.pageSize) % 2 ^ 32) =
        (c.start + (c.data ++ [m.contents]).length * call.pageSize) % 2 ^ 32 :=
    ⟨by simp, by simpa using Nat.succ_le_of_lt ht.room, by simpa using hplace⟩
  split
  · rename_i hflush
    rw [if_pos hflush] at hleft
    constructor
    · intro x
      change update s'.pages _ _ x = if x ∈ c.holding ++ [call.pageAt i] then _ else _
      rw [after, hleft]
      rcases eq_or_ne x (call.pageAt i) with rfl | hx
      · simp
      · simpa [hx] using hcached x
    · intro x hx
      rw [after, hleft]
      rcases List.mem_append.mp hx with hx | hx
      · rw [update_of_ne (hne x hx)]
        exact hheld x hx
      · obtain rfl := List.mem_singleton.mp hx
        exact ⟨update_self .., by simp [hm]⟩
    · exact hlog
    · exact ht.inv.runs
    · rintro _ ⟨⟩
      exact hrun
  · rename_i hflush
    rw [if_neg hflush] at hleft
    constructor
    · intro x
      change update s'.pages _ _ x = if x ∈ c.holding then _ else _
      rw [after, hleft, copyOut_soiled hbusy (by simp_all)]
      rcases eq_or_ne x (call.pageAt i) with rfl | hx
      · simp [hnot]
      · simpa [update_of_ne hx] using hcached x
    · intro x hx
      rw [after, hleft, update_of_ne (hne x hx)]
      exact hheld x hx
    · exact hlog
    · exact ht.inv.runs
    · rintro _ ⟨⟩
      exact hrun

end

end

omit [Inhabited δ] in
theorem set_self {x : Nat} (h : s.pages x = page) : s.set x page = s := by
  rw [set, ← h, update_eq_self]

/-- The next page is done, also if the cluster is sent before it is looked at again. -/
theorem Inv.visit_done (h : s.Inv call pages i) (hnot : call.pageAt i ∉ s.holding)
    (howed : call.owed pages (call.pageAt i) = none)
    (hm : s.pages (call.pageAt i) = some m)
    (hleft : (pages (call.pageAt i)).bind (call.left (call.pageAt i)) = page)
    (hdone : memoryObjectLockPage call m = .done page)
    (hagain : ∀ m', page = some m' → memoryObjectLockPage call m' = .done page) :
    ∃ s', s.visit call (call.pageAt i) = some s' ∧ s'.Inv call pages (i + 1) := by
  have hset := h.set hnot howed hleft
  cases hc : s.cluster with
  | none =>
    refine ⟨_, ?_, hset⟩
    simp [visit, visitAlone, hc, hm, hdone]
  | some =>
    refine ⟨_, ?_, hset.clean⟩
    rw [visit, if_neg (by simp [hc]), hm]
    dsimp only
    rw [hdone]
    dsimp only
    have hpage : (s.set (call.pageAt i) page).cleanDirtyPages.pages (call.pageAt i) = page := by
      rw [hset.clean.cached, holding, cluster_cleanDirtyPages, after, hleft]
      simp
    rw [visitAlone, hpage]
    cases page with
    | none => rfl
    | some m' =>
      dsimp only
      rw [hagain m' rfl]
      exact congrArg some (set_self hpage)

theorem Inv.visit (h : s.Inv call pages i) (hidle : call.Idle pages)
    (hfull : ∀ c ∈ s.cluster, c.data.length < dataWriteMax)
    (hfresh : call.after pages i (call.pageAt i) = pages (call.pageAt i)) :
    ∃ s', s.visit call (call.pageAt i) = some s' ∧ s'.Inv call pages (i + 1) := by
  obtain ⟨hnot, hlook⟩ := h.lookup hfresh
  cases hm : pages (call.pageAt i) with
  | none =>
    have howed : call.owed pages (call.pageAt i) = none := by simp [owed, hm]
    have hsame := h.set hnot howed (show _ = none by rw [hm]; rfl)
    rw [set_self (hlook.trans hm)] at hsame
    refine ⟨s, ?_, hsame⟩
    simp [LockScan.visit, visitAlone, hlook, hm]
  | some m =>
    rw [hm] at hlook
    obtain ⟨-, -, hbusy, hwired⟩ := hidle _ m hm
    have hpage : memoryObjectLockPage call m = _ := memoryObjectLockPage_eq hbusy hwired
    have hleft : (pages (call.pageAt i)).bind (call.left (call.pageAt i)) =
        call.left (call.pageAt i) m := by rw [hm, Option.bind_some]
    cases habsent : m.absent with
    | true =>
      rw [if_pos habsent] at hpage
      rw [left, if_pos habsent] at hleft
      refine h.visit_done hnot (by simp [owed, hm, RangeLock.Owes, habsent]) hlook hleft hpage ?_
      rintro _ ⟨⟩
      exact hpage
    | false =>
      rw [if_neg (by simp [habsent])] at hpage
      rw [left, if_neg (by simp [habsent])] at hleft
      by_cases howes : call.Owes m
      · rw [if_pos howes] at hpage
        refine ⟨_, ?_, h.collect hfull hfresh hm howes hbusy⟩
        simp [LockScan.visit, visitAlone, hlook, hpage]
      rw [if_neg howes] at hpage hleft
      refine h.visit_done hnot (by simp [owed, hm, howes]) hlook hleft hpage ?_
      cases hflush : call.shouldFlush with
      | true => simp
      | false =>
        rintro _ ⟨⟩
        obtain ⟨contents, absent, busy, wired, dirty, modified⟩ := m
        cases hclean : call.shouldClean <;> cases dirty <;> cases modified <;>
          simp_all [memoryObjectLockPage, RangeLock.Owes, CachedPage.Dirty, locked, deactivate]

theorem Inv.scan (hidle : call.Idle pages) {n : Nat}
    (hfresh : ∀ j < i + n, call.after pages j (call.pageAt j) = pages (call.pageAt j))
    (h : s.Inv call pages i) :
    ∃ s', s.scan call n (call.pageAt i) = some s' ∧ s'.Inv call pages (i + n) := by
  induction n generalizing i s with
  | zero => exact ⟨s, rfl, h⟩
  | succ n ih =>
    obtain ⟨hlimit, hfull⟩ := h.limit
    obtain ⟨s₁, hvisit, h₁⟩ := hlimit.visit hidle hfull (hfresh i (by omega))
    obtain ⟨s', hscan, h'⟩ := ih (fun j hj => hfresh j (by omega)) h₁
    have hnext : (call.pageAt i + call.pageSize) % 2 ^ 32 = call.pageAt (i + 1) := by
      simp only [pageAt, Nat.add_mul]
      omega
    refine ⟨s', ?_, (by omega : i + 1 + n = i + (n + 1)) ▸ h'⟩
    rw [scan, hvisit, Option.bind_some, hnext, hscan]

end LockScan

/-! ## The range -/

namespace RangeLock

variable {call : RangeLock} {pages : Nat → Option (CachedPage δ)} {i n x : Nat}

theorem after_of_ne (h : ∀ j < i, call.pageAt j ≠ x) : call.after pages i x = pages x := by
  induction i with
  | zero => rfl
  | succ i ih =>
    rw [after, update_of_ne (h i (by omega)).symm]
    exact ih fun j hj => h j (by omega)

theorem owed_fst {e : Nat × δ} (h : call.owed pages x = some e) : e.1 = call.within x := by
  obtain ⟨m, -, h⟩ := Option.bind_eq_some_iff.mp h
  split at h <;> cases h
  rfl

theorem mem_owedUpTo {e : Nat × δ} : e ∈ call.owedUpTo pages call.pageCount ↔
    ∃ x, call.Visits x ∧ call.owed pages x = some e := by
  rw [owedUpTo, List.mem_filterMap]
  constructor
  · rintro ⟨i, hi, he⟩
    exact ⟨call.pageAt i, ⟨i, List.mem_range.mp hi, rfl⟩, he⟩
  · rintro ⟨x, ⟨i, hi, rfl⟩, he⟩
    exact ⟨i, List.mem_range.mpr hi, he⟩

theorem Idle.owed_unique (hidle : call.Idle pages) {y : Nat} {e : Nat × δ}
    (hx : call.owed pages x = some e) (hy : call.owed pages y = some e) : x = y := by
  obtain ⟨m, hm, -⟩ := Option.bind_eq_some_iff.mp hx
  obtain ⟨m', hm', -⟩ := Option.bind_eq_some_iff.mp hy
  have hlt := (hidle x m hm).lt
  have hlt' := (hidle y m' hm').lt
  have hwithin := (owed_fst hx).symm.trans (owed_fst hy)
  simp only [within] at hwithin
  omega

theorem mul_lt_of_lt_pageCount (hi : i < call.pageCount) : i * call.pageSize < 2 ^ 32 :=
  calc i * call.pageSize
    _ ≤ call.pageCount * call.pageSize := Nat.mul_le_mul_right _ hi.le
    _ ≤ (call.size + (call.pageSize - 1)) % 2 ^ 32 := Nat.div_mul_le_self ..
    _ < 2 ^ 32 := Nat.mod_lt _ (by decide)

theorem after_of_not_visits (h : ¬ call.Visits x) :
    call.after pages call.pageCount x = pages x :=
  after_of_ne fun j hj he => h ⟨j, hj, he⟩

section

variable (h : call.Legal)
include h

/-- The loop does not come to a page twice. -/
theorem Legal.pageAt_ne {j : Nat} (hji : j < i) (hi : i < call.pageCount) :
    call.pageAt j ≠ call.pageAt i := by
  have hlt := mul_lt_of_lt_pageCount hi
  have hmul := Nat.mul_lt_mul_of_pos_right hji h.pos
  rw [pageAt, pageAt]
  omega

theorem Legal.after_pageAt (hi : i < n) (hn : n ≤ call.pageCount) :
    call.after pages n (call.pageAt i) =
      (pages (call.pageAt i)).bind (call.left (call.pageAt i)) := by
  induction n with
  | zero => omega
  | succ n ih =>
    rw [after]
    rcases Nat.lt_succ_iff_lt_or_eq.mp hi with hlt | rfl
    · rw [update_of_ne (h.pageAt_ne hlt hn)]
      exact ih hlt (by omega)
    · exact update_self ..

/-- Each page that the loop comes to is left as `left` says. -/
theorem Legal.after_visits (hx : call.Visits x) :
    call.after pages call.pageCount x = (pages x).bind (call.left x) := by
  obtain ⟨i, hi, rfl⟩ := hx
  exact h.after_pageAt hi le_rfl

theorem Legal.after_busy (hidle : call.Idle pages) {m : CachedPage δ}
    (hm : call.after pages call.pageCount x = some m) : m.busy = false := by
  by_cases hx : call.Visits x
  · rw [h.after_visits hx] at hm
    obtain ⟨m₀, hm₀, hm⟩ := Option.bind_eq_some_iff.mp hm
    exact left_busy (hidle x m₀ hm₀).busy hm
  · rw [after_of_not_visits hx] at hm
    exact (hidle x m hm).busy

/-- If what is owed is in the range then it is owed in ascending order. -/
theorem Legal.pairwise_owedUpTo
    (hrange : ∀ x e, call.Visits x → call.owed pages x = some e → call.InRange x) :
    (call.owedUpTo pages call.pageCount).Pairwise fun e e' => e.1 < e'.1 := by
  rw [owedUpTo, List.pairwise_filterMap]
  refine List.pairwise_lt_range.imp_of_mem fun {j i} hj hi hlt => ?_
  intro e he e' he'
  rw [List.mem_range] at hj hi
  have hplace : ∀ k < call.pageCount, ∀ e, call.owed pages (call.pageAt k) = some e →
      e.1 = call.offset + k * call.pageSize := by
    intro k hk e he
    have hin := (hrange _ e ⟨k, hk, rfl⟩ he).1
    have hmul := mul_lt_of_lt_pageCount hk
    have hoffset := h.lt
    rw [owed_fst he]
    rw [within, pageAt, start] at hin ⊢
    omega
  rw [hplace j hj e he, hplace i hi e' he']
  exact Nat.add_lt_add_left (Nat.mul_lt_mul_of_pos_right hlt h.pos) _

end

end RangeLock

/-! ## The call -/

section Request

variable [Inhabited δ] {call : RangeLock} {pages : Nat → Option (CachedPage δ)}

/-- The call returns, and what it leaves is what is left of each page. -/
theorem memoryObjectLockRequest_eq (hlegal : call.Legal) (hidle : call.Idle pages) :
    ∃ sent, memoryObjectLockRequest call pages = .ok (some ⟨call.after pages call.pageCount, sent,
          if call.reply then some (call.offset, call.size) else none⟩) ∧
      sent.flatMap (DataWrite.pages call.pageSize) = call.owedUpTo pages call.pageCount ∧
      ∀ w ∈ sent, w.data ≠ [] ∧ w.data.length ≤ dataWriteMax := by
  have hinit : LockScan.Inv call pages 0 ⟨pages, none, []⟩ :=
    ⟨fun _ => rfl, by simp [LockScan.holding], rfl, by simp, by simp⟩
  obtain ⟨s, hscan, hs⟩ := hinit.scan hidle (n := call.pageCount)
    fun j hj => after_of_ne fun _ hk => hlegal.pageAt_ne hk (by omega)
  rw [Nat.zero_add] at hs
  have hcluster := LockScan.cluster_cleanDirtyPages s
  refine ⟨s.cleanDirtyPages.sent, ?_, ?_, hs.clean.runs⟩
  · have hstart : call.pageAt 0 = call.start := by simp [pageAt, start]
    have hpages : s.cleanDirtyPages.pages = call.after pages call.pageCount := by
      funext x
      rw [hs.clean.cached, LockScan.holding, hcluster]
      simp
    rw [memoryObjectLockRequest, if_neg (by have := hlegal.prot; omega), ← hstart, hscan, ← hpages]
    rfl
  · rw [← hs.clean.writes, LockScan.pending, hcluster]
    simp

variable {out : LockOutcome δ} {x : Nat} {m : CachedPage δ}

omit [Inhabited δ] in
/-- The call does to a page what the description says only if the page is served. -/
theorem RangeLock.Meets.served (hlegal : call.Legal) (hidle : call.Idle pages)
    (hpages : out.pages = call.after pages call.pageCount)
    (hsent : out.sent.flatMap (DataWrite.pages call.pageSize) = call.owedUpTo pages call.pageCount)
    (hmeets : call.Meets pages out) (hm : pages x = some m) (habsent : m.absent = false) :
    call.Served x m := by
  have howed : call.Owes m → (call.Visits x ↔ call.InRange x) := by
    intro howes
    have he : call.owed pages x = some (call.within x, m.contents) := by simp [owed, hm, howes]
    have hwrites := hmeets.writes (call.within x, m.contents)
    rw [hsent, mem_owedUpTo] at hwrites
    constructor
    · intro hx
      obtain ⟨y, hy, he'⟩ := hwrites.mp ⟨x, hx, he⟩
      exact hidle.owed_unique he he' ▸ hy
    · intro hx
      obtain ⟨y, hy, he'⟩ := hwrites.mpr ⟨x, hx, he⟩
      exact hidle.owed_unique he he' ▸ hy
  have hleft : call.Visits x → call.shouldFlush = false → ¬ call.Owes m →
      out.pages x = some (m.locked call) := by
    intro hx hflush howes
    rw [hpages, hlegal.after_visits hx, hm, Option.bind_some, left, if_neg (by simp [habsent]),
      if_neg (by simp [hflush]), if_neg howes]
  constructor
  case copied =>
    rintro hrange hx ⟨hflush, howes, halloc⟩
    obtain ⟨m', hm', -, -, -, -, hqueued⟩ :=
      hmeets.kept hflush x m hm habsent hrange fun _ => halloc
    rw [hpages, hlegal.after_visits hx, hm, Option.bind_some, left, if_neg (by simp [habsent]),
      if_neg (by simp [hflush]), if_pos howes, if_pos halloc] at hm'
    cases hm'
    simp [cleaned] at hqueued
  case queued =>
    intro hrange hx hflush hclean
    have howes : ¬ call.Owes m := fun howes => by simp [howes.1] at hclean
    obtain ⟨m', hm', -, -, -, -, hqueued⟩ :=
      hmeets.kept hflush x m hm habsent hrange fun h => absurd h howes
    rw [hleft hx hflush howes] at hm'
    cases hm'
    simpa [locked, hclean] using hqueued
  case missed =>
    intro hrange hx
    have hsame : out.pages x = some m := by rw [hpages, after_of_not_visits hx, hm]
    have hflush : call.shouldFlush = false := by
      by_contra hflush
      have hnone := hmeets.flushed (by simpa using hflush) x m hm habsent hrange
      simp [hsame] at hnone
    have howes : ¬ call.Owes m := fun h => hx ((howed h).mpr hrange)
    obtain ⟨m', hm', -, -, -, hlock, hqueued⟩ :=
      hmeets.kept hflush x m hm habsent hrange fun h => absurd h howes
    obtain rfl : m = m' := Option.some.inj (hsame.symm.trans hm')
    exact ⟨⟨hflush, howes, hlock⟩, hqueued⟩
  case passed =>
    intro hrange hx
    have hsame := hmeets.outside x fun _ _ _ => hrange
    rw [hm] at hsame
    have hflush : call.shouldFlush = false := by
      by_contra hflush
      rw [hpages, hlegal.after_visits hx, hm, Option.bind_some, left, if_neg (by simp [habsent]),
        if_pos (by simpa using hflush)] at hsame
      cases hsame
    have howes : ¬ call.Owes m := fun h => hrange ((howed h).mp hx)
    obtain ⟨hlock, hunlock⟩ := (m.locked_eq_iff (hidle x m hm)).mp
      (Option.some.inj ((hleft hx hflush howes).symm.trans hsame))
    exact ⟨⟨hflush, howes, hlock⟩, hunlock⟩

/-- The call does what it is for exactly if each page is served. -/
theorem lockRequest_meets_iff (hlegal : call.Legal) (hidle : call.Idle pages) :
    ∃ out, memoryObjectLockRequest call pages = .ok (some out) ∧ (call.Meets pages out ↔
        ∀ x m, pages x = some m → m.absent = false → call.Served x m) := by
  obtain ⟨sent, hout, hsent, hruns⟩ := memoryObjectLockRequest_eq hlegal hidle
  refine ⟨_, hout, fun hmeets x m hm habsent => hmeets.served hlegal hidle rfl hsent hm habsent, ?_⟩
  intro hserved
  have howed : ∀ {x e}, call.owed pages x = some e → (call.Visits x ↔ call.InRange x) := by
    intro x e he
    obtain ⟨m, hm, he⟩ := Option.bind_eq_some_iff.mp he
    have howes : call.Owes m := (Option.ite_none_right_eq_some.mp he).1
    have hs := hserved x m hm howes.2.1
    constructor
    · intro hx
      by_contra hrange
      exact (hs.passed hrange hx).1.clean howes
    · intro hrange
      by_contra hx
      exact (hs.missed hrange hx).1.clean howes
  refine ⟨?_, ?_, hruns, ?_, ?_, fun x m hm => hlegal.after_busy hidle hm, ?_, rfl⟩
  · intro e
    rw [hsent, mem_owedUpTo]
    exact exists_congr fun x => and_congr_left fun he => howed he
  · rw [hsent]
    exact hlegal.pairwise_owedUpTo fun x e hx he => (howed he).mp hx
  · intro hflush x m hm habsent hrange
    change call.after pages call.pageCount x = none
    have hx : call.Visits x := by
      by_contra hx
      simp [((hserved x m hm habsent).missed hrange hx).1.kept] at hflush
    rw [hlegal.after_visits hx, hm, Option.bind_some, left, if_neg (by simp [habsent]),
      if_pos hflush]
  · intro hflush x m hm habsent hrange halloc
    change ∃ m', call.after pages call.pageCount x = some m' ∧ _
    have hs := hserved x m hm habsent
    by_cases hx : call.Visits x
    · have howes : ¬ call.Owes m := fun howes =>
        hs.copied hrange hx ⟨hflush, howes, halloc howes⟩
      refine ⟨m.locked call, ?_,
        m.locked_kept (hidle x m hm) habsent howes (hs.queued hrange hx hflush)⟩
      rw [hlegal.after_visits hx, hm, Option.bind_some, left, if_neg (by simp [habsent]),
        if_neg (by simp [hflush]), if_neg howes]
    · obtain ⟨hrests, hqueued⟩ := hs.missed hrange hx
      exact ⟨m, by rw [after_of_not_visits hx, hm], rfl, (hidle x m hm).busy,
        fun hclean hdirty => hrests.clean ⟨hclean, habsent, hdirty⟩, hrests.lock, hqueued⟩
  · intro x hout
    change call.after pages call.pageCount x = pages x
    by_cases hx : call.Visits x
    · rw [hlegal.after_visits hx]
      cases hm : pages x with
      | none => rfl
      | some m =>
        rw [Option.bind_some, left]
        cases habsent : m.absent with
        | true => rw [if_pos rfl]
        | false =>
          obtain ⟨hrests, hlocked⟩ := (hserved x m hm habsent).passed (hout m hm habsent) hx
          rw [if_neg (by simp), if_neg (by simp [hrests.kept]), if_neg hrests.clean,
            (m.locked_eq_iff (hidle x m hm)).mpr ⟨hrests.lock, hlocked⟩]
    · exact after_of_not_visits hx

end Request

/-- A page with the contents 5 at an offset. -/
def CachedPage.sample (x : Nat) (dirty : Bool) : Nat → Option (CachedPage Nat) := fun y =>
  if y = x then some ⟨5, false, false, false, dirty, false, 0, 0, true, false⟩ else none

theorem RangeLock.idle_sample {call : RangeLock} {x : Nat} (dirty : Bool) (hx : x < 2 ^ 32)
    (hdvd : call.pageSize ∣ call.within x) : call.Idle (CachedPage.sample x dirty) := by
  intro y m h
  obtain ⟨rfl, ⟨⟩⟩ := Option.ite_none_right_eq_some.mp h
  exact ⟨hx, hdvd, rfl, rfl⟩

/-- A dirty page is written back and flushed. -/
theorem lockRequest_meets_flush :
    let call : RangeLock := ⟨4096, 0, 4096, true, true, 2, true, 0, fun _ => true⟩
    ∃ out, memoryObjectLockRequest call (sample 0 true) = .ok (some out) ∧
      call.Meets (sample 0 true) out := by
  intro call
  have hlegal : call.Legal := ⟨by decide, by decide, by decide, by decide, by decide⟩
  obtain ⟨out, hout, hiff⟩ :=
    lockRequest_meets_iff hlegal (idle_sample true (x := 0) (by decide) (by decide))
  refine ⟨out, hout, hiff.mpr ?_⟩
  intro x m h _
  obtain ⟨rfl, -⟩ := Option.ite_none_right_eq_some.mp h
  have hx : call.Visits 0 := ⟨0, by decide, by decide⟩
  have hrange : call.InRange 0 := ⟨by decide, by decide⟩
  exact ⟨fun _ _ hcopies => absurd hcopies.1 (by decide),
    fun _ _ hflush => absurd hflush (by decide),
    fun _ hnot => absurd hx hnot, fun hnot => absurd hrange hnot⟩

/-- A dirty page that is cleaned and kept is on no queue; if the size wraps when it is rounded, then
a dirty page is not written; if the range wraps, then a page before it is flushed. -/
theorem not_lockRequest_meets :
    let pages := sample 0 true
    let fails := fun call : RangeLock => call.Idle pages ∧
      ∃ out, memoryObjectLockRequest call pages = .ok (some out) ∧ ¬ call.Meets pages out
    fails ⟨4096, 0, 4096, true, false, 0, true, 0, fun _ => true⟩ ∧
      fails ⟨4096, 0, 2 ^ 32 - 1, true, true, 0, true, 0, fun _ => true⟩ ∧
      fails ⟨4096, 2 ^ 32 - 4096, 8192, false, true, 0, true, 0, fun _ => true⟩ := by
  refine ⟨⟨idle_sample true (by decide) (by decide), _, rfl, ?_⟩,
    ⟨idle_sample true (by decide) (by decide), _, rfl, ?_⟩,
    ⟨idle_sample true (by decide) (by decide), _, rfl, ?_⟩⟩
  · intro h
    obtain ⟨m', hm', -, -, -, -, hqueued⟩ :=
      h.kept rfl 0 _ rfl rfl ⟨by decide, by decide⟩ fun _ => rfl
    have hleft : some ⟨5, false, false, false, false, false, 0, 0, false, false⟩ = some m' := hm'
    cases hleft
    simp at hqueued
  · intro h
    have hleft := h.flushed rfl 0 _ rfl rfl ⟨by decide, by decide⟩
    cases hleft
  · intro h
    have hleft := h.outside 0 fun _ _ _ hrange => absurd hrange.1 (by decide)
    cases hleft

end Mach
