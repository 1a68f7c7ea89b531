import Mach.Device.Disposal
import Mach.Lib.Runs
import Mathlib.Algebra.BigOperators.Group.Multiset.Basic
import Mathlib.Algebra.Order.BigOperators.Group.List
import Mathlib.Algebra.Order.Floor.Div
import Mathlib.Data.Multiset.OrderedMonoid

/-!
# Device writes and `device_io_map`

`device_write_get` maps all the data of a write, but wires only the bytes that `max_count` has left
in the request.  What was wired is what is unmapped in the end.  Both are the same pages if the
bytes that are left end in the same page as all of them (`QueueDriver.GivesBack`).  Otherwise
`device_io_map` fills up (`run_pages_iff`).

The request has room for the pages that the size of the data amounts to.  The data begin where they
did in the page of the sender, so that they may touch one page more (`pageList_fits_iff`).
-/

namespace Mach

open List Option

/-- The drivers that queue a write. -/
inductive QueueDriver where
  | block (maxCount : MaxCount)
  | net (ifp : Ifnet)

/-- The `io_count` of `device_write_get`, unless `block_io` or `net_write` refuses the write. -/
def QueueDriver.count (driver : QueueDriver) (data : OolData) : Option Int :=
  match driver with
  | .block maxCount =>
    if (ioCount data.count).tmod 512 ≠ 0 then none else some (maxCount.run (ioCount data.count))
  | .net ifp =>
    if ifp.running = false ∨ ifp.BadSize data then none else some (ioCount data.count)

/-- A write whose data are in `device_io_map`. -/
structure IoReq where
  /-- The room of the page list. -/
  slots : Nat
  /-- The page of `io_data`, and where the data begin in it. -/
  page : Nat
  offset : Nat
  /-- The size of the copy object. -/
  copied : Nat
  allocSize : Nat
deriving Repr, DecidableEq

/-- `atop(round_page(size))`, for `io_req_alloc`. -/
def ioReqSlots (pageSize size : Nat) : Nat := (size + (pageSize - 1)) % 2 ^ 32 / pageSize

/-- The request after `device_write_get`, if `vm_map_copyout` has found room at the page. -/
def QueueDriver.request (pageSize : Nat) (driver : QueueDriver) (data : OolData)
    (page offset : Nat) : Option IoReq :=
  (driver.count data).map fun count =>
    ⟨ioReqSlots pageSize data.count, page, offset, data.count, (count % 2 ^ 32).toNat⟩

namespace IoReq

variable (pageSize : Nat) (ior : IoReq)

/-- The pages up to `round_page(io_data + size)`. -/
def pages (size : Nat) : List Nat := .range' ior.page ((ior.offset + size) ⌈/⌉ pageSize)

/-- What `vm_map_copyout` maps. -/
def mapped : List Nat := ior.pages pageSize ior.copied

/-- What `device_write_dealloc` unmaps. -/
def unmapped : List Nat := ior.pages pageSize ior.allocSize

/-- All that is mapped will be unmapped. -/
def Whole : Prop := ior.mapped pageSize = ior.unmapped pageSize

/-- What is mapped and will not be unmapped. -/
def leaked : List Nat :=
  .range' (ior.page + (ior.offset + ior.allocSize) ⌈/⌉ pageSize)
    ((ior.offset + ior.copied) ⌈/⌉ pageSize - (ior.offset + ior.allocSize) ⌈/⌉ pageSize)

end IoReq

/-- The data end in the same page as the bytes that `max_count` has left.  Only `minphys` ever makes
them less, and it takes a size of 2 Gbytes or more for a negative one. -/
def QueueDriver.GivesBack (pageSize : Nat) (driver : QueueDriver) (data : OolData) (offset : Nat) :
    Prop :=
  match driver with
  | .block .minphys =>
    512 ∣ data.count → 63 * 1024 < data.count → data.count < 2 ^ 31 →
      (offset + 63 * 1024) ⌈/⌉ pageSize = (offset + data.count) ⌈/⌉ pageSize
  | .block .rzNop | .net _ => True

variable {pageSize page offset : Nat} {data : OolData} {ior : IoReq}

/-- The `io_alloc_size` of a write. -/
def QueueDriver.allocSize (driver : QueueDriver) (data : OolData) : Nat :=
  match driver with
  | .block .minphys =>
    if 63 * 1024 < data.count ∧ data.count < 2 ^ 31 then 63 * 1024 else data.count
  | .block .rzNop | .net _ => data.count

theorem QueueDriver.allocSize_le (driver : QueueDriver) (data : OolData) :
    driver.allocSize data ≤ data.count := by
  cases driver with
  | block maxCount =>
    cases maxCount with
    | minphys =>
      rw [allocSize]
      split
      next h => exact h.1.le
      next => exact le_rfl
    | rzNop => exact le_rfl
  | net => exact le_rfl

theorem QueueDriver.request_eq {driver : QueueDriver}
    (h : driver.request pageSize data page offset = some ior) :
    ior = ⟨ioReqSlots pageSize data.count, page, offset, data.count, driver.allocSize data⟩ := by
  obtain ⟨count, hcount, rfl⟩ := map_eq_some_iff.mp h
  have hlt := data.lt
  have hall : (ioCount data.count % 2 ^ 32).toNat = data.count := by
    rw [ioCount]
    split <;> omega
  cases driver with
  | block maxCount =>
    obtain ⟨-, hcount⟩ := ite_none_left_eq_some.mp hcount
    cases hcount
    cases maxCount with
    | minphys =>
      have hmax : ioCount data.count > maxPhys ↔ 63 * 1024 < data.count ∧ data.count < 2 ^ 31 := by
        rw [ioCount, maxPhys]
        split <;> omega
      rw [MaxCount.run, allocSize]
      simp only [hmax]
      split
      next => rfl
      next => rw [hall]
    | rzNop => rw [MaxCount.run, hall, allocSize]
  | net ifp =>
    obtain ⟨-, hcount⟩ := ite_none_left_eq_some.mp hcount
    cases hcount
    rw [hall, allocSize]

theorem QueueDriver.request_minphys :
    (∃ ior, request pageSize (.block .minphys) data page offset = some ior) ↔ 512 ∣ data.count := by
  rw [← isSome_iff_exists, request, isSome_map, count, ← ioCount_tmod]
  split <;> simp_all

namespace IoReq

theorem whole_iff : ior.Whole pageSize ↔
    (ior.offset + ior.allocSize) ⌈/⌉ pageSize = (ior.offset + ior.copied) ⌈/⌉ pageSize := by
  refine ⟨fun h => ?_, fun h => by rw [Whole, mapped, unmapped, pages, pages, h]⟩
  simpa [mapped, unmapped, pages] using (congrArg length h).symm

theorem mapped_eq (hle : ior.allocSize ≤ ior.copied) :
    ior.mapped pageSize = ior.unmapped pageSize ++ ior.leaked pageSize := by
  have hpages : (ior.offset + ior.allocSize) ⌈/⌉ pageSize ≤
      (ior.offset + ior.copied) ⌈/⌉ pageSize :=
    Nat.div_le_div_right (by omega)
  rw [mapped, unmapped, pages, pages, leaked, range'_append_1, Nat.add_sub_cancel' hpages]

theorem leaked_eq_nil (hle : ior.allocSize ≤ ior.copied) :
    ior.leaked pageSize = [] ↔ ior.Whole pageSize := by
  rw [Whole, mapped_eq hle, append_right_eq_self]

end IoReq

/-- A write gives back what it has mapped if and only if it meets the condition. -/
theorem QueueDriver.whole_iff (driver : QueueDriver) (page : Nat) :
    (∀ ior ∈ driver.request pageSize data page offset, ior.Whole pageSize) ↔
      driver.GivesBack pageSize data offset := by
  cases driver with
  | block maxCount =>
    cases maxCount with
    | minphys =>
      constructor
      · intro h hdvd hlo hhi
        obtain ⟨ior, hior⟩ := request_minphys.mpr hdvd
        have hwhole := h ior hior
        rw [request_eq hior, IoReq.whole_iff] at hwhole
        simpa only [allocSize, if_pos (And.intro hlo hhi)] using hwhole
      · intro h ior hior
        rw [request_eq hior, IoReq.whole_iff]
        simp only [allocSize]
        split
        next hbig => exact h (request_minphys.mp ⟨ior, hior⟩) hbig.1 hbig.2
        next => rfl
    | rzNop =>
      refine iff_of_true (fun ior hior => ?_) trivial
      rw [request_eq hior]
      rfl
  | net =>
    refine iff_of_true (fun ior hior => ?_) trivial
    rw [request_eq hior]
    rfl

/-! ## The pages of `device_io_map` -/

/-- The pages in use, and the requests that wait for `ds_write_done`. -/
structure IoMap where
  pages : Multiset Nat
  queued : List IoReq
deriving DecidableEq

/-- What happens to `device_io_map`. -/
inductive IoMapOp where
  /-- `ds_device_write`.  There is no page if `vm_map_copyout` finds no room. -/
  | write (driver : QueueDriver) (data : OolData) (offset : Nat) (page : Option Nat)
  /-- `ds_write_done`. -/
  | done (ior : IoReq)

namespace IoMap

/-- The request that a write queues. -/
def request (pageSize : Nat) : IoMapOp → Option IoReq
  | .write driver data offset page => page.bind fun p => driver.request pageSize data p offset
  | .done _ => none

/-- `ds_device_write` and `ds_write_done`. -/
def step (pageSize : Nat) : Machine IoMapOp Unit IoMap
  | .done ior, s =>
    if ior ∈ s.queued then some (⟨s.pages - ior.unmapped pageSize, s.queued.erase ior⟩, ())
      else none
  | op, s =>
    match request pageSize op with
    | none => some (s, ())
    | some ior =>
      if ∀ p ∈ ior.mapped pageSize, p ∉ s.pages then
        some (⟨s.pages + ior.mapped pageSize, ior :: s.queued⟩, ())
      else none

variable {s s' : IoMap} {pages : Multiset Nat} {op : IoMapOp} {ops : List IoMapOp} {r : Unit}

/-- Besides other pages, there are those of the requests. -/
structure Holds (pageSize : Nat) (pages : Multiset Nat) (s : IoMap) : Prop where
  pages : s.pages = pages + (s.queued.map fun ior => (ior.mapped pageSize : Multiset Nat)).sum
  le : ∀ ior ∈ s.queued, ior.allocSize ≤ ior.copied

/-- The pages that an operation leaves in the map for ever. -/
def leaked (pageSize : Nat) : IoMapOp → Multiset Nat
  | .done ior => ior.leaked pageSize
  | .write .. => 0

theorem request_le (h : ior ∈ request pageSize op) : ior.allocSize ≤ ior.copied := by
  cases op with
  | write driver data offset page =>
    obtain ⟨p, -, hior⟩ := bind_eq_some_iff.mp h
    rw [QueueDriver.request_eq hior]
    exact driver.allocSize_le data
  | done => cases h

theorem Holds.step (h : s.Holds pageSize pages) (hstep : step pageSize op s = some (s', r)) :
    s'.Holds pageSize (pages + leaked pageSize op) := by
  obtain ⟨hpages, hle⟩ := h
  cases op with
  | done ior =>
    obtain ⟨hior, heq⟩ := ite_none_right_eq_some.mp hstep
    cases heq
    refine ⟨?_, fun i hi => hle i (mem_of_mem_erase hi)⟩
    have hsum := ((perm_cons_erase hior).map fun i => (i.mapped pageSize : Multiset Nat)).sum_eq
    rw [map_cons, sum_cons, IoReq.mapped_eq (hle ior hior), ← Multiset.coe_add] at hsum
    show s.pages - ior.unmapped pageSize = pages + ior.leaked pageSize + _
    rw [hpages, hsum, add_assoc, add_left_comm, add_tsub_cancel_left, add_assoc]
  | write driver data offset page =>
    simp only [IoMap.step] at hstep
    rw [leaked, add_zero]
    split at hstep
    next =>
      cases hstep
      exact ⟨hpages, hle⟩
    next ior hior =>
      obtain ⟨-, heq⟩ := ite_none_right_eq_some.mp hstep
      cases heq
      refine ⟨?_, forall_mem_cons.mpr ⟨request_le hior, hle⟩⟩
      show s.pages + _ = _
      rw [hpages, map_cons, sum_cons, add_assoc, add_comm (List.sum _)]

theorem Holds.run (h : s.Holds pageSize pages)
    (hrun : Machine.run (IoMap.step pageSize) ops s = some s') :
    s'.Holds pageSize (pages + (ops.map (leaked pageSize)).sum) := by
  induction ops generalizing s pages with
  | nil =>
    cases hrun
    simpa using h
  | cons op ops ih =>
    obtain ⟨⟨s₁, r⟩, hstep, hrest⟩ := bind_eq_some_iff.mp hrun
    rw [map_cons, sum_cons, ← add_assoc]
    exact ih (h.step hstep) hrest

theorem queued_step (ior : IoReq) (hstep : step pageSize op s = some (s', r)) :
    ior ∈ request pageSize op ∨ ior ∈ s.queued ↔ op = .done ior ∨ ior ∈ s'.queued := by
  cases op with
  | done i =>
    obtain ⟨hi, heq⟩ := ite_none_right_eq_some.mp hstep
    cases heq
    rcases eq_or_ne ior i with rfl | hne
    · simp [hi]
    · simp [request, mem_erase_of_ne hne, hne.symm]
  | write driver data offset page =>
    simp only [step] at hstep
    split at hstep
    next hnone =>
      cases hstep
      simp [hnone]
    next i hi =>
      obtain ⟨-, heq⟩ := ite_none_right_eq_some.mp hstep
      cases heq
      simp [hi, eq_comm]

theorem queued_run (ior : IoReq) (hrun : Machine.run (step pageSize) ops s = some s') :
    (∃ op ∈ ops, ior ∈ request pageSize op) ∨ ior ∈ s.queued ↔
      .done ior ∈ ops ∨ ior ∈ s'.queued := by
  induction ops generalizing s with
  | nil =>
    cases hrun
    simp
  | cons op ops ih =>
    obtain ⟨⟨s₁, r⟩, hstep, hrest⟩ := bind_eq_some_iff.mp hrun
    have hhead := queued_step ior hstep
    have htail := ih hrest
    simp only [mem_cons, exists_eq_or_imp]
    grind

/-- After every run that leaves no request, the map has the pages that it had before if and only if
each write meets the condition. -/
theorem run_pages_iff {pages' : Multiset Nat}
    (hrun : Machine.run (step pageSize) ops ⟨pages, []⟩ = some ⟨pages', []⟩) :
    pages' = pages ↔ ∀ driver data offset page, .write driver data offset (some page) ∈ ops →
      driver.GivesBack pageSize data offset := by
  have hstart : Holds pageSize pages ⟨pages, []⟩ := ⟨(add_zero pages).symm, forall_mem_nil _⟩
  have hpages : pages' = pages + (ops.map (leaked pageSize)).sum :=
    (hstart.run hrun).pages.trans (add_zero _)
  have hdone (ior : IoReq) : (∃ op ∈ ops, ior ∈ request pageSize op) ↔ .done ior ∈ ops := by
    simpa using queued_run ior hrun
  have hle (ior : IoReq) (hior : .done ior ∈ ops) : ior.allocSize ≤ ior.copied := by
    obtain ⟨op, -, hop⟩ := (hdone ior).mpr hior
    exact request_le hop
  rw [hpages, add_eq_left, sum_eq_zero_iff, List.forall_mem_map]
  constructor
  · intro h driver data offset page hop
    refine (driver.whole_iff page).mp fun ior hior => ?_
    have hmem : .done ior ∈ ops := (hdone ior).mp ⟨_, hop, hior⟩
    exact (IoReq.leaked_eq_nil (hle ior hmem)).mp ((Multiset.coe_eq_zero _).mp (h _ hmem))
  · intro h op hop
    cases op with
    | write => rfl
    | done ior =>
      refine (Multiset.coe_eq_zero _).mpr ((IoReq.leaked_eq_nil (hle ior hop)).mpr ?_)
      obtain ⟨op, hop, hior⟩ := (hdone ior).mpr hop
      cases op with
      | write driver data offset page =>
        obtain ⟨p, rfl, hior⟩ := bind_eq_some_iff.mp hior
        exact (driver.whole_iff p).mpr (h driver data offset p hop) ior hior
      | done => cases hior

/-- A block write of data that begin 100 bytes into a page, and its end. -/
def writeOps (data : OolData) (allocSize : Nat) : List IoMapOp :=
  [.write (.block .minphys) data 100 (some 7),
    .done ⟨ioReqSlots 4096 data.count, 7, 100, data.count, allocSize⟩]

/-- Data of 127 blocks, of which `minphys` leaves 126.  They end in the same page. -/
theorem run_pages_iff_block : ∃ pages',
    Machine.run (step 4096) (writeOps ⟨65024, by decide, by decide⟩ 64512) ⟨{3}, []⟩ =
      some ⟨pages', []⟩ ∧ pages' = {3} := by
  have hrun : Machine.run (step 4096) (writeOps ⟨65024, by decide, by decide⟩ 64512) ⟨{3}, []⟩ =
      some ⟨{3} + .ofList (range' 7 16) - .ofList (range' 7 16), []⟩ := rfl
  refine ⟨_, hrun, (run_pages_iff hrun).mpr fun driver data offset page hop => ?_⟩
  simp only [writeOps, mem_cons, not_mem_nil, or_false, reduceCtorEq] at hop
  cases hop
  exact fun _ _ _ => rfl

/-- 64 Kbytes are mapped, and 63 unmapped. -/
theorem not_run_pages :
    Machine.run (step 4096) (writeOps ⟨65536, by decide, by decide⟩ 64512) ⟨{3}, []⟩ =
      some ⟨{3, 23}, []⟩ ∧ ({3, 23} : Multiset Nat) ≠ {3} := by
  decide

end IoMap

/-! ## The page list -/

/-- `io_wire`: the pages that are stored, entry by entry.  `kmem_fault_wire` stores those of one. -/
def ioWire (start stop : Nat) : List (Nat × Nat) → List Nat
  | [] => []
  | (vmeStart, vmeEnd) :: rest =>
    if vmeStart < stop then
      .range' (max vmeStart start) (min vmeEnd stop - max vmeStart start) ++ ioWire start stop rest
    else []

/-- The entries follow one another without a gap. -/
def Adjoin (lo hi : Nat) : List (Nat × Nat) → Prop
  | [] => lo = hi
  | (vmeStart, vmeEnd) :: rest => vmeStart = lo ∧ lo ≤ vmeEnd ∧ Adjoin vmeEnd hi rest

variable {lo hi : Nat} {entries : List (Nat × Nat)}

theorem ioWire_eq {stop : Nat} (start : Nat)
    (h : Adjoin lo hi entries) (hstop : stop ≤ hi) :
    ioWire start stop entries = .range' (max lo start) (stop - max lo start) := by
  induction entries generalizing lo with
  | nil =>
    obtain rfl : lo = hi := h
    have hzero : stop - max lo start = 0 := by omega
    rw [ioWire, hzero, range'_zero]
  | cons e rest ih =>
    obtain ⟨vmeStart, vmeEnd⟩ := e
    obtain ⟨rfl, hle, hrest⟩ := h
    rw [ioWire]
    split
    next hlt =>
      rw [ih hrest]
      rcases le_total vmeEnd start with hstart | hstart
      · have hzero : min vmeEnd stop - max vmeStart start = 0 := by omega
        rw [hzero, range'_zero, nil_append, max_eq_right hstart,
          max_eq_right (hle.trans hstart)]
      rcases le_total stop vmeEnd with hend | hend
      · have hzero : stop - max vmeEnd start = 0 := by omega
        rw [hzero, range'_zero, append_nil, min_eq_right hend]
      have hnext : vmeEnd = max vmeStart start + (vmeEnd - max vmeStart start) := by omega
      have hsum : stop - max vmeStart start =
          vmeEnd - max vmeStart start + (stop - vmeEnd) := by omega
      rw [min_eq_left hend, max_eq_left hstart, hsum, ← range'_append_1, ← hnext]
    next hnot =>
      have hzero : stop - max vmeStart start = 0 := by omega
      rw [hzero, range'_zero]

/-- The page list after `device_write_get`. -/
def IoReq.wired (pageSize : Nat) (ior : IoReq) (entries : List (Nat × Nat)) : List Nat :=
  ioWire ior.page (ior.page + (ior.offset + ior.allocSize) ⌈/⌉ pageSize) entries

/-- `io_wire` stores the pages that `io_unwire` will read.  There is room for them if and only if
the data, from the start of their first page, are no more than the pages of their size. -/
theorem pageList_fits_iff {driver : QueueDriver} (hpage : 0 < pageSize)
    (hior : driver.request pageSize data page offset = some ior)
    (hentries : Adjoin lo hi entries) (hlo : lo ≤ page)
    (hhi : page + (offset + data.count) ⌈/⌉ pageSize ≤ hi) (hend : pageSize * (hi + 1) ≤ 2 ^ 32) :
    ior.wired pageSize entries = ior.unmapped pageSize ∧
      ((ior.wired pageSize entries).length ≤ ior.slots ↔
        offset + ior.allocSize ≤ pageSize * (data.count ⌈/⌉ pageSize)) := by
  obtain rfl := QueueDriver.request_eq hior
  have hle := driver.allocSize_le data
  generalize driver.allocSize data = n at *
  have hpages : (offset + n) ⌈/⌉ pageSize ≤ (offset + data.count) ⌈/⌉ pageSize :=
    (gc_mul_ceilDiv hpage).monotone_l (Nat.add_le_add_left hle offset)
  have hwired := ioWire_eq page hentries ((Nat.add_le_add_left hpages page).trans hhi)
  rw [max_eq_right hlo, Nat.add_sub_cancel_left] at hwired
  refine ⟨hwired, ?_⟩
  have hsize : offset + data.count ≤ pageSize * hi :=
    (ceilDiv_le_iff_le_mul hpage).mp ((Nat.le_add_left _ page).trans hhi)
  have hslots : ioReqSlots pageSize data.count = data.count ⌈/⌉ pageSize := by
    rw [Nat.mul_succ] at hend
    rw [ioReqSlots, Nat.mod_eq_of_lt (by omega), ← Nat.add_sub_assoc hpage]
    rfl
  rw [IoReq.wired, hwired, length_range', hslots]
  exact ceilDiv_le_iff_le_mul hpage

theorem pageList_fits_iff_block :
    (IoReq.wired 4096 ⟨2, 7, 512, 7680, 7680⟩ [(5, 8), (8, 9)]).length ≤ 2 := by
  have hior : QueueDriver.request 4096 (.block .minphys) ⟨7680, by decide, by decide⟩ 7 512 =
      some ⟨2, 7, 512, 7680, 7680⟩ := rfl
  have hentries : Adjoin 5 9 [(5, 8), (8, 9)] := ⟨rfl, by decide, rfl, by decide, rfl⟩
  exact (pageList_fits_iff (by decide) hior hentries (by decide) (by decide) (by decide)).2.mpr
    (by decide)

/-- A block of 512 bytes on two pages, and room for one. -/
theorem not_pageList_fits :
    ∃ ior, QueueDriver.request 4096 (.block .minphys) ⟨512, by decide, by decide⟩ 7
      4000 = some ior ∧
      ior.slots < (ior.wired 4096 [(7, 9)]).length :=
  ⟨_, rfl, by decide⟩

end Mach
