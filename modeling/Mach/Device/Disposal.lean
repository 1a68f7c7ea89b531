import Mathlib.Algebra.GroupWithZero.Nat
import Mathlib.Algebra.Ring.Int.Defs

/-!
# Who disposes of out-of-line data

A request to the kernel carries its out-of-line data as a copy object.  `ipc_kobject_server` goes by
the return code of the server routine alone: after `KERN_SUCCESS` and `MIG_NO_REPLY` the routine is
responsible for the copy object, after any other code the request is destroyed with all it carries.

`vm_map_copyout` consumes the copy object even if it fails, so a routine that gets to its call has
to succeed.  Three do not.  `memory_object_data_provided` fails if the page is not one that waits
for data, `device_write_get` hands the failure of `vm_map_copyout` on, and `char_write` fails if the
carrier is lost.  Then the copy object is disposed of twice, and these are the only exceptions
(`kernel_disposes_once_iff`).
-/

namespace Mach

/-- The return codes of the routines below. -/
inductive ServerReturn where
  /-- `KERN_SUCCESS` and `D_SUCCESS`, which are the same number. -/
  | success
  /-- `MIG_NO_REPLY`. -/
  | noReply
  | invalidArgument
  | failure
  | resourceShortage
  | noSpace
  | ioQueued
  | ioError
  | wouldBlock
  | noSuchDevice
  | deviceDown
  | invalidSize
deriving Repr, DecidableEq

/-- Out-of-line data.  Data of no bytes have no copy object (`ipc_kmsg_copyin`), so there are
some. -/
structure OolData where
  count : Nat
  pos : 0 < count
  lt : count < 2 ^ 32

/-- The panics of `memory_object_data_provided`. -/
inductive ServerPanic where
  | cantCopyout
  | cantWire
deriving Repr, DecidableEq

/-- The return code of a routine, and how often it consumed the copy object. -/
structure Served where
  code : ServerReturn
  consumed : Nat
deriving Repr, DecidableEq

/-- `ipc_kobject_server`, as far as the copy object is concerned: how often it is consumed.  `reply`
is whether there is memory for the reply. -/
def ipcKobjectServer (reply : Bool) (routine : Except ServerPanic Served) :
    Except ServerPanic Nat :=
  if reply = false then
    .ok 1
  else
    routine.map fun served =>
      if served.code = .success ∨ served.code = .noReply then served.consumed
      else served.consumed + 1

/-- `vm_map_copyout` of the data, where `space` is whether the map has a hole of their size. -/
def vmMapCopyout (space : Bool) : Served :=
  ⟨if space then .success else .noSpace, 1⟩

/-! ## Data for a memory object -/

/-- A page of a memory object. -/
structure AwaitedPage where
  busy : Bool
  absent : Bool
  /-- The page has no memory, since the fault that made it was given up. -/
  fictitious : Bool
  pageLock : Nat
  unlockRequest : Nat
deriving Repr, DecidableEq

/-- The memory object. -/
structure PagedObject where
  pagingOffset : Nat
  pages : Nat → Option AwaitedPage

/-- What a call meets: whether `vm_map_copyout` and `vm_map_pageable` succeed on `ipc_kernel_map`,
and whether `vm_page_alloc` finds a page. -/
structure Supply where
  copyout : Bool
  wire : Bool
  alloc : Bool

/-- The page is busy and absent, and has memory. -/
def AwaitedPage.Waits (page : AwaitedPage) : Prop :=
  page.busy = true ∧ page.absent = true ∧ page.fictitious = false

/-- The page after the data have come. -/
def AwaitedPage.supplied (page : AwaitedPage) (lockValue : Nat) : AwaitedPage :=
  { page with busy := false, absent := false, pageLock := lockValue, unlockRequest := 0 }

/-- The page that `vm_page_alloc` gives. -/
def AwaitedPage.fresh : AwaitedPage := ⟨true, true, false, 0, 0⟩

/-- What `memory_object_data_provided` does under the object lock. -/
def PagedObject.provide (object : PagedObject) (offset lockValue : Nat) (alloc : Bool) :
    ServerReturn × PagedObject :=
  let set (page : Option AwaitedPage) : PagedObject :=
    { object with pages := Function.update object.pages offset page }
  match object.pages offset with
  | none =>
    if alloc then (.success, set (some (AwaitedPage.fresh.supplied lockValue)))
    else (.resourceShortage, object)
  | some page =>
    if page.busy = true ∧ page.absent = true then
      if page.fictitious = true then (.failure, set none)
      else (.success, set (some (page.supplied lockValue)))
    else (.failure, object)

/-- The arguments are refused.  A `lock_value` is a set of the three protections. -/
def BogusProvided (pageSize : Nat) (data : OolData) (lockValue : Nat) : Prop :=
  lockValue &&& (2 ^ 32 - 8) ≠ 0 ∨ data.count ≠ pageSize

instance (pageSize : Nat) (data : OolData) (lockValue : Nat) :
    Decidable (BogusProvided pageSize data lockValue) :=
  inferInstanceAs (Decidable (_ ∨ _))

/-- The offset in the object, `offset - paging_offset`. -/
def PagedObject.within (object : PagedObject) (offset : Nat) : Nat :=
  (offset + 2 ^ 32 - object.pagingOffset) % 2 ^ 32

/-- `memory_object_data_provided`, with the object after it. -/
def memoryObjectDataProvided (pageSize : Nat) (supply : Supply) (object : Option PagedObject)
    (offset : Nat) (data : OolData) (lockValue : Nat) :
    Except ServerPanic (Served × Option PagedObject) :=
  match object with
  | none => .ok (⟨.invalidArgument, 0⟩, none)
  | some object =>
    if BogusProvided pageSize data lockValue then
      .ok (⟨.invalidArgument, 0⟩, some object)
    else if (vmMapCopyout supply.copyout).code ≠ .success then
      .error .cantCopyout
    else if supply.wire = false then
      .error .cantWire
    else
      let (code, object) := object.provide (object.within offset) lockValue supply.alloc
      .ok (⟨code, (vmMapCopyout supply.copyout).consumed⟩, some object)

/-- A page waits for the data, or can be allocated. -/
def PagedObject.Accepts (object : PagedObject) (offset : Nat) (alloc : Bool) : Prop :=
  match object.pages offset with
  | none => alloc = true
  | some page => page.Waits

attribute [local simp] ipcKobjectServer vmMapCopyout Except.map

variable (object : PagedObject)

theorem PagedObject.provide_eq_success_iff (offset lockValue : Nat) (alloc : Bool) :
    (object.provide offset lockValue alloc).1 = .success ↔ object.Accepts offset alloc := by
  rw [provide, Accepts]
  cases object.pages offset with
  | none => cases alloc <;> simp
  | some page =>
    obtain ⟨busy, absent, fictitious⟩ := page
    cases fictitious with
    | true | false => grind [AwaitedPage.Waits]

theorem PagedObject.provide_ne_noReply (offset lockValue : Nat)
    (alloc : Bool) : (object.provide offset lockValue alloc).1 ≠ .noReply := by
  rw [provide]
  cases object.pages offset with
  | none => cases alloc <;> simp
  | some =>
    dsimp only
    split
    next =>
      split
      next => simp
      next => simp
    next => simp

/-! ## Writes to a device -/

/-- `io_count`, a signed number, of an unsigned count. -/
def ioCount (count : Nat) : Int := if count < 2 ^ 31 then count else (count : Int) - 2 ^ 32

/-- `max_count` routines of block devices. -/
inductive MaxCount where
  | minphys
  /-- No bound. -/
  | rzNop
deriving Repr, DecidableEq

/-- `MAX_PHYS`. -/
def maxPhys : Int := 63 * 1024

/-- The `io_count` after the routine. -/
def MaxCount.run : MaxCount → Int → Int
  | .minphys, count => if count > maxPhys then maxPhys else count
  | .rzNop, count => count

/-- `device_write_get` of a request that is not in-band.  `io_wire` always succeeds. -/
def deviceWriteGet (space : Bool) (count : Int) : Served :=
  if count = 0 then ⟨.success, 0⟩ else vmMapCopyout space

/-- The end of `block_io` and `net_write`: the request is queued for the device. -/
def Served.queue (got : Served) : Served :=
  if got.code ≠ .success then got else { got with code := .ioQueued }

/-- `block_io` for a write. -/
def blockIo (maxCount : MaxCount) (space : Bool) (data : OolData) : Served :=
  if (ioCount data.count).tmod 512 ≠ 0 then ⟨.invalidSize, 0⟩
  else (deviceWriteGet space (maxCount.run (ioCount data.count))).queue

/-- An interface. -/
structure Ifnet where
  /-- `IFF_UP` and `IFF_RUNNING` are both set. -/
  running : Bool
  headerSize : Int
  mtu : Int
deriving Repr, DecidableEq

/-- The packet is too large or too small. -/
def Ifnet.BadSize (ifp : Ifnet) (data : OolData) : Prop :=
  ioCount data.count < ifp.headerSize ∨ ioCount data.count > ifp.headerSize + ifp.mtu

instance (ifp : Ifnet) (data : OolData) : Decidable (ifp.BadSize data) :=
  inferInstanceAs (Decidable (_ ∨ _))

/-- `net_write`. -/
def netWrite (ifp : Ifnet) (space : Bool) (data : OolData) : Served :=
  if ifp.running = false then ⟨.deviceDown, 0⟩
  else if ifp.BadSize data then ⟨.invalidSize, 0⟩
  else (deviceWriteGet space (ioCount data.count)).queue

/-- A terminal, as `char_write` finds it when it takes the lock. -/
structure Tty where
  /-- `TS_CARR_ON`. -/
  carrOn : Bool
  /-- `TS_ONDELAY`. -/
  onDelay : Bool
  /-- The characters on the output queue. -/
  outq : Nat
  /-- `TTHIWAT`. -/
  hiwat : Nat
deriving Repr, DecidableEq

/-- One round of the loop of `char_write`. -/
structure TtyRound where
  tty : Tty
  /-- How many characters `b_to_q` leaves. -/
  residue : Nat
  /-- The terminal after `ttstart`, if the loop ends here. -/
  started : Tty
deriving Repr, DecidableEq

/-- The characters of one round, which go through a buffer of 100. -/
def ttyChunk (count : Nat) : Nat := min count 100

namespace TtyRound

/-- The terminal is not operating, and the call may not wait. -/
def Refuses (round : TtyRound) (nowait : Bool) : Prop :=
  round.tty.carrOn = false ∧ (round.tty.onDelay = false ∨ nowait = true)

/-- The loop goes on after a round with `count` characters to write: the queue took the whole chunk
and has room, and there are more. -/
def Goes (round : TtyRound) (count : Nat) : Prop :=
  round.tty.outq ≤ round.tty.hiwat ∧
    round.tty.outq + (ttyChunk count - round.residue) ≤ round.tty.hiwat ∧ round.residue = 0 ∧
    count - (ttyChunk count - round.residue) ≠ 0

instance (round : TtyRound) (count : Nat) : Decidable (round.Goes count) :=
  inferInstanceAs (Decidable (_ ∧ _))

/-- What `char_write` returns after the loop. -/
def finish (round : TtyRound) : ServerReturn :=
  if round.started.outq > round.started.hiwat ∨ round.started.carrOn = false then .ioQueued
  else .success

end TtyRound

/-- The loop of `char_write` from a round on.  `count` is an `int`, but only its bits matter. -/
def charWriteLoop (nowait : Bool) (rounds : Nat → TtyRound) (i count : Nat) : ServerReturn :=
  if (rounds i).tty.carrOn = false ∧ (rounds i).tty.onDelay = false then
    .ioError
  else if (rounds i).tty.carrOn = false ∧ nowait = true then
    .wouldBlock
  else if (rounds i).Goes count then
    charWriteLoop nowait rounds (i + 1) (count - (ttyChunk count - (rounds i).residue))
  else
    (rounds i).finish
termination_by count
decreasing_by
  rename_i hgoes
  obtain ⟨-, -, hresidue, hmore⟩ := hgoes
  simp only [hresidue, ttyChunk] at hmore ⊢
  omega

/-- `char_write` of a request that is not in-band.  The result of `vm_map_copyout` is ignored. -/
def charWrite (nowait : Bool) (rounds : Nat → TtyRound) (space : Bool) (data : OolData) : Served :=
  if data.count = 0 then ⟨.success, 0⟩
  else ⟨charWriteLoop nowait rounds 0 data.count, (vmMapCopyout space).consumed⟩

/-- The rounds that the loop of `char_write` gets to, with what is left to write, as long as the
terminal operates. -/
inductive CharWriteReaches (rounds : Nat → TtyRound) (i count : Nat) : Nat → Nat → Prop where
  | start : CharWriteReaches rounds i count i count
  | next (j left : Nat) : CharWriteReaches rounds i count j left → (rounds j).Goes left →
      CharWriteReaches rounds i count (j + 1) (left - (ttyChunk left - (rounds j).residue))

/-- No round that is reached refuses. -/
def CharWriteOperates (nowait : Bool) (rounds : Nat → TtyRound) (i count : Nat) : Prop :=
  ∀ j left, CharWriteReaches rounds i count j left → ¬ (rounds j).Refuses nowait

variable {rounds : Nat → TtyRound}

theorem CharWriteReaches.cases_head {i count j left : Nat}
    (h : CharWriteReaches rounds i count j left) :
    (j = i ∧ left = count) ∨ (rounds i).Goes count ∧
      CharWriteReaches rounds (i + 1) (count - (ttyChunk count - (rounds i).residue)) j left := by
  induction h with
  | start => exact .inl ⟨rfl, rfl⟩
  | next j left _ hgoes ih =>
    rcases ih with ⟨rfl, rfl⟩ | ⟨hfirst, hreach⟩
    · exact .inr ⟨hgoes, .start⟩
    · exact .inr ⟨hfirst, .next j left hreach hgoes⟩

theorem CharWriteReaches.head {i count j left : Nat} (hfirst : (rounds i).Goes count)
    (h : CharWriteReaches rounds (i + 1) (count - (ttyChunk count - (rounds i).residue)) j left) :
    CharWriteReaches rounds i count j left := by
  induction h with
  | start => exact .next i count .start hfirst
  | next j left _ hgoes ih => exact .next j left ih hgoes

variable (nowait : Bool)

/-- The loop ends with one of the two errors if it gets to a round that refuses, and is queued or
succeeds otherwise. -/
theorem charWriteLoop_iff (rounds : Nat → TtyRound) (i count : Nat) :
    (charWriteLoop nowait rounds i count = .success ∨
      charWriteLoop nowait rounds i count = .ioQueued) ↔
      CharWriteOperates nowait rounds i count := by
  fun_induction charWriteLoop nowait rounds i count with
  | case1 i count hdown =>
    simp only [reduceCtorEq, or_self, false_iff]
    exact fun h => h i count .start ⟨hdown.1, .inl hdown.2⟩
  | case2 i count _ hwait =>
    simp only [reduceCtorEq, or_self, false_iff]
    exact fun h => h i count .start ⟨hwait.1, .inr hwait.2⟩
  | case3 i count hdown hwait hgoes ih =>
    rw [ih]
    constructor
    · intro h j left hreach
      rcases hreach.cases_head with ⟨rfl, rfl⟩ | ⟨-, hreach⟩
      · rintro ⟨hoff, hdelay | hno⟩
        · exact hdown ⟨hoff, hdelay⟩
        · exact hwait ⟨hoff, hno⟩
      · exact h j left hreach
    · exact fun h j left hreach => h j left (hreach.head hgoes)
  | case4 i count hdown hwait hstop =>
    have hfinish : (rounds i).finish = .success ∨ (rounds i).finish = .ioQueued := by
      rw [TtyRound.finish]
      split
      · exact .inr rfl
      · exact .inl rfl
    refine iff_of_true hfinish fun j left hreach => ?_
    rcases hreach.cases_head with ⟨rfl, rfl⟩ | ⟨hgoes, -⟩
    · rintro ⟨hoff, hdelay | hno⟩
      · exact hdown ⟨hoff, hdelay⟩
      · exact hwait ⟨hoff, hno⟩
    · exact absurd hgoes hstop

theorem charWriteLoop_ne_noReply (rounds : Nat → TtyRound) (i count : Nat) :
    charWriteLoop nowait rounds i count ≠ .noReply := by
  fun_induction charWriteLoop nowait rounds i count with
  | case1 | case2 => exact nofun
  | case3 _ _ _ _ _ ih => exact ih
  | case4 =>
    rw [TtyRound.finish]
    split
    next => exact nofun
    next => exact nofun

/-- The routine behind a device. -/
inductive DeviceDriver where
  | block (maxCount : MaxCount)
  | net (ifp : Ifnet)
  | char (rounds : Nat → TtyRound)

/-- A device. -/
structure Device where
  /-- The state is `DEV_STATE_OPEN`. -/
  opened : Bool
  driver : DeviceDriver

/-- The `d_write` routine of the device. -/
def DeviceDriver.write (driver : DeviceDriver) (nowait space : Bool) (data : OolData) : Served :=
  match driver with
  | .block maxCount => blockIo maxCount space data
  | .net ifp => netWrite ifp space data
  | .char rounds => charWrite nowait rounds space data

/-- The end of `ds_device_write`: a queued request is replied to later. -/
@[local simp]
def Served.delay (result : Served) : Served :=
  if result.code = .ioQueued then { result with code := .noReply } else result

/-- `ds_device_write`.  The device is `DEVICE_NULL` if there is none, `nowait` is `D_NOWAIT` of the
mode, and `space` is whether `device_io_map` has room. -/
def dsDeviceWrite (device : Option Device) (nowait space : Bool) (data : OolData) : Served :=
  match device with
  | none => ⟨.noSuchDevice, 0⟩
  | some device =>
    if device.opened = false then ⟨.noSuchDevice, 0⟩
    else (device.driver.write nowait space data).delay

/-- The driver refuses the write before it touches the data, or carries it out. -/
def DeviceDriver.Sound (driver : DeviceDriver) (nowait space : Bool) (data : OolData) : Prop :=
  match driver with
  | .block _ => ¬ 512 ∣ data.count ∨ space = true
  | .net ifp => ifp.running = false ∨ ifp.BadSize data ∨ space = true
  | .char rounds => CharWriteOperates nowait rounds 0 data.count

/-! ## Requests -/

/-- The requests.  `supply` and `space` are what the call finds. -/
inductive KernelRequest where
  | dataProvided (supply : Supply) (object : Option PagedObject) (offset : Nat) (data : OolData)
      (lockValue : Nat)
  | deviceWrite (space : Bool) (device : Option Device) (nowait : Bool) (data : OolData)

/-- What the server does with a request. -/
def KernelRequest.serve (pageSize : Nat) : KernelRequest → Except ServerPanic Served
  | .dataProvided supply object offset data lockValue =>
    (memoryObjectDataProvided pageSize supply object offset data lockValue).map Prod.fst
  | .deviceWrite space device nowait data => .ok (dsDeviceWrite device nowait space data)

/-- The copy object survives the routine if it fails, and only then. -/
def KernelRequest.Sound (pageSize : Nat) : KernelRequest → Prop
  | .dataProvided supply object offset data lockValue =>
    ∀ o ∈ object, ¬ BogusProvided pageSize data lockValue →
      supply.copyout = true ∧ supply.wire = true ∧ o.Accepts (o.within offset) supply.alloc
  | .deviceWrite space device nowait data =>
    ∀ d ∈ device, d.opened = true → d.driver.Sound nowait space data

/-- The copy object is disposed of once, by the routine or after it. -/
@[local simp]
def Served.Once (served : Served) : Prop :=
  served.consumed = if served.code = .success ∨ served.code = .noReply then 1 else 0

theorem ipcKobjectServer_ok (served : Served) :
    ipcKobjectServer true (.ok served) = .ok 1 ↔ served.Once := by
  simp only [ipcKobjectServer, Bool.true_eq_false, if_false, Except.map, Served.Once]
  split <;> simp

theorem ioCount_ne_zero (data : OolData) : ioCount data.count ≠ 0 := by
  have hpos := data.pos
  have hlt := data.lt
  rw [ioCount]
  split <;> omega

variable {count : Int}

theorem MaxCount.run_ne_zero (maxCount : MaxCount) (h : count ≠ 0) : maxCount.run count ≠ 0 := by
  cases maxCount with
  | minphys => rw [run, maxPhys]; split <;> omega
  | rzNop => exact h

theorem ioCount_tmod (count : Nat) : (ioCount count).tmod 512 = 0 ↔ 512 ∣ count := by
  rw [← Int.dvd_iff_tmod_eq_zero, ioCount]
  split <;> omega

/-- A write that gets to `device_write_get` is disposed of once if the map has room. -/
theorem queue_once_iff (space : Bool) (h : count ≠ 0) :
    (deviceWriteGet space count).queue.delay.Once ↔ space = true := by
  cases space <;> simp [deviceWriteGet, h, Served.queue]

theorem DeviceDriver.write_once_iff (driver : DeviceDriver) (nowait space : Bool) (data : OolData) :
    (driver.write nowait space data).delay.Once ↔ driver.Sound nowait space data := by
  cases driver with
  | block maxCount =>
    simp only [write, blockIo, Sound, ne_eq, ioCount_tmod]
    by_cases hsize : 512 ∣ data.count
    · rw [if_neg (not_not.mpr hsize)]
      exact (queue_once_iff space (maxCount.run_ne_zero (ioCount_ne_zero data))).trans
        (by simp [hsize])
    · simp [hsize]
  | net ifp =>
    simp only [write, netWrite, Sound]
    by_cases hdown : ifp.running = false
    · simp [hdown]
    by_cases hsize : ifp.BadSize data
    · simp [hdown, hsize]
    · rw [if_neg hdown, if_neg hsize]
      exact (queue_once_iff space (ioCount_ne_zero data)).trans (by simp [hdown, hsize])
  | char rounds =>
    have hloop := charWriteLoop_iff nowait rounds 0 data.count
    have hreply := charWriteLoop_ne_noReply nowait rounds 0 data.count
    rw [write, charWrite, if_neg (ne_of_gt data.pos), Sound, ← hloop]
    cases hcode : charWriteLoop nowait rounds 0 data.count with
    | noReply => exact absurd hcode hreply
    | _ => simp

/-- The copy object of a request is consumed once if and only if there is no memory for a reply, or
the request is refused before its data are touched or is carried out. -/
theorem kernel_disposes_once_iff (pageSize : Nat) (reply : Bool) (request : KernelRequest) :
    ipcKobjectServer reply (request.serve pageSize) = .ok 1 ↔
      reply = false ∨ request.Sound pageSize := by
  cases reply with
  | false => simp
  | true =>
    cases request with
    | deviceWrite space device nowait data =>
      rw [KernelRequest.serve, ipcKobjectServer_ok, KernelRequest.Sound]
      cases device with
      | none => simp [dsDeviceWrite]
      | some device =>
        cases hopen : device.opened with
        | false => simp [dsDeviceWrite, hopen]
        | true =>
          simpa [dsDeviceWrite, hopen, -Served.delay, -Served.Once] using
            device.driver.write_once_iff nowait space data
    | dataProvided supply object offset data lockValue =>
      rw [KernelRequest.serve, KernelRequest.Sound]
      cases object with
      | none => simp [memoryObjectDataProvided]
      | some object =>
        rw [memoryObjectDataProvided]
        by_cases hbogus : BogusProvided pageSize data lockValue
        · simp [hbogus]
        obtain ⟨copyout, wire, alloc⟩ := supply
        cases copyout with
        | false => simp [hbogus]
        | true =>
          cases wire with
          | false => simp [hbogus]
          | true =>
            have hsuccess := object.provide_eq_success_iff (object.within offset) lockValue alloc
            have hreply := object.provide_ne_noReply (object.within offset) lockValue alloc
            simp [hbogus, ← hsuccess, hreply]

/-- One byte for a terminal that has lost its carrier, one page for a page that is not absent, and a
block for which `device_io_map` has no room: the copy object is consumed twice. -/
theorem not_disposes_once :
    let byte : OolData := ⟨1, by decide, by decide⟩
    let page : OolData := ⟨4096, by decide, by decide⟩
    let block : OolData := ⟨512, by decide, by decide⟩
    let tty : Tty := ⟨false, false, 0, 100⟩
    let object : PagedObject := ⟨0, fun _ => some ⟨false, false, false, 0, 0⟩⟩
    ipcKobjectServer true (KernelRequest.serve 4096
        (.deviceWrite true (some ⟨true, .char fun _ => ⟨tty, 0, tty⟩⟩) false byte)) = .ok 2 ∧
      ipcKobjectServer true (KernelRequest.serve 4096
        (.dataProvided ⟨true, true, true⟩ (some object) 0 page 0)) = .ok 2 ∧
      ipcKobjectServer true (KernelRequest.serve 4096
        (.deviceWrite false (some ⟨true, .block .minphys⟩) false block)) = .ok 2 := by
  refine ⟨?_, by decide, by decide⟩
  simp [KernelRequest.serve, dsDeviceWrite, DeviceDriver.write, charWrite, charWriteLoop]

end Mach
