import Mach.Ipc.KmsgHeader

/-!
# The body of a message

The body of a complex message is a sequence of type descriptors, each followed by its data or,
if the data is out of line, by the address of it.  `ipc_kmsg_copyin` walks over the body,
takes out-of-line memory and port rights into the message and stores what it got over what
was there.  `ipc_kmsg_clean_body` walks over it again, to give everything up.

Descriptors are on word boundaries, so the body is a function from positions to words, and
addresses are positions in it.  The memory of a descriptor's port names is either the body or
a buffer that was allocated for it.  Buffers and copies of memory have addresses of their own,
which are not used twice.

What the walk needs from elsewhere is an argument (`KmsgOps`), over an arbitrary state: whether
memory can be had, what is in it, and what `ipc_object_copyin` does.  The walk keeps account of
the descriptors it accepts, the words it treats as port names, and what the message acquires
and gives up.

`ipc_kmsg_copyin_compat` has the same walk, for the type names of the old interface.
-/

namespace Mach

open Function List

/-! ## Descriptors -/

/-- `mach_msg_type_t` or `mach_msg_type_long_t`. -/
structure MachMsgType where
  isInline : Bool
  longform : Bool
  dealloc : Bool
  unused : Bool
  name : Nat
  size : Nat
  number : Nat
  /-- The fields of the short form are zero in a long form. -/
  clear : Bool
deriving Repr, DecidableEq

/-- The descriptor at a position. -/
def machMsgType (body : Nat → Nat) (addr : Nat) : MachMsgType :=
  let w := body addr
  let longform : Bool := w / 2 ^ 29 % 2 = 1
  { isInline := w / 2 ^ 28 % 2 = 1
    longform := longform
    dealloc := w / 2 ^ 30 % 2 = 1
    unused := w / 2 ^ 31 % 2 = 1
    name := if longform then body (addr + 1) % 2 ^ 16 else w % 2 ^ 8
    size := if longform then body (addr + 1) / 2 ^ 16 % 2 ^ 16 else w / 2 ^ 8 % 2 ^ 8
    number := if longform then body (addr + 2) % 2 ^ 32 else w / 2 ^ 16 % 2 ^ 12
    clear := !longform || w % 2 ^ 28 = 0 }

/-- `MACH_MSG_TYPE_PORT_ANY`. -/
def machMsgTypePortAny (name : Nat) : Bool := 16 ≤ name && name ≤ 21

/-- The interface that a message is sent through. -/
inductive KmsgInterface where
  | current
  | compat
deriving Repr, DecidableEq

/-- The type names of ports: `MACH_MSG_TYPE_PORT_ANY` or `MSG_TYPE_PORT_ANY`. -/
def KmsgInterface.portAny : KmsgInterface → Nat → Bool
  | .current, name => machMsgTypePortAny name
  | .compat, name => name = 6 || name = 5

/-- `ipc_object_copyin_type`, on the numbers of the type names. -/
def copyinTypeCode (name : Nat) : Nat :=
  if name = 16 ∨ name = 5 then MachMsgTypePort.portReceive.code
  else if name = 18 ∨ name = 21 then MachMsgTypePort.portSendOnce.code
  else MachMsgTypePort.portSend.code

namespace MachMsgType

/-- The size of the descriptor, in words. -/
def words (t : MachMsgType) : Nat := if t.longform then 3 else 1

/-- The length of the data in bytes, rounded up: `((number * size) + 7) >> 3`, in 32-bit
arithmetic. -/
def length (t : MachMsgType) : Nat := (t.number * t.size % 2 ^ 32 + 7) % 2 ^ 32 / 8

/-- The words of the body that inline data takes: `(length + 3) &~ 3`. -/
def amount (t : MachMsgType) : Nat := (t.length + 3) / 4

/-- The words that the descriptor takes with what follows it. -/
def total (t : MachMsgType) : Nat := t.words + if t.isInline then t.amount else 1

/-- The test for `MACH_SEND_INVALID_TYPE`. -/
def bad (ifc : KmsgInterface) (t : MachMsgType) : Bool :=
  match ifc with
  | .current =>
    (machMsgTypePortAny t.name && t.size ≠ 32) || !t.clear || t.unused ||
      (t.dealloc && t.isInline)
  | .compat => ifc.portAny t.name && t.size ≠ 32

end MachMsgType

/-! ## The state of a walk -/

/-- What a message holds. -/
inductive KmsgResource where
  /-- A port right, and the type name that it goes by. -/
  | right (object name : Nat)
  /-- A buffer for port rights. -/
  | buffer (data length : Nat)
  /-- A copy of memory. -/
  | copy (data : Nat)
deriving Repr, DecidableEq

/-- A word that is used for a port name. -/
inductive PortSlot where
  /-- A word of the body. -/
  | body (addr : Nat)
  /-- A word of a buffer of some length in bytes. -/
  | buffer (length i : Nat)
deriving Repr, DecidableEq

/-- The word for `objects[i]`, for the data of a descriptor. -/
def portSlot (t : MachMsgType) (data i : Nat) : PortSlot :=
  if t.isInline then .body (data + i) else .buffer t.length i

/-- A descriptor that was accepted, where it is, and where the walk continues. -/
structure Accepted where
  taddr : Nat
  type : MachMsgType
  saddr : Nat
deriving Repr, DecidableEq

/-- What the walk works on. -/
structure KmsgState (σ : Type) where
  /-- The words of the body. -/
  body : Nat → Nat
  /-- The words of the buffers. -/
  buffer : Nat → Nat → Nat
  /-- The next address for a buffer or a copy. -/
  next : Nat
  world : σ
  /-- `MACH_MSGH_BITS_CIRCULAR`. -/
  circular : Bool
  /-- The local variable `complex`. -/
  complex : Bool
  acquired : List KmsgResource
  released : List KmsgResource
  accepted : List Accepted
  slots : List PortSlot

/-- What the walk needs from elsewhere. -/
structure KmsgOps (σ : Type) where
  /-- `kalloc`. -/
  kalloc : σ → Nat → Bool × σ
  /-- `copyin`, the words that were read. -/
  copyin : σ → Nat → Nat → Option (Nat → Nat) × σ
  /-- `vm_deallocate`. -/
  vmDeallocate : σ → Nat → Nat → Bool × σ
  /-- `vm_map_copyin`. -/
  vmMapCopyin : σ → Nat → Nat → Bool → Bool × σ
  /-- `ipc_object_copyin` or `ipc_object_copyin_compat`, for a port name, a type name and
  whether to deallocate: the object. -/
  objectCopyin : σ → Nat → Nat → Bool → Option Nat × σ
  /-- `ipc_port_check_circularity`. -/
  checkCircularity : σ → Nat → Nat → Bool × σ

/-- `IO_VALID`, or `MACH_PORT_VALID` of a word. -/
def ioValid (object : Nat) : Bool := object ≠ ioNull && object ≠ ioDead

/-- The right in a port field. -/
def rightOf (name object : Nat) : List KmsgResource :=
  if ioValid object then [.right object name] else []

/-- The rights in a header. -/
def headerRights (msg : MachMsgHeader) : List KmsgResource :=
  rightOf msg.msghBits.remote msg.msghRemotePort ++
    rightOf msg.msghBits.reply msg.msghLocalPort

namespace KmsgState

variable {σ : Type}

/-- `objects[i]`, for the data of a descriptor. -/
def object (k : KmsgState σ) (isInline : Bool) (data i : Nat) : Nat :=
  if isInline then k.body (data + i) else k.buffer data i

/-- Store `objects[i]`. -/
def setObject (isInline : Bool) (data i object : Nat) (k : KmsgState σ) : KmsgState σ :=
  if isInline then { k with body := update k.body (data + i) object }
  else
    { k with
        buffer := update k.buffer data (update (k.buffer data) i object) }

/-- Note that `objects[i]` is used. -/
def useSlot (t : MachMsgType) (data i : Nat) (k : KmsgState σ) : KmsgState σ :=
  { k with slots := k.slots ++ [portSlot t data i] }

/-- The name of the type is stored. -/
def setName (taddr : Nat) (t : MachMsgType) (name : Nat) (k : KmsgState σ) : KmsgState σ :=
  if t.longform then
    { k with
        body := update k.body (taddr + 1)
          (k.body (taddr + 1) - k.body (taddr + 1) % 2 ^ 16 + name) }
  else
    { k with
        body := update k.body taddr (k.body taddr - k.body taddr % 2 ^ 8 + name) }

/-- Clear what old tasks often leave with random values. -/
def clearHeader (ifc : KmsgInterface) (taddr : Nat) (t : MachMsgType) (k : KmsgState σ) :
    KmsgState σ :=
  match ifc with
  | .current => k
  | .compat =>
    let w := k.body taddr % 2 ^ 31
    { k with
        body := update k.body taddr (if t.longform then w - w % 2 ^ 28 else w) }

/-- Note that a descriptor is accepted. -/
def accept (taddr : Nat) (t : MachMsgType) (k : KmsgState σ) : KmsgState σ :=
  { k with accepted := k.accepted ++ [⟨taddr, t, taddr + t.total⟩] }

/-- The type name of a descriptor for ports becomes the one of the rights. -/
def rename (taddr : Nat) (t : MachMsgType) (k : KmsgState σ) : KmsgState σ :=
  { k.setName taddr t (copyinTypeCode t.name) with complex := true }

/-- The state in which the walk starts.  The message holds the rights of its header. -/
def start (msg : MachMsgHeader) (body : Nat → Nat) (buffer : Nat → Nat → Nat) (next : Nat)
    (world : σ) : KmsgState σ where
  body := body
  buffer := buffer
  next := next
  world := world
  circular := msg.msghBits.circular
  complex := false
  acquired := headerRights msg
  released := []
  accepted := []
  slots := []

/-- A buffer of the kernel, with its words. -/
def newBuffer (length : Nat) (words : Nat → Nat) (k : KmsgState σ) : KmsgState σ :=
  { k with
      buffer := update k.buffer k.next words
      next := k.next + 1
      acquired := k.acquired ++ [.buffer k.next length] }

end KmsgState

open KmsgState

/-! ## Copyin -/

section Copyin

variable {σ : Type} (ifc : KmsgInterface) (ops : KmsgOps σ) (dest : Nat)

/-- Grab out-of-line data from an address: the new address, unless there is none. -/
def grabData (t : MachMsgType) (isPort : Bool) (addr : Nat) (k : KmsgState σ) :
    Option Nat × KmsgState σ :=
  if t.length = 0 then (some 0, k)
  else if isPort then
    match ops.kalloc k.world t.length with
    | (false, w) => (none, { k with world := w })
    | (true, w) =>
    match ops.copyin w addr t.length with
    | (none, w) =>
      let data := k.next
      let k := { k with world := w }.newBuffer t.length fun _ => 0
      (none, { k with released := k.released ++ [.buffer data t.length] })
    | (some words, w) =>
      let data := k.next
      let k := { k with world := w }.newBuffer t.length words
      if t.dealloc then
        match ops.vmDeallocate k.world addr t.length with
        | (false, w) =>
          (none, { k with world := w, released := k.released ++ [.buffer data t.length] })
        | (true, w) => (some data, { k with world := w })
      else (some data, k)
  else
    match ops.vmMapCopyin k.world addr t.length t.dealloc with
    | (false, w) => (none, { k with world := w })
    | (true, w) =>
      (some k.next,
        { k with world := w, next := k.next + 1, acquired := k.acquired ++ [.copy k.next] })

/-- The data of a descriptor: inline data is where it is, and the address of out-of-line data
is replaced. -/
def takeData (t : MachMsgType) (eaddr saddr : Nat) (k : KmsgState σ) :
    Except MachMsgReturn Nat × KmsgState σ :=
  if t.isInline then
    if eaddr - saddr < t.amount then (.error .sendMsgTooSmall, k) else (.ok saddr, k)
  else if eaddr - saddr < 1 then (.error .sendMsgTooSmall, k)
  else
    match grabData ops t (ifc.portAny t.name) (k.body saddr) k with
    | (none, k) => (.error .sendInvalidMemory, k)
    | (some data, k) =>
      (.ok data, { k with body := update k.body saddr data, complex := true })

/-- One round of the loop over the port names of a descriptor.  It is false if the right cannot be
copied in. -/
def copyinPort (t : MachMsgType) (newname data i : Nat) (k : KmsgState σ) :
    Bool × KmsgState σ :=
  let k := k.useSlot t data i
  let port := k.object t.isInline data i
  if ¬ ioValid port then (true, k)
  else
    match ops.objectCopyin k.world port t.name t.dealloc with
    | (none, w) => (false, { k with world := w })
    | (some object, w) =>
      let k := { k with world := w, acquired := k.acquired ++ rightOf newname object }
      let k :=
        if newname = MachMsgTypePort.portReceive.code then
          match ops.checkCircularity k.world object dest with
          | (circular, w) => { k with world := w, circular := k.circular || circular }
        else k
      (true, k.setObject t.isInline data i object)

/-- The loop over the port names of a descriptor, from the `i`-th on, with `n` to go: the place
of the one that cannot be copied in. -/
def copyinPorts (t : MachMsgType) (newname data : Nat) :
    Nat → Nat → KmsgState σ → Option Nat × KmsgState σ
  | 0, _, k => (none, k)
  | n + 1, i, k =>
    match copyinPort ops dest t newname data i k with
    | (false, k) => (some i, k)
    | (true, k) => copyinPorts t newname data n (i + 1) k

/-- The walk over one descriptor: where it continues, or the error and the number of port rights
that are to be cleaned. -/
def copyinType (eaddr taddr : Nat) (k : KmsgState σ) :
    Except (MachMsgReturn × Option Nat) Nat × KmsgState σ :=
  let t := machMsgType k.body taddr
  if eaddr - taddr < t.words then (.error (.sendMsgTooSmall, none), k)
  else if t.bad ifc then (.error (.sendInvalidType, none), k)
  else
    match takeData ifc ops t eaddr (taddr + t.words) (k.clearHeader ifc taddr t) with
    | (.error mr, k) => (.error (mr, none), k)
    | (.ok data, k) =>
      let saddr := taddr + t.total
      let k := k.accept taddr t
      if ifc.portAny t.name then
        match copyinPorts ops dest t (copyinTypeCode t.name) data t.number 0
            (k.rename taddr t) with
        | (some i, k) => (.error (.sendInvalidRight, some i), k)
        | (none, k) => (.ok saddr, k)
      else (.ok saddr, k)

/-- The walk from a descriptor on.  It moves on by at least a word each time. -/
def copyinBody (eaddr : Nat) : Nat → Nat → KmsgState σ →
    Except (MachMsgReturn × Nat × Option Nat) Unit × KmsgState σ
  | 0, _, k => (.ok (), k)
  | fuel + 1, saddr, k =>
    if saddr < eaddr then
      match copyinType ifc ops dest eaddr saddr k with
      | (.error (mr, number), k) => (.error (mr, saddr, number), k)
      | (.ok saddr, k) => copyinBody eaddr fuel saddr k
    else (.ok (), k)

end Copyin

/-! ## Cleaning -/

section Clean

variable (body : Nat → Nat) (buffer : Nat → Nat → Nat)

/-- The memory of a descriptor is given up. -/
def cleanMemory (t : MachMsgType) (data : Nat) : List KmsgResource :=
  if t.isInline then []
  else if t.length = 0 then []
  else if machMsgTypePortAny t.name then [.buffer data t.length]
  else [.copy data]

/-- The first port rights of a descriptor are given up. -/
def cleanRights (t : MachMsgType) (saddr number : Nat) : List KmsgResource :=
  if machMsgTypePortAny t.name then
    (List.range number).flatMap fun i =>
      rightOf t.name (if t.isInline then body (saddr + i) else buffer (body saddr) i)
  else []

/-- One round of the loop of `ipc_kmsg_clean_body`. -/
def cleanType (saddr : Nat) : List KmsgResource :=
  let t := machMsgType body saddr
  cleanRights body buffer t (saddr + t.words) t.number ++
    cleanMemory t (body (saddr + t.words))

/-- The descriptors that the loop of `ipc_kmsg_clean_body` visits. -/
def cleanVisits (eaddr : Nat) : Nat → Nat → List Nat
  | 0, _ => []
  | fuel + 1, saddr =>
    if saddr < eaddr then
      saddr :: cleanVisits eaddr fuel (saddr + (machMsgType body saddr).total)
    else []

/-- `ipc_kmsg_clean_body`. -/
def ipcKmsgCleanBody (saddr eaddr : Nat) : List KmsgResource :=
  (cleanVisits body eaddr (eaddr - saddr) saddr).flatMap (cleanType body buffer)

/-- `ipc_kmsg_clean_partial`.  The last descriptor is cleaned as well if there is a number of port
rights to clean. -/
def ipcKmsgCleanPartial (msg : MachMsgHeader) (eaddr : Nat) (number : Option Nat) :
    List KmsgResource :=
  -- The destination is not tested, it is asserted to be valid.
  [.right msg.msghRemotePort msg.msghBits.remote] ++
    rightOf msg.msghBits.reply msg.msghLocalPort ++
    ipcKmsgCleanBody body buffer 0 eaddr ++
    match number with
    | none => []
    | some number =>
      let t := machMsgType body eaddr
      cleanRights body buffer t (eaddr + t.words) number ++
        cleanMemory t (body (eaddr + t.words))

/-- `ipc_kmsg_clean`, of a message without msg-accepted request. -/
def ipcKmsgClean (msg : MachMsgHeader) (complex : Bool) (eaddr : Nat) : List KmsgResource :=
  headerRights msg ++ if complex then ipcKmsgCleanBody body buffer 0 eaddr else []

/-- The descriptors that `ipc_kmsg_clean` visits. -/
def ipcKmsgCleanVisits (complex : Bool) (eaddr : Nat) : List Nat :=
  if complex then cleanVisits body eaddr (eaddr - 0) 0 else []

end Clean

/-- The body of `ipc_kmsg_copyin`, for a complex message whose header has been copied in.  The
message is left with the bit `MACH_MSGH_BITS_COMPLEX` if `complex` is set. -/
def ipcKmsgCopyin {σ : Type} (ifc : KmsgInterface) (ops : KmsgOps σ) (msg : MachMsgHeader)
    (eaddr : Nat) (k : KmsgState σ) : Except MachMsgReturn Unit × KmsgState σ :=
  match copyinBody ifc ops msg.msghRemotePort eaddr eaddr 0 k with
  | (.error (mr, taddr, number), k) =>
    (.error mr,
      { k with
          released := k.released ++ ipcKmsgCleanPartial k.body k.buffer msg taddr number })
  | (.ok (), k) => (.ok (), k)

/-! ## What one descriptor does -/

section Steps

variable {σ : Type} {ifc : KmsgInterface} {ops : KmsgOps σ} {dest : Nat}

/-- What stays while the data of a descriptor is fetched. -/
structure Fetched (k k' : KmsgState σ) : Prop where
  body : k'.body = k.body
  buffer : ∀ d, d < k.next → k'.buffer d = k.buffer d
  next : k.next ≤ k'.next
  complex : k'.complex = k.complex
  accepted : k'.accepted = k.accepted
  slots : k'.slots = k.slots

theorem Fetched.refl (k : KmsgState σ) : Fetched k k :=
  ⟨rfl, fun _ _ => rfl, le_rfl, rfl, rfl, rfl⟩

variable {k k' k₁ : KmsgState σ} {words : Nat → Nat} {t : MachMsgType} {w : σ}
  {eaddr saddr data name object i newname taddr : Nat} {w' : σ}

theorem Fetched.fresh (w : σ) (acquired released : List KmsgResource) :
    Fetched k { k with
      buffer := update k.buffer k.next words, next := k.next + 1, world := w,
      acquired := acquired, released := released } where
  body := rfl
  buffer _ hd := update_of_ne hd.ne ..
  next := Nat.le_succ _
  complex := rfl
  accepted := rfl
  slots := rfl

/-- The memory that is fetched for an item. -/
def fetchedMemory (t : MachMsgType) (isPort : Bool) (data : Nat) : List KmsgResource :=
  if t.length = 0 then [] else if isPort then [.buffer data t.length] else [.copy data]

/-- Fetching data either fails and keeps nothing, or the message holds what was fetched. -/
structure Grabbed (t : MachMsgType) (isPort : Bool) (k : KmsgState σ)
    (r : Option Nat × KmsgState σ) : Prop where
  fetched : Fetched k r.2
  failed : r.1 = none →
    ∃ gone, r.2.acquired = k.acquired ++ gone ∧ r.2.released = k.released ++ gone
  acquired : ∀ data, r.1 = some data →
    r.2.acquired = k.acquired ++ fetchedMemory t isPort data ∧ r.2.released = k.released
  fresh : ∀ data, r.1 = some data → t.length ≠ 0 → data = k.next ∧ k.next < r.2.next

variable {isPort : Bool}

theorem Grabbed.none : Grabbed t isPort k (none, { k with world := w }) where
  fetched := ⟨rfl, fun _ _ => rfl, le_rfl, rfl, rfl, rfl⟩
  failed _ := ⟨[], (append_nil _).symm, (append_nil _).symm⟩
  acquired _ h := nomatch h
  fresh _ h := nomatch h

theorem Grabbed.freed : Grabbed t isPort k
      (.none, { ({ k with world := w }.newBuffer t.length words) with
        world := w', released := k.released ++ [.buffer k.next t.length] }) where
  fetched := .fresh ..
  failed _ := ⟨_, rfl, rfl⟩
  acquired _ h := nomatch h
  fresh _ h := nomatch h

theorem Grabbed.kept (hlength : t.length ≠ 0) : Grabbed t true k
      (some k.next, { ({ k with world := w }.newBuffer t.length words) with world := w' }) where
  fetched := .fresh ..
  failed h := nomatch h
  acquired _ h := by
    cases h
    rw [fetchedMemory, if_neg hlength]
    exact ⟨rfl, rfl⟩
  fresh _ h _ := by
    cases h
    exact ⟨rfl, Nat.lt_succ_self _⟩

theorem grabData_spec (ops : KmsgOps σ) (t : MachMsgType) (isPort : Bool) (addr : Nat)
    (k : KmsgState σ) :
    Grabbed t isPort k (grabData ops t isPort addr k) := by
  rw [grabData]
  split
  next hlength =>
    refine ⟨.refl k, nofun, fun data _ => ?_, fun _ _ hne => absurd hlength hne⟩
    rw [fetchedMemory, if_pos hlength, append_nil]
    exact ⟨rfl, rfl⟩
  next hlength =>
  split
  next hport =>
    subst hport
    cases ops.kalloc k.world t.length with
    | mk got w =>
    cases got with
    | false => exact .none
    | true =>
      simp only
      cases ops.copyin w addr t.length with
      | mk words =>
      cases words with
      | none => exact .freed
      | some =>
        simp only
        split
        next =>
          split
          next => exact .freed
          next => exact .kept hlength
        next => exact .kept hlength
  rename_i hport
  cases ops.vmMapCopyin k.world addr t.length t.dealloc with
  | mk got =>
  cases got with
  | false => exact .none
  | true =>
    refine ⟨⟨rfl, fun _ _ => rfl, Nat.le_succ _, rfl, rfl, rfl⟩, nofun, fun data h => ?_,
      fun data h _ => ?_⟩
    · cases h
      rw [fetchedMemory, if_neg hlength, if_neg hport]
      exact ⟨rfl, rfl⟩
    · cases h
      exact ⟨rfl, Nat.lt_succ_self _⟩

/-- The data of a descriptor that goes on. -/
structure TakenData (ifc : KmsgInterface) (t : MachMsgType) (eaddr saddr : Nat)
    (k : KmsgState σ) (data : Nat) (k' : KmsgState σ) : Prop where
  body : ∀ a, a ≠ saddr ∨ t.isInline = true → k'.body a = k.body a
  buffer : ∀ d, d < k.next → k'.buffer d = k.buffer d
  next : k.next ≤ k'.next
  complex : k'.complex = (k.complex || !t.isInline)
  accepted : k'.accepted = k.accepted
  slots : k'.slots = k.slots
  acquired : k'.acquired = k.acquired ++
    if t.isInline then [] else fetchedMemory t (ifc.portAny t.name) data
  released : k'.released = k.released
  inside : saddr ≤ eaddr → saddr + (if t.isInline then t.amount else 1) ≤ eaddr
  inPlace : t.isInline = true → data = saddr
  pointer : t.isInline = false → k'.body saddr = data
  fresh : t.isInline = false → t.length ≠ 0 → k.next ≤ data ∧ data < k'.next

theorem takeData_ok (h : takeData ifc ops t eaddr saddr k = (.ok data, k')) :
    TakenData ifc t eaddr saddr k data k' := by
  rw [takeData] at h
  cases hinline : t.isInline with
  | true =>
    rw [if_pos hinline] at h
    split at h
    next => cases h
    cases h
    exact
      { body := fun _ _ => rfl
        buffer := fun _ _ => rfl
        next := le_rfl
        complex := by rw [hinline]; simp
        accepted := rfl
        slots := rfl
        acquired := by rw [hinline]; exact (append_nil _).symm
        released := rfl
        inside := fun hle => by rw [hinline, if_pos rfl]; omega
        inPlace := fun _ => rfl
        pointer := fun hout => nomatch hinline.symm.trans hout
        fresh := fun hout => nomatch hinline.symm.trans hout }
  | false =>
    rw [hinline, if_neg Bool.false_ne_true] at h
    split at h
    next => cases h
    have hgrab := grabData_spec ops t (ifc.portAny t.name) (k.body saddr) k
    split at h
    next => cases h
    rename_i heq
    cases h
    rw [heq] at hgrab
    have hfetched := hgrab.fetched
    exact
      { body := fun a ha => by
          rw [← hfetched.body]
          exact update_of_ne (ha.resolve_right (by simp [hinline])) ..
        buffer := hfetched.buffer
        next := hfetched.next
        complex := by rw [hinline]; simp
        accepted := hfetched.accepted
        slots := hfetched.slots
        acquired := by rw [hinline]; exact (hgrab.acquired _ rfl).1
        released := (hgrab.acquired _ rfl).2
        inside := fun hle => by rw [hinline, if_neg Bool.false_ne_true]; omega
        inPlace := fun hin => nomatch hinline.symm.trans hin
        pointer := fun _ => update_self ..
        fresh := fun _ hlength => by
          obtain ⟨hdata, hlt⟩ := hgrab.fresh _ rfl hlength
          rw [hdata]
          exact ⟨le_rfl, hlt⟩ }

/-- A descriptor without data changes nothing, up to what was acquired and given up at once. -/
structure Rejected (k k' : KmsgState σ) : Prop extends Fetched k k' where
  gone : ∃ gone, k'.acquired = k.acquired ++ gone ∧ k'.released = k.released ++ gone

theorem Rejected.refl (k : KmsgState σ) : Rejected k k where
  toFetched := .refl k
  gone := ⟨[], (append_nil _).symm, (append_nil _).symm⟩

theorem takeData_error {mr : MachMsgReturn}
    (h : takeData ifc ops t eaddr saddr k = (.error mr, k')) :
    Rejected k k' := by
  rw [takeData] at h
  split at h
  next =>
    split at h
    next => cases h; exact .refl k
    next => cases h
  split at h
  next => cases h; exact .refl k
  have hgrab := grabData_spec ops t (ifc.portAny t.name) (k.body saddr) k
  split at h
  next heq =>
    cases h
    rw [heq] at hgrab
    exact ⟨hgrab.fetched, hgrab.failed rfl⟩
  next => cases h

/-- One round of the loop over port names. -/
structure PortCopied (t : MachMsgType) (newname data i : Nat) (k : KmsgState σ)
    (r : Bool × KmsgState σ) : Prop where
  body : ∀ a, a ≠ data + i ∨ t.isInline = false → r.2.body a = k.body a
  buffer : ∀ d, d ≠ data ∨ t.isInline = true → r.2.buffer d = k.buffer d
  before : ∀ j, j < i → r.2.object t.isInline data j = k.object t.isInline data j
  next : r.2.next = k.next
  complex : r.2.complex = k.complex
  accepted : r.2.accepted = k.accepted
  slots : r.2.slots = k.slots ++ [portSlot t data i]
  released : r.2.released = k.released
  acquired : r.2.acquired = k.acquired ++
    if r.1 then rightOf newname (r.2.object t.isInline data i) else []

theorem KmsgState.object_setObject (k : KmsgState σ) (isInline : Bool) (data i object j : Nat) :
    (k.setObject isInline data i object).object isInline data j =
      if j = i then object else k.object isInline data j := by
  cases isInline <;> simp [setObject, KmsgState.object, update_apply]

theorem PortCopied.store (w : σ) (circular : Bool) :
    PortCopied t newname data i k (true, { k.useSlot t data i with
      world := w, circular := circular,
      acquired := k.acquired ++ rightOf newname object }.setObject t.isInline data i object) where
  body a ha := by
    cases hinline : t.isInline with
    | true =>
      rw [hinline] at ha
      exact update_of_ne (ha.resolve_right (by simp)) ..
    | false => rfl
  buffer d hd := by
    cases hinline : t.isInline with
    | true => rfl
    | false =>
      rw [hinline] at hd
      exact update_of_ne (by simpa using hd) ..
  before j hj := by rw [object_setObject, if_neg hj.ne]; rfl
  next := by cases t.isInline <;> rfl
  complex := by cases t.isInline <;> rfl
  accepted := by cases t.isInline <;> rfl
  slots := by cases t.isInline <;> rfl
  released := by cases t.isInline <;> rfl
  acquired := by
    rw [if_pos rfl, object_setObject, if_pos rfl]
    cases t.isInline <;> rfl

theorem copyinPort_spec (ops : KmsgOps σ) (dest : Nat) (t : MachMsgType) (newname data i : Nat)
    (k : KmsgState σ) :
    PortCopied t newname data i k (copyinPort ops dest t newname data i k) := by
  have hkeep (b : Bool) (w : σ) (hb : b = true → ¬ ioValid (k.object t.isInline data i)) :
      PortCopied t newname data i k (b, { k.useSlot t data i with world := w }) :=
    { body := fun _ _ => rfl
      buffer := fun _ _ => rfl
      before := fun _ _ => rfl
      next := rfl
      complex := rfl
      accepted := rfl
      slots := rfl
      released := rfl
      acquired := by
        cases b with
        | true =>
          change k.acquired = k.acquired ++ rightOf newname (k.object t.isInline data i)
          rw [rightOf, if_neg (hb rfl), append_nil]
        | false => exact (append_nil _).symm }
  simp only [copyinPort]
  split
  next hport => exact hkeep true k.world fun _ => hport
  split
  next w heq => exact hkeep false w nofun
  next =>
    split
    next => exact .store ..
    next => exact .store ..

/-- The loop over port names, from the `i`-th on.  It is done up to `stop`. -/
structure PortsCopied (t : MachMsgType) (newname data n i : Nat) (k : KmsgState σ) (stop : Nat)
    (k' : KmsgState σ) : Prop where
  bounds : i ≤ stop ∧ stop ≤ i + n
  body : ∀ a, (a < data + i ∨ data + i + n ≤ a) ∨ t.isInline = false → k'.body a = k.body a
  buffer : ∀ d, (n ≠ 0 → d ≠ data ∨ t.isInline = true) → k'.buffer d = k.buffer d
  before : ∀ j, j < i → k'.object t.isInline data j = k.object t.isInline data j
  next : k'.next = k.next
  complex : k'.complex = k.complex
  accepted : k'.accepted = k.accepted
  slots : ∀ s, s ∈ k'.slots → s ∈ k.slots ∨ ∃ j, j < i + n ∧ s = portSlot t data j
  released : k'.released = k.released
  acquired : k'.acquired = k.acquired ++ (List.range' i (stop - i)).flatMap fun j =>
    rightOf newname (k'.object t.isInline data j)

variable {n : Nat}

theorem PortCopied.stop (h : PortCopied t newname data i k (false, k')) :
    PortsCopied t newname data (n + 1) i k i k' where
  bounds := ⟨le_rfl, Nat.le_add_right ..⟩
  body a ha := h.body a (ha.imp_left (by omega))
  buffer d hd := h.buffer d (hd (Nat.succ_ne_zero n))
  before := h.before
  next := h.next
  complex := h.complex
  accepted := h.accepted
  slots s hs := by
    rw [h.slots, mem_append, mem_singleton] at hs
    exact hs.imp_right fun heq => ⟨i, by omega, heq⟩
  released := h.released
  acquired := by rw [Nat.sub_self]; exact h.acquired

theorem PortCopied.loop {stop : Nat} (h : PortCopied t newname data i k (true, k₁))
    (ih : PortsCopied t newname data n (i + 1) k₁ stop k') :
    PortsCopied t newname data (n + 1) i k stop k' where
  bounds := by have := ih.bounds; omega
  body a ha := (ih.body a (ha.imp_left (by omega))).trans (h.body a (ha.imp_left (by omega)))
  buffer d hd :=
    have hd := hd (Nat.succ_ne_zero n)
    (ih.buffer d fun _ => hd).trans (h.buffer d hd)
  before j hj := (ih.before j (by omega)).trans (h.before j hj)
  next := ih.next.trans h.next
  complex := ih.complex.trans h.complex
  accepted := ih.accepted.trans h.accepted
  slots s hs := by
    rcases ih.slots s hs with hs | ⟨j, hj, heq⟩
    · rw [h.slots, mem_append, mem_singleton] at hs
      exact hs.imp_right fun heq => ⟨i, by omega, heq⟩
    · exact .inr ⟨j, by omega, heq⟩
  released := ih.released.trans h.released
  acquired := by
    have hstop : stop - i = stop - (i + 1) + 1 := by have := ih.bounds; omega
    have hacquired : k₁.acquired = k.acquired ++ rightOf newname (k₁.object t.isInline data i) :=
      h.acquired
    rw [ih.acquired, hacquired, hstop, range'_succ, flatMap_cons,
      ih.before i (Nat.lt_succ_self i), append_assoc]

theorem copyinPorts_spec (ops : KmsgOps σ) (dest : Nat) (t : MachMsgType)
    (newname data n i : Nat) (k : KmsgState σ) :
    PortsCopied t newname data n i k ((copyinPorts ops dest t newname data n i k).1.getD (i + n))
      (copyinPorts ops dest t newname data n i k).2 := by
  induction n generalizing i k with
  | zero =>
    exact
      { bounds := ⟨le_rfl, le_rfl⟩
        body := fun _ _ => rfl
        buffer := fun _ _ => rfl
        before := fun _ _ => rfl
        next := rfl
        complex := rfl
        accepted := rfl
        slots := fun _ hs => .inl hs
        released := rfl
        acquired := by
          change k.acquired = k.acquired ++ (range' i (i + 0 - i)).flatMap _
          rw [add_zero, Nat.sub_self]
          exact (append_nil _).symm }
  | succ n ih =>
    have hport := copyinPort_spec ops dest t newname data i k
    rw [copyinPorts]
    cases hr : copyinPort ops dest t newname data i k with
    | mk go k₁ =>
    rw [hr] at hport
    cases go with
    | false => exact hport.stop
    | true =>
      have h := hport.loop (ih (i + 1) k₁)
      rw [add_right_comm] at h
      exact h

theorem MachMsgType.words_pos (t : MachMsgType) : 0 < t.words := by
  rw [words]
  split <;> decide

theorem MachMsgType.words_lt_total : t.words ≤ t.total :=
  Nat.le_add_right ..

theorem MachMsgType.words_after (t : MachMsgType) {s a : Nat} (ha : s + t.total ≤ a) :
    s + t.words ≤ a :=
  le_trans (Nat.add_le_add_left t.words_lt_total s) ha

theorem machMsgType_congr {body body' : Nat → Nat} {p : Nat}
    (h : ∀ a, p ≤ a → a < p + (machMsgType body p).words → body' a = body a) :
    machMsgType body' p = machMsgType body p := by
  have h₀ : body' p = body p :=
    h p le_rfl (Nat.lt_add_of_pos_right (MachMsgType.words_pos _))
  cases hlong : (decide (body p / 2 ^ 29 % 2 = 1) : Bool) with
  | false =>
    simp only [machMsgType, h₀, hlong, Bool.false_eq_true, if_false]
  | true =>
    have hwords : (machMsgType body p).words = 3 := by
      simp only [MachMsgType.words, machMsgType, hlong, if_true]
    have h₁ : body' (p + 1) = body (p + 1) := h (p + 1) (by omega) (by omega)
    have h₂ : body' (p + 2) = body (p + 2) := h (p + 2) (by omega) (by omega)
    simp only [machMsgType, h₀, h₁, h₂]

theorem div_storeLow {w m : Nat} (hname : name < 2 ^ m) (n : Nat) :
    (w - w % 2 ^ m + name) / 2 ^ (m + n) = w / 2 ^ (m + n) := by
  have hhigh : (w - w % 2 ^ m + name) / 2 ^ m = w / 2 ^ m := by
    have hw : w - w % 2 ^ m + name = 2 ^ m * (w / 2 ^ m) + name := by
      rw [Nat.sub_eq_of_eq_add (Nat.div_add_mod w (2 ^ m)).symm]
    rw [hw, Nat.mul_add_div (Nat.two_pow_pos m), Nat.div_eq_of_lt hname, add_zero]
  rw [pow_add, ← Nat.div_div_eq_div_mul, hhigh, Nat.div_div_eq_div_mul]

theorem machMsgType_setName (k : KmsgState σ) (p : Nat) (hname : name < 2 ^ 8) :
    machMsgType (k.setName p (machMsgType k.body p) name).body p =
      { machMsgType k.body p with name := name } := by
  cases hlong : (decide (k.body p / 2 ^ 29 % 2 = 1) : Bool) with
  | false =>
    have hform : (machMsgType k.body p).longform = false := hlong
    have hset : (k.setName p (machMsgType k.body p) name).body =
        update k.body p (k.body p - k.body p % 2 ^ 8 + name) := by
      rw [setName, hform]
      rfl
    have hlow : (k.body p - k.body p % 2 ^ 8 + name) % 2 ^ 8 = name := by omega
    have hdiv (n : Nat) := div_storeLow (w := k.body p) hname n
    rw [hset]
    simp only [machMsgType, update_self]
    simp only [hdiv 23, hdiv 22, hdiv 21, hdiv 20, hdiv 8, hdiv 0, hlow, hlong, Bool.false_eq_true,
      if_false, Bool.not_false, Bool.true_or]
  | true =>
    have hform : (machMsgType k.body p).longform = true := hlong
    have hset : (k.setName p (machMsgType k.body p) name).body = update k.body (p + 1)
          (k.body (p + 1) - k.body (p + 1) % 2 ^ 16 + name) := by
      rw [setName, hform]
      rfl
    have hlow : (k.body (p + 1) - k.body (p + 1) % 2 ^ 16 + name) % 2 ^ 16 = name := by omega
    have hhigh : (k.body (p + 1) - k.body (p + 1) % 2 ^ 16 + name) / 2 ^ 16 =
        k.body (p + 1) / 2 ^ 16 :=
      div_storeLow (hname.trans_le (by decide)) 0
    rw [hset]
    simp only [machMsgType, update_self, update_of_ne (show p ≠ p + 1 by omega),
      update_of_ne (show p + 2 ≠ p + 1 by omega), hlong, if_true, hlow, hhigh]

@[simp]
theorem clearHeader_accepted (taddr : Nat) (t : MachMsgType) (k : KmsgState σ) :
    (k.clearHeader ifc taddr t).accepted = k.accepted := by
  cases ifc <;> rfl

@[simp]
theorem clearHeader_slots (taddr : Nat) (t : MachMsgType) (k : KmsgState σ) :
    (k.clearHeader ifc taddr t).slots = k.slots := by
  cases ifc <;> rfl

theorem rename_keeps (taddr : Nat) (t : MachMsgType) (k : KmsgState σ) :
    (k.rename taddr t).accepted = k.accepted ∧ (k.rename taddr t).slots = k.slots ∧
      (k.rename taddr t).buffer = k.buffer ∧ (k.rename taddr t).next = k.next ∧
      (k.rename taddr t).acquired = k.acquired ∧ (k.rename taddr t).released = k.released := by
  rw [rename, setName]
  split <;> exact ⟨rfl, rfl, rfl, rfl, rfl, rfl⟩

theorem rename_body_of_not {a : Nat} (k : KmsgState σ)
    (h : a < taddr ∨ taddr + t.words ≤ a) : (k.rename taddr t).body a = k.body a := by
  rw [MachMsgType.words] at h
  rw [rename, setName]
  split
  next hlong =>
    rw [hlong, if_pos rfl] at h
    exact update_of_ne (by omega) ..
  next hlong =>
    rw [if_neg hlong] at h
    exact update_of_ne (by omega) ..

theorem MachMsgType.length_of_fits (hsize : t.size = 32)
    (hfits : t.number * t.size < 2 ^ 32) : t.length = 4 * t.number := by
  rw [length, hsize]
  rw [hsize] at hfits
  omega

/-- The walk over the descriptor `t` at `taddr`. -/
inductive TypeStep (ifc : KmsgInterface) (eaddr taddr : Nat) (t : MachMsgType)
    (k : KmsgState σ) : Except (MachMsgReturn × Option Nat) Nat × KmsgState σ → Prop
  | early (mr : MachMsgReturn) : TypeStep ifc eaddr taddr t k (.error (mr, none), k)
  | noData {k' : KmsgState σ} (mr : MachMsgReturn)
      (hreject : Rejected (k.clearHeader ifc taddr t) k') :
      TypeStep ifc eaddr taddr t k (.error (mr, none), k')
  | plain {data : Nat} {k' : KmsgState σ} (hgood : t.bad ifc = false)
      (hinside : taddr + t.total ≤ eaddr) (hport : ifc.portAny t.name = false)
      (hdata : TakenData ifc t eaddr (taddr + t.words) (k.clearHeader ifc taddr t) data k') :
      TypeStep ifc eaddr taddr t k (.ok (taddr + t.total), k'.accept taddr t)
  | ports {data : Nat} {k₁ k' : KmsgState σ} (hgood : t.bad ifc = false)
      (hinside : taddr + t.total ≤ eaddr) (hport : ifc.portAny t.name = true)
      (hdata : TakenData ifc t eaddr (taddr + t.words) (k.clearHeader ifc taddr t) data k₁)
      (hports : PortsCopied t (copyinTypeCode t.name) data t.number 0
        ((k₁.accept taddr t).rename taddr t) t.number k') :
      TypeStep ifc eaddr taddr t k (.ok (taddr + t.total), k')
  | failed {data i : Nat} {k₁ k' : KmsgState σ} (mr : MachMsgReturn) (hgood : t.bad ifc = false)
      (hinside : taddr + t.total ≤ eaddr) (hport : ifc.portAny t.name = true)
      (hdata : TakenData ifc t eaddr (taddr + t.words) (k.clearHeader ifc taddr t) data k₁)
      (hports : PortsCopied t (copyinTypeCode t.name) data t.number 0
        ((k₁.accept taddr t).rename taddr t) i k') :
      TypeStep ifc eaddr taddr t k (.error (mr, some i), k')

theorem copyinType_step (ifc : KmsgInterface) (ops : KmsgOps σ) (dest eaddr taddr : Nat)
    (k : KmsgState σ) :
    TypeStep ifc eaddr taddr (machMsgType k.body taddr) k
      (copyinType ifc ops dest eaddr taddr k) := by
  simp only [copyinType]
  generalize machMsgType k.body taddr = t
  split
  next => exact .early _
  next =>
  split
  next => exact .early _
  next hgood =>
  have hgood : t.bad ifc = false := Bool.eq_false_iff.mpr hgood
  split
  next mr k₁ htake => exact .noData mr (takeData_error htake)
  next data k₁ htake =>
  have hdata := takeData_ok htake
  have hinside : taddr + t.total ≤ eaddr := by
    have hpos := t.words_pos
    have hroom := hdata.inside (by omega)
    rw [MachMsgType.total]
    omega
  split
  next hport =>
    have hports := copyinPorts_spec ops dest t (copyinTypeCode t.name) data t.number 0
      ((k₁.accept taddr t).rename taddr t)
    split
    next k' heq =>
      rw [heq] at hports
      exact .failed _ hgood hinside hport hdata hports
    next heq =>
      rw [heq, zero_add] at hports
      exact .ports hgood hinside hport hdata hports
  next hport => exact .plain hgood hinside (Bool.eq_false_iff.mpr hport) hdata

theorem TakenData.accept_accepted
    (hdata : TakenData ifc t eaddr (taddr + t.words) (k.clearHeader ifc taddr t) data k') :
    (k'.accept taddr t).accepted = k.accepted ++ [⟨taddr, t, taddr + t.total⟩] := by
  rw [accept, hdata.accepted, clearHeader_accepted]

section

variable (hdata : TakenData ifc t eaddr (taddr + t.words) (k.clearHeader ifc taddr t) data k₁)
include hdata

section

variable (hports : PortsCopied t (copyinTypeCode t.name) data t.number 0
  ((k₁.accept taddr t).rename taddr t) i k')
include hports

theorem TakenData.ports_accepted : k'.accepted = k.accepted ++ [⟨taddr, t, taddr + t.total⟩] := by
  rw [hports.accepted, (rename_keeps ..).1, hdata.accept_accepted]

theorem TakenData.ports_mem : ⟨taddr, t, taddr + t.total⟩ ∈ k'.accepted := by
  rw [hdata.ports_accepted hports]
  exact mem_concat_self

end

end

theorem TypeStep.accepted
    {r : Except (MachMsgReturn × Option Nat) Nat × KmsgState σ}
    (h : TypeStep ifc eaddr taddr t k r) : k.accepted ⊆ r.2.accepted := by
  cases h with
  | early mr => exact .refl _
  | noData mr hreject =>
    rw [hreject.accepted, clearHeader_accepted]
    exact .refl _
  | plain hgood hinside hport hdata =>
    rw [hdata.accept_accepted]
    exact subset_append_left ..
  | ports hgood hinside hport hdata hports | failed mr hgood hinside hport hdata hports =>
    rw [hdata.ports_accepted hports]
    exact subset_append_left ..

theorem copyinBody_accepted {fuel s : Nat} :
    k.accepted ⊆ (copyinBody ifc ops dest eaddr fuel s k).2.accepted := by
  induction fuel generalizing s k with
  | zero => exact .refl _
  | succ fuel ih =>
    rw [copyinBody]
    split
    next =>
      have hstep := (copyinType_step ifc ops dest eaddr s k).accepted
      split
      next heq =>
        rw [heq] at hstep
        exact hstep
      next heq =>
        rw [heq] at hstep
        exact List.Subset.trans hstep ih
    next => exact .refl _

end Steps

/-! ## The walk stays inside the message -/

/-- The word is in the body up to `eaddr`, or in its buffer. -/
def PortSlot.Inside (eaddr : Nat) : PortSlot → Prop
  | .body addr => addr < eaddr
  | .buffer length i => 4 * (i + 1) ≤ length

instance (eaddr : Nat) : DecidablePred (PortSlot.Inside eaddr)
  | .body addr => inferInstanceAs (Decidable (addr < eaddr))
  | .buffer length i => inferInstanceAs (Decidable (4 * (i + 1) ≤ length))

/-- The scan pointer increases with each descriptor and does not pass `eaddr`. -/
def Ascends (eaddr : Nat) (accepted : List Accepted) : Prop :=
  accepted.Pairwise (fun a b => a.saddr ≤ b.taddr) ∧
    ∀ a ∈ accepted, a.taddr < a.saddr ∧ a.saddr ≤ eaddr

/-- The length covers the data exactly if it was computed without overflow. -/
theorem MachMsgType.covered_iff (t : MachMsgType) :
    t.number * t.size ≤ 8 * t.length ↔ t.number * t.size + 7 < 2 ^ 32 := by
  rw [length]
  omega

section Inside

variable {σ : Type} {ifc : KmsgInterface} {ops : KmsgOps σ} {dest eaddr : Nat}

variable {t : MachMsgType} {s : Nat} {k k' : KmsgState σ}

theorem KmsgInterface.size_of_port (hgood : t.bad ifc = false)
    (hport : ifc.portAny t.name = true) : t.size = 32 := by
  cases ifc with
  | current =>
    have hport : machMsgTypePortAny t.name = true := hport
    simp only [MachMsgType.bad, hport, Bool.or_eq_false_iff] at hgood
    simpa using hgood.1.1.1
  | compat =>
    simp only [MachMsgType.bad, hport] at hgood
    simpa using hgood

/-- The walk has come to `s`. -/
structure Scanned (eaddr s : Nat) (k : KmsgState σ) : Prop where
  inside : s ≤ eaddr
  ordered : k.accepted.Pairwise fun a b => a.saddr ≤ b.taddr
  below : ∀ a ∈ k.accepted, a.taddr < a.saddr ∧ a.saddr ≤ s
  total : ∀ a ∈ k.accepted, a.saddr = a.taddr + a.type.total
  slots : ∀ x ∈ k.slots, ∃ a ∈ k.accepted, a.type.size = 32 ∧
    ∃ j, j < a.type.number ∧ x = portSlot a.type (a.taddr + a.type.words) j

section

variable (h : Scanned eaddr s k)
include h

theorem Scanned.congr (haccepted : k'.accepted = k.accepted) (hslots : k'.slots = k.slots) :
    Scanned eaddr s k' := by
  obtain ⟨h₁, h₂, h₃, h₄, h₅⟩ := h
  rw [← haccepted] at h₂ h₃ h₄
  rw [← haccepted, ← hslots] at h₅
  exact ⟨h₁, h₂, h₃, h₄, h₅⟩

theorem Scanned.accept (hinside : s + t.total ≤ eaddr)
    (haccepted : k'.accepted = k.accepted ++ [⟨s, t, s + t.total⟩])
    (hslots : ∀ x ∈ k'.slots, x ∈ k.slots ∨
      t.size = 32 ∧ ∃ j, j < t.number ∧ x = portSlot t (s + t.words) j) :
    Scanned eaddr (s + t.total) k' := by
  have hpos : 0 < t.total := t.words_pos.trans_le t.words_lt_total
  have hmem {a : Accepted} (ha : a ∈ k'.accepted) : a ∈ k.accepted ∨ a = ⟨s, t, s + t.total⟩ := by
    rw [haccepted, mem_append, mem_singleton] at ha
    exact ha
  have hlast : (⟨s, t, s + t.total⟩ : Accepted) ∈ k'.accepted := by
    rw [haccepted]
    exact mem_concat_self
  refine ⟨hinside, ?_, fun a ha => ?_, fun a ha => ?_, fun x hx => ?_⟩
  · rw [haccepted, pairwise_append]
    refine ⟨h.ordered, pairwise_singleton .., fun a ha b hb => ?_⟩
    rw [mem_singleton.mp hb]
    exact (h.below a ha).2
  · cases hmem ha with
    | inl ha => exact ⟨(h.below a ha).1, le_trans (h.below a ha).2 (Nat.le_add_right ..)⟩
    | inr ha =>
      subst ha
      exact ⟨Nat.lt_add_of_pos_right hpos, le_rfl⟩
  · cases hmem ha with
    | inl ha => exact h.total a ha
    | inr ha => rw [ha]
  · cases hslots x hx with
    | inl hx =>
      obtain ⟨a, ha, hslot⟩ := h.slots x hx
      exact ⟨a, haccepted ▸ mem_append_left _ ha, hslot⟩
    | inr hx => exact ⟨_, hlast, hx⟩

theorem Scanned.accept_ports {data i : Nat} {k₁ : KmsgState σ} (hinside : s + t.total ≤ eaddr)
    (hgood : t.bad ifc = false)
    (hport : ifc.portAny t.name = true)
    (hdata : TakenData ifc t eaddr (s + t.words) (k.clearHeader ifc s t) data k₁)
    (hports : PortsCopied t (copyinTypeCode t.name) data t.number 0
      ((k₁.accept s t).rename s t) i k') :
    Scanned eaddr (s + t.total) k' := by
  refine h.accept hinside (hdata.ports_accepted hports) fun x hx => ?_
  cases hports.slots x hx with
  | inl hx =>
    rw [(rename_keeps ..).2.1, KmsgState.accept, hdata.slots, clearHeader_slots] at hx
    exact .inl hx
  | inr hx =>
    obtain ⟨j, hj, rfl⟩ := hx
    rw [zero_add] at hj
    refine .inr ⟨KmsgInterface.size_of_port hgood hport, j, hj, ?_⟩
    rw [portSlot, portSlot]
    cases hinline : t.isInline with
    | true => rw [hdata.inPlace hinline]
    | false => rfl

theorem copyinBody_scanned {fuel : Nat} :
    ∃ s', Scanned eaddr s' (copyinBody ifc ops dest eaddr fuel s k).2 := by
  induction fuel generalizing s k with
  | zero => exact ⟨s, h⟩
  | succ fuel ih =>
    rw [copyinBody]
    split
    next =>
      have hstep := copyinType_step ifc ops dest eaddr s k
      generalize copyinType ifc ops dest eaddr s k = r at hstep
      cases hstep with
      | early mr => exact ⟨s, h⟩
      | noData mr hreject =>
        exact ⟨s, h.congr (hreject.accepted.trans (clearHeader_accepted ..))
          (hreject.slots.trans (clearHeader_slots ..))⟩
      | plain hgood hinside hport hdata =>
        refine ih (h.accept hinside hdata.accept_accepted fun x hx => .inl ?_)
        rw [accept, hdata.slots, clearHeader_slots] at hx
        exact hx
      | ports hgood hinside hport hdata hports =>
        exact ih (h.accept_ports hinside hgood hport hdata hports)
      | failed mr hgood hinside hport hdata hports =>
        exact ⟨_, h.accept_ports hinside hgood hport hdata hports⟩
    next => exact ⟨s, h⟩

end

theorem ipcKmsgCopyin_accepted (ifc : KmsgInterface) (ops : KmsgOps σ) (msg : MachMsgHeader)
    (k : KmsgState σ) : (ipcKmsgCopyin ifc ops msg eaddr k).2.accepted =
      (copyinBody ifc ops msg.msghRemotePort eaddr eaddr 0 k).2.accepted := by
  rw [ipcKmsgCopyin]
  split <;> simp only [*]

theorem ipcKmsgCopyin_scanned (ifc : KmsgInterface) (ops : KmsgOps σ) (msg : MachMsgHeader)
    (h : Scanned eaddr 0 k) : ∃ s, Scanned eaddr s (ipcKmsgCopyin ifc ops msg eaddr k).2 := by
  obtain ⟨s, hs⟩ : ∃ s, Scanned eaddr s
      (copyinBody ifc ops msg.msghRemotePort eaddr eaddr 0 k).2 := copyinBody_scanned h
  refine ⟨s, hs.congr (ipcKmsgCopyin_accepted ..) ?_⟩
  rw [ipcKmsgCopyin]
  split <;> simp only [*]

end Inside

/-! ### The descriptors of a message -/

/-- The descriptors of a body from a position on, up to the first that is not well formed or does
not fit into the message with what follows it. -/
def descriptors (ifc : KmsgInterface) (body : Nat → Nat) (eaddr : Nat) :
    Nat → Nat → List MachMsgType
  | 0, _ => []
  | fuel + 1, saddr =>
    let t := machMsgType body saddr
    if t.bad ifc = false ∧ saddr + t.total ≤ eaddr then
      t :: descriptors ifc body eaddr fuel (saddr + t.total)
    else []

/-- Everything is granted, and a right goes by its name. -/
def grantOps : KmsgOps Unit where
  kalloc _ _ := (true, ())
  copyin _ _ _ := (some fun _ => 0, ())
  vmDeallocate _ _ _ := (true, ())
  vmMapCopyin _ _ _ _ := (true, ())
  objectCopyin _ port _ _ := (some port, ())
  checkCircularity _ _ _ := (false, ())

section Descriptors

variable {σ : Type} {ifc : KmsgInterface} {ops : KmsgOps σ} {dest eaddr fuel s : Nat}
  {body : Nat → Nat} {t : MachMsgType} {k k' : KmsgState σ}

theorem descriptors_succ (hs : machMsgType body s = t) (hgood : t.bad ifc = false)
    (hinside : s + t.total ≤ eaddr) :
    descriptors ifc body eaddr (fuel + 1) s =
      t :: descriptors ifc body eaddr fuel (s + t.total) := by
  rw [descriptors]
  simp only [hs]
  exact if_pos ⟨hgood, hinside⟩

theorem machMsgType_eq (hbody : ∀ a, s ≤ a → k.body a = body a) :
    machMsgType k.body s = machMsgType body s :=
  machMsgType_congr fun a ha _ => hbody a ha

theorem clearHeader_body {a : Nat} (h : a ≠ s) : (k.clearHeader ifc s t).body a = k.body a := by
  cases ifc with
  | current => rfl
  | compat => exact update_of_ne h ..

section

variable {data i : Nat} {k₁ : KmsgState σ}
  (hdata : TakenData ifc t eaddr (s + t.words) (k.clearHeader ifc s t) data k₁)
include hdata

theorem TakenData.body_after {a : Nat} (ha : s + t.total ≤ a) : k₁.body a = k.body a := by
  have hpos := t.words_pos
  rw [MachMsgType.total] at ha
  rw [hdata.body a ?_, clearHeader_body (by omega)]
  cases hinline : t.isInline with
  | true => exact .inr rfl
  | false =>
    rw [hinline, if_neg Bool.false_ne_true] at ha
    exact .inl (by omega)

theorem PortsCopied.body_after {a : Nat} (hsize : t.size = 32)
    (hfits : t.number * t.size + 7 < 2 ^ 32) (hports : PortsCopied t (copyinTypeCode t.name) data
      t.number 0 ((k₁.accept s t).rename s t) i k') (ha : s + t.total ≤ a) :
    k'.body a = k.body a := by
  have hlength := MachMsgType.length_of_fits hsize (by omega)
  rw [hports.body a ?_, rename_body_of_not _ (.inr (t.words_after ha))]
  · exact hdata.body_after ha
  · cases hinline : t.isInline with
    | true =>
      rw [MachMsgType.total, hinline, if_pos rfl, MachMsgType.amount] at ha
      rw [hdata.inPlace hinline]
      exact .inl (.inr (by omega))
    | false => exact .inr rfl

end

/-- The walk accepts only descriptors that are there from the start. -/
theorem copyinBody_descriptors (hbody : ∀ a, s ≤ a → k.body a = body a)
    (hfits : ∀ t ∈ descriptors ifc body eaddr fuel s, t.number * t.size + 7 < 2 ^ 32)
    {x : Accepted} (hx : x ∈ (copyinBody ifc ops dest eaddr fuel s k).2.accepted) :
    x ∈ k.accepted ∨ x.type ∈ descriptors ifc body eaddr fuel s := by
  induction fuel generalizing s k with
  | zero => exact .inl hx
  | succ fuel ih =>
    rw [copyinBody] at hx
    split at hx
    next =>
      have hstep := copyinType_step ifc ops dest eaddr s k
      rw [machMsgType_eq hbody] at hstep
      generalize copyinType ifc ops dest eaddr s k = r at hstep hx
      generalize ht : machMsgType body s = t at hstep
      have hmem {l : List Accepted} (hl : l = k.accepted ++ [⟨s, t, s + t.total⟩]) (hx : x ∈ l) :
          x ∈ k.accepted ∨ x.type = t := by
        rw [hl, mem_append, mem_singleton] at hx
        exact hx.imp_right (congrArg Accepted.type)
      cases hstep with
      | early mr => exact .inl hx
      | noData mr hreject =>
        rw [hreject.accepted, clearHeader_accepted] at hx
        exact .inl hx
      | plain hgood hinside hport hdata =>
        rw [descriptors_succ ht hgood hinside, forall_mem_cons] at hfits
        rw [descriptors_succ ht hgood hinside, mem_cons, ← or_assoc]
        refine (ih (fun a ha => ?_) hfits.2 hx).imp_left (hmem hdata.accept_accepted)
        exact (hdata.body_after ha).trans (hbody a (by omega))
      | ports hgood hinside hport hdata hports =>
        have hsize := KmsgInterface.size_of_port hgood hport
        rw [descriptors_succ ht hgood hinside, forall_mem_cons] at hfits
        rw [descriptors_succ ht hgood hinside, mem_cons, ← or_assoc]
        refine (ih (fun a ha => ?_) hfits.2 hx).imp_left (hmem (hdata.ports_accepted hports))
        exact (hports.body_after hdata hsize hfits.1 ha).trans (hbody a (by omega))
      | failed mr hgood hinside hport hdata hports =>
        rw [descriptors_succ ht hgood hinside, mem_cons, ← or_assoc]
        exact .inl (hmem (hdata.ports_accepted hports) hx)
    next => exact .inl hx

end Descriptors

section Granted

variable {ifc : KmsgInterface} {eaddr fuel s : Nat} {body : Nat → Nat} {t : MachMsgType}
  {k : KmsgState Unit}

theorem takeData_grantOps (ifc : KmsgInterface) (k : KmsgState Unit) {saddr : Nat}
    (hroom : saddr + (if t.isInline then t.amount else 1) ≤ eaddr) :
    ∃ data k', takeData ifc grantOps t eaddr saddr k = (.ok data, k') := by
  have hgrab : ∃ data k', grabData grantOps t (ifc.portAny t.name) (k.body saddr) k =
      (some data, k') := by
    simp only [grabData, grantOps]
    split
    next => exact ⟨_, _, rfl⟩
    split
    next => split <;> exact ⟨_, _, rfl⟩
    next => exact ⟨_, _, rfl⟩
  obtain ⟨data, k', hgrab⟩ := hgrab
  rw [takeData]
  split
  next hinline =>
    rw [if_pos hinline] at hroom
    exact ⟨_, _, if_neg (by omega)⟩
  next hinline =>
    rw [if_neg hinline] at hroom
    rw [if_neg (by omega), hgrab]
    exact ⟨_, _, rfl⟩

theorem copyinPort_grantOps (dest : Nat) (t : MachMsgType) (newname data i : Nat)
    (k : KmsgState Unit) :
    ∃ k', copyinPort grantOps dest t newname data i k = (true, k') ∧ k'.body = k.body := by
  have hset (k' : KmsgState Unit) (h : k'.body = k.body) :
      (k'.setObject t.isInline data i (k.object t.isInline data i)).body = k.body := by
    cases hinline : t.isInline with
    | true =>
      change update k'.body (data + i) (k.body (data + i)) = k.body
      rw [h, update_eq_self]
    | false => exact h
  simp only [copyinPort]
  split
  next => exact ⟨_, rfl, rfl⟩
  next => exact ⟨_, rfl, hset _ (by split <;> rfl)⟩

theorem copyinPorts_grantOps (dest : Nat) (t : MachMsgType) (newname data n i : Nat)
    (k : KmsgState Unit) :
    ∃ k', copyinPorts grantOps dest t newname data n i k = (none, k') ∧ k'.body = k.body := by
  induction n generalizing i k with
  | zero => exact ⟨k, rfl, rfl⟩
  | succ n ih =>
    obtain ⟨k₁, hport, hbody⟩ := copyinPort_grantOps dest t newname data i k
    obtain ⟨k', hports, hbody'⟩ := ih (i + 1) k₁
    rw [copyinPorts, hport]
    exact ⟨k', hports, hbody'.trans hbody⟩

/-- A descriptor that is well formed and fits into the message is accepted, and what follows it is
left alone. -/
theorem copyinType_grantOps (dest : Nat) (ht : machMsgType k.body s = t) (hgood : t.bad ifc = false)
    (hinside : s + t.total ≤ eaddr) :
    ∃ k', copyinType ifc grantOps dest eaddr s k = (.ok (s + t.total), k') ∧
      (∀ a, s + t.total ≤ a → k'.body a = k.body a) ∧ ⟨s, t, s + t.total⟩ ∈ k'.accepted := by
  rw [MachMsgType.total, ← add_assoc] at hinside
  obtain ⟨data, k₁, htake⟩ := takeData_grantOps ifc (k.clearHeader ifc s t) hinside
  have hdata := takeData_ok htake
  simp only [copyinType, ht, hgood, htake]
  rw [if_neg (by omega), if_neg Bool.false_ne_true]
  split
  next =>
    have hspec := copyinPorts_spec grantOps dest t (copyinTypeCode t.name) data t.number 0
      ((k₁.accept s t).rename s t)
    obtain ⟨k', hports, hbody⟩ := copyinPorts_grantOps dest t (copyinTypeCode t.name) data
      t.number 0 ((k₁.accept s t).rename s t)
    rw [hports] at hspec ⊢
    refine ⟨k', rfl, fun a ha => ?_, hdata.ports_mem hspec⟩
    rw [hbody, rename_body_of_not _ (.inr (t.words_after ha))]
    exact hdata.body_after ha
  next =>
    refine ⟨_, rfl, fun a ha => hdata.body_after ha, ?_⟩
    rw [hdata.accept_accepted]
    exact mem_concat_self

theorem copyinBody_grantOps (dest : Nat) (hbody : ∀ a, s ≤ a → k.body a = body a)
    (ht : t ∈ descriptors ifc body eaddr fuel s) :
    ∃ x ∈ (copyinBody ifc grantOps dest eaddr fuel s k).2.accepted, x.type = t := by
  induction fuel generalizing s k with
  | zero => cases ht
  | succ fuel ih =>
    rw [descriptors] at ht
    obtain ⟨⟨hgood, hinside⟩, ht⟩ := mem_ite_nil_right.mp ht
    generalize hs : machMsgType body s = t₀ at hgood hinside ht
    obtain ⟨k', htype, hafter, hmem⟩ := copyinType_grantOps dest
      ((machMsgType_eq hbody).trans hs) hgood hinside
    have hpos := t₀.words_pos.trans_le t₀.words_lt_total
    rw [copyinBody, if_pos (by omega), htype]
    rcases mem_cons.mp ht with rfl | ht
    · exact ⟨_, copyinBody_accepted hmem, rfl⟩
    · exact ih (fun a ha => (hafter a ha).trans (hbody a (by omega))) ht

end Granted

/-- The walk stays inside the message and its buffers, whatever memory and rights there are, exactly
if the length of each descriptor of the message is computed without overflow. -/
theorem ipcKmsgCopyin_inside_iff (ifc : KmsgInterface) (msg : MachMsgHeader) (eaddr : Nat)
    (body : Nat → Nat) :
    (∀ (σ : Type) (ops : KmsgOps σ) (buffer : Nat → Nat → Nat) (next : Nat) (world : σ),
      let k := (ipcKmsgCopyin ifc ops msg eaddr (.start msg body buffer next world)).2
      (∀ x ∈ k.slots, x.Inside eaddr) ∧ Ascends eaddr k.accepted ∧
        ∀ a ∈ k.accepted, a.type.number * a.type.size ≤ 8 * a.type.length) ↔
      ∀ t ∈ descriptors ifc body eaddr eaddr 0, t.number * t.size + 7 < 2 ^ 32 := by
  constructor
  · intro hinside t ht
    obtain ⟨a, ha, rfl⟩ := copyinBody_grantOps msg.msghRemotePort
      (k := start msg body (fun _ _ => 0) 0 ()) (fun _ _ => rfl) ht
    rw [← ipcKmsgCopyin_accepted] at ha
    exact a.type.covered_iff.mp ((hinside _ grantOps _ _ _).2.2 a ha)
  · intro hfits σ ops buffer next world k
    have hstart : Scanned eaddr 0 (start msg body buffer next world) :=
      { inside := Nat.zero_le _
        ordered := .nil
        below := nofun
        total := nofun
        slots := nofun }
    obtain ⟨s, h⟩ := ipcKmsgCopyin_scanned ifc ops msg hstart
    have hcovered (a : Accepted) (ha : a ∈ k.accepted) :
        a.type.number * a.type.size ≤ 8 * a.type.length := by
      rw [ipcKmsgCopyin_accepted] at ha
      rcases copyinBody_descriptors (fun _ _ => rfl) hfits ha with hold | hnew
      · cases hold
      · exact a.type.covered_iff.mpr (hfits _ hnew)
    refine ⟨fun x hx => ?_, ⟨h.ordered, fun a ha => ?_⟩, hcovered⟩
    · obtain ⟨a, ha, hsize, j, hj, rfl⟩ := h.slots x hx
      have hcovered := hcovered a ha
      have hinside := le_trans (h.below a ha).2 h.inside
      rw [hsize] at hcovered
      rw [h.total a ha, MachMsgType.total] at hinside
      rw [portSlot]
      cases hinline : a.type.isInline with
      | true =>
        rw [hinline, if_pos rfl, MachMsgType.amount] at hinside
        change a.taddr + a.type.words + j < _
        omega
      | false =>
        change 4 * (j + 1) ≤ a.type.length
        omega
    · exact ⟨(h.below a ha).1, le_trans (h.below a ha).2 h.inside⟩

/-- A body whose only descriptor is a long one for `2 ^ 27` inline send rights.  The number of
bits in them is `2 ^ 32`. -/
def wrapBody : Nat → Nat
  | 0 => 2 ^ 28 + 2 ^ 29
  | 1 => 32 * 2 ^ 16 + 17
  | 2 => 2 ^ 27
  | _ => 1

/-- Memory can be had, and port names cannot be copied in. -/
def refuseOps : KmsgOps Unit where
  kalloc _ _ := (true, ())
  copyin _ _ _ := (some fun _ => 1, ())
  vmDeallocate _ _ _ := (true, ())
  vmMapCopyin _ _ _ _ := (true, ())
  objectCopyin _ _ _ _ := (none, ())
  checkCircularity _ _ _ := (false, ())

/-- The destination is a send right that moves. -/
def sendHeader : MachMsgHeader where
  msghBits := ⟨17, 0, false, 0⟩
  msghRemotePort := 1
  msghLocalPort := 0

/-- The descriptor is accepted in a body that ends with it, and the word after the body is taken for
the first port name. -/
theorem ipcKmsgCopyin_wrap_outside :
    let k := (ipcKmsgCopyin .current refuseOps sendHeader 3
      (.start sendHeader wrapBody (fun _ _ => 0) 1 ())).2
    k.accepted.map Accepted.saddr = [3] ∧ k.slots = [.body 3] ∧ ¬ ∀ x ∈ k.slots, x.Inside 3 := by
  decide

/-! ## Everything is given up -/

section Held

variable {σ : Type} {ops : KmsgOps σ} {dest eaddr : Nat} {msg : MachMsgHeader}

variable {body body' : Nat → Nat} {fuel s next p taddr : Nat} {t : MachMsgType} {k k' : KmsgState σ}

theorem cleanVisits_done (h : eaddr ≤ s) : cleanVisits body eaddr fuel s = [] := by
  cases fuel with
  | zero => rfl
  | succ => exact if_neg h.not_gt

theorem cleanVisits_fuel {fuel' : Nat} (h : eaddr - s ≤ fuel) (h' : eaddr - s ≤ fuel') :
    cleanVisits body eaddr fuel s = cleanVisits body eaddr fuel' s := by
  induction fuel generalizing fuel' s with
  | zero => rw [cleanVisits_done (by omega), cleanVisits_done (by omega)]
  | succ fuel ih =>
    cases fuel' with
    | zero => rw [cleanVisits_done (by omega), cleanVisits_done (by omega)]
    | succ fuel' =>
      have hpos := (machMsgType body s).words_pos
      have hle := (machMsgType body s).words_lt_total
      have hrest : cleanVisits body eaddr fuel (s + (machMsgType body s).total) =
          cleanVisits body eaddr fuel' (s + (machMsgType body s).total) :=
        ih (by omega) (by omega)
      rw [cleanVisits, cleanVisits, hrest]

/-- The descriptor at `p` is before `s`, and what it refers to is there. -/
structure Settled (body : Nat → Nat) (next s p : Nat) : Prop where
  inside : p + (machMsgType body p).total ≤ s
  ports : machMsgTypePortAny (machMsgType body p).name = true →
    (machMsgType body p).length = 4 * (machMsgType body p).number
  pointer : (machMsgType body p).isInline = false → (machMsgType body p).length ≠ 0 →
    body (p + (machMsgType body p).words) < next

section

variable (h : Settled body next s p)
include h

theorem Settled.type_eq
    (hbody : ∀ a, a < s → body' a = body a) : machMsgType body' p = machMsgType body p :=
  machMsgType_congr fun a _ ha => hbody a
    (ha.trans_le (le_trans (Nat.add_le_add_left MachMsgType.words_lt_total p) h.inside))

theorem Settled.pointer_lt (hout : (machMsgType body p).isInline = false) :
    p + (machMsgType body p).words < s := by
  have hinside := h.inside
  rw [MachMsgType.total, hout, if_neg Bool.false_ne_true] at hinside
  omega

theorem Settled.frame {next' s' : Nat} (hbody : ∀ a, a < s → body' a = body a)
    (hnext : next ≤ next')
    (hs : s ≤ s') : Settled body' next' s' p := by
  have htype := h.type_eq hbody
  refine ⟨?_, ?_, fun hout hlength => ?_⟩
  · rw [htype]
    exact h.inside.trans hs
  · rw [htype]
    exact h.ports
  · rw [htype] at hout hlength ⊢
    rw [hbody _ (h.pointer_lt hout)]
    exact (h.pointer hout hlength).trans_le hnext

/-- What is given up for a descriptor depends on its words and the buffers there are. -/
theorem Settled.cleanType_eq {buffer buffer' : Nat → Nat → Nat}
    (hbody : ∀ a, a < s → body' a = body a)
    (hbuffer : ∀ d, d < next → buffer' d = buffer d) :
    cleanType body' buffer' p = cleanType body buffer p := by
  have htype := h.type_eq hbody
  have hinside := h.inside
  have hports := h.ports
  have hpointer := h.pointer
  have hlt := h.pointer_lt
  simp only [cleanType, htype]
  generalize machMsgType body p = t at hinside hports hpointer hlt
  have hmemory : cleanMemory t (body' (p + t.words)) = cleanMemory t (body (p + t.words)) := by
    cases hinline : t.isInline with
    | true => rw [cleanMemory, cleanMemory, hinline, if_pos rfl, if_pos rfl]
    | false => rw [hbody _ (hlt hinline)]
  rw [hmemory, cleanRights, cleanRights]
  cases hport : machMsgTypePortAny t.name with
  | false => rfl
  | true =>
    have hlength := hports hport
    congr 1
    refine flatMap_congr fun i hi => ?_
    have hi := mem_range.mp hi
    cases hinline : t.isInline with
    | true =>
      rw [MachMsgType.total, MachMsgType.amount, hinline, if_pos rfl] at hinside
      rw [if_pos rfl, if_pos rfl, hbody _ (by omega)]
    | false =>
      rw [if_neg Bool.false_ne_true, if_neg Bool.false_ne_true, hbody _ (hlt hinline),
        hbuffer _ (hpointer hinline (by omega))]

end

/-- The descriptor has rights or out-of-line data. -/
def MachMsgType.complex (t : MachMsgType) : Bool := !t.isInline || machMsgTypePortAny t.name

/-- What the message holds for a descriptor, of which `number` port rights were copied in. -/
def heldFor (body : Nat → Nat) (buffer : Nat → Nat → Nat) (taddr number : Nat) :
    List KmsgResource :=
  cleanRights body buffer (machMsgType body taddr) (taddr + (machMsgType body taddr).words)
      number ++
    cleanMemory (machMsgType body taddr) (body (taddr + (machMsgType body taddr).words))

/-- The walk over a descriptor that is accepted, as far as the message's contents are concerned. -/
structure TypeHeld (taddr : Nat) (k : KmsgState σ) (number : Nat) (k' : KmsgState σ) : Prop where
  body : ∀ a, a < taddr → k'.body a = k.body a
  buffer : ∀ d, d < k.next → k'.buffer d = k.buffer d
  next : k.next ≤ k'.next
  accepted : k'.accepted = k.accepted ++
    [⟨taddr, machMsgType k.body taddr, taddr + (machMsgType k.body taddr).total⟩]
  released : k'.released = k.released
  settled : Settled k'.body k'.next (taddr + (machMsgType k.body taddr).total) taddr
  number_eq : (machMsgType k'.body taddr).number = (machMsgType k.body taddr).number
  total_eq : (machMsgType k'.body taddr).total = (machMsgType k.body taddr).total
  acquired : k'.acquired.Perm (k.acquired ++ heldFor k'.body k'.buffer taddr number)
  complex : k'.complex = (k.complex || (machMsgType k.body taddr).complex)
  simple : (machMsgType k.body taddr).complex = false →
    heldFor k'.body k'.buffer taddr number = []

variable (name : Nat)

theorem copyinTypeCode_lt : copyinTypeCode name < 2 ^ 8 := by
  rw [copyinTypeCode]
  split
  · decide
  · split <;> decide

theorem machMsgTypePortAny_copyinTypeCode : machMsgTypePortAny (copyinTypeCode name) = true := by
  rw [copyinTypeCode]
  split
  · decide
  · split <;> decide

variable {data : Nat}

theorem TakenData.type_eq (hdata : TakenData .current t eaddr (taddr + t.words) k data k')
    (ht : machMsgType k.body taddr = t) : machMsgType k'.body taddr = t := by
  subst ht
  exact machMsgType_congr fun a _ ha => hdata.body a (.inl ha.ne)

theorem TypeHeld.plain
    (ht : machMsgType k.body taddr = t) (hport : machMsgTypePortAny t.name = false)
    (hdata : TakenData .current t eaddr (taddr + t.words) k data k') :
    TypeHeld taddr k t.number (k'.accept taddr t) := by
  have htype : machMsgType (k'.accept taddr t).body taddr = t := hdata.type_eq ht
  have hpointer (hout : t.isInline = false) : (k'.accept taddr t).body (taddr + t.words) = data :=
    hdata.pointer hout
  have hheld : heldFor (k'.accept taddr t).body (k'.accept taddr t).buffer taddr t.number =
      if t.isInline then [] else fetchedMemory t false data := by
    rw [heldFor, htype, cleanRights, hport, cleanMemory, hport, fetchedMemory]
    cases hinline : t.isInline with
    | true => rfl
    | false => rw [hpointer hinline]; rfl
  refine
    { body := fun a ha => hdata.body a (.inl (Nat.lt_add_right _ ha).ne)
      buffer := hdata.buffer
      next := hdata.next
      accepted := ?_
      released := hdata.released
      settled := ⟨?_, ?_, ?_⟩
      number_eq := ?_
      total_eq := ?_
      acquired := ?_
      complex := ?_
      simple := fun hsimple => ?_ }
  · change k'.accepted ++ [_] = _
    rw [hdata.accepted, ht]
  · rw [htype, ht]
  · rw [htype, hport]
    exact nofun
  · rw [htype]
    intro hout hlength
    rw [hpointer hout]
    exact (hdata.fresh hout hlength).2
  · rw [htype, ht]
  · rw [htype, ht]
  · change k'.acquired.Perm _
    rw [hheld, hdata.acquired]
    change List.Perm (_ ++ if _ then _ else fetchedMemory t (machMsgTypePortAny t.name) data) _
    rw [hport]
  · change k'.complex = _
    rw [hdata.complex, ht, MachMsgType.complex, hport, Bool.or_false]
  · rw [ht, MachMsgType.complex, hport, Bool.or_false, Bool.not_eq_false'] at hsimple
    rw [hheld, hsimple]
    rfl

variable {i : Nat}

theorem TypeHeld.ports {k₁ : KmsgState σ}
    (ht : machMsgType k.body taddr = t) (hport : machMsgTypePortAny t.name = true)
    (hlength : t.length = 4 * t.number)
    (hdata : TakenData .current t eaddr (taddr + t.words) k data k₁)
    (hports : PortsCopied t (copyinTypeCode t.name) data t.number 0
      ((k₁.accept taddr t).rename taddr t) i k') :
    TypeHeld taddr k i k' := by
  obtain ⟨-, -, hbuffer, hnext, hacquired, hreleased⟩ := rename_keeps taddr t (k₁.accept taddr t)
  have hbody (a : Nat) (ha : a < taddr + t.words ∨ t.isInline = false) :
      k'.body a = ((k₁.accept taddr t).rename taddr t).body a := by
    refine hports.body a ?_
    cases hinline : t.isInline with
    | true =>
      rw [hinline] at ha
      rw [hdata.inPlace hinline]
      exact .inl (.inl (ha.resolve_right (by simp)))
    | false => exact .inr rfl
  have hpointer (hout : t.isInline = false) : k'.body (taddr + t.words) = data := by
    rw [hbody _ (.inr hout), rename_body_of_not _ (.inr le_rfl)]
    exact hdata.pointer hout
  have htype : machMsgType k'.body taddr = { t with name := copyinTypeCode t.name } := by
    have hrename : machMsgType ((k₁.accept taddr t).rename taddr t).body taddr =
        { t with name := copyinTypeCode t.name } := by
      have h := machMsgType_setName (k₁.accept taddr t) taddr (copyinTypeCode_lt t.name)
      have hbody₁ : (k₁.accept taddr t).body = k₁.body := rfl
      rw [hbody₁, hdata.type_eq ht] at h
      exact h
    rw [← hrename]
    refine machMsgType_congr fun a _ ha => hbody a (.inl ?_)
    rw [hrename] at ha
    exact ha
  have hheld : heldFor k'.body k'.buffer taddr i =
      (range i).flatMap (fun j => rightOf (copyinTypeCode t.name) (k'.object t.isInline data j)) ++
      if t.isInline then [] else fetchedMemory t true data := by
    rw [heldFor, htype, cleanRights, cleanMemory]
    simp only [machMsgTypePortAny_copyinTypeCode]
    change (range i).flatMap (fun j => rightOf _ (if t.isInline then
      k'.body (taddr + t.words + j) else k'.buffer (k'.body (taddr + t.words)) j)) ++
        (if t.isInline then [] else if t.length = 0 then [] else
          [.buffer (k'.body (taddr + t.words)) t.length]) = _
    cases hinline : t.isInline with
    | true =>
      rw [hdata.inPlace hinline]
      rfl
    | false =>
      rw [hpointer hinline]
      rfl
  refine
    { body := fun a ha => ?_
      buffer := fun d hd => ?_
      next := ?_
      accepted := ?_
      released := ?_
      settled := ⟨?_, fun _ => ?_, fun hout hne => ?_⟩
      number_eq := ?_
      total_eq := ?_
      acquired := ?_
      complex := ?_
      simple := fun hsimple => ?_ }
  · rw [hbody a (.inl (Nat.lt_add_right _ ha)), rename_body_of_not _ (.inl ha)]
    exact hdata.body a (.inl (Nat.lt_add_right _ ha).ne)
  · rw [hports.buffer d fun hn => ?_, hbuffer]
    · exact hdata.buffer d hd
    · cases hinline : t.isInline with
      | true => exact .inr rfl
      | false =>
        have hfresh := (hdata.fresh hinline (by omega)).1
        exact .inl (by omega)
  · rw [hports.next, hnext]
    exact hdata.next
  · rw [ht]
    exact hdata.ports_accepted hports
  · rw [hports.released, hreleased]
    exact hdata.released
  · rw [htype, ht]
    exact le_rfl
  · rw [htype]
    exact hlength
  · rw [htype] at hout hne ⊢
    rw [hports.next, hnext]
    exact (hpointer hout).symm ▸ (hdata.fresh hout hne).2
  · rw [htype, ht]
  · rw [htype, ht]
    rfl
  · have hk₁ : (k₁.accept taddr t).acquired = k₁.acquired := rfl
    have hmemory : k₁.acquired = k.acquired ++
        if t.isInline then [] else fetchedMemory t (machMsgTypePortAny t.name) data :=
      hdata.acquired
    rw [hheld, hports.acquired, hacquired, hk₁, hmemory, hport, Nat.sub_zero, ← range_eq_range',
      append_assoc]
    exact .append_left _ perm_append_comm
  · rw [hports.complex, ht, MachMsgType.complex, hport, Bool.or_true, Bool.or_true]
    rfl
  · rw [ht, MachMsgType.complex, hport, Bool.or_true] at hsimple
    exact nomatch hsimple

/-- What the message holds for some descriptors. -/
abbrev heldAt (k : KmsgState σ) (types : List Nat) : List KmsgResource :=
  types.flatMap (cleanType k.body k.buffer)

theorem heldAt_append (k : KmsgState σ) (types : List Nat) (p : Nat) :
    heldAt k (types ++ [p]) = heldAt k types ++ cleanType k.body k.buffer p := by
  rw [heldAt, flatMap_append, flatMap_singleton]

/-- The walk has come to `s`, and the message holds what was acquired. -/
structure BodyHeld (msg : MachMsgHeader) (s : Nat) (k : KmsgState σ) : Prop where
  settled : ∀ p ∈ k.accepted.map Accepted.taddr, Settled k.body k.next s p
  visits : ∀ body' : Nat → Nat, (∀ a, a < s → body' a = k.body a) → ∀ e, s ≤ e →
    cleanVisits body' e e 0 = k.accepted.map Accepted.taddr ++ cleanVisits body' e (e - s) s
  acquired : k.acquired.Perm (headerRights msg ++ heldAt k (k.accepted.map Accepted.taddr))
  released : k.released = []
  complex : k.complex = k.accepted.any fun a => a.type.complex
  simple : k.complex = false → heldAt k (k.accepted.map Accepted.taddr) = []

theorem BodyHeld.start (msg : MachMsgHeader) (body : Nat → Nat) (buffer : Nat → Nat → Nat)
    (next : Nat) (world : σ) : BodyHeld msg 0 (KmsgState.start msg body buffer next world) where
  settled _ hp := nomatch hp
  visits _ _ _ _ := rfl
  acquired := (append_nil _).symm ▸ .refl _
  released := rfl
  complex := rfl
  simple _ := rfl

/-- What is held for the descriptors before `s` is not affected by what happens after it. -/
theorem BodyHeld.heldAt_eq (h : BodyHeld msg s k) (hbody : ∀ a, a < s → k'.body a = k.body a)
    (hbuffer : ∀ d, d < k.next → k'.buffer d = k.buffer d) :
    heldAt k' (k.accepted.map Accepted.taddr) = heldAt k (k.accepted.map Accepted.taddr) :=
  flatMap_congr fun p hp => (h.settled p hp).cleanType_eq hbody hbuffer

/-- Cleaning up to `s` gives up what is held for the descriptors before it. -/
theorem BodyHeld.cleanBody_eq (h : BodyHeld msg s k) (hbody : ∀ a, a < s → k'.body a = k.body a)
    (hbuffer : ∀ d, d < k.next → k'.buffer d = k.buffer d) :
    ipcKmsgCleanBody k'.body k'.buffer 0 s = heldAt k (k.accepted.map Accepted.taddr) := by
  have hvisits := h.visits k'.body hbody s le_rfl
  rw [cleanVisits_done le_rfl, append_nil] at hvisits
  rw [ipcKmsgCleanBody, Nat.sub_zero, hvisits]
  exact h.heldAt_eq hbody hbuffer

theorem BodyHeld.step (h : BodyHeld msg s k)
    (hstep : TypeHeld s k (machMsgType k.body s).number k') :
    BodyHeld msg (s + (machMsgType k.body s).total) k' := by
  have haccepted : k'.accepted.map Accepted.taddr = k.accepted.map Accepted.taddr ++ [s] := by
    rw [hstep.accepted, map_append]
    rfl
  have hheld : heldAt k' (k'.accepted.map Accepted.taddr) =
      heldAt k (k.accepted.map Accepted.taddr) ++
        heldFor k'.body k'.buffer s (machMsgType k.body s).number := by
    rw [haccepted, heldAt_append, h.heldAt_eq hstep.body hstep.buffer, ← hstep.number_eq]
    rfl
  refine ⟨fun p hp => ?_, fun body' hbody e he => ?_, ?_, hstep.released.trans h.released, ?_,
    fun hcomplex => ?_⟩
  · rw [haccepted, mem_append, mem_singleton] at hp
    cases hp with
    | inl hp => exact (h.settled p hp).frame hstep.body hstep.next (Nat.le_add_right ..)
    | inr hp => exact hp ▸ hstep.settled
  · have hbefore (a : Nat) (ha : a < s) : body' a = k.body a :=
      (hbody a (Nat.lt_add_right _ ha)).trans (hstep.body a ha)
    have htype : machMsgType body' s = machMsgType k'.body s := hstep.settled.type_eq hbody
    have hpos := (machMsgType k.body s).words_pos
    have hle := (machMsgType k.body s).words_lt_total
    obtain ⟨d, hd⟩ : ∃ d, e - s = d + 1 := ⟨e - s - 1, by omega⟩
    rw [h.visits body' hbefore e (by omega), haccepted, hd, cleanVisits, if_pos (by omega),
      htype, hstep.total_eq, append_assoc]
    congr 2
    exact cleanVisits_fuel (by omega) le_rfl
  · refine hstep.acquired.trans ?_
    rw [hheld, ← append_assoc]
    exact h.acquired.append_right _
  · rw [hstep.complex, hstep.accepted, any_append, h.complex]
    exact congrArg _ (Bool.or_false _).symm
  · rw [hstep.complex, Bool.or_eq_false_iff] at hcomplex
    rw [hheld, h.simple hcomplex.1, hstep.simple hcomplex.2]
    rfl

section

variable (hdest : ioValid msg.msghRemotePort = true)
include hdest

theorem headerRights_of_valid :
    headerRights msg = [.right msg.msghRemotePort msg.msghBits.remote] ++
      rightOf msg.msghBits.reply msg.msghLocalPort := by
  rw [headerRights, rightOf, if_pos hdest]

/-- After a descriptor that is not accepted, `ipc_kmsg_clean_partial` gives up the rest. -/
theorem BodyHeld.rejected (h : BodyHeld msg s k) (hreject : Rejected k k') :
    k'.acquired.Perm (k'.released ++ ipcKmsgCleanPartial k'.body k'.buffer msg s none) := by
  obtain ⟨gone, hacquired, hreleased⟩ := hreject.gone
  have hbody (a : Nat) (_ : a < s) : k'.body a = k.body a := by rw [hreject.body]
  rw [hacquired, hreleased, h.released, nil_append, ipcKmsgCleanPartial,
    h.cleanBody_eq hbody hreject.buffer, ← headerRights_of_valid hdest, append_nil]
  exact (h.acquired.append_right gone).trans perm_append_comm

/-- After a right that cannot be copied in, `ipc_kmsg_clean_partial` gives up everything. -/
theorem BodyHeld.failed (h : BodyHeld msg s k) (hstep : TypeHeld s k i k') :
    k'.acquired.Perm (k'.released ++ ipcKmsgCleanPartial k'.body k'.buffer msg s (some i)) := by
  rw [hstep.released, h.released, nil_append, ipcKmsgCleanPartial,
    h.cleanBody_eq hstep.body hstep.buffer, ← headerRights_of_valid hdest]
  exact hstep.acquired.trans (h.acquired.append_right _)

end

theorem BodyHeld.clean_eq (h : BodyHeld msg eaddr k) :
    ipcKmsgClean k.body k.buffer msg k.complex eaddr =
      headerRights msg ++ heldAt k (k.accepted.map Accepted.taddr) := by
  rw [ipcKmsgClean]
  split
  next => rw [h.cleanBody_eq (fun _ _ => rfl) fun _ _ => rfl]
  next hsimple => rw [h.simple (Bool.eq_false_iff.mpr hsimple)]

/-- The result of the walk: the message holds what was acquired, or cleaning gives it up. -/
def BodyOutcome (msg : MachMsgHeader) (eaddr : Nat) :
    Except (MachMsgReturn × Nat × Option Nat) Unit × KmsgState σ → Prop
  | (.ok (), k) => BodyHeld msg eaddr k
  | (.error (_, taddr, number), k) =>
    k.acquired.Perm (k.released ++ ipcKmsgCleanPartial k.body k.buffer msg taddr number)

theorem copyinBody_held (h : BodyHeld msg s k)
    (hdest : ioValid msg.msghRemotePort = true) (hs : s ≤ eaddr) (hfuel : eaddr - s ≤ fuel)
    (hfits : ∀ a ∈ (copyinBody .current ops dest eaddr fuel s k).2.accepted,
      a.type.number * a.type.size < 2 ^ 32) :
    BodyOutcome msg eaddr (copyinBody .current ops dest eaddr fuel s k) := by
  induction fuel generalizing s k with
  | zero =>
    obtain rfl : s = eaddr := by omega
    exact h
  | succ fuel ih =>
    rw [copyinBody] at hfits ⊢
    split
    next hlt =>
      rw [if_pos hlt] at hfits
      have hstep := copyinType_step .current ops dest eaddr s k
      generalize copyinType .current ops dest eaddr s k = r at hstep hfits ⊢
      generalize ht : machMsgType k.body s = t at hstep
      have hpos := t.words_pos
      have hle := t.words_lt_total
      cases hstep with
      | early mr => exact h.rejected hdest (.refl k)
      | noData mr hreject => exact h.rejected hdest hreject
      | plain hgood hinside hport hdata =>
        subst ht
        exact ih (h.step (.plain rfl hport hdata)) hinside (by omega) hfits
      | ports hgood hinside hport hdata hports =>
        have hlength := MachMsgType.length_of_fits (KmsgInterface.size_of_port hgood hport)
          (hfits _ (copyinBody_accepted (hdata.ports_mem hports)))
        subst ht
        exact ih (h.step (.ports rfl hport hlength hdata hports)) hinside (by omega) hfits
      | failed mr hgood hinside hport hdata hports =>
        have hlength := MachMsgType.length_of_fits (KmsgInterface.size_of_port hgood hport)
          (hfits _ (hdata.ports_mem hports))
        exact h.failed hdest (.ports ht hport hlength hdata hports)
    next =>
      obtain rfl : s = eaddr := by omega
      exact h

end Held

/-- If `ipc_kmsg_copyin` fails in the body, what it had acquired has been given up, each thing once.
If it succeeds, nothing has, and `ipc_kmsg_clean` gives up what was acquired, each thing once.  It
visits the descriptors again if one of them has rights or out-of-line data, and none of them
otherwise. -/
theorem ipcKmsgCopyin_clean {σ : Type} (ops : KmsgOps σ) (msg : MachMsgHeader) (eaddr : Nat)
    (body : Nat → Nat) (buffer : Nat → Nat → Nat) (next : Nat) (world : σ)
    (hdest : ioValid msg.msghRemotePort = true)
    (hfits : ∀ a ∈ (ipcKmsgCopyin .current ops msg eaddr
      (.start msg body buffer next world)).2.accepted, a.type.number * a.type.size < 2 ^ 32) :
    let r := ipcKmsgCopyin .current ops msg eaddr (.start msg body buffer next world)
    (∀ mr, r.1 = .error mr → r.2.acquired.Perm r.2.released) ∧ (r.1 = .ok () → r.2.released = [] ∧
        r.2.acquired.Perm (ipcKmsgClean r.2.body r.2.buffer msg r.2.complex eaddr) ∧
        ipcKmsgCleanVisits r.2.body r.2.complex eaddr =
          if r.2.accepted.any fun a => a.type.complex then r.2.accepted.map Accepted.taddr
          else []) := by
  intro r
  have hheld (hfits' : ∀ a ∈ (copyinBody .current ops msg.msghRemotePort eaddr eaddr 0
      (.start msg body buffer next world)).2.accepted, a.type.number * a.type.size < 2 ^ 32) :=
    copyinBody_held (.start msg body buffer next world) hdest (Nat.zero_le _) (Nat.sub_le ..) hfits'
  have hr : r = ipcKmsgCopyin .current ops msg eaddr (.start msg body buffer next world) := rfl
  clear_value r
  rw [ipcKmsgCopyin] at hr hfits
  cases hwalk : copyinBody .current ops msg.msghRemotePort eaddr eaddr 0
      (.start msg body buffer next world) with
  | mk result k =>
  rw [hwalk] at hr hheld hfits
  cases result with
  | error =>
    have hdone := hheld hfits
    subst hr
    exact ⟨fun _ _ => hdone, nofun⟩
  | ok =>
    have hdone : BodyHeld msg eaddr k := hheld hfits
    subst hr
    refine ⟨nofun, fun _ => ⟨hdone.released, hdone.clean_eq ▸ hdone.acquired, ?_⟩⟩
    have hvisits := hdone.visits k.body (fun _ _ => rfl) eaddr le_rfl
    rw [cleanVisits_done le_rfl, append_nil] at hvisits
    rw [ipcKmsgCleanVisits, Nat.sub_zero, hvisits, hdone.complex]

/-- The port name 7 cannot be copied in. -/
def sevenOps : KmsgOps Unit :=
  { refuseOps with
      objectCopyin := fun _ port _ _ => (if port = 7 then none else some port, ()) }

/-- A body with a descriptor for two inline send rights that are copied, 5 and 7. -/
def sevenBody : Nat → Nat
  | 0 => 2 ^ 28 + 2 * 2 ^ 16 + 32 * 2 ^ 8 + 19
  | 1 => 5
  | _ => 7

theorem ipcKmsgCopyin_clean_seven :
    let r := ipcKmsgCopyin .current sevenOps sendHeader 3
      (.start sendHeader sevenBody (fun _ _ => 0) 1 ())
    r.1 = .error .sendInvalidRight ∧ r.2.acquired = [.right 1 17, .right 5 17] ∧
      r.2.acquired.Perm r.2.released :=
  ⟨by decide, by decide,
    (ipcKmsgCopyin_clean sevenOps sendHeader 3 sevenBody (fun _ _ => 0) 1 () (by decide)
      (by decide)).1 .sendInvalidRight (by decide)⟩

/-- One integer. -/
def integerBody : Nat → Nat
  | 0 => 2 ^ 28 + 2 ^ 16 + 32 * 2 ^ 8 + 2
  | _ => 5

/-- The message is no longer complex, and its descriptor is not visited again. -/
theorem ipcKmsgCopyin_integer_not_visited :
    let r := ipcKmsgCopyin .current sevenOps sendHeader 2
      (.start sendHeader integerBody (fun _ _ => 0) 1 ())
    r.1 = .ok () ∧ r.2.accepted.map Accepted.taddr = [0] ∧
      ipcKmsgCleanVisits r.2.body r.2.complex 2 = [] := by
  decide

end Mach
