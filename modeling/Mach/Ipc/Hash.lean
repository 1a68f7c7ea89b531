import Mach.Lib.Probe
import Mach.Ipc.Entry

/-!
# The reverse hash tables

The operations of `ipc/ipc_hash.c`, which translate an object back to the name of a pure
send right.  Entries of the table of a space are in a table of the space itself, kept in
the fields `ie_index` of its entries.  Entries of the splay trees of all spaces are in one
table of buckets.

A loop over the slots of a table has fuel for each of them, and `none` is running out of it.
A tree entry in a bucket is given by its space and its name.
-/

namespace Mach

open Function

/-- The fields of the reverse hash tables. -/
structure IpcHash where
  /-- `ie_index`, by space and slot. -/
  ieIndex : Nat → Nat → Nat
  /-- `is_tree_hash`, by space. -/
  isTreeHash : Nat → Nat
  ipcHashGlobalMask : Nat
  /-- `ipc_hash_global_table`: the entries of a bucket, each `ite_space` and `ite_name`. -/
  ipcHashGlobalTable : Nat → List (Nat × Nat)

/-- `IH_LOCAL_HASH`. -/
def ihLocalHash (obj size : Nat) : Nat := obj / 64 % size

/-- `IH_GLOBAL_HASH`. -/
def ihGlobalHash (mask space obj : Nat) : Nat := (space / 16 + obj / 64) &&& mask

/-! ## The table of a space -/

/-- `ipc_hash_local_insert`, into a table of a given size. -/
def ipcHashLocalInsert (size : Nat) (ieIndex : Nat → Nat) (obj index : Nat) :
    Option (Nat → Nat) :=
  (Probe.seek (fun hindex => ieIndex hindex = 0) size size (ihLocalHash obj size)).map
    fun hindex => update ieIndex hindex index

/-- `ipc_hash_local_delete`. -/
def ipcHashLocalDelete (s : IpcSpace) (ieIndex : Nat → Nat) (obj index : Nat) :
    Option (Nat → Nat) :=
  (Probe.seek (fun hindex => ieIndex hindex = index) s.isTableSize s.isTableSize
      (ihLocalHash obj s.isTableSize)).bind fun hindex =>
    Probe.close (fun index => ihLocalHash (s.isTable index).ieObject s.isTableSize)
      s.isTableSize s.isTableSize ieIndex hindex hindex

/-! ## The global table -/

namespace IpcHash

/-- Change the fields `ie_index` of a space. -/
def setIndex (h : IpcHash) (space : Nat) (ieIndex : Nat → Nat) : IpcHash :=
  { h with ieIndex := update h.ieIndex space ieIndex }

/-- Replace a bucket. -/
def setBucket (h : IpcHash) (bucket : Nat) (l : List (Nat × Nat)) : IpcHash :=
  { h with ipcHashGlobalTable := update h.ipcHashGlobalTable bucket l }

/-- The bucket of an object in a space. -/
def bucketOf (h : IpcHash) (space obj : Nat) : Nat := ihGlobalHash h.ipcHashGlobalMask space obj

end IpcHash

/-- `ipc_hash_global_insert`. -/
def ipcHashGlobalInsert (h : IpcHash) (space obj name : Nat) : IpcHash :=
  let bucket := h.bucketOf space obj
  { h.setBucket bucket ((space, name) :: h.ipcHashGlobalTable bucket) with
      isTreeHash := update h.isTreeHash space (h.isTreeHash space + 1) }

/-- `ipc_hash_global_delete`. -/
def ipcHashGlobalDelete (h : IpcHash) (space obj name : Nat) : IpcHash :=
  let bucket := h.bucketOf space obj
  { h.setBucket bucket ((h.ipcHashGlobalTable bucket).erase (space, name)) with
      isTreeHash := update h.isTreeHash space (h.isTreeHash space - 1) }

/-! ## Both tables -/

/-- The entry is in the table, so that it belongs to the local hash table. -/
def IpcSpace.IsLocal (s : IpcSpace) (name : Nat) (entry : EntryRef) : Prop :=
  machPortIndex name < s.isTableSize ∧ entry = .table (machPortIndex name)

instance (s : IpcSpace) (name : Nat) (entry : EntryRef) : Decidable (s.IsLocal name entry) := by
  unfold IpcSpace.IsLocal
  infer_instance

/-- `ipc_hash_insert`, for a space at an address. -/
def ipcHashInsert (s : IpcSpace) (h : IpcHash) (space obj name : Nat) (entry : EntryRef) :
    Option IpcHash :=
  if s.IsLocal name entry then
    (ipcHashLocalInsert s.isTableSize (h.ieIndex space) obj (machPortIndex name)).map
      (h.setIndex space)
  else some (ipcHashGlobalInsert h space obj name)

/-- `ipc_hash_delete`, for a space at an address. -/
def ipcHashDelete (s : IpcSpace) (h : IpcHash) (space obj name : Nat) (entry : EntryRef) :
    Option IpcHash :=
  if s.IsLocal name entry then
    (ipcHashLocalDelete s (h.ieIndex space) obj (machPortIndex name)).map (h.setIndex space)
  else some (ipcHashGlobalDelete h space obj name)

/-- The calls that the operations on entries make. -/
def HashCall.run (space : Nat) (h : IpcHash) : HashCall → Option IpcHash
  | .clear _ => some (h.setIndex space fun _ => 0)
  | .globalDelete obj name => some (ipcHashGlobalDelete h space obj name)
  | .localInsert size obj index =>
    (ipcHashLocalInsert size (h.ieIndex space) obj index).map (h.setIndex space)

end Mach
