import Mach.Lib.Simulation
import Mach.Ipc.SplayMetatheory

/-!
# A splay tree is a finite map

The state of a run is any number of splay trees, numbered, since a split makes a second
tree and a join uses one up.  The abstract state gives each tree a partial function from
names to entries.  `splayContract` says what the operations do to these functions and
what they return: nothing about rotations, spines or the last name looked for.

`splay_simulates` says the trees of `ipc/ipc_splay.c` meet the contract as long as a name
is inserted only when absent, deleted only when present, and trees are joined in order.
The run theorem `splayRun_refines` follows for every sequence of operations.
-/

namespace Mach

open Function SearchTree Spine

variable {β : Type}

/-! ## The operations as a machine -/

/-- An operation on numbered splay trees. -/
inductive SplayOp (β : Type) where
  | init (i : Nat)
  | lookup (i name : Nat)
  | insert (i name : Nat) (entry : β)
  | delete (i name : Nat)
  | split (i name small : Nat)
  | join (i small : Nat)
  | pick (i : Nat)
  | bounds (i name : Nat)

/-- What an operation returns to its caller. -/
inductive SplayResult (β : Type) where
  | void
  | entry (e : Option β)
  | picked (p : Option (Nat × β))
  | bounds (lower upper : Nat)

/-- Trees, by number. -/
abbrev SplayTrees (β : Type) := Nat → IpcSplayTree β

/-- One call. -/
def splayStep : Machine (SplayOp β) (SplayResult β) (SplayTrees β)
  | .init i, t => some (update t i (ipcSplayTreeInit (t i)), .void)
  | .lookup i name, t =>
    let (e, splay) := ipcSplayTreeLookup (t i) name
    some (update t i splay, .entry e)
  | .insert i name entry, t =>
    some (update t i (ipcSplayTreeInsert (t i) name entry), .void)
  | .delete i name, t =>
    (ipcSplayTreeDelete (t i) name).map fun splay => (update t i splay, .void)
  | .split i name small, t =>
    let (splay, small') := ipcSplayTreeSplit (t i) name (t small)
    some (update (update t i splay) small small', .void)
  | .join i small, t =>
    let (splay, small') := ipcSplayTreeJoin (t i) (t small)
    some (update (update t i splay) small small', .void)
  | .pick i, t => some (t, .picked (ipcSplayTreePick (t i)))
  | .bounds i name, t =>
    let ((lower, upper), splay) := ipcSplayTreeBounds (t i) name
    some (update t i splay, .bounds lower upper)

/-! ## The maps and their contract -/

/-- The map each tree stands for. -/
abbrev NameMaps (β : Type) := Nat → Nat → Option β

/-- The name has an entry. -/
def Bound (m : Nat → Option β) (name : Nat) : Prop := m name ≠ none

/-- The greatest bound name up to `name`, or `~0`. -/
def MapLower (m : Nat → Option β) (name lower : Nat) : Prop :=
  (lower = machPortDead ∧ ∀ n, Bound m n → name < n) ∨
    (Bound m lower ∧ lower ≤ name ∧ ∀ n, Bound m n → n ≤ name → n ≤ lower)

/-- The least bound name from `name` up, or 0. -/
def MapUpper (m : Nat → Option β) (name upper : Nat) : Prop :=
  (upper = 0 ∧ ∀ n, Bound m n → n < name) ∨
    (Bound m upper ∧ name ≤ upper ∧ ∀ n, Bound m n → name ≤ n → upper ≤ n)

/-- What the calls do to maps. -/
def splayContract : Contract (SplayOp β) (SplayResult β) (NameMaps β) where
  legal
    | .insert i name _, m => m i name = none ∧ name < machPortDead
    | .delete i name, m => Bound (m i) name
    | .split i _ small, _ => i ≠ small
    | .join i small, m => i ≠ small ∧ ∀ a b, Bound (m small) a → Bound (m i) b → a < b
    | _, _ => True
  ok
    | .lookup i name, m, r => r = .entry (m i name)
    | .pick i, m, r =>
      (r = .picked none ∧ ∀ n, m i n = none) ∨
        ∃ n e, r = .picked (some (n, e)) ∧ m i n = some e
    | .bounds i name, m, r =>
      ∃ lower upper, r = .bounds lower upper ∧ MapLower (m i) name lower ∧
        MapUpper (m i) name upper
    | _, _, r => r = .void
  next
    | .init i, m, _ => update m i fun _ => none
    | .insert i name entry, m, _ => update m i (update (m i) name (some entry))
    | .delete i name, m, _ => update m i (update (m i) name none)
    | .split i name small, m, _ =>
      update (update m i fun n => if name ≤ n then m i n else none) small
        fun n => if n < name then m i n else none
    | .join i small, m, _ =>
      update (update m i fun n => (m small n).or (m i n)) small
        fun _ => none
    | _, m, _ => m

/-! ## The simulation -/

/-- A tree holds a map: it is in valid form, what it assembles to is a search tree, and
that tree binds exactly what the map binds. -/
structure IpcSplayTree.Holds (splay : IpcSplayTree β) (m : Nat → Option β) : Prop where
  /-- The unassembled form is valid. -/
  valid : splay.Valid
  /-- The assembled tree is a binary search tree. -/
  ordered : splay.assembled.Ordered
  /-- It binds what the map binds. -/
  lookup : ∀ n, splay.assembled.toList.lookup n = m n

variable {splay : IpcSplayTree β} {m : Nat → Option β} {name : Nat}

theorem IpcSplayTree.Valid.holds
    (h : splay.Valid) (hm : ∀ n, splay.contents.lookup n = m n) : splay.Holds m := by
  refine ⟨h, ?_, ?_⟩
  · rw [ordered_iff, toList_assembled]
    exact h.ascending
  · rw [toList_assembled]
    exact hm

theorem IpcSplayTree.Holds.contents
    (h : splay.Holds m) (n : Nat) : splay.contents.lookup n = m n := by
  rw [← toList_assembled]
  exact h.lookup n

theorem IpcSplayTree.Holds.mem
    (h : splay.Holds m) (n : Nat) (e : β) : (n, e) ∈ splay.contents ↔ m n = some e := by
  rw [← h.contents]
  exact ⟨h.valid.ascending.lookup_of_mem, mem_of_lookup⟩

theorem IpcSplayTree.Holds.bound
    (h : splay.Holds m) (n : Nat) : Bound m n ↔ ∃ e, (n, e) ∈ splay.contents := by
  rw [Bound, Option.ne_none_iff_exists']
  constructor
  · rintro ⟨e, he⟩
    exact ⟨e, (h.mem n e).mpr he⟩
  · rintro ⟨e, he⟩
    exact ⟨e, (h.mem n e).mp he⟩

variable {e : Nat × β}

theorem IpcSplayTree.Holds.bound_of_mem
    (h : splay.Holds m) (he : e ∈ splay.contents) : Bound m e.1 :=
  (h.bound e.1).mpr ⟨e.2, he⟩

/-- The trees hold the maps. -/
def SplayTrees.Hold (t : SplayTrees β) (m : NameMaps β) : Prop := ∀ i, (t i).Holds (m i)

variable {t : SplayTrees β}

theorem SplayTrees.Hold.set {m : NameMaps β} (h : SplayTrees.Hold t m)
    (i : Nat) {f : Nat → Option β} (hi : splay.Holds f) :
    SplayTrees.Hold (update t i splay) (update m i f) := by
  intro j
  by_cases hj : j = i
  · subst hj
    rw [update_self, update_self]
    exact hi
  · rw [update_of_ne hj, update_of_ne hj]
    exact h j

theorem SplayTrees.Hold.set_left {m : NameMaps β}
    (h : SplayTrees.Hold t m) (i : Nat) (hi : splay.Holds (m i)) :
    SplayTrees.Hold (update t i splay) m := by
  have h' := h.set i hi
  rwa [update_eq_self] at h'

theorem lookup_cut {lo hi : List (Nat × β)} (n : Nat) (h : Ascending (lo ++ e :: hi)) :
    (lo ++ e :: hi).lookup n = if n = e.1 then some e.2 else (lo ++ hi).lookup n := by
  obtain ⟨k, v⟩ := e
  rw [List.lookup_append, List.lookup_append, List.lookup_cons]
  by_cases hn : n = k
  · subst hn
    rw [ascending_middle] at h
    rw [if_pos rfl, h.2.1.lookup_eq_none]
    simp
  · rw [if_neg hn, beq_false_of_ne hn]

section

variable (h : splay.Holds m)
include h

theorem IpcSplayTree.Holds.insert (entry : β) (habs : m name = none) (hdead : name < machPortDead) :
    (ipcSplayTreeInsert splay name entry).Holds (update m name (some entry)) := by
  obtain ⟨hv, lo, hi, hlist, -, -, hnew⟩ :=
    h.valid.insert entry hdead (by rw [h.contents]; exact habs)
  refine hv.holds fun n => ?_
  have hasc := hv.ascending
  rw [hnew] at hasc
  rw [hnew, lookup_cut n hasc, ← hlist, h.contents, update_apply]

theorem IpcSplayTree.Holds.delete (hpres : Bound m name) :
    ∃ splay', ipcSplayTreeDelete splay name = some splay' ∧ splay'.Holds (update m name none) := by
  have hne : splay.contents ≠ [] := by
    intro hnil
    refine hpres ?_
    rw [← h.contents, hnil]
    rfl
  obtain ⟨splay', lo, e, hi, hdel, hv, hlist, hnew, hname⟩ := h.valid.delete name hne
  have he : e.1 = name := hname (by rw [h.contents]; exact hpres)
  refine ⟨splay', hdel, hv.holds fun n => ?_⟩
  have hasc := h.valid.ascending
  rw [hlist] at hasc
  have hcut := lookup_cut n hasc
  rw [← hlist, h.contents, he] at hcut
  rw [hnew, update_apply]
  by_cases hn : n = name
  · subst hn
    rw [if_pos rfl]
    obtain ⟨-, hb, ha, -⟩ := ascending_middle.mp hasc
    rw [he] at hb ha
    rw [List.lookup_append, hb.lookup_eq_none, ha.lookup_eq_none]
    rfl
  · rw [if_neg hn] at hcut ⊢
    exact hcut.symm

theorem IpcSplayTree.Holds.split (name : Nat) (small : IpcSplayTree β) :
    (ipcSplayTreeSplit splay name small).1.Holds (fun n => if name ≤ n then m n else none) ∧
      (ipcSplayTreeSplit splay name small).2.Holds (fun n => if n < name then m n else none) := by
  obtain ⟨hv, hv', hlist, hb, ha⟩ := h.valid.split name small
  have hlook : ∀ n, m n = ((ipcSplayTreeSplit splay name small).2.contents.lookup n).or
      ((ipcSplayTreeSplit splay name small).1.contents.lookup n) := by
    intro n
    rw [← h.contents n, hlist, List.lookup_append]
  constructor
  · refine hv.holds fun n => ?_
    by_cases hn : name ≤ n
    · rw [if_pos hn, hlook, (hb.mono hn).lookup_eq_none, Option.none_or]
    · rw [if_neg hn]
      exact lookup_eq_none_of_ne fun e he heq => hn (heq ▸ ha e he)
  · refine hv'.holds fun n => ?_
    by_cases hn : n < name
    · rw [if_pos hn, hlook]
      have hnone : (ipcSplayTreeSplit splay name small).1.contents.lookup n = none :=
        lookup_eq_none_of_ne fun e he heq => hn.not_ge (heq ▸ ha e he)
      rw [hnone, Option.or_none]
    · rw [if_neg hn]
      exact (hb.mono (not_lt.mp hn)).lookup_eq_none

theorem IpcSplayTree.Holds.join {small : IpcSplayTree β} {ms : Nat → Option β} (hs : small.Holds ms)
    (hlt : ∀ a b, Bound ms a → Bound m b → a < b) :
    (ipcSplayTreeJoin splay small).1.Holds (fun n => (ms n).or (m n)) ∧
      (ipcSplayTreeJoin splay small).2.Holds (fun _ => none) := by
  obtain ⟨hv, hnew, hroot⟩ := h.valid.join hs.valid fun a ha b hb =>
    hlt a.1 b.1 (hs.bound_of_mem ha) (h.bound_of_mem hb)
  constructor
  · refine hv.holds fun n => ?_
    rw [hnew, List.lookup_append, hs.contents, h.contents]
  · refine (valid_nil hroot).holds fun n => ?_
    rw [contents_nil hroot]
    rfl

theorem IpcSplayTree.Holds.lower {lower : Nat} (hl : IsLower splay.contents name lower) :
    MapLower m name lower := by
  rcases hl with ⟨hdead, ha⟩ | ⟨hmem, hle, hmax⟩
  · refine .inl ⟨hdead, fun n hn => ?_⟩
    obtain ⟨e, he⟩ := (h.bound n).mp hn
    exact ha _ he
  · refine .inr ⟨(h.bound lower).mpr hmem, hle, fun n hn hn' => ?_⟩
    obtain ⟨e, he⟩ := (h.bound n).mp hn
    exact hmax _ he hn'

theorem IpcSplayTree.Holds.upper {upper : Nat} (hu : IsUpper splay.contents name upper) :
    MapUpper m name upper := by
  rcases hu with ⟨hzero, hb⟩ | ⟨hmem, hle, hmin⟩
  · refine .inl ⟨hzero, fun n hn => ?_⟩
    obtain ⟨e, he⟩ := (h.bound n).mp hn
    exact hb _ he
  · refine .inr ⟨(h.bound upper).mpr hmem, hle, fun n hn hn' => ?_⟩
    obtain ⟨e, he⟩ := (h.bound n).mp hn
    exact hmin _ he hn'

end

/-- Every legal operation on the trees is the operation on the maps. -/
theorem splay_simulates :
    (splayContract : Contract (SplayOp β) _ _).Simulates splayStep SplayTrees.Hold := by
  intro t m op h hlegal
  cases op with
  | init i =>
    refine ⟨_, _, rfl, rfl, h.set i ?_⟩
    exact (IpcSplayTree.valid_nil rfl).holds fun n => by
      rfl
  | lookup i name =>
    obtain ⟨hres, hv, hc⟩ := (h i).valid.lookup name
    refine ⟨update t i (ipcSplayTreeLookup (t i) name).2,
      .entry (ipcSplayTreeLookup (t i) name).1, rfl, ?_, h.set_left i ?_⟩
    · show .entry _ = SplayResult.entry _
      rw [hres, (h i).contents]
    · exact hv.holds fun n => by rw [hc, (h i).contents]
  | insert i name entry =>
    exact ⟨_, _, rfl, rfl, h.set i ((h i).insert entry hlegal.1 hlegal.2)⟩
  | delete i name =>
    obtain ⟨splay', hdel, hholds⟩ := (h i).delete hlegal
    refine ⟨update t i splay', .void, ?_, rfl, h.set i hholds⟩
    simp [splayStep, hdel]
  | split i name small =>
    obtain ⟨h₁, h₂⟩ := (h i).split name (t small)
    exact ⟨_, _, rfl, rfl, (h.set i h₁).set small h₂⟩
  | join i small =>
    obtain ⟨h₁, h₂⟩ := (h i).join (h small) hlegal.2
    exact ⟨_, _, rfl, rfl, (h.set i h₁).set small h₂⟩
  | pick i =>
    refine ⟨_, _, rfl, ?_, h⟩
    rcases ipcSplayTreePick_spec (t i) with ⟨hpick, hnil⟩ | ⟨⟨n, e⟩, hpick, hmem⟩
    · refine .inl ⟨by rw [hpick], fun n => ?_⟩
      rw [← (h i).contents, hnil]
      rfl
    · exact .inr ⟨n, e, by rw [hpick], ((h i).mem n e).mp hmem⟩
  | bounds i name =>
    obtain ⟨hl, hu, hv, hc⟩ := (h i).valid.bounds name
    refine ⟨_, _, rfl, ⟨_, _, rfl, (h i).lower hl, (h i).upper hu⟩, h.set_left i ?_⟩
    exact hv.holds fun n => by rw [hc, (h i).contents]

/-! ## Runs -/

/-- A run starts with trees that `ipc_splay_tree_init` has initialized. -/
def splayInitial (t : SplayTrees β) (m : NameMaps β) : Prop :=
  (∀ i, (t i).istRoot = .nil) ∧ m = fun _ _ => none

/-- In every run each tree is in valid form, assembles to a binary search tree, and binds
exactly the names inserted and not deleted; and the next operation returns what the
finite-map contract says. -/
theorem splayRun_refines {t : SplayTrees β} {m : NameMaps β}
    (hrun : splayContract.Run splayStep splayInitial t m) :
    SplayTrees.Hold t m ∧ ∀ op, splayContract.legal op m →
        ∃ t' r, splayStep op t = some (t', r) ∧ splayContract.ok op m r := by
  have hhold : SplayTrees.Hold t m := by
    refine splay_simulates.run ?_ hrun
    rintro t₀ m₀ ⟨hroot, rfl⟩ i
    exact (IpcSplayTree.valid_nil (hroot i)).holds fun n => by
      rw [IpcSplayTree.contents_nil (hroot i)]
      rfl
  refine ⟨hhold, fun op hlegal => ?_⟩
  obtain ⟨t', r, hstep, hok, -⟩ := splay_simulates t m op hhold hlegal
  exact ⟨t', r, hstep, hok⟩

/-- A run that inserts two names and splits between them. -/
theorem splayRun_refines_split :
    let t₀ : SplayTrees Nat := fun _ => ⟨0, .nil, [], []⟩
    let t₁ := update t₀ 0 (ipcSplayTreeInsert (t₀ 0) 7 70)
    let t₂ := update t₁ 0 (ipcSplayTreeInsert (t₁ 0) 3 30)
    ∃ m, SplayTrees.Hold t₂ m ∧ m 0 7 = some 70 ∧
      ∃ t' r, splayStep (.split 0 5 1) t₂ = some (t', r) ∧ splayContract.ok (.split 0 5 1) m r := by
  intro t₀ t₁ t₂
  have h₀ : splayContract.Run splayStep splayInitial t₀ fun _ _ => none :=
    .start ⟨fun _ => rfl, rfl⟩
  have hlegal₁ : splayContract.legal (.insert 0 7 70) fun _ _ => none := ⟨rfl, by decide⟩
  have h₁ := h₀.step hlegal₁ (show splayStep _ t₀ = some (t₁, .void) from rfl)
  have hlegal₂ : splayContract.legal (.insert 0 3 30) (splayContract.next (.insert 0 7 70)
      (fun _ _ => none) .void) := ⟨rfl, by decide⟩
  have h₂ := h₁.step hlegal₂ (show splayStep _ t₁ = some (t₂, .void) from rfl)
  obtain ⟨hhold, hnext⟩ := splayRun_refines h₂
  have hlegal₃ : (0 : Nat) ≠ 1 := by decide
  exact ⟨_, hhold, rfl, hnext (.split 0 5 1) hlegal₃⟩

end Mach
