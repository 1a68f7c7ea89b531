import Mathlib.Data.List.Nodup

/-!
# Resources with a version

A resource is under a lock that many readers hold or one writer.  Whoever gets the lock to write
increments the timestamp of the resource, which counts modulo `n`.  Who saw the resource under the
lock compares the timestamp later, under the lock again, to know whether the resource was changed.

`Change` says what one thread can do to a resource.  Readers only change what a `view` of the value
does not show.  Then the view of a value stays the same until the timestamp is incremented
(`Change.since`), and as long as somebody reads (`Change.held`).  Timestamps tell the truth if there
are less than `n` increments in between (`Resource.Ok.not_incremented`).  A write lock makes two of
them at most (`Change.counted`).
-/

universe u v w

namespace Versioned

/-- A resource, with the lock that it is under. -/
structure Resource (τ : Type u) (α : Type v) where
  value : α
  readers : List τ
  writer : Option τ
  timestamp : Nat
  /-- How often the timestamp was incremented. -/
  increments : Nat
  /-- How often the lock was taken to write. -/
  writeLocks : Nat

namespace Resource

variable {τ : Type u} {α : Type v}

/-- Get the lock to read. -/
def lockRead (t : τ) (r : Resource τ α) : Option (Resource τ α) :=
  match r.writer with
  | none => some { r with readers := t :: r.readers }
  | some _ => none

/-- Increment the timestamp. -/
def increment (n : Nat) (r : Resource τ α) : Resource τ α :=
  { r with timestamp := (r.timestamp + 1) % n, increments := r.increments + 1 }

/-- Get the lock to write. -/
def lockWrite (n : Nat) (t : τ) (r : Resource τ α) : Option (Resource τ α) :=
  match r.writer, r.readers with
  | none, [] => some { r.increment n with writer := some t, writeLocks := r.writeLocks + 1 }
  | _, _ => none

variable {t : τ}

theorem lockRead_eq_some {r r' : Resource τ α} (h : r.lockRead t = some r') :
    r.writer = none ∧ r' = { r with readers := t :: r.readers } := by
  unfold lockRead at h
  split at h
  next hwriter => exact ⟨hwriter, (Option.some.inj h).symm⟩
  next => cases h

variable {n : Nat}

/-- The writer becomes a reader. -/
def writeToRead (t : τ) (r : Resource τ α) : Resource τ α :=
  { r with readers := t :: r.readers, writer := none }

/-- A resource after it was changed by a reader that got the lock to write, with `k` increments more
than the one for the lock. -/
def upgraded (n k : Nat) (x : α) (r : Resource τ α) : Resource τ α :=
  { r with
      value := x
      timestamp := (r.timestamp + (k + 1)) % n
      increments := r.increments + (k + 1)
      writeLocks := r.writeLocks + 1 }

/-- A resource between two calls. -/
structure Ok (n : Nat) (r : Resource τ α) : Prop where
  exclusive : r.writer ≠ none → r.readers = []
  nodup : r.readers.Nodup
  timestamp : r.timestamp = r.increments % n

variable [DecidableEq τ]

/-- Release the lock of a reader. -/
def unlockRead (t : τ) (r : Resource τ α) : Resource τ α :=
  { r with readers := r.readers.erase t }

/-- Release the lock of the writer. -/
def unlockWrite (t : τ) (r : Resource τ α) : Option (Resource τ α) :=
  if r.writer = some t then some { r with writer := none } else none

/-- Change the value, under the lock of the writer. -/
def write (t : τ) (f : α → α) (r : Resource τ α) : Option (Resource τ α) :=
  if r.writer = some t then some { r with value := f r.value } else none

/-- The only reader becomes the writer. -/
def readToWrite (n : Nat) (t : τ) (r : Resource τ α) : Option (Resource τ α) :=
  if r.writer = none ∧ r.readers = [t] then
    some { r.increment n with readers := [], writer := some t, writeLocks := r.writeLocks + 1 }
  else none

theorem readToWrite_eq_some {r r' : Resource τ α} (h : r.readToWrite n t = some r') :
    r.writer = none ∧ r.readers = [t] ∧ r' = { r.increment n with
              readers := [], writer := some t, writeLocks := r.writeLocks + 1 } := by
  obtain ⟨⟨hwriter, hreaders⟩, hr⟩ := Option.ite_none_right_eq_some.mp h
  exact ⟨hwriter, hreaders, (Option.some.inj hr).symm⟩

end Resource

variable {τ : Type u} {α : Type v} {β : Type w} {n : Nat} {view : α → β} {seen : β}
  {increments writeLocks : Nat} {t t' : τ} {r r' : Resource τ α}

/-- A resource after it was seen with a view and a number of increments: it is still seen so, and
nobody is about to change that, or there were more increments. -/
inductive Since (view : α → β) (seen : β) (increments : Nat) (r : Resource τ α) : Prop
  | incremented (hlt : increments < r.increments)
  | same (heq : r.increments = increments) (hview : view r.value = seen) (hwriter : r.writer = none)

theorem Since.view_eq (hs : Since view seen increments r) (hnot : ¬ increments < r.increments) :
    view r.value = seen := by
  cases hs with
  | incremented hlt => exact absurd hlt hnot
  | same heq hview => exact hview

/-- A resource after it was seen with numbers of increments and of write locks: there were at most
two increments for each write lock. -/
def Resource.Counted (increments writeLocks : Nat) (r : Resource τ α) : Prop :=
  r.increments + 2 * writeLocks ≤ increments + 2 * r.writeLocks

theorem Resource.Counted.increments_lt (h : r.Counted increments writeLocks)
    (hfew : r.writeLocks < writeLocks + n) : r.increments < increments + 2 * n := by
  unfold Resource.Counted at h
  omega

/-- If a timestamp is the same again then there were no increments, or many. -/
theorem Resource.Ok.not_incremented (hr : r.Ok n) (hts : r.timestamp = increments % n)
    (hfew : r.increments < increments + n) : ¬ increments < r.increments := by
  intro hlt
  rw [hr.timestamp] at hts
  have hmod := Nat.sub_mod_eq_zero_of_mod_eq hts
  rw [Nat.mod_eq_of_lt (by omega)] at hmod
  omega

variable [DecidableEq τ]

/-- What a thread can do to a resource. -/
inductive Change (n : Nat) (view : α → β) (t : τ) (r : Resource τ α) : Resource τ α → Prop
  | same : Change n view t r r
  /-- The lock is taken to read, and there is a change that cannot be seen. -/
  | lockRead (x : α) (hwriter : r.writer = none) (hnew : t ∉ r.readers)
      (hview : view x = view r.value) :
      Change n view t r { r with value := x, readers := t :: r.readers }
  | unlockRead : Change n view t r (r.unlockRead t)
  /-- There is a change that cannot be seen. -/
  | touch (x : α) (hview : view x = view r.value) : Change n view t r { r with value := x }
  | lockWrite (hwriter : r.writer = none) (hreaders : r.readers = []) :
      Change n view t r { r.increment n with writer := some t, writeLocks := r.writeLocks + 1 }
  | write (x : α) (hwriter : r.writer = some t) : Change n view t r { r with value := x }
  | unlockWrite (hwriter : r.writer = some t) : Change n view t r { r with writer := none }
  /-- The only reader gets the lock to write, changes the value and reads again.  It may increment
  the timestamp once more. -/
  | upgrade (x : α) (k : Nat) (hk : k ≤ 1) (hwriter : r.writer = none)
    (hreaders : r.readers = [t]) :
      Change n view t r (r.upgraded n k x)

namespace Change

variable (hc : Change n view t r r')

include hc

theorem ok (hr : r.Ok n) : r'.Ok n := by
  cases hc with
  | same => exact hr
  | lockRead x hwriter hnew hview =>
    exact ⟨fun hw => absurd hwriter hw, List.nodup_cons.mpr ⟨hnew, hr.nodup⟩, hr.timestamp⟩
  | unlockRead =>
    refine ⟨fun hw => ?_, hr.nodup.erase t, hr.timestamp⟩
    change r.readers.erase t = []
    rw [hr.exclusive hw, List.erase_nil]
  | touch x | write x hwriter => exact ⟨hr.exclusive, hr.nodup, hr.timestamp⟩
  | lockWrite hwriter hreaders =>
    refine ⟨fun _ => hreaders, hr.nodup, ?_⟩
    change (r.timestamp + 1) % n = (r.increments + 1) % n
    rw [hr.timestamp, Nat.mod_add_mod]
  | unlockWrite hwriter => exact ⟨fun hw => absurd rfl hw, hr.nodup, hr.timestamp⟩
  | upgrade x k =>
    refine ⟨hr.exclusive, hr.nodup, ?_⟩
    change (r.timestamp + (k + 1)) % n = (r.increments + (k + 1)) % n
    rw [hr.timestamp, Nat.mod_add_mod]

theorem reads_iff (hne : t' ≠ t) : t' ∈ r'.readers ↔ t' ∈ r.readers := by
  cases hc with
  | lockRead =>
    exact ⟨fun h => (List.mem_cons.mp h).resolve_left hne, List.mem_cons_of_mem t⟩
  | unlockRead => exact List.mem_erase_of_ne hne
  | _ => rfl

/-- While another thread reads, nothing changes that can be seen. -/
theorem held (hr : r.Ok n) (hne : t' ≠ t) (hreads : t' ∈ r.readers) :
    view r'.value = view r.value ∧ r'.timestamp = r.timestamp := by
  have hno {w : Option τ} (hw : r.writer = w) (hsome : w ≠ none) : False := by
    rw [hr.exclusive (hw ▸ hsome)] at hreads
    cases hreads
  cases hc with
  | lockRead x hwriter hnew hview | touch x hview => exact ⟨hview, rfl⟩
  | lockWrite hwriter hreaders =>
    rw [hreaders] at hreads
    cases hreads
  | write x hwriter => exact (hno hwriter (Option.some_ne_none t)).elim
  | upgrade x k hk hwriter hreaders =>
    rw [hreaders] at hreads
    exact absurd (List.mem_singleton.mp hreads) hne
  | _ => exact ⟨rfl, rfl⟩

theorem increments_le : r.increments ≤ r'.increments := by
  cases hc with
  | lockWrite hwriter hreaders => exact Nat.le_succ _
  | upgrade => exact Nat.le_add_right ..
  | _ => exact Nat.le_refl _

theorem counted (h : r.Counted increments writeLocks) : r'.Counted increments writeLocks := by
  unfold Resource.Counted at h ⊢
  cases hc with
  | lockWrite =>
    change r.increments + 1 + 2 * writeLocks ≤ increments + 2 * (r.writeLocks + 1)
    omega
  | upgrade x k hk =>
    change r.increments + (k + 1) + 2 * writeLocks ≤ increments + 2 * (r.writeLocks + 1)
    omega
  | _ => exact h

end Change

theorem Change.since (hc : Change n view t r r') (hs : Since view seen increments r) :
    Since view seen increments r' := by
  have hle := hc.increments_le
  cases hs with
  | incremented hlt => exact .incremented (Nat.lt_of_lt_of_le hlt hle)
  | same heq hview hwriter =>
    -- Nobody has the lock to write, so to change the value is to take it first.
    cases hc with
    | same | unlockRead => exact .same heq hview hwriter
    | lockRead x _ hnew hx | touch x hx => exact .same heq (hx.trans hview) hwriter
    | lockWrite _ hreaders => exact .incremented (Nat.lt_succ_of_le (Nat.le_of_eq heq.symm))
    | write x hw | unlockWrite hw => cases hwriter.symm.trans hw
    | upgrade x k =>
      exact .incremented (heq ▸ Nat.lt_add_of_pos_right k.succ_pos)

end Versioned
