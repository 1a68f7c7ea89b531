import Mach.DefaultPager.BlockMap
import Mach.Lib.Runs

/-!
# Threads that extend one map

`pager_read_offset` and `pager_write_offset` test under the lock of the object if the map has the
page.  If not, they release the lock, and `pager_extend` takes it again.  Other threads may have
extended the map in between.  What a thread does from taking the lock to releasing it is one step
here.

`pager_extend` computes the new size from its argument.  Up to `max_doubled_size` it starts from the
size that it finds under the lock, which is never decreased.  Above that it rounds up its argument,
and if another thread has extended the map further, the copy of the map is too small for its
entries.
-/

namespace Mach

open Function

/-- `pager_read_offset` or `pager_write_offset`. -/
inductive OffsetCall where
  | read (offset : BitVec 32)
  | write (offset : BitVec 32) (kalloc : Bool)
deriving DecidableEq

/-- `f_page`. -/
def OffsetCall.page (c : PagerConfig) : OffsetCall → Nat
  | .read offset => c.atop offset
  | .write offset _ => c.atop offset

/-- Where a thread is when it does not hold the lock. -/
inductive CallPhase where
  | idle
  /-- At the first `mutex_lock`. -/
  | entry (call : OffsetCall)
  /-- In `pager_extend`, at its `mutex_lock`. -/
  | extending (call : OffsetCall)
  /-- At the `mutex_lock` after `pager_extend`. -/
  | extended (call : OffsetCall)
deriving DecidableEq

/-- The call that a thread makes, if it has none yet the given one. -/
def CallPhase.callOr (call : OffsetCall) : CallPhase → OffsetCall
  | .idle => call
  | .entry call | .extending call | .extended call => call

/-- A thread that is to extend the map by rounding up gives at least this size. -/
def CallPhase.Bounded (c : PagerConfig) (size : Nat) : CallPhase → Prop
  | .extending call =>
    call.page c + 1 ≤ c.maxDoubledPages ∨ size ≤ roundupToPagemap (call.page c + 1)
  | _ => True

instance (c : PagerConfig) (size : Nat) : DecidablePred (CallPhase.Bounded c size)
  | .idle => inferInstanceAs (Decidable True)
  | .entry _ => inferInstanceAs (Decidable True)
  | .extended _ => inferInstanceAs (Decidable True)
  | .extending call => inferInstanceAs (Decidable
      (call.page c + 1 ≤ c.maxDoubledPages ∨ size ≤ roundupToPagemap (call.page c + 1)))

/-- A write needs a partition. -/
def OffsetCall.Attached (d : Dpager) : OffsetCall → Prop
  | .read _ => True
  | .write _ _ => d.currentPartition ≠ none

/-- An object, and threads that use it. -/
structure Shared (τ : Type) where
  pager : Dpager
  partitions : PartitionList
  phase : τ → CallPhase

namespace Shared

variable {τ : Type} [DecidableEq τ]

/-- A thread goes on to a phase. -/
def enter (t : τ) (p : CallPhase) (s : Shared τ) : Shared τ :=
  { s with phase := update s.phase t p }

/-- The rest of a call, after the test of the size. -/
def access (c : PagerConfig) (t : τ) (s : Shared τ) :
    OffsetCall → Except PagerFault (Shared τ × Option Block)
  | .read offset => (s.pager.entry (c.atop offset)).map fun b => (s.enter t .idle, some b)
  | .write offset kalloc =>
    (s.pager.writeEntry c kalloc (c.atop offset) s.partitions).map fun x =>
      (enter t .idle { s with pager := x.1, partitions := x.2.1 }, some x.2.2)

/-- The test of the size, which extends the object or goes on. -/
def test (c : PagerConfig) (t : τ) (call : OffsetCall) (s : Shared τ) :
    Except PagerFault (Shared τ × Option Block) :=
  if s.pager.size ≤ call.page c then .ok (s.enter t (.extending call), none) else s.access c t call

/-- The start of a call, with the lock.  A write looks for a partition first. -/
def start (c : PagerConfig) (t : τ) (s : Shared τ) :
    OffsetCall → Except PagerFault (Shared τ × Option Block)
  | .read offset => s.test c t (.read offset)
  | .write offset kalloc =>
    let d := s.pager.attach c (c.atop offset) s.partitions
    if d.currentPartition = none then
      .ok (enter t .idle { s with pager := d }, some noBlock)
    else test c t (.write offset kalloc) { s with pager := d }

/-- What a thread does until it releases the lock, with the result of a call that returns.  A thread
without a call makes the given one. -/
def step (c : PagerConfig) (t : τ) (call : OffsetCall) (s : Shared τ) :
    Except PagerFault (Shared τ × Option Block) :=
  match s.phase t with
  | .idle => .ok (s.enter t (.entry call), none)
  | .entry call => s.start c t call
  | .extended call => s.test c t call
  | .extending call =>
    (s.pager.pagerExtend c (call.page c + 1)).map fun d =>
      (enter t (.extended call) { s with pager := d }, none)

/-- The steps of all threads. -/
def machine (c : PagerConfig) : Machine (τ × OffsetCall) (Option Block) (Shared τ) :=
  fun op s => (s.step c op.1 op.2).toOption

/-- The map does not shrink, and pages keep their blocks. -/
structure Extends (s s' : Shared τ) : Prop where
  size : s.pager.size ≤ s'.pager.size
  lookup : ∀ page x, s.pager.lookup page = some x → s'.pager.lookup page = some x

/-- The next step of any thread is within the map, and nothing is lost. -/
def Grows (c : PagerConfig) (s : Shared τ) : Prop :=
  ∀ t call, ∃ s' r, s.step c t call = .ok (s', r) ∧ s.Extends s'

/-- No extension that is rounded up is below the size of the map. -/
def Bounded (c : PagerConfig) (s : Shared τ) : Prop := ∀ t, (s.phase t).Bounded c s.pager.size

instance [Fintype τ] (c : PagerConfig) : DecidablePred (Bounded (τ := τ) c) :=
  fun s => inferInstanceAs (Decidable (∀ t, (s.phase t).Bounded c s.pager.size))

/-- A write has a partition after its start. -/
structure Inv (c : PagerConfig) (s : Shared τ) : Prop where
  partitions : ∃ used, PartitionList.Ok c s.partitions used
  sound : s.pager.Sound s.partitions
  attached : ∀ t call, s.phase t = .extending call ∨ s.phase t = .extended call →
    call.Attached s.pager

/-- What a call does to the blocks until it releases the lock. -/
inductive Did (c : PagerConfig) (used : Nat → Nat → Prop) (s s' : Shared τ) :
    OffsetCall → Option Block → Prop
  | moved {call : OffsetCall} : s'.pager.lookup = s.pager.lookup → s'.partitions = s.partitions →
      Did c used s s' call none
  | read {offset : BitVec 32} {b : Block} : b.slot = s.pager.lookup (c.atop offset) →
      s'.pager.lookup = s.pager.lookup → s'.partitions = s.partitions →
      Did c used s s' (.read offset) (some b)
  | wrote {offset : BitVec 32} {kalloc : Bool} {b : Block} :
      Dpager.Writes c s.partitions used kalloc (c.atop offset) s.pager.lookup s'.pager.lookup
        s'.partitions b →
      Did c used s s' (.write offset kalloc) (some b)

/-- A step of a call. -/
structure Stepped (c : PagerConfig) (used : Nat → Nat → Prop) (t : τ) (call : OffsetCall)
    (s s' : Shared τ) (r : Option Block) : Prop where
  size : s.pager.size ≤ s'.pager.size
  did : Did c used s s' call r
  others : ∀ u, u ≠ t → s'.phase u = s.phase u
  goes : r = none → s'.phase t ≠ .idle ∧ ∀ other, (s'.phase t).callOr other = call
  returns : r ≠ none → s'.phase t = .idle

variable {c : PagerConfig} {used : Nat → Nat → Prop} {s s' s'' : Shared τ} {t : τ}
  {call : OffsetCall} {r : Option Block}

omit [DecidableEq τ] in
theorem Did.lookup (h : Did c used s s' call r) {page : Nat} {x : Nat × Nat}
    (hx : s.pager.lookup page = some x) : s'.pager.lookup page = some x := by
  cases h with
  | moved hlookup | read _ hlookup => exact hlookup ▸ hx
  | wrote hwrites => exact hwrites.lookup hx

omit [DecidableEq τ] in
theorem Stepped.extends (h : Stepped c used t call s s' r) : s.Extends s' :=
  ⟨h.size, fun _ _ hx => h.did.lookup hx⟩

theorem Stepped.release {d : Dpager} {p : CallPhase} (hsize : s.pager.size ≤ d.size)
    (hlookup : d.lookup = s.pager.lookup) (hp : p ≠ .idle)
    (hcall : ∀ other, p.callOr other = call) :
    Stepped c used t call s (enter t p { s with pager := d }) none := by
  have hphase : (enter t p { s with pager := d }).phase t = p := update_self ..
  refine ⟨hsize, .moved hlookup rfl, fun u hu => update_of_ne hu .., ?_, fun hr => absurd rfl hr⟩
  rw [hphase]
  exact fun _ => ⟨hp, hcall⟩

namespace Inv

section

variable (h : s.Inv c)

include h

theorem enter {d : Dpager} {l : PartitionList} {p : CallPhase}
    (hl : ∃ used, PartitionList.Ok c l used) (hd : d.Sound l)
    (hcurrent : s.pager.currentPartition ≠ none → d.currentPartition ≠ none)
    (hp : ∀ call, p = .extending call ∨ p = .extended call → call.Attached d) :
    Inv c (enter t p { s with pager := d, partitions := l }) := by
  refine ⟨hl, hd, ?_⟩
  intro u call hu
  dsimp only [Shared.enter] at hu
  rcases eq_or_ne u t with rfl | hne
  · rw [update_self] at hu
    exact hp call hu
  rw [update_of_ne hne] at hu
  have hold := h.attached u call hu
  cases call with
  | read offset => trivial
  | write => exact hcurrent hold

section

variable (hl : PartitionList.Ok c s.partitions used)
include hl

theorem access (hpage : call.page c < s.pager.size) (hcall : call.Attached s.pager) :
    ∃ s' r, s.access c t call = .ok (s', r) ∧ s'.Inv c ∧ Stepped c used t call s s' r := by
  cases call with
  | read offset =>
    obtain ⟨b, hentry, hslot⟩ := h.sound.ok.entry hpage
    rw [OffsetCall.page] at hentry hslot
    refine ⟨s.enter t .idle, some b, ?_, ?_, ⟨le_rfl, .read hslot rfl rfl, ?_, nofun, ?_⟩⟩
    · simp only [access, hentry, Except.map]
    · exact h.enter h.partitions h.sound id (by simp)
    · exact fun u hu => update_of_ne hu ..
    · exact fun _ => update_self ..
  | write offset kalloc =>
    obtain ⟨k, hk⟩ := Option.ne_none_iff_exists'.mp hcall
    obtain ⟨d, l, b, hwrite, hok, hsize, ⟨k', hk', hcurrent⟩, hwrites⟩ :=
      Dpager.writeEntry_spec kalloc hl h.sound.ok hpage (h.sound.current k hk) hk
    rw [OffsetCall.page] at hwrite hwrites
    refine ⟨.enter t .idle { s with pager := d, partitions := l }, some b, ?_, ?_,
      ⟨hsize.ge, .wrote hwrites, ?_, nofun, ?_⟩⟩
    · simp only [access, hwrite, Except.map]
    · apply h.enter (hwrites.ok hl)
      · refine ⟨hok, ?_, ?_⟩
        · intro k'' hk''
          cases hcurrent.symm.trans hk''
          exact hk'.trans_eq hwrites.keeps.length.symm
        · intro hnone
          cases hcurrent.symm.trans hnone
      · simp [hcurrent]
      · simp
    · exact fun u hu => update_of_ne hu ..
    · exact fun _ => update_self ..

theorem test (hcall : call.Attached s.pager) :
    ∃ s' r, s.test c t call = .ok (s', r) ∧ s'.Inv c ∧ Stepped c used t call s s' r := by
  rcases lt_or_ge (call.page c) s.pager.size with hlt | hge
  · rw [Shared.test, if_neg (not_le.mpr hlt)]
    exact h.access hl hlt hcall
  refine ⟨s.enter t (.extending call), none, if_pos hge, ?_,
    .release le_rfl rfl (by simp) fun _ => rfl⟩
  apply h.enter h.partitions h.sound id
  intro call' hcall'
  simp only [CallPhase.extending.injEq, reduceCtorEq, or_false] at hcall'
  exact hcall' ▸ hcall

theorem start (call : OffsetCall) :
    ∃ s' r, s.start c t call = .ok (s', r) ∧ s'.Inv c ∧ Stepped c used t call s s' r := by
  cases call with
  | read offset => exact h.test hl trivial
  | write offset kalloc =>
    obtain ⟨hok, hsize, hlookup, ⟨hattach, hnone, hfull⟩ | ⟨k, hk, hcurrent⟩⟩ :=
      Dpager.attach_spec (c.atop offset) hl h.sound
    · refine ⟨s.enter t .idle, some noBlock, ?_, ?_, ⟨le_rfl, .wrote ?_, ?_, nofun, ?_⟩⟩
      · simp [Shared.start, hattach, hnone]
      · exact h.enter h.partitions h.sound id (by simp)
      · exact .failed (congrFun (h.sound.unattached hnone) _) (.inr hfull)
      · exact fun u hu => update_of_ne hu ..
      · exact fun _ => update_self ..
    have hattached : (s.pager.attach c (c.atop offset) s.partitions).currentPartition ≠ none :=
      Option.ne_none_iff_exists'.mpr ⟨k, hcurrent⟩
    have hs : Inv c { s with pager := s.pager.attach c (c.atop offset) s.partitions } := by
      refine ⟨h.partitions, ⟨hok, ?_, fun hnone => absurd hnone hattached⟩, ?_⟩
      · intro k' hk'
        cases hcurrent.symm.trans hk'
        exact hk
      · intro u call _
        cases call with
        | read offset => trivial
        | write => exact hattached
    have hcall : (OffsetCall.write offset kalloc).Attached
        (s.pager.attach c (c.atop offset) s.partitions) := hattached
    obtain ⟨s', r, htest, hinv, hstepped⟩ := hs.test hl hcall
    refine ⟨s', r, ?_, hinv,
      ⟨hsize.ge.trans hstepped.size, ?_, hstepped.others, hstepped.goes, hstepped.returns⟩⟩
    · simp only [Shared.start, hattached]
      exact htest
    · cases hstepped.did with
      | moved hlookup' hpartitions => exact .moved (hlookup'.trans hlookup) hpartitions
      | wrote hwrites =>
        rw [hlookup] at hwrites
        exact .wrote hwrites

/-- What a thread does if its extension does not shrink the map. -/
theorem step (call : OffsetCall) (hbound : (s.phase t).Bounded c s.pager.size) :
    ∃ s' r, s.step c t call = .ok (s', r) ∧ s'.Inv c ∧
      Stepped c used t ((s.phase t).callOr call) s s' r := by
  rw [Shared.step]
  cases hphase : s.phase t with
  | idle =>
    refine ⟨_, _, rfl, ?_, .release le_rfl rfl (by simp) fun _ => rfl⟩
    exact h.enter h.partitions h.sound id (by simp)
  | entry call => exact h.start hl call
  | extended call => exact h.test hl (h.attached t call (.inr hphase))
  | extending call =>
    rw [hphase] at hbound
    have hle := Dpager.size_le_extendedSize_iff.mpr hbound
    obtain ⟨d, hextend, hok, hsize, hcurrent, hlookup⟩ := h.sound.ok.extend hle
    refine ⟨.enter t (.extended call) { s with pager := d }, none, ?_, ?_,
      .release (hle.trans_eq hsize.symm) hlookup (by simp) fun _ => rfl⟩
    · simp only [hextend, Except.map]
    · apply h.enter h.partitions
      · refine ⟨hok, hcurrent ▸ h.sound.current, ?_⟩
        rw [hcurrent, hlookup]
        exact h.sound.unattached
      · rw [hcurrent]
        exact id
      · intro call' hcall'
        simp only [CallPhase.extended.injEq, reduceCtorEq, false_or] at hcall'
        subst hcall'
        have hold := h.attached t call (.inl hphase)
        cases call with
        | read offset => trivial
        | write => exact fun hnone => hold (hcurrent.symm.trans hnone)

end

/-- An extension that shrinks the map writes beyond it. -/
theorem step_wild (call : OffsetCall) (hbound : ¬ (s.phase t).Bounded c s.pager.size) :
    s.step c t call = .error .wild := by
  rw [Shared.step]
  cases hphase : s.phase t with
  | extending =>
    rw [hphase] at hbound
    have hlt := not_le.mp (mt Dpager.size_le_extendedSize_iff.mp hbound)
    simp only [h.sound.ok.extend_wild hlt, Except.map]
  | _ => exact absurd (hphase ▸ trivial) hbound

theorem grows_iff : s.Grows c ↔ s.Bounded c := by
  constructor
  · intro hgrows t
    by_contra hbound
    obtain ⟨s', r, hstep, -⟩ := hgrows t (.read 0#32)
    rw [h.step_wild _ hbound] at hstep
    cases hstep
  · intro hbound t call
    obtain ⟨used, hl⟩ := h.partitions
    obtain ⟨s', r, hstep, -, hstepped⟩ := h.step hl call (hbound t)
    exact ⟨s', r, hstep, hstepped.extends⟩

end

theorem machine {op : τ × OffsetCall} (h : s.Inv c) (hbound : s.Bounded c)
    (hstep : machine c op s = some (s', r)) : s'.Inv c := by
  obtain ⟨used, hl⟩ := h.partitions
  obtain ⟨s₁, r₁, hstep₁, hinv, -⟩ := h.step hl op.2 (hbound op.1)
  rw [Shared.machine, hstep₁] at hstep
  cases hstep
  exact hinv

end Inv

/-- An object and partitions as calls leave them, and threads without a call. -/
structure Start (c : PagerConfig) (s : Shared τ) : Prop where
  partitions : ∃ used, PartitionList.Ok c s.partitions used
  sound : s.pager.Sound s.partitions
  idle : ∀ t, s.phase t = .idle

omit [DecidableEq τ] in
theorem Start.inv (h : s.Start c) : s.Inv c := by
  refine ⟨h.partitions, h.sound, ?_⟩
  intro t call hcall
  simp [h.idle t] at hcall

end Shared

/-- Along a run of any threads, the map stays large enough for its accesses, does not shrink and
loses no block, exactly if no thread rounds up to a size below the one that it finds. -/
theorem pager_grows_iff {τ : Type} [DecidableEq τ] {c : PagerConfig} {s : Shared τ} (h : s.Start c)
    (ops : List (τ × OffsetCall)) :
    (Shared.machine c).Always (Shared.Grows c) ops s ↔
      (Shared.machine c).Always (Shared.Bounded c) ops s := by
  refine Machine.always_iff (I := Shared.Inv c) ?_ (fun s hs => hs.grows_iff) h.inv
  intro s op s' r hs hbefore _ hstep
  exact hs.machine (hbefore.elim hs.grows_iff.mp id) hstep

/-- A map of one page, and two threads. -/
def Shared.onePage : Shared Bool where
  pager := pagerAlloc .small (some 0) 4096#32
  partitions := initPartitions .small [65536#32]
  phase _ := .idle

theorem Shared.onePage_start : onePage.Start .small := by
  obtain ⟨hok, hlookup⟩ := Dpager.pagerAlloc_ok (some 0) 4096#32
  refine ⟨⟨_, initPartitions_ok (by decide)⟩, ⟨hok, ?_, fun _ => hlookup⟩, fun _ => rfl⟩
  rintro k ⟨⟩
  decide

/-- Both threads see a map of one page, and extend it to two and to four pages. -/
def extendTwice : List (Bool × OffsetCall) :=
  [(false, .write 4096#32 true), (true, .read 12288#32), (false, .read 0#32), (true, .read 0#32),
    (true, .read 0#32), (false, .read 0#32), (false, .read 0#32), (true, .read 0#32)]

theorem pager_grows_iff_twice : Shared.onePage.Start .small ∧
      (Shared.machine .small).Always (Shared.Grows .small) extendTwice .onePage :=
  ⟨Shared.onePage_start, (pager_grows_iff Shared.onePage_start extendTwice).mpr (by decide +kernel)⟩

/-- One thread is to extend the map to 1025 pages and the other one to 2048 pages, which is done
first. -/
def extendBack : List (Bool × OffsetCall) :=
  [(false, .read 4194304#32), (true, .write 8384512#32 true), (false, .read 0#32),
    (true, .read 0#32),
    (true, .read 0#32), (true, .read 0#32)]

/-- Then the first thread copies 32 second-level maps, one with a block, into an array for 17. -/
theorem not_grows_extendBack :
    ∃ s, (Shared.machine .small).run extendBack .onePage = some s ∧ s.pager.size = 2048 ∧
      s.pager.lookup 2047 = some (0, 0) ∧ s.phase false = .extending (.read 4194304#32) ∧
      Dpager.extendedSize .small s.pager.size 1025 = 1088 ∧
      s.step .small false (.read 0#32) = .error .wild ∧
      ¬ (Shared.machine .small).Always (Shared.Grows .small) extendBack .onePage := by
  refine ⟨_, rfl, rfl, rfl, rfl, rfl, rfl, ?_⟩
  intro h
  obtain ⟨s', r, hstep, -⟩ := (h.last rfl) false (.read 0#32)
  cases hstep

end Mach
