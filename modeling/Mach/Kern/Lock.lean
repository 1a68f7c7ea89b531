import Mach.Lib.Runs
import Mach.Lib.Tally
import Mach.Lib.Token
import Mathlib.Algebra.Order.BigOperators.Group.Finset

/-!
# Sleep locks

The state of a lock is a count of readers and two flags.  `want_write` is set by a writer that holds
the lock or waits for the readers, and `want_upgrade` by a reader that wants to write or writes.
`lock_done` does not know what its caller holds, and finds out from these fields.

Any number of threads use one lock.  A step is what a thread does between taking the interlock and
releasing it.  A thread that waits releases the interlock to spin or to sleep, and then tests again.
What a thread holds is not in the lock.  It is kept in `LockThread` as it follows from the calls
that returned.

Both flags are tokens: each has one owner.  The count has 16 bits, so the lock excludes as long as
there are less than 65536 read locks (`lock_excludes_iff`).
-/

namespace Mach

open Function Option

/-- `struct lock`.  Without recursive locking, `thread` is no thread and `recursion_depth` is 0. -/
structure Lock where
  readCount : BitVec 16
  wantUpgrade : Bool
  wantWrite : Bool
  waiting : Bool
  canSleep : Bool
deriving Repr, DecidableEq

/-- The loop that a thread waits in. -/
inductive LockWait where
  /-- `lock_write`, for `want_write`. -/
  | want
  /-- `lock_write`, for the readers and an upgrade. -/
  | readers
  /-- `lock_read`. -/
  | read
  /-- `lock_read_to_write`. -/
  | upgrade
  /-- `lock_try_read_to_write`. -/
  | tryUpgrade
deriving Repr, DecidableEq

/-- Where a thread is, when it does not have the interlock. -/
inductive LockPhase where
  | outside
  /-- It will test the condition of the loop. -/
  | head (w : LockWait)
  /-- It spins without the interlock. -/
  | spin (w : LockWait)
  | asleep (w : LockWait)
deriving Repr, DecidableEq

/-- The flag by which a thread holds the lock for writing. -/
inductive WriteFlag where
  | write
  | upgrade
deriving Repr, DecidableEq

/-- What a thread holds of the lock, and where it is. -/
structure LockThread where
  reads : Nat
  writes : Option WriteFlag
  phase : LockPhase
deriving Repr, DecidableEq

/-- What the caller of `lock_done` wants to release. -/
inductive LockMode where
  | read
  | write
deriving Repr, DecidableEq

/-- A call by a thread, or what it does next while it waits. -/
inductive LockCall where
  | lockWrite
  | lockRead
  | lockReadToWrite
  | lockTryWrite
  | lockTryRead
  | lockTryReadToWrite
  | lockWriteToRead
  | lockDone (m : LockMode)
  | proceed
deriving Repr, DecidableEq

/-- Whether the call returned, and how. -/
inductive LockResult where
  | granted
  | failed
  | waits
deriving Repr, DecidableEq

namespace Lock

/-- `lock_init`. -/
def init (canSleep : Bool) : Lock := ⟨0, false, false, false, canSleep⟩

/-- The condition of a loop. -/
def busy (l : Lock) : LockWait → Bool
  | .want => l.wantWrite
  | .readers => l.readCount != 0 || l.wantUpgrade
  | .read => l.wantWrite || l.wantUpgrade
  | .upgrade => l.readCount != 0
  | .tryUpgrade => l.readCount != 0

/-- The writer is done. -/
def writeDone (l : Lock) : Lock :=
  if l.wantUpgrade then { l with wantUpgrade := false } else { l with wantWrite := false }

/-- `lock_done`, until the wakeup. -/
def done (l : Lock) : Lock :=
  if l.readCount ≠ 0 then { l with readCount := l.readCount - 1 } else l.writeDone

/-- `lock_write_to_read`, until the wakeup. -/
def writeToRead (l : Lock) : Lock := { l with readCount := l.readCount + 1 }.writeDone

end Lock

/-- The loop that the thread is in. -/
def LockPhase.wait : LockPhase → Option LockWait
  | .outside => none
  | .head w => some w
  | .spin w => some w
  | .asleep w => some w

/-- `thread_wakeup` on the lock. -/
def LockPhase.wakeup : LockPhase → LockPhase
  | .asleep w => .head w
  | p => p

/-- A thread has the lock. -/
def LockThread.Holds (th : LockThread) : LockMode → Prop
  | .read => 0 < th.reads
  | .write => th.writes ≠ none

instance (th : LockThread) : (m : LockMode) → Decidable (th.Holds m)
  | .read => inferInstanceAs (Decidable (0 < th.reads))
  | .write => inferInstanceAs (Decidable (th.writes ≠ none))

/-- A lock and its threads. -/
structure LockSystem (ι : Type) where
  lock : Lock
  thread : ι → LockThread

namespace LockSystem

variable {ι : Type} [DecidableEq ι]

/-- No thread has used the lock. -/
def init (canSleep : Bool) : LockSystem ι := ⟨Lock.init canSleep, fun _ => ⟨0, none, .outside⟩⟩

/-- Change a thread. -/
def set (t : ι) (th : LockThread) (s : LockSystem ι) : LockSystem ι :=
  { s with thread := update s.thread t th }

/-- Change where a thread is. -/
def goto (t : ι) (p : LockPhase) (s : LockSystem ι) : LockSystem ι :=
  s.set t { s.thread t with phase := p }

/-- Wake up all who sleep, if `waiting` is set. -/
def wakeup (s : LockSystem ι) : LockSystem ι :=
  if s.lock.waiting then
    { lock := { s.lock with waiting := false }
      thread := fun t => { s.thread t with phase := (s.thread t).phase.wakeup } }
  else s

/-- `thread_sleep`. -/
def sleep (t : ι) (w : LockWait) (s : LockSystem ι) : LockSystem ι :=
  { s.goto t (.asleep w) with lock := { s.lock with waiting := true } }

/-- The condition of the loop is true.  `spins` says that `lock_wait_time` is not 0.  There is no
result if the loop goes on for ever with the interlock. -/
def pause (spins : Bool) (t : ι) (w : LockWait) (s : LockSystem ι) :
    Option (LockSystem ι × LockResult) :=
  if w = .tryUpgrade then some (s.sleep t w, .waits)
  else if spins then some (s.goto t (.spin w), .waits)
  else if s.lock.canSleep then some (s.sleep t w, .waits)
  else none

/-- The condition of the loop is false. -/
def grant (t : ι) (w : LockWait) (s : LockSystem ι) : LockSystem ι :=
  let th := s.thread t
  match w with
  | .want =>
    { s.set t { th with phase := .head .readers } with lock := { s.lock with wantWrite := true } }
  | .readers => s.set t { th with writes := some .write, phase := .outside }
  | .read =>
    { s.set t { th with reads := th.reads + 1, phase := .outside } with
        lock := { s.lock with readCount := s.lock.readCount + 1 } }
  | .upgrade => s.set t { th with writes := some .upgrade, phase := .outside }
  | .tryUpgrade => s.set t { th with writes := some .upgrade, phase := .outside }

/-- A loop other than the first one of `lock_write`. -/
def lastLoop (spins : Bool) (t : ι) (w : LockWait) (s : LockSystem ι) :
    Option (LockSystem ι × LockResult) :=
  if s.lock.busy w then s.pause spins t w else some (s.grant t w, .granted)

/-- The test of a loop, and what follows until the interlock is released. -/
def loop (spins : Bool) (t : ι) (w : LockWait) (s : LockSystem ι) :
    Option (LockSystem ι × LockResult) :=
  match w with
  | .want =>
    if s.lock.busy .want then s.pause spins t .want
    else (s.grant t .want).lastLoop spins t .readers
  | w => s.lastLoop spins t w

/-- Go on after the interlock was released in a loop. -/
def proceed (spins : Bool) (t : ι) (s : LockSystem ι) : Option (LockSystem ι × LockResult) :=
  match (s.thread t).phase with
  | .outside => none
  | .asleep _ => none
  | .head w => s.loop spins t w
  | .spin w =>
    if s.lock.canSleep && s.lock.busy w then some (s.sleep t w, .waits) else s.loop spins t w

/-- A read lock is given up for an upgrade. -/
def startUpgrade (t : ι) (w : LockWait) (s : LockSystem ι) : LockSystem ι :=
  let th := s.thread t
  { s.set t { th with reads := th.reads - 1, phase := .head w } with
      lock := { s.lock with readCount := s.lock.readCount - 1, wantUpgrade := true } }

/-- A reader is done. -/
def dropRead (t : ι) (s : LockSystem ι) : LockSystem ι :=
  let th := s.thread t
  { s.set t { th with reads := th.reads - 1 } with
      lock := { s.lock with readCount := s.lock.readCount - 1 } }

/-- `lock_read_to_write`. -/
def lockReadToWrite (spins : Bool) (t : ι) (s : LockSystem ι) :
    Option (LockSystem ι × LockResult) :=
  if s.lock.wantUpgrade then some ((s.dropRead t).wakeup, .failed)
  else (s.startUpgrade t .upgrade).loop spins t .upgrade

/-- `lock_try_read_to_write`. -/
def lockTryReadToWrite (spins : Bool) (t : ι) (s : LockSystem ι) :
    Option (LockSystem ι × LockResult) :=
  if s.lock.wantUpgrade then some (s, .failed)
  else (s.startUpgrade t .tryUpgrade).loop spins t .tryUpgrade

/-- `lock_try_write`. -/
def lockTryWrite (t : ι) (s : LockSystem ι) : LockSystem ι × LockResult :=
  if s.lock.wantWrite || s.lock.wantUpgrade || s.lock.readCount != 0 then (s, .failed)
  else
    ({ s.set t { s.thread t with writes := some .write } with
        lock := { s.lock with wantWrite := true } }, .granted)

/-- `lock_try_read`. -/
def lockTryRead (t : ι) (s : LockSystem ι) : LockSystem ι × LockResult :=
  if s.lock.wantWrite || s.lock.wantUpgrade then (s, .failed) else (s.grant t .read, .granted)

/-- `lock_write_to_read`. -/
def lockWriteToRead (t : ι) (s : LockSystem ι) : LockSystem ι :=
  let th := s.thread t
  { s.set t { th with reads := th.reads + 1, writes := none } with
      lock := s.lock.writeToRead }.wakeup

/-- `lock_done`. -/
def lockDone (m : LockMode) (t : ι) (s : LockSystem ι) : LockSystem ι :=
  let th := s.thread t
  let th :=
    match m with
    | .read => { th with reads := th.reads - 1 }
    | .write => { th with writes := none }
  { s.set t th with lock := s.lock.done }.wakeup

/-- One step of a thread.  It calls a function only when the last one has returned, and releases or
upgrades only what it holds. -/
def step (spins : Bool) : Machine (ι × LockCall) LockResult (LockSystem ι)
  | (t, call), s =>
    let th := s.thread t
    if th.phase ≠ .outside ∧ call ≠ .proceed then none
    else
      match call with
      | .lockWrite => (s.goto t (.head .want)).loop spins t .want
      | .lockRead => (s.goto t (.head .read)).loop spins t .read
      | .lockReadToWrite => if th.Holds .read then s.lockReadToWrite spins t else none
      | .lockTryWrite => some (s.lockTryWrite t)
      | .lockTryRead => some (s.lockTryRead t)
      | .lockTryReadToWrite => if th.Holds .read then s.lockTryReadToWrite spins t else none
      | .lockWriteToRead => if th.Holds .write then some (s.lockWriteToRead t, .granted) else none
      | .lockDone m => if th.Holds m then some (s.lockDone m t, .granted) else none
      | .proceed => s.proceed spins t

end LockSystem

/-! ### The invariant -/

/-- The thread has set `want_write`. -/
def LockThread.OwnsWrite (th : LockThread) : Prop :=
  th.writes = some .write ∨ th.phase.wait = some .readers

/-- The thread has set `want_upgrade`. -/
def LockThread.OwnsUpgrade (th : LockThread) : Prop :=
  th.writes = some .upgrade ∨ th.phase.wait = some .upgrade ∨ th.phase.wait = some .tryUpgrade

theorem LockPhase.wait_outside : LockPhase.outside.wait = none := rfl

theorem LockPhase.wait_head (w : LockWait) : (LockPhase.head w).wait = some w := rfl

attribute [local simp] LockThread.OwnsWrite LockThread.OwnsUpgrade LockPhase.wait_outside
  LockPhase.wait_head

@[simp] theorem LockPhase.wait_wakeup (p : LockPhase) : p.wakeup.wait = p.wait := by
  cases p <;> rfl

namespace LockSystem

variable {ι : Type}

section Readers

variable [Fintype ι]

/-- The number of read locks that threads hold. -/
def readers (s : LockSystem ι) : Nat := ∑ t, (s.thread t).reads

theorem reads_le_readers (s : LockSystem ι) (t : ι) : (s.thread t).reads ≤ s.readers :=
  Finset.single_le_sum (f := fun v => (s.thread v).reads) (fun _ _ => Nat.zero_le _)
    (Finset.mem_univ t)

/-- The fields of the lock and what the threads hold. -/
structure Inv (s : LockSystem ι) : Prop where
  count : s.lock.readCount.toNat = s.readers
  write : Token s.lock.wantWrite fun t => (s.thread t).OwnsWrite
  upgrade : Token s.lock.wantUpgrade fun t => (s.thread t).OwnsUpgrade
  /-- Nobody reads while a thread writes. -/
  alone : ∀ t, (s.thread t).writes ≠ none → s.lock.readCount = 0
  /-- A thread that writes by `want_write` has seen the end of the upgrades. -/
  last : ∀ t, (s.thread t).writes = some .write → s.lock.wantUpgrade = false

theorem inv_init (canSleep : Bool) : (init canSleep : LockSystem ι).Inv where
  count := by simp [init, Lock.init, readers]
  write := ⟨by simp [init, Lock.init], by simp [init]⟩
  upgrade := ⟨by simp [init, Lock.init], by simp [init]⟩
  alone _ h := absurd rfl h
  last _ h := nomatch h

variable [DecidableEq ι]

theorem readers_set (s : LockSystem ι) (t : ι) (th : LockThread) :
    (s.thread t).reads + (s.set t th).readers = th.reads + s.readers :=
  Fintype.sum_update_add LockThread.reads s.thread t th

namespace Inv

variable {s : LockSystem ι} {t : ι}

omit [DecidableEq ι] in
theorem not_writes (h : s.Inv) (hwrite : s.lock.wantWrite = false)
    (hupgrade : s.lock.wantUpgrade = false) : (s.thread t).writes = none := by
  cases hw : (s.thread t).writes with
  | none => rfl
  | some flag =>
    cases flag with
    | write => exact absurd (h.write.flag_of_owns (.inl hw)) (hwrite ▸ Bool.false_ne_true)
    | upgrade =>
      exact absurd (h.upgrade.flag_of_owns (.inl hw)) (hupgrade ▸ Bool.false_ne_true)

omit [DecidableEq ι] in
theorem writer_unique (h : s.Inv) {u : ι} (ht : (s.thread t).writes ≠ none)
    (hu : (s.thread u).writes ≠ none) : t = u := by
  have hboth : ∀ v w, (s.thread v).writes = some .write → (s.thread w).writes ≠ some .upgrade := by
    intro v w hv hw
    have hflag := h.upgrade.flag_of_owns (.inl hw)
    rw [h.last v hv] at hflag
    cases hflag
  cases hwt : (s.thread t).writes with
  | none => exact absurd hwt ht
  | some ft =>
    cases hwu : (s.thread u).writes with
    | none => exact absurd hwu hu
    | some fu =>
      cases ft with
      | write =>
        cases fu with
        | write => exact h.write.unique t u (.inl hwt) (.inl hwu)
        | upgrade => exact absurd hwu (hboth t u hwt)
      | upgrade =>
        cases fu with
        | write => exact absurd hwt (hboth u t hwu)
        | upgrade => exact h.upgrade.unique t u (.inl hwt) (.inl hwu)

omit [DecidableEq ι] in
theorem not_writes_of_reads (h : s.Inv) {u : ι} (ht : 0 < (s.thread t).reads) :
    (s.thread u).writes = none := by
  by_contra hu
  have hle := s.reads_le_readers t
  have hcount : 0 = s.readers := by
    rw [← h.count, h.alone u hu]
    rfl
  omega

variable {l : Lock} {w : LockWait} {spins : Bool} {s' : LockSystem ι} {r : LockResult}
  {p : LockPhase}

section

variable (h : s.Inv)
include h

theorem change {th : LockThread}
    (hcount : (s.thread t).reads + l.readCount.toNat = th.reads + s.lock.readCount.toNat)
    (hwrite : Token l.wantWrite fun u => (update s.thread t th u).OwnsWrite)
    (hupgrade : Token l.wantUpgrade fun u => (update s.thread t th u).OwnsUpgrade)
    (halone : th.writes ≠ none → l.readCount = 0)
    (hlast : th.writes = some .write → l.wantUpgrade = false)
    (hothers : (l.readCount = s.lock.readCount ∧ l.wantUpgrade = s.lock.wantUpgrade) ∨
      ∀ u, u ≠ t → (s.thread u).writes = none) :
    { s.set t th with lock := l }.Inv where
  count := by
    have hset := s.readers_set t th
    have hold := h.count
    change l.readCount.toNat = (s.set t th).readers
    omega
  write := hwrite
  upgrade := hupgrade
  alone := by
    apply (forall_update_iff s.thread fun _ (x : LockThread) =>
      x.writes ≠ none → l.readCount = 0).mpr
    refine ⟨halone, fun u hu hw => ?_⟩
    cases hothers with
    | inl hsame => exact hsame.1.trans (h.alone u hw)
    | inr hnone => exact absurd (hnone u hu) hw
  last := by
    apply (forall_update_iff s.thread fun _ (x : LockThread) =>
      x.writes = some .write → l.wantUpgrade = false).mpr
    refine ⟨hlast, fun u hu hw => ?_⟩
    cases hothers with
    | inl hsame => exact hsame.2.trans (h.last u hw)
    | inr hnone => exact absurd (hw.symm.trans (hnone u hu)) (some_ne_none _)

theorem phase (hcount : l.readCount = s.lock.readCount) (hwrite : l.wantWrite = s.lock.wantWrite)
    (hupgrade : l.wantUpgrade = s.lock.wantUpgrade)
    (howns : { s.thread t with phase := p }.OwnsWrite ↔ (s.thread t).OwnsWrite)
    (howns' : { s.thread t with phase := p }.OwnsUpgrade ↔ (s.thread t).OwnsUpgrade) :
    { s.goto t p with lock := l }.Inv := by
  apply h.change
  · rw [hcount]
  · rw [hwrite]
    exact h.write.update howns
  · rw [hupgrade]
    exact h.upgrade.update howns'
  · rw [hcount]
    exact h.alone t
  · rw [hupgrade]
    exact h.last t
  · exact .inl ⟨hcount, hupgrade⟩

theorem stay (hcount : l.readCount = s.lock.readCount) (hwrite : l.wantWrite = s.lock.wantWrite)
    (hupgrade : l.wantUpgrade = s.lock.wantUpgrade) (hp : p.wait = (s.thread t).phase.wait) :
    { s.goto t p with lock := l }.Inv := by
  apply h.phase hcount hwrite hupgrade
  · simp only [LockThread.OwnsWrite, hp]
  · simp only [LockThread.OwnsUpgrade, hp]

theorem sleep (hw : (s.thread t).phase.wait = some w) : (s.sleep t w).Inv :=
  h.stay rfl rfl rfl hw.symm

theorem pause
    (hw : (s.thread t).phase.wait = some w) (hpause : s.pause spins t w = some (s', r)) :
    s'.Inv := by
  rw [LockSystem.pause] at hpause
  split at hpause
  · cases hpause
    exact h.sleep hw
  split at hpause
  · cases hpause
    exact h.stay rfl rfl rfl hw.symm
  split at hpause
  · cases hpause
    exact h.sleep hw
  · cases hpause

omit [DecidableEq ι] in
theorem wakeup : s.wakeup.Inv := by
  rw [LockSystem.wakeup]
  split
  · refine ⟨h.count, h.write.congr ?_, h.upgrade.congr ?_, h.alone, h.last⟩
    · intro t
      simp only [LockThread.OwnsWrite, LockPhase.wait_wakeup]
    · intro t
      simp only [LockThread.OwnsUpgrade, LockPhase.wait_wakeup]
  · exact h

theorem grant_want (hw : (s.thread t).phase.wait = some .want)
    (hbusy : s.lock.wantWrite = false) : (s.grant t .want).Inv := by
  have hwrite := h.write
  rw [hbusy] at hwrite
  apply h.change
  · rfl
  · exact hwrite.take (.inr rfl)
  · apply h.upgrade.update
    simp [hw]
  · exact h.alone t
  · exact h.last t
  · exact .inl ⟨rfl, rfl⟩

theorem grant_readers (hw : (s.thread t).phase.wait = some .readers)
    (hcount : s.lock.readCount = 0) (hbusy : s.lock.wantUpgrade = false) :
    (s.grant t .readers).Inv := by
  have hupgrade := h.upgrade
  rw [hbusy] at hupgrade
  apply h.change
  · rfl
  · apply h.write.update
    simp [hw]
  · rw [hbusy]
    apply hupgrade.update
    exact iff_of_false (by simp) hupgrade.not_owns
  · exact fun _ => hcount
  · exact fun _ => hbusy
  · exact .inl ⟨rfl, rfl⟩

theorem grant_read (hw : (s.thread t).phase.wait = some .read)
    (hwrite : s.lock.wantWrite = false) (hupgrade : s.lock.wantUpgrade = false)
    (hlt : (s.grant t .read).readers < 2 ^ 16) : (s.grant t .read).Inv := by
  have hnone : ∀ u, (s.thread u).writes = none := fun u => h.not_writes hwrite hupgrade
  have hset := s.readers_set t
    { s.thread t with reads := (s.thread t).reads + 1, phase := .outside }
  change (s.set t _).readers < 2 ^ 16 at hlt
  dsimp only at hset
  have hcount := h.count
  have hnext : (s.lock.readCount + 1).toNat = s.lock.readCount.toNat + 1 := by
    bv_omega
  apply h.change
  · dsimp only
    omega
  · apply h.write.update
    simp [hw]
  · apply h.upgrade.update
    simp [hw]
  · exact fun hwrites => absurd (hnone t) hwrites
  · exact h.last t
  · exact .inr fun u _ => hnone u

/-- The readers are gone, and the upgrade is done. -/
theorem grant_upgrade (hw : (s.thread t).phase.wait = some .upgrade ∨
      (s.thread t).phase.wait = some .tryUpgrade)
    (hcount : s.lock.readCount = 0) :
    (s.set t { s.thread t with writes := some .upgrade, phase := .outside }).Inv := by
  have howns : (s.thread t).OwnsUpgrade := .inr hw
  have hflag := h.upgrade.flag_of_owns howns
  have hnot : ¬ (s.thread t).OwnsWrite := by
    rintro (hwrite | hreaders)
    · rw [h.last t hwrite] at hflag
      cases hflag
    · rw [hreaders] at hw
      simp at hw
  apply h.change
  · rfl
  · apply h.write.update
    exact iff_of_false (by simp) hnot
  · apply h.upgrade.update
    exact iff_of_true (.inl rfl) howns
  · exact fun _ => hcount
  · exact nofun
  · exact .inl ⟨rfl, rfl⟩

omit [DecidableEq ι] in
theorem pred_toNat (ht : 0 < (s.thread t).reads) :
    (s.lock.readCount - 1).toNat + 1 = s.lock.readCount.toNat := by
  have hle := s.reads_le_readers t
  have hcount := h.count
  bv_omega

end

variable (h : s.Inv)

include h

theorem startUpgrade (ht : 0 < (s.thread t).reads)
    (hphase : (s.thread t).phase = .outside) (hbusy : s.lock.wantUpgrade = false)
    (hw : w = .upgrade ∨ w = .tryUpgrade) : (s.startUpgrade t w).Inv := by
  have hpred := h.pred_toNat ht
  have hnone : ∀ u, (s.thread u).writes = none := fun u => h.not_writes_of_reads ht
  have hupgrade := h.upgrade
  rw [hbusy] at hupgrade
  apply h.change
  · dsimp only
    omega
  · apply h.write.update
    rcases hw with rfl | rfl <;> simp [hphase]
  · apply hupgrade.take
    rcases hw with rfl | rfl <;> simp
  · exact fun hwrites => absurd (hnone t) hwrites
  · exact fun hwrites => nomatch hwrites.symm.trans (hnone t)
  · exact .inr fun u _ => hnone u

theorem dropRead (ht : 0 < (s.thread t).reads) : (s.dropRead t).Inv := by
  have hpred := h.pred_toNat ht
  have hnone : ∀ u, (s.thread u).writes = none := fun u => h.not_writes_of_reads ht
  apply h.change
  · dsimp only
    omega
  · exact h.write.update .rfl
  · exact h.upgrade.update .rfl
  · exact fun hwrites => absurd (hnone t) hwrites
  · exact fun hwrites => nomatch hwrites.symm.trans (hnone t)
  · exact .inr fun u _ => hnone u

theorem writeDone {c : BitVec 16} {reads : Nat}
    (ht : (s.thread t).writes ≠ none) (hphase : (s.thread t).phase = .outside)
    (hcount : (s.thread t).reads + c.toNat = reads + s.lock.readCount.toNat) :
    { s.set t { s.thread t with reads := reads, writes := none } with
        lock := { s.lock with readCount := c }.writeDone }.Inv := by
  have hothers : ∀ u, u ≠ t → (s.thread u).writes = none := by
    intro u hu
    by_contra hwrites
    exact hu (h.writer_unique hwrites ht)
  cases hwrites : (s.thread t).writes with
  | none => exact absurd hwrites ht
  | some flag =>
    cases flag with
    | write =>
      have hflag := h.last t hwrites
      have hlock : { s.lock with readCount := c }.writeDone =
          { s.lock with readCount := c, wantWrite := false } := by
        simp [Lock.writeDone, hflag]
      rw [hlock]
      apply h.change
      · exact hcount
      · exact h.write.drop (.inl hwrites) (by simp [hphase])
      · apply h.upgrade.update
        simp [hwrites]
      · exact fun hnone => absurd rfl hnone
      · exact nofun
      · exact .inr hothers
    | upgrade =>
      have hflag := h.upgrade.flag_of_owns (.inl hwrites)
      have hlock : { s.lock with readCount := c }.writeDone =
          { s.lock with readCount := c, wantUpgrade := false } := by
        simp [Lock.writeDone, hflag]
      rw [hlock]
      apply h.change
      · exact hcount
      · apply h.write.update
        simp [hwrites]
      · exact h.upgrade.drop (.inl hwrites) (by simp [hphase])
      · exact fun hnone => absurd rfl hnone
      · exact nofun
      · exact .inr hothers

theorem lastLoop (hw : (s.thread t).phase.wait = some w) (hwant : w ≠ .want)
    (hloop : s.lastLoop spins t w = some (s', r)) (hlt : s'.readers < 2 ^ 16) : s'.Inv := by
  rw [LockSystem.lastLoop] at hloop
  split at hloop
  next => exact h.pause hw hloop
  rename_i hbusy
  cases hloop
  rw [Bool.not_eq_true] at hbusy
  cases w with
  | want => exact absurd rfl hwant
  | readers =>
    simp only [Lock.busy, Bool.or_eq_false_iff, bne_eq_false_iff_eq] at hbusy
    exact h.grant_readers hw hbusy.1 hbusy.2
  | read =>
    simp only [Lock.busy, Bool.or_eq_false_iff] at hbusy
    exact h.grant_read hw hbusy.1 hbusy.2 hlt
  | upgrade => exact h.grant_upgrade (.inl hw) (by simpa [Lock.busy] using hbusy)
  | tryUpgrade => exact h.grant_upgrade (.inr hw) (by simpa [Lock.busy] using hbusy)

theorem loop (hw : (s.thread t).phase.wait = some w)
    (hloop : s.loop spins t w = some (s', r)) (hlt : s'.readers < 2 ^ 16) : s'.Inv := by
  cases w with
  | want =>
    rw [loop] at hloop
    split at hloop
    next => exact h.pause hw hloop
    next hbusy =>
      rw [Bool.not_eq_true] at hbusy
      apply (h.grant_want hw hbusy).lastLoop _ _ hloop hlt
      · simp [grant, set]
      · exact nofun
  | _ => exact h.lastLoop hw (fun hne => nomatch hne) hloop hlt

theorem proceed
    (hstep : s.proceed spins t = some (s', r)) (hlt : s'.readers < 2 ^ 16) : s'.Inv := by
  rw [LockSystem.proceed] at hstep
  cases hphase : (s.thread t).phase with
  | outside | asleep w => simp [hphase] at hstep
  | head w =>
    simp only [hphase] at hstep
    exact h.loop (by rw [hphase]; rfl) hstep hlt
  | spin w =>
    have hw : (s.thread t).phase.wait = some w := by rw [hphase]; rfl
    simp only [hphase] at hstep
    split at hstep
    · cases hstep
      exact h.sleep hw
    · exact h.loop hw hstep hlt

variable (hphase : (s.thread t).phase = .outside)
include hphase

theorem enter (hw : w = .want ∨ w = .read) : (s.goto t (.head w)).Inv := by
  apply h.phase rfl rfl rfl
  · rcases hw with rfl | rfl <;> simp [hphase]
  · rcases hw with rfl | rfl <;> simp [hphase]

theorem lockReadToWrite (ht : 0 < (s.thread t).reads)
    (hstep : s.lockReadToWrite spins t = some (s', r)) (hlt : s'.readers < 2 ^ 16) : s'.Inv := by
  rw [LockSystem.lockReadToWrite] at hstep
  split at hstep
  next =>
    cases hstep
    exact (h.dropRead ht).wakeup
  next hbusy =>
    rw [Bool.not_eq_true] at hbusy
    refine (h.startUpgrade ht hphase hbusy (.inl rfl)).loop ?_ hstep hlt
    simp [LockSystem.startUpgrade, set]

theorem lockTryReadToWrite (ht : 0 < (s.thread t).reads)
    (hstep : s.lockTryReadToWrite spins t = some (s', r)) (hlt : s'.readers < 2 ^ 16) : s'.Inv := by
  rw [LockSystem.lockTryReadToWrite] at hstep
  split at hstep
  next =>
    cases hstep
    exact h
  next hbusy =>
    rw [Bool.not_eq_true] at hbusy
    refine (h.startUpgrade ht hphase hbusy (.inr rfl)).loop ?_ hstep hlt
    simp [LockSystem.startUpgrade, set]

/-- `lock_try_write` is `lock_write` when there is nothing to wait for. -/
theorem lockTryWrite : (s.lockTryWrite t).1.Inv := by
  rw [LockSystem.lockTryWrite]
  split
  next => exact h
  next hbusy =>
    simp only [Bool.not_eq_true, Bool.or_eq_false_iff, bne_eq_false_iff_eq] at hbusy
    have hwant := (h.enter hphase (.inl rfl)).grant_want (t := t) (by simp [goto, set]) hbusy.1.1
    have hwrites := hwant.grant_readers (t := t) (by simp [grant, set]) hbusy.2 hbusy.1.2
    simpa [grant, goto, set, hphase] using hwrites

theorem lockTryRead (hlt : (s.lockTryRead t).1.readers < 2 ^ 16) : (s.lockTryRead t).1.Inv := by
  rw [LockSystem.lockTryRead] at hlt ⊢
  split
  next => exact h
  rename_i hbusy
  rw [if_neg hbusy] at hlt
  simp only [Bool.not_eq_true, Bool.or_eq_false_iff] at hbusy
  have hread := (h.enter hphase (.inr rfl)).grant_read (t := t) (by simp [goto, set]) hbusy.1
    hbusy.2 (by simpa [grant, goto, set] using hlt)
  simpa [grant, goto, set] using hread

theorem lockWriteToRead (ht : (s.thread t).writes ≠ none) : (s.lockWriteToRead t).Inv := by
  have hzero := h.alone t ht
  refine (h.writeDone ht hphase ?_).wakeup
  rw [hzero]
  rfl

/-- `lock_done` guesses right. -/
theorem lockDone {m : LockMode} (ht : (s.thread t).Holds m) : (s.lockDone m t).Inv := by
  cases m with
  | read =>
    have hpred := h.pred_toNat ht
    have hne : s.lock.readCount ≠ 0 := by bv_omega
    have hdrop := h.dropRead ht
    rw [LockSystem.lockDone, Lock.done, if_pos hne]
    exact hdrop.wakeup
  | write =>
    have hzero := h.alone t ht
    have hdone := h.writeDone ht hphase rfl
    rw [LockSystem.lockDone, Lock.done, if_neg (not_not.mpr hzero)]
    exact hdone.wakeup

omit hphase

/-- Every step keeps the invariant, as long as the count has room. -/
theorem step {op : ι × LockCall}
    (hlt : s'.readers < 2 ^ 16) (hstep : LockSystem.step spins op s = some (s', r)) : s'.Inv := by
  obtain ⟨t, call⟩ := op
  obtain ⟨houtside, hstep⟩ := ite_none_left_eq_some.mp hstep
  have hphase : call ≠ .proceed → (s.thread t).phase = .outside := by
    intro hcall
    by_contra hne
    exact houtside ⟨hne, hcall⟩
  cases call with
  | proceed => exact h.proceed hstep hlt
  | lockWrite =>
    exact (h.enter (hphase nofun) (.inl rfl)).loop (by simp [goto, set]) hstep hlt
  | lockRead =>
    exact (h.enter (hphase nofun) (.inr rfl)).loop (by simp [goto, set]) hstep hlt
  | lockReadToWrite =>
    obtain ⟨ht, hstep⟩ := ite_none_right_eq_some.mp hstep
    exact h.lockReadToWrite (hphase nofun) ht hstep hlt
  | lockTryWrite =>
    obtain rfl := Machine.state_eq hstep
    exact h.lockTryWrite (hphase nofun)
  | lockTryRead =>
    obtain rfl := Machine.state_eq hstep
    exact h.lockTryRead (hphase nofun) hlt
  | lockTryReadToWrite =>
    obtain ⟨ht, hstep⟩ := ite_none_right_eq_some.mp hstep
    exact h.lockTryReadToWrite (hphase nofun) ht hstep hlt
  | lockWriteToRead =>
    obtain ⟨ht, hstep⟩ := ite_none_right_eq_some.mp hstep
    cases hstep
    exact h.lockWriteToRead (hphase nofun) ht
  | lockDone =>
    obtain ⟨ht, hstep⟩ := ite_none_right_eq_some.mp hstep
    cases hstep
    exact h.lockDone (hphase nofun) ht

end Inv

/-! ### What the lock guarantees -/

/-- The lock after a holder is done. -/
def released (l : Lock) (th : LockThread) : LockMode → Lock
  | .read => { l with readCount := l.readCount - 1 }
  | .write =>
    match th.writes with
    | some .upgrade => { l with wantUpgrade := false }
    | _ => { l with wantWrite := false }

/-- What holds at every moment. -/
structure Excludes (spins : Bool) (s : LockSystem ι) : Prop where
  /-- Some threads read, or one thread writes. -/
  modes : ((∀ t, (s.thread t).writes = none) ∧ s.lock.readCount.toNat = s.readers) ∨
    ∃ t, (s.thread t).writes ≠ none ∧ (∀ u, u ≠ t → (s.thread u).writes = none) ∧
      ∀ u, (s.thread u).reads = 0
  /-- `lock_done` releases what its caller holds. -/
  done : ∀ t m, (s.thread t).Holds m → s.lock.done = released s.lock (s.thread t) m
  /-- One upgrade at most is granted or pending. -/
  upgrade : ∀ t u, (s.thread t).OwnsUpgrade → (s.thread u).OwnsUpgrade → t = u
  /-- A failed `lock_read_to_write` gives the read lock up. -/
  failed : ∀ t s', step spins (t, .lockReadToWrite) s = some (s', .failed) →
    (s'.thread t).reads + 1 = (s.thread t).reads ∧ (s'.thread t).writes = none ∧
      s'.lock.readCount.toNat + 1 = s.lock.readCount.toNat
  /-- A failed `lock_try_read_to_write` does nothing. -/
  tryFailed : ∀ t s', step spins (t, .lockTryReadToWrite) s = some (s', .failed) →
    s' = s ∧ 0 < (s'.thread t).reads

variable {s : LockSystem ι}

omit [Fintype ι] in
theorem lastLoop_ne_failed {s' : LockSystem ι} {spins : Bool} {t : ι} {w : LockWait} :
    s.lastLoop spins t w ≠ some (s', .failed) := by
  intro hloop
  rw [lastLoop, pause] at hloop
  split at hloop
  · split at hloop
    · cases hloop
    · split at hloop
      · cases hloop
      · split at hloop <;> cases hloop
  · cases hloop

namespace Inv

variable {s : LockSystem ι}

theorem excludes (h : s.Inv) (spins : Bool) : s.Excludes spins where
  modes := by
    by_cases hnone : ∀ t, (s.thread t).writes = none
    · exact .inl ⟨hnone, h.count⟩
    obtain ⟨t, ht⟩ := not_forall.mp hnone
    refine .inr ⟨t, ht, ?_, ?_⟩
    · intro u hu
      by_contra hwrites
      exact hu (h.writer_unique hwrites ht)
    · intro u
      by_contra hreads
      exact ht (h.not_writes_of_reads (pos_of_ne_zero hreads))
  done t m ht := by
    cases m with
    | read =>
      have hpred := h.pred_toNat ht
      have hne : s.lock.readCount ≠ 0 := by bv_omega
      rw [Lock.done, if_pos hne]
      rfl
    | write =>
      rw [Lock.done, if_neg (not_not.mpr (h.alone t ht)), released, Lock.writeDone]
      cases hwrites : (s.thread t).writes with
      | none => exact absurd hwrites ht
      | some flag =>
        cases flag with
        | write => rw [h.last t hwrites]; rfl
        | upgrade => rw [h.upgrade.flag_of_owns (.inl hwrites)]; rfl
  upgrade := h.upgrade.unique
  failed t s' hstep := by
    obtain ⟨-, hstep⟩ := ite_none_left_eq_some.mp hstep
    obtain ⟨ht, hstep⟩ := ite_none_right_eq_some.mp hstep
    have hpred := h.pred_toNat ht
    have hnone := h.not_writes_of_reads (u := t) ht
    have hreads : 0 < (s.thread t).reads := ht
    rw [LockSystem.lockReadToWrite] at hstep
    split at hstep
    · cases hstep
      rw [LockSystem.wakeup]
      split <;> simp [LockSystem.dropRead, set, hnone] <;> omega
    · exact absurd hstep lastLoop_ne_failed
  tryFailed t s' hstep := by
    obtain ⟨-, hstep⟩ := ite_none_left_eq_some.mp hstep
    obtain ⟨ht, hstep⟩ := ite_none_right_eq_some.mp hstep
    rw [LockSystem.lockTryReadToWrite] at hstep
    split at hstep
    · cases hstep
      exact ⟨rfl, ht⟩
    · exact absurd hstep lastLoop_ne_failed

end Inv

theorem Excludes.readers_lt {s : LockSystem ι} {spins : Bool} (h : s.Excludes spins) :
    s.readers < 2 ^ 16 := by
  rcases h.modes with ⟨-, hcount⟩ | ⟨-, -, -, hreads⟩
  · omega
  · have hzero : s.readers = 0 := Finset.sum_eq_zero fun u _ => hreads u
    omega

end Readers

/-- Along a run of any number of threads, the lock excludes at every moment if and only if there are
never more read locks than the count can hold. -/
theorem lock_excludes_iff [Fintype ι] [DecidableEq ι] (spins canSleep : Bool)
    (ops : List (ι × LockCall)) :
    Machine.Always (step spins) (Excludes spins) ops (init canSleep) ↔
      Machine.Always (step spins) (fun s => s.readers < 2 ^ 16) ops (init canSleep) := by
  refine Machine.always_iff (I := Inv) ?_ (fun s hs => ?_) (inv_init canSleep)
  · intro s op s' r hs _ hs' hstep
    exact hs.step (hs'.elim Excludes.readers_lt id) hstep
  · have hexcludes := hs.excludes spins
    exact iff_of_true hexcludes hexcludes.readers_lt

/-- Threads have called `lock_read`, one after the other. -/
def afterReads [DecidableEq ι] (ts : List ι) : LockSystem ι where
  lock := { Lock.init true with readCount := BitVec.ofNat 16 ts.length }
  thread t := ⟨if t ∈ ts then 1 else 0, none, .outside⟩

variable {ts : List ι} {t : ι}

theorem afterReads_step [DecidableEq ι] (ht : t ∉ ts) :
    step false (t, .lockRead) (afterReads ts) = some (afterReads (ts ++ [t]), .granted) := by
  have hcount : .ofNat 16 ts.length + 1#16 = .ofNat 16 (ts.length + 1) :=
    (BitVec.ofNat_add ts.length 1).symm
  have hthread : update (afterReads ts).thread t ⟨1, none, .outside⟩ =
      (afterReads (ts ++ [t])).thread := by
    funext u
    rcases eq_or_ne u t with rfl | hne
    · simp [afterReads]
    · simp [afterReads, hne]
  simpa [step, loop, lastLoop, grant, goto, set, Lock.busy, Lock.init, afterReads, ht] using
    And.intro hcount hthread

theorem afterReads_write [DecidableEq ι] (ht : t ∉ ts) (hwraps : BitVec.ofNat 16 ts.length = 0) :
    ∃ s', step false (t, .lockWrite) (afterReads ts) = some (s', .granted) ∧
      s'.thread = update (afterReads ts).thread t ⟨0, some .write, .outside⟩ := by
  simp [step, loop, lastLoop, grant, goto, set, Lock.busy, Lock.init, afterReads, ht, hwraps]

theorem always_afterReads [DecidableEq ι] {P : LockSystem ι → Prop} {rest : List (ι × LockCall)}
    {t us : List ι} (hnodup : (t ++ us).Nodup)
    (h : Machine.Always (step false) P (us.map (·, .lockRead) ++ rest) (afterReads t)) :
    Machine.Always (step false) P rest (afterReads (t ++ us)) := by
  induction us generalizing t with
  | nil => simpa using h
  | cons u us ih =>
    have hu : u ∉ t := by
      intro hmem
      exact (List.disjoint_of_nodup_append hnodup) hmem List.mem_cons_self
    have hsplit : t ++ u :: us = t ++ [u] ++ us := by simp
    rw [hsplit] at hnodup ⊢
    exact ih hnodup (h.2 _ _ (afterReads_step hu))

/-- Some threads read, and then another one wants to write. -/
def readersThenWriter (n : Nat) : List (Fin (n + 1) × LockCall) :=
  ((List.finRange n).map Fin.castSucc).map (·, .lockRead) ++ [(Fin.last n, .lockWrite)]

/-- If the count of readers is 0 again, `lock_write` returns at once. -/
theorem not_excludes_of_wraps {n : Nat} (hpos : 0 < n) (hwraps : BitVec.ofNat 16 n = 0) :
    ¬ Machine.Always (step false) (Excludes false) (readersThenWriter n) (init true) := by
  intro h
  have hnodup : ((List.finRange n).map Fin.castSucc).Nodup :=
    (List.nodup_finRange _).map (Fin.castSucc_injective _)
  have hwrite := always_afterReads (t := []) hnodup h
  have hlast : .last n ∉ [] ++ (List.finRange n).map Fin.castSucc := by
    simp
  obtain ⟨s', hstep, hthread⟩ := afterReads_write hlast (by simpa using hwraps)
  have hmodes := (hwrite.2 s' _ hstep).modes
  rw [hthread] at hmodes
  rcases hmodes with ⟨hnone, -⟩ | ⟨-, -, -, hreads⟩
  · have := hnone (.last n)
    rw [update_self] at this
    cases this
  have hreader : .castSucc ⟨0, hpos⟩ ∈ [] ++ (List.finRange n).map Fin.castSucc :=
    List.mem_map_of_mem (List.mem_finRange _)
  have := hreads (.castSucc ⟨0, hpos⟩)
  rw [update_of_ne (Fin.castSucc_ne_last _)] at this
  cases (if_pos hreader).symm.trans this

theorem not_excludes_manyReaders :
    ¬ Machine.Always (step false) (Excludes false) (readersThenWriter 65536) (init true) :=
  not_excludes_of_wraps (by decide) (by decide)

end LockSystem

end Mach
