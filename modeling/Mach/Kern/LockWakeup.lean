import Mach.Kern.Lock

/-!
# Wakeups of a sleep lock

A thread that finds the lock busy sets `waiting` and sleeps.  Who changes the lock wakes up all that
sleep, whatever they wait for.  Only an upgrade gives up a read lock without a wakeup.  It sets
`want_upgrade` at the same time, for which all loops wait but those of an upgrade, and there is no
other one.

So nobody sleeps without a reason as long as the count of the readers has room (`lock_awaits`).
-/

namespace Mach

open Function Option Machine

/-- The thread has what the loop waits for. -/
def LockThread.Blocks (th : LockThread) : LockWait → Prop
  | .want => th.OwnsWrite
  | .readers => 0 < th.reads ∨ th.OwnsUpgrade
  | .read => th.OwnsWrite ∨ th.OwnsUpgrade
  | .upgrade => 0 < th.reads
  | .tryUpgrade => 0 < th.reads

theorem Lock.writeDone_waiting (l : Lock) : l.writeDone.waiting = l.waiting := by
  rw [writeDone]
  split <;> rfl

theorem Lock.done_waiting (l : Lock) : l.done.waiting = l.waiting := by
  rw [done]
  split
  · rfl
  · exact l.writeDone_waiting

namespace LockSystem

variable {ι : Type}

/-- A thread that sleeps will be woken up.  The condition of its loop is true because of a thread,
and this thread will find `waiting` set. -/
def Awaits (s : LockSystem ι) : Prop :=
  ∀ t w, (s.thread t).phase = .asleep w →
    s.lock.waiting = true ∧ s.lock.busy w = true ∧ ∃ u, (s.thread u).Blocks w

/-- What the lock says of those who sleep. -/
def Sleeps (s : LockSystem ι) : Prop :=
  ∀ t w, (s.thread t).phase = .asleep w → s.lock.waiting = true ∧ s.lock.busy w = true

namespace Inv

variable [Fintype ι] {s : LockSystem ι} {w : LockWait} (h : s.Inv)

include h

theorem exists_reads (hne : s.lock.readCount ≠ 0) : ∃ t, 0 < (s.thread t).reads := by
  have hcount := h.count
  have hsum : s.readers ≠ 0 := by bv_omega
  obtain ⟨t, -, ht⟩ := Finset.exists_ne_zero_of_sum_ne_zero hsum
  exact ⟨t, pos_of_ne_zero ht⟩

theorem exists_blocks (hbusy : s.lock.busy w = true) : ∃ t, (s.thread t).Blocks w := by
  cases w with
  | want => exact h.write.flag_iff.mp hbusy
  | readers =>
    rcases (Bool.or_eq_true ..).mp hbusy with hne | hflag
    · exact (h.exists_reads (by simpa using hne)).imp fun _ => .inl
    · exact (h.upgrade.flag_iff.mp hflag).imp fun _ => .inr
  | read =>
    rcases (Bool.or_eq_true ..).mp hbusy with hflag | hflag
    · exact (h.write.flag_iff.mp hflag).imp fun _ => .inl
    · exact (h.upgrade.flag_iff.mp hflag).imp fun _ => .inr
  | upgrade | tryUpgrade => exact h.exists_reads (by simpa [Lock.busy] using hbusy)

theorem wantUpgrade_of_asleep {t : ι} (ht : (s.thread t).phase = .asleep w)
    (hw : w = .upgrade ∨ w = .tryUpgrade) : s.lock.wantUpgrade = true := by
  apply h.upgrade.flag_of_owns (i := t)
  rcases hw with rfl | rfl <;> simp [LockThread.OwnsUpgrade, ht, LockPhase.wait]

theorem not_asleep (hs : s.Sleeps) (hwrite : s.lock.wantWrite = false)
    (hupgrade : s.lock.wantUpgrade = false) (t : ι) : (s.thread t).phase ≠ .asleep w := by
  intro ht
  obtain ⟨-, hbusy⟩ := hs t w ht
  cases w with
  | want => exact absurd hbusy (by simp [Lock.busy, hwrite])
  | readers =>
    have hflag := h.write.flag_of_owns (i := t) (.inr (by rw [ht]; rfl))
    exact absurd hflag (by simp [hwrite])
  | read => exact absurd hbusy (by simp [Lock.busy, hwrite, hupgrade])
  | upgrade => exact absurd (h.wantUpgrade_of_asleep ht (.inl rfl)) (by simp [hupgrade])
  | tryUpgrade => exact absurd (h.wantUpgrade_of_asleep ht (.inr rfl)) (by simp [hupgrade])

end Inv

section Sleeps

variable {s s' : LockSystem ι} {l : Lock} {th : LockThread} {t : ι} {w : LockWait} {spins : Bool}
  {r : LockResult}

theorem Sleeps.wakeup (hs : ∀ t w, (s.thread t).phase = .asleep w → s.lock.waiting = true) :
    s.wakeup.Sleeps := by
  intro t w ht
  rw [LockSystem.wakeup] at ht
  split at ht
  next =>
    cases hphase : (s.thread t).phase <;> simp [hphase, LockPhase.wakeup] at ht
  next hnot => exact absurd (hs t w ht) hnot

variable [DecidableEq ι]

theorem sleeps_set (hth : ∀ w, th.phase ≠ .asleep w)
    (hl : ∀ u w, (s.thread u).phase = .asleep w → l.waiting = true ∧ l.busy w = true) :
    Sleeps { s.set t th with lock := l } :=
  (forall_update_iff s.thread fun _ (x : LockThread) =>
    ∀ w, x.phase = .asleep w → l.waiting = true ∧ l.busy w = true).mpr
    ⟨fun w hw => absurd hw (hth w), fun u _ => hl u⟩

namespace Sleeps

theorem sleep (hs : s.Sleeps) (hbusy : s.lock.busy w = true) : (s.sleep t w).Sleeps :=
  (forall_update_iff s.thread fun _ (x : LockThread) =>
    ∀ w, x.phase = .asleep w → true = true ∧ s.lock.busy w = true).mpr
    ⟨fun _ hw => ⟨rfl, by cases hw; exact hbusy⟩, fun u _ w hw => ⟨rfl, (hs u w hw).2⟩⟩

theorem pause (hs : s.Sleeps) (hbusy : s.lock.busy w = true)
    (hpause : s.pause spins t w = some (s', r)) : s'.Sleeps := by
  rw [LockSystem.pause] at hpause
  split at hpause
  · cases hpause
    exact hs.sleep hbusy
  split at hpause
  · cases hpause
    exact sleeps_set (by simp) hs
  · obtain ⟨-, hpause⟩ := ite_none_right_eq_some.mp hpause
    cases hpause
    exact hs.sleep hbusy

theorem wakeup_set (hs : s.Sleeps) (hphase : (s.thread t).phase = .outside)
    (hth : th.phase = (s.thread t).phase) (hl : l.waiting = s.lock.waiting) :
    { s.set t th with lock := l }.wakeup.Sleeps := by
  apply Sleeps.wakeup
  apply (forall_update_iff s.thread fun _ (x : LockThread) =>
    ∀ w, x.phase = .asleep w → l.waiting = true).mpr
  rw [hl, hth, hphase]
  exact ⟨nofun, fun u _ w hw => (hs u w hw).1⟩

variable [Fintype ι] (h : s.Inv) (hs : s.Sleeps)

include h hs

theorem lastLoop (hloop : s.lastLoop spins t w = some (s', r)) : s'.Sleeps := by
  rw [LockSystem.lastLoop] at hloop
  split at hloop
  next hbusy => exact hs.pause hbusy hloop
  rename_i hbusy
  cases hloop
  rw [Bool.not_eq_true] at hbusy
  cases w with
  | want =>
    refine sleeps_set (by simp) fun u w hw => ?_
    obtain ⟨hwaiting, hbusy⟩ := hs u w hw
    exact ⟨hwaiting, by cases w <;> simp_all [Lock.busy]⟩
  | read =>
    obtain ⟨hwrite, hupgrade⟩ := (Bool.or_eq_false_iff ..).mp hbusy
    exact sleeps_set (by simp) fun u w hw => absurd hw (h.not_asleep hs hwrite hupgrade u)
  | _ => exact sleeps_set (by simp) hs

theorem loop (hw : (s.thread t).phase.wait = some w) (hloop : s.loop spins t w = some (s', r)) :
    s'.Sleeps := by
  cases w with
  | want =>
    rw [LockSystem.loop] at hloop
    split at hloop
    next hbusy => exact hs.pause hbusy hloop
    next hbusy =>
      have hlast : s.lastLoop spins t .want = some (s.grant t .want, .granted) := if_neg hbusy
      exact (hs.lastLoop h hlast).lastLoop (h.grant_want hw (Bool.not_eq_true _ ▸ hbusy)) hloop
  | _ => exact hs.lastLoop h hloop

theorem proceed (hstep : s.proceed spins t = some (s', r)) : s'.Sleeps := by
  rw [LockSystem.proceed] at hstep
  cases hphase : (s.thread t).phase with
  | outside | asleep w => simp [hphase] at hstep
  | head w =>
    simp only [hphase] at hstep
    exact hs.loop h (by rw [hphase]; rfl) hstep
  | spin w =>
    simp only [hphase] at hstep
    split at hstep
    next hbusy =>
      cases hstep
      exact hs.sleep ((Bool.and_eq_true ..).mp hbusy).2
    next => exact hs.loop h (by rw [hphase]; rfl) hstep

/-- The flag of the upgrade takes the place of the read lock. -/
theorem startUpgrade (hbusy : s.lock.wantUpgrade = false) : (s.startUpgrade t w).Sleeps := by
  refine sleeps_set nofun fun u v hv => ?_
  obtain ⟨hwaiting, hold⟩ := hs u v hv
  refine ⟨hwaiting, ?_⟩
  have hnot (hv' : v = .upgrade ∨ v = .tryUpgrade) : False := by
    have hflag := h.wantUpgrade_of_asleep hv hv'
    simp [hbusy] at hflag
  cases v with
  | want => exact hold
  | readers | read => exact Bool.or_true _
  | upgrade => exact (hnot (.inl rfl)).elim
  | tryUpgrade => exact (hnot (.inr rfl)).elim

theorem step {call : LockCall} (hstep : step spins (t, call) s = some (s', r)) : s'.Sleeps := by
  obtain ⟨houtside, hstep⟩ := ite_none_left_eq_some.mp hstep
  have hphase : call ≠ .proceed → (s.thread t).phase = .outside := by
    intro hcall
    by_contra hne
    exact houtside ⟨hne, hcall⟩
  cases call with
  | proceed => exact hs.proceed h hstep
  | lockWrite =>
    have henter : (s.goto t (.head .want)).Sleeps := sleeps_set (by simp) hs
    exact henter.loop (h.enter (hphase (by simp)) (.inl rfl))
      (by simp [goto, set, LockPhase.wait_head]) hstep
  | lockRead =>
    have henter : (s.goto t (.head .read)).Sleeps := sleeps_set (by simp) hs
    exact henter.loop (h.enter (hphase (by simp)) (.inr rfl))
      (by simp [goto, set, LockPhase.wait_head]) hstep
  | lockReadToWrite =>
    obtain ⟨ht, hstep⟩ := ite_none_right_eq_some.mp hstep
    rw [lockReadToWrite] at hstep
    split at hstep
    next =>
      cases hstep
      exact hs.wakeup_set (hphase (by simp)) rfl rfl
    next hbusy =>
      rw [Bool.not_eq_true] at hbusy
      refine (hs.startUpgrade h hbusy).loop (h.startUpgrade ht (hphase (by simp)) hbusy
        (.inl rfl)) ?_ hstep
      simp [LockSystem.startUpgrade, set, LockPhase.wait_head]
  | lockTryReadToWrite =>
    obtain ⟨ht, hstep⟩ := ite_none_right_eq_some.mp hstep
    rw [lockTryReadToWrite] at hstep
    split at hstep
    next =>
      cases hstep
      exact hs
    next hbusy =>
      rw [Bool.not_eq_true] at hbusy
      refine (hs.startUpgrade h hbusy).loop (h.startUpgrade ht (hphase (by simp)) hbusy
        (.inr rfl)) ?_ hstep
      simp [LockSystem.startUpgrade, set, LockPhase.wait_head]
  | lockTryWrite =>
    obtain rfl := Machine.state_eq hstep
    rw [LockSystem.lockTryWrite]
    split
    next => exact hs
    next hbusy =>
      simp only [Bool.not_eq_true, Bool.or_eq_false_iff] at hbusy
      refine sleeps_set (fun w hw => ?_) fun u w hw => ?_
      · cases (hphase (by simp)).symm.trans hw
      · exact absurd hw (h.not_asleep hs hbusy.1.1 hbusy.1.2 u)
  | lockTryRead =>
    obtain rfl := Machine.state_eq hstep
    rw [LockSystem.lockTryRead]
    split
    next => exact hs
    next hbusy =>
      have hlast : s.lastLoop spins t .read = some (s.grant t .read, .granted) := if_neg hbusy
      exact hs.lastLoop h hlast
  | lockWriteToRead =>
    obtain ⟨-, hstep⟩ := ite_none_right_eq_some.mp hstep
    cases hstep
    exact hs.wakeup_set (hphase (by simp)) rfl (Lock.writeDone_waiting _)
  | lockDone m =>
    obtain ⟨-, hstep⟩ := ite_none_right_eq_some.mp hstep
    cases hstep
    refine hs.wakeup_set (hphase (by simp)) ?_ s.lock.done_waiting
    cases m <;> rfl

end Sleeps

end Sleeps

/-- Along a run of any number of threads, no wakeup is lost if there are never more read locks than
the count can hold. -/
theorem lock_awaits [Fintype ι] [DecidableEq ι] (spins : Bool) (ops : List (ι × LockCall))
    (h : Always (step spins) (fun s => s.readers < 2 ^ 16) ops (init true)) :
    Always (step spins) Awaits ops (init true) := by
  have hinv : Always (step spins) (fun s => s.Inv ∧ s.Sleeps) ops (init true) :=
    h.invariant (fun _ _ _ _ hs _ hlt hstep => ⟨hs.1.step hlt hstep, hs.2.step hs.1 hstep⟩)
      ⟨inv_init true, nofun⟩
  refine hinv.mono fun s hs t w ht => ?_
  obtain ⟨hwaiting, hbusy⟩ := hs.2 t w ht
  exact ⟨hwaiting, hbusy, hs.1.exists_blocks hbusy⟩

/-- A writer, and a reader that sleeps until it is done. -/
theorem lock_awaits_readerSleeps : Always (step false) Awaits
    [(true, .lockWrite), (false, .lockRead), (true, .lockDone .write), (false, .proceed)]
    (init true) :=
  lock_awaits false _ (by decide)

/-- One thread reads without end, and another one wants to upgrade. -/
def readsAndUpgrade (count : BitVec 16) (waiting : Bool) (reads : Nat) (th : LockThread) :
    LockSystem Bool where
  lock := ⟨count, false, false, waiting, true⟩
  thread t := bif t then th else ⟨reads, none, .outside⟩

theorem run_reads (n : Nat) {reads : Nat} {count : BitVec 16} {waiting : Bool} {th : LockThread} :
    run (step false) (List.replicate n (false, .lockRead))
        (readsAndUpgrade count waiting reads th) =
      some (readsAndUpgrade (count + .ofNat 16 n) waiting (reads + n) th) := by
  induction n generalizing count reads with
  | zero => simp [run]
  | succ n ih =>
    have hthread : update (readsAndUpgrade count waiting reads th).thread false
        ⟨reads + 1, none, .outside⟩ = (readsAndUpgrade (count + 1) waiting (reads + 1)
          th).thread := by
      funext t
      cases t <;> rfl
    have hstep : step false (false, .lockRead) (readsAndUpgrade count waiting reads th) =
        some (readsAndUpgrade (count + 1) waiting (reads + 1) th, .granted) := by
      simpa [step, loop, lastLoop, grant, goto, set, Lock.busy, readsAndUpgrade] using hthread
    rw [List.replicate_succ, run, hstep, bind_some, ih, BitVec.add_assoc, Nat.add_assoc,
      Nat.add_comm n 1, BitVec.ofNat_add]
    rfl

theorem run_upgrade : run (step false) [(true, .lockRead), (true, .lockReadToWrite),
        (false, .lockDone .read), (false, .lockDone .read), (false, .lockRead), (true, .proceed)]
        (readsAndUpgrade 1 false 65537 ⟨0, none, .outside⟩) =
      some (readsAndUpgrade 1 true 65536 ⟨0, none, .asleep .upgrade⟩) := by
  refine congrArg some (congrArg (LockSystem.mk _) (funext fun t => ?_))
  cases t <;> rfl

/-- An upgrade waits for a reader.  A thread that has many read locks releases two of them, which
clears the flag of the upgrade, and then reads until the count is 0. -/
def lostWakeup : List (Bool × LockCall) :=
  List.replicate 65537 (false, .lockRead) ++ ([(true, .lockRead), (true, .lockReadToWrite),
    (false, .lockDone .read), (false, .lockDone .read), (false, .lockRead), (true, .proceed)] ++
      List.replicate 65535 (false, .lockRead))

theorem not_awaits_lostWakeup : ¬ Always (step false) Awaits lostWakeup (init true) := by
  intro h
  have hinit : (init true : LockSystem Bool) = readsAndUpgrade 0 false 0 ⟨0, none, .outside⟩ := by
    simp [init, readsAndUpgrade, Lock.init]
  have hrun : run (step false) lostWakeup (init true) =
      some (readsAndUpgrade 0 true 131071 ⟨0, none, .asleep .upgrade⟩) := by
    have hreads : run (step false) (List.replicate 65537 (false, .lockRead)) (init true) =
        some (readsAndUpgrade 1 false 65537 ⟨0, none, .outside⟩) := hinit ▸ run_reads 65537
    rw [lostWakeup, run_append, hreads, bind_some, run_append, run_upgrade, bind_some, run_reads]
    rfl
  exact absurd (h.last hrun true .upgrade rfl).2.1 (by decide)

end LockSystem

end Mach
