import Mach.Vm.MapCopy

/-!
# The locks of `vm_map_copyin`

A call takes the lock of the map it is made on, and in each round that of the share map which an
entry refers to.  `held` follows the locks that a call has taken and not released.  It fails if a
lock is taken twice or released without having been taken.

A round releases what it takes (`Paired`), except for one that moves the reference to an object from
an entry of a share map to the copy (`CopyinLoop.movesShared`).  Such a round leaves the share map
locked.  No later round makes up for this (`copyin_released_iff`).
-/

universe u

namespace Mach

open Function

/-! ## Locks that are held -/

/-- A lock is taken or released. -/
def LockOp.apply : LockOp → (MapId → Bool) → Option (MapId → Bool)
  | .lock m, h => if h m then none else some (update h m true)
  | .unlock m, h => if h m then some (update h m false) else none

/-- The locks that are held after some operations, the latest first. -/
def held : List LockOp → Option (MapId → Bool)
  | [] => some fun _ => false
  | op :: ops => (held ops).bind op.apply

/-- Every lock that was taken has been released, and none was taken twice. -/
def Released (locks : List LockOp) : Prop := held locks = some fun _ => false

/-- The map is locked, and no share map is. -/
def OnlyMain (locks : List LockOp) : Prop :=
  held locks = some (update (fun _ => false) .main true)

/-- A lock was taken twice, or a share map is locked. -/
def Stuck (locks : List LockOp) : Prop :=
  ∀ h, held locks = some h → ∃ n, h (.share n) = true

/-- Locks are taken and released in pairs: a share map is locked, or the map is not locked for
some time. -/
inductive Paired (locks : List LockOp) : List LockOp → Prop
  | refl : Paired locks locks
  | share {locks' : List LockOp} (n : Nat) (hp : Paired locks locks') :
      Paired locks (.unlock (.share n) :: .lock (.share n) :: locks')
  | main {locks' : List LockOp} (hp : Paired locks locks') :
      Paired locks (.lock .main :: .unlock .main :: locks')

variable {locks locks' : List LockOp} {op : LockOp}

theorem onlyMain_lock (h : Released locks) : OnlyMain (.lock .main :: locks) := by
  rw [OnlyMain, held, h]
  rfl

theorem OnlyMain.unlock (h : OnlyMain locks) : Released (.unlock .main :: locks) := by
  rw [Released, held, h, Option.bind_some, LockOp.apply, update_self, if_pos rfl,
    update_idem, update_eq_self]

theorem OnlyMain.paired (h : OnlyMain locks) (hp : Paired locks locks') : OnlyMain locks' := by
  induction hp with
  | refl => exact h
  | share n hp ih =>
    have hfree : update (fun _ => false) MapId.main true (.share n) = false :=
      update_of_ne (by exact fun hx => nomatch hx) ..
    rw [OnlyMain, held, held, ih, Option.bind_some, LockOp.apply, hfree,
      if_neg Bool.false_ne_true, Option.bind_some, LockOp.apply, update_self, if_pos rfl,
      update_idem, update_eq_self_iff.mpr hfree.symm]
  | main hp ih =>
    have ih := onlyMain_lock ih.unlock
    exact ih

theorem held_cons {g : MapId → Bool} (h : held (op :: locks) = some g) :
    ∃ g', held locks = some g' ∧ op.apply g' = some g :=
  Option.bind_eq_some_iff.mp h

theorem Stuck.main (h : Stuck locks) (hop : op = .lock .main ∨ op = .unlock .main) :
    Stuck (op :: locks) := by
  intro g hg
  obtain ⟨g', hg', happly⟩ := held_cons hg
  obtain ⟨n, hn⟩ := h g' hg'
  refine ⟨n, ?_⟩
  rcases hop with rfl | rfl
  · rw [LockOp.apply] at happly
    split at happly
    · cases happly
    · cases happly
      exact hn
  · rw [LockOp.apply] at happly
    split at happly
    · cases happly
      exact hn
    · cases happly

theorem stuck_lockShare (locks : List LockOp) (n : Nat) : Stuck (.lock (.share n) :: locks) := by
  intro g hg
  obtain ⟨g', -, happly⟩ := held_cons hg
  rw [LockOp.apply] at happly
  split at happly
  · cases happly
  · cases happly
    exact ⟨n, update_self ..⟩

theorem Stuck.paired (h : Stuck locks) (hp : Paired locks locks') : Stuck locks' := by
  induction hp with
  | refl => exact h
  | share n hp ih =>
    intro g hg
    obtain ⟨g₁, hg₁, hunlock⟩ := held_cons hg
    obtain ⟨g₀, hg₀, hlock⟩ := held_cons hg₁
    obtain ⟨k, hk⟩ := ih g₀ hg₀
    rw [LockOp.apply] at hlock
    split at hlock
    · cases hlock
    cases hlock
    rename_i hfree
    have hne : k ≠ n := fun hx => hfree (hx ▸ hk)
    have hne : MapId.share k ≠ .share n := fun hx => hne (MapId.share.inj hx)
    rw [LockOp.apply, update_self, if_pos rfl] at hunlock
    cases hunlock
    refine ⟨k, ?_⟩
    rw [update_of_ne hne, update_of_ne hne]
    exact hk
  | main hp ih => exact (ih.main (.inr rfl)).main (.inl rfl)

theorem Stuck.not_released (h : Stuck locks) : ¬ Released locks := by
  intro hr
  obtain ⟨n, hn⟩ := h _ hr
  cases hn

theorem Paired.trans {locks'' : List LockOp} (h : Paired locks locks')
    (h' : Paired locks' locks'') : Paired locks locks'' := by
  induction h' with
  | refl => exact h
  | share n _ ih => exact .share n ih
  | main _ ih => exact .main ih

/-! ## The locks of a round -/

/-- What is left after the copy of an object. -/
def EntryCopied.sys {σ : Type u} : EntryCopied σ → VmSystem σ
  | .success _ _ s => s
  | .again _ s => s
  | .fail _ s => s

/-- What is left after a round that does not panic. -/
def CopyinStep.sys {σ : Type u} : CopyinStep σ → Option (VmSystem σ)
  | .next c => some c.sys
  | .finished c => some c.sys
  | .fail _ c => some c.sys
  | .panicked => none

namespace VmSystem

variable {σ : Type u} {ops : ObjectOps σ} {a : CopyinArgs} {s s' : VmSystem σ}

/-- The locks, with the share map of an entry. -/
def lockedFor (v : VmMapEntry) (locks : List LockOp) : List LockOp :=
  if v.isAMap then .lock (.share v.object) :: locks else locks

theorem lockedFor_congr {u v : VmMapEntry} (h : u.isAMap = v.isAMap ∧ u.object = v.object)
    (locks : List LockOp) : lockedFor u locks = lockedFor v locks := by
  rw [lockedFor, lockedFor, h.1, h.2]

variable {srcEntry srcStart srcSize tmpEntry : Nat}

theorem followShareMap_locks {size : Nat}
    (h : s.followShareMap ops srcEntry srcStart srcSize = some (tmpEntry, size, s')) :
    s'.locks = lockedFor (s'.map.hdr.entry srcEntry) s.locks := by
  simp only [followShareMap] at h
  split at h
  next hmap =>
    have hlocks : lockedFor (s.map.hdr.entry srcEntry) s.locks =
        .lock (.share (s.map.hdr.entry srcEntry).object) :: s.locks := if_pos hmap
    split at h
    next => cases h
    next =>
    split at h
    next => cases h; exact hlocks.symm
    next =>
    split at h
    next =>
      cases h
      have hkeep := s.map.hdr.clipEnd_object srcEntry
      exact (lockedFor_congr (hkeep _) s.locks ▸ hlocks).symm
    next => cases h; exact hlocks.symm
  next hmap =>
    cases h
    exact (if_neg hmap).symm

theorem unlockShare_locks (v : VmMapEntry) (s : VmSystem σ) (h : s.locks = lockedFor v locks) :
    Paired locks (s.unlockShare v).locks := by
  rw [unlockShare]
  rw [lockedFor] at h
  split
  next hmap =>
    rw [if_pos hmap] at h
    change Paired locks (.unlock (.share v.object) :: s.locks)
    rw [h]
    exact .share _ .refl
  next hmap =>
    rw [if_neg hmap] at h
    exact h ▸ .refl

theorem relock_locks (s : VmSystem σ) : (s.relock ops).2.locks = .lock .main :: s.locks := by
  rw [relock]
  split <;> rfl

theorem verifyCopy_locks {old new : VmMapEntry} :
    Paired s.locks (s.verifyCopy ops srcStart srcSize old new).sys.locks := by
  simp only [verifyCopy]
  split
  next => exact .refl
  rename_i srcEntry m _
  generalize hs₁ : clipStart ops srcEntry srcStart { s with map := m } = s₁
  have hlocks : s₁.locks = s.locks := by rw [← hs₁]; rfl
  rw [← hlocks]
  split
  next => exact .refl
  split
  next =>
    simp only [verifyShare]
    split <;> exact .share _ .refl
  next =>
    split
    next => exact .refl
    next => exact .refl

section

variable (h : s.locks = lockedFor (s.map.hdr.entry srcEntry) locks)
include h

theorem copyUnlocked_locks :
    Paired locks (s.copyUnlocked ops a srcEntry tmpEntry srcStart srcSize).sys.locks := by
  have hpaired := unlockShare_locks (s.map.hdr.entry srcEntry)
    { s with store := ops.reference (s.objectEntry srcEntry tmpEntry).object s.store } h
  simp only [copyUnlocked]
  split
  next store _ =>
    change Paired locks (relock ops _).2.locks
    rw [relock_locks]
    exact .main hpaired
  split
  next s₁ hs₁ =>
    have hlocks := congrArg (fun r => r.2.locks) hs₁
    rw [relock_locks] at hlocks
    exact hlocks ▸ .main hpaired
  next s₁ hs₁ =>
    have hlocks := congrArg (fun r => r.2.locks) hs₁
    rw [relock_locks] at hlocks
    have hmain : Paired locks s₁.locks := hlocks ▸ .main hpaired
    exact hmain.trans verifyCopy_locks

/-- The copy of an object releases the lock of the share map, unless the reference to the object
moves. -/
theorem copyEntry_locks (hmoves : ¬ s.movesObject ops a srcEntry tmpEntry) :
    Paired locks (s.copyEntry ops a srcEntry tmpEntry srcStart srcSize).sys.locks := by
  simp only [copyEntry, if_neg hmoves]
  split
  next _ =>
    refine unlockShare_locks _ _ ?_
    split
    next =>
      simp only [setNeedsCopy]
      split <;> exact h
    next => exact h
  next => exact copyUnlocked_locks h

end

end VmSystem

namespace CopyinLoop

variable {σ : Type u} {ops : ObjectOps σ} {a : CopyinArgs} {c : CopyinLoop σ}

/-- The round takes an object from a share map, which stays locked. -/
def movesShared (ops : ObjectOps σ) (a : CopyinArgs) (c : CopyinLoop σ) : Bool :=
  (c.sys.map.hdr.entry c.tmpEntry).protection &&& vmProtRead ≠ 0 &&
    match c.follow ops a with
    | none => false
    | some (tmpEntry, _, s) =>
      (s.map.hdr.entry c.tmpEntry).isAMap && s.movesObject ops a c.tmpEntry tmpEntry

theorem afterCopy_sys (r : EntryCopied σ) : (c.afterCopy a r).sys = some r.sys := by
  cases r with
  | success new srcEntry s =>
    simp only [afterCopy, linkEntry]
    split
    next => rfl
    next => split <;> rfl
  | again srcEntry s | fail => rfl

/-- What a round does to the locks. -/
def RoundLocks (moves : Bool) (locks locks' : List LockOp) : Prop :=
  match moves with
  | true => ∃ n, locks' = .lock (.share n) :: locks
  | false => Paired locks locks'

variable {s : VmSystem σ}

/-- A round releases the locks that it takes, unless it moves the reference to an object of a share
map. -/
theorem step_locks (h : (c.step ops a).sys = some s) :
    RoundLocks (c.movesShared ops a) c.sys.locks s.locks := by
  rw [step] at h
  rw [movesShared]
  split at h
  next hprot =>
    cases h
    rw [decide_eq_false (not_not.mpr hprot), Bool.false_and]
    exact .refl
  rename_i hprot
  rw [decide_eq_true hprot, Bool.true_and]
  cases hfollow : c.follow ops a with
  | none =>
    rw [hfollow] at h
    cases h
  | some r =>
    obtain ⟨tmpEntry, srcSize, s₁⟩ := r
    rw [hfollow] at h
    have hlocks := VmSystem.followShareMap_locks hfollow
    rw [afterCopy_sys] at h
    cases h
    simp only
    cases hmoves : s₁.movesObject ops a c.tmpEntry tmpEntry with
    | false =>
      rw [Bool.and_false]
      exact VmSystem.copyEntry_locks hlocks (by rw [hmoves]; exact Bool.false_ne_true)
    | true =>
      simp only [VmSystem.copyEntry, if_pos hmoves]
      change RoundLocks _ _ s₁.locks
      rw [hlocks, VmSystem.lockedFor]
      cases (s₁.map.hdr.entry c.tmpEntry).isAMap with
      | false => exact .refl
      | true => exact ⟨_, rfl⟩

/-! ## The locks of a call -/

/-- The rounds of the loop. -/
def rounds (ops : ObjectOps σ) (a : CopyinArgs) : Nat → CopyinLoop σ → List (CopyinLoop σ)
  | 0, _ => []
  | fuel + 1, c =>
    match c.step ops a with
    | .next c' => c :: rounds ops a fuel c'
    | _ => [c]

variable {fuel : Nat} {r : CopyinStep σ}

theorem run_stuck (hr : c.run ops a fuel = some r)
    (hs : r.sys = some s) (h : Stuck c.sys.locks) : Stuck s.locks := by
  induction fuel generalizing c with
  | zero => cases hr
  | succ fuel ih =>
    have hstep {s : VmSystem σ} (hs : (c.step ops a).sys = some s) : Stuck s.locks := by
      have hlocks := step_locks hs
      cases hmoves : c.movesShared ops a with
      | true =>
        rw [hmoves] at hlocks
        obtain ⟨n, hn⟩ := hlocks
        exact hn ▸ stuck_lockShare _ n
      | false =>
        rw [hmoves] at hlocks
        exact h.paired hlocks
    rcases run_succ ops a hr with ⟨c', hc, hr⟩ | ⟨hc, -⟩
    · rw [hc] at hstep
      exact ih hr (hstep rfl)
    · rw [hc] at hstep
      exact hstep hs

/-- Some round of the loop moves the reference to an object of a share map. -/
def LeavesLocked (ops : ObjectOps σ) (a : CopyinArgs) (fuel : Nat) (c : CopyinLoop σ) : Prop :=
  ∃ c' ∈ c.rounds ops a fuel, c'.movesShared ops a = true

/-- How the locks of a loop end. -/
inductive LoopLocks (leaves : Prop) (locks : List LockOp) : Prop
  | onlyMain (hl : ¬ leaves) (h : OnlyMain locks) : LoopLocks leaves locks
  | stuck (hl : leaves) (h : Stuck locks) : LoopLocks leaves locks

theorem run_locks (hr : c.run ops a fuel = some r)
    (hs : r.sys = some s) (h : OnlyMain c.sys.locks) :
    LoopLocks (c.LeavesLocked ops a fuel) s.locks := by
  induction fuel generalizing c with
  | zero => cases hr
  | succ fuel ih =>
    cases hmoves : c.movesShared ops a with
    | true =>
      have hmem : c ∈ c.rounds ops a (fuel + 1) := by
        rw [rounds]
        split <;> exact List.mem_cons_self
      refine .stuck ⟨c, hmem, hmoves⟩ ?_
      have hstep {s : VmSystem σ} (hs : (c.step ops a).sys = some s) : Stuck s.locks := by
        have hlocks := step_locks hs
        rw [hmoves] at hlocks
        obtain ⟨n, hn⟩ := hlocks
        exact hn ▸ stuck_lockShare _ n
      rcases run_succ ops a hr with ⟨c', hc, hr⟩ | ⟨hc, -⟩
      · rw [hc] at hstep
        exact run_stuck hr hs (hstep rfl)
      · rw [hc] at hstep
        exact hstep hs
    | false =>
      have hstep {s : VmSystem σ} (hs : (c.step ops a).sys = some s) : OnlyMain s.locks := by
        have hlocks := step_locks hs
        rw [hmoves] at hlocks
        exact h.paired hlocks
      rcases run_succ ops a hr with ⟨c', hc, hr⟩ | ⟨hc, hnext⟩
      · have hrounds : c.rounds ops a (fuel + 1) = c :: c'.rounds ops a fuel := by rw [rounds, hc]
        rw [hc] at hstep
        cases ih hr (hstep rfl) with
        | onlyMain hl h =>
          refine .onlyMain ?_ h
          rintro ⟨c₁, hc₁, hmoves₁⟩
          rw [hrounds, List.mem_cons] at hc₁
          rcases hc₁ with rfl | hc₁
          · rw [hmoves] at hmoves₁
            cases hmoves₁
          · exact hl ⟨c₁, hc₁, hmoves₁⟩
        | stuck hl h =>
          obtain ⟨c₁, hc₁, hmoves₁⟩ := hl
          exact .stuck ⟨c₁, hrounds ▸ List.mem_cons_of_mem c hc₁, hmoves₁⟩ h
      · rw [hc] at hstep
        refine .onlyMain ?_ (hstep hs)
        rintro ⟨c₁, hc₁, hmoves₁⟩
        have hrounds : c.rounds ops a (fuel + 1) = [c] := by
          rw [rounds]
          split
          next c' hc' => exact absurd (hc.symm.trans hc') (hnext c')
          next => rfl
        rw [hrounds, List.mem_singleton] at hc₁
        rw [hc₁, hmoves] at hmoves₁
        cases hmoves₁

end CopyinLoop

namespace VmSystem

variable {σ : Type u} {ops : ObjectOps σ} {a : CopyinArgs}

/-- The loop of a call, if it gets so far. -/
def copyinLoop (ops : ObjectOps σ) (a : CopyinArgs) (s : VmSystem σ) : Option (CopyinLoop σ) :=
  if a.len = 0 ∨ a.srcEnd ≤ a.srcStart ∧ (a.srcEnd < a.srcStart ∨ a.srcStart ≠ 0) then none
  else
    let s := s.lock .main
    match s.map.lookupEntry a.srcStart with
    | (false, _, _) => none
    | (true, tmpEntry, m) =>
      some ⟨{ s with map := m }.clipStart ops tmpEntry a.srcStart, a.copy, a.srcStart, tmpEntry⟩

/-- A call leaves a share map locked: some round of its loop moves the reference to an object of a
share map. -/
def LeavesLocked (ops : ObjectOps σ) (a : CopyinArgs) (fuel : Nat) (s : VmSystem σ) : Prop :=
  ∃ c ∈ s.copyinLoop ops a, c.LeavesLocked ops a fuel

theorem copyinDone_locks {r : Option (CopyinStep σ)} {kr : VmReturn} {copy : Option VmMapHeader}
    {s : VmSystem σ} (h : copyinDone ops a r = .returned kr copy s) :
    ∃ step s', r = some step ∧ step.sys = some s' ∧ s.locks = .unlock .main :: s'.locks := by
  cases r with
  | none => cases h
  | some step =>
    cases step with
    | next c | panicked => cases h
    | fail kr c =>
      cases h
      exact ⟨_, c.sys, rfl, rfl, rfl⟩
    | finished c =>
      cases h
      refine ⟨_, c.sys, rfl, rfl, ?_⟩
      change .unlock .main :: (if a.srcDestroy then _ else c.sys).locks = _
      split
      next => exact congrArg _ (deleteLoop_keeps ..).2
      next => rfl

/-- A call of `vm_map_copyin` that returns has released every lock that it took, and has taken none
twice, exactly if no round of its loop moves the reference to an object of a share map. -/
theorem copyin_released_iff (ops : ObjectOps σ) (a : CopyinArgs) (fuel : Nat) {s s' : VmSystem σ}
    (hlocks : s.locks = []) {kr : VmReturn} {copy : Option VmMapHeader}
    (h : s.copyin ops a fuel = .returned kr copy s') :
    Released s'.locks ↔ ¬ s.LeavesLocked ops a fuel := by
  have hreleased : Released s.locks := by rw [hlocks]; rfl
  simp only [copyin] at h
  simp only [LeavesLocked, copyinLoop]
  split at h
  next hlen =>
    cases h
    rw [if_pos (.inl hlen)]
    exact iff_of_true hreleased (by rintro ⟨c, ⟨⟩, -⟩)
  next hlen =>
  split at h
  next hempty =>
    cases h
    rw [if_pos (.inr hempty)]
    exact iff_of_true hreleased (by rintro ⟨c, ⟨⟩, -⟩)
  rename_i hempty
  rw [if_neg (not_or.mpr ⟨hlen, hempty⟩)]
  have hmain := onlyMain_lock hreleased
  generalize (s.lock .main).map.lookupEntry a.srcStart = r at h ⊢
  obtain ⟨found, tmpEntry, m⟩ := r
  cases found with
  | false =>
    cases h
    exact iff_of_true hmain.unlock (by rintro ⟨c, ⟨⟩, -⟩)
  | true =>
    obtain ⟨step, s₁, hrun, hs₁, hs'⟩ := copyinDone_locks h
    rw [hs']
    cases CopyinLoop.run_locks hrun hs₁ hmain with
    | onlyMain hl h =>
      refine iff_of_true h.unlock ?_
      rintro ⟨c, hc, hleaves⟩
      cases hc
      exact hl hleaves
    | stuck hl h =>
      exact iff_of_false (h.main (.inr rfl)).not_released fun hnot => hnot ⟨_, rfl, hl⟩

/-- Objects that are all temporary. -/
def temporaryOps : ObjectOps Unit where
  temporary _ _ := true
  reference _ s := s
  deallocate _ s := s
  mapCreate _ s := s
  mapReference _ s := s
  mapGone _ _ := false
  entryDelete _ _ s := s
  copySlowly object _ _ _ s := (object, s)
  copyStrategically object offset _ s := (.ok (object, offset, false), s)
  unlocked _ _ s := (none, s)

/-- A map whose first page is shared with other maps. -/
def sharedPage : VmSystem Unit where
  map :=
    { VmMap.onePage with
        hdr := VmMap.onePage.hdr.setEntry 1
          { VmMap.onePage.hdr.entry 1 with isAMap := true, object := 0, offset := 0 } }
  shareMaps _ :=
    { VmMap.onePage with
        isMainMap := false
        hdr := VmMap.onePage.hdr.setEntry 1 { VmMap.onePage.hdr.entry 1 with object := 1 } }
  store := ()
  locks := []

/-- A copy of the page, with the source left as it is. -/
theorem copyin_released_iff_sharedPage :
    ∃ kr copy s', sharedPage.copyin temporaryOps ⟨4095, 0, 4096, false, false⟩ 2 =
        .returned kr copy s' ∧ s'.locks.length = 4 ∧ Released s'.locks := by
  obtain ⟨kr, copy, s', hcopyin, hlocks⟩ :
      ∃ kr copy s', sharedPage.copyin temporaryOps ⟨4095, 0, 4096, false, false⟩ 2 =
        .returned kr copy s' ∧ s'.locks.length = 4 :=
    ⟨_, _, _, rfl, rfl⟩
  refine ⟨kr, copy, s', hcopyin, hlocks, (copyin_released_iff _ _ _ rfl hcopyin).mpr ?_⟩
  rintro ⟨c, hc, c', hc', hmoves⟩
  have hc : some _ = some c := hc
  cases hc
  rcases List.mem_cons.mp hc' with rfl | hc'
  · exact absurd hmoves (by decide)
  · cases hc'

/-- A copy of the page that destroys the source returns with the share map locked. -/
theorem not_released_sharedPage :
    ∃ copy s', sharedPage.copyin temporaryOps ⟨4095, 0, 4096, true, false⟩ 2 =
        .returned .success copy s' ∧
      (held s'.locks).map (fun h => h (.share 0)) = some true ∧ ¬ Released s'.locks := by
  refine ⟨_, _, rfl, rfl, fun h => ?_⟩
  have hheld := congrArg (Option.map fun h => h (.share 0)) h
  cases hheld

end VmSystem

end Mach
