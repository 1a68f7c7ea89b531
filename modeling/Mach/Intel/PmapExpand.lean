import Mach.Intel.Pmap
import Mach.Lib.Runs
import Mach.Lib.Token

/-!
# Growing a page directory

`pmap_enter` needs a page table for its address.  If there is none then it releases the lock of the
pmap and calls `pmap_expand`.  This allocates a page, tests whether somebody else was first, and
puts the page into the directory.  The test is made without the lock, and not again when the lock is
taken.

So the entry of the directory may be set between the test and the store.  Then a page table is lost,
with its mappings.  Nothing is lost if no other thread makes its store for the same entry in between
(`expand_keeps_iff`).  This is a condition on the order of the operations only
(`GrowOp.Undisturbed`).
-/

namespace Mach

open Function Option

/-- A call of `pmap_enter`, for a VM page and a physical page. -/
inductive EnterCall where
  | outside
  /-- At the lock of `pmap_enter`. -/
  | entering (v pa : Nat)
  /-- In `pmap_expand`. -/
  | expanding (v pa : Nat)
deriving DecidableEq

/-- A pmap other than `kernel_pmap`, and the threads that enter mappings. -/
structure Growing (ι : Type) where
  /-- The page of an entry of the directory, with page tables for `nptes` VM pages, or the zeroed
  page of a thread at the lock of `pmap_expand`. -/
  page : Nat ⊕ ι → Option Nat
  /-- The mapping of a VM page, in a page with page tables. -/
  table : Nat → Nat → Option Nat
  allocated : Nat → Bool
  call : ι → EnterCall
  /-- The mappings that were entered and not removed. -/
  mapped : Nat → Option Nat

/-- What the threads do, between acquisitions and releases of the lock. -/
inductive GrowOp (ι : Type) where
  | enter (t : ι) (v pa : Nat)
  /-- `pmap_enter` with the lock.  There may be no `pv_entry` for a new mapping. -/
  | lock (t : ι) (refill : Bool)
  /-- `pmap_expand` up to the lock, with the page of `vm_page_grab`. -/
  | expand (t : ι) (m : Nat)
  /-- `pmap_expand` with the lock. -/
  | store (t : ι)
  /-- `pmap_remove`. -/
  | remove (v : Nat)

namespace GrowOp

variable {ι : Type} [DecidableEq ι]

/-- The VM page of the last `pmap_enter` of a thread.  The last operation comes first. -/
def lastEnter (t : ι) : List (GrowOp ι) → Option Nat
  | [] => none
  | .enter u v _ :: before => if u = t then some v else lastEnter t before
  | _ :: before => lastEnter t before

/-- Since the last test of a thread, no other thread has made its store for an entry of the
directory. -/
def Alone (t : ι) (n : Nat) : List (GrowOp ι) → Prop
  | [] => True
  | .expand u _ :: before => u = t ∨ Alone t n before
  | .store u :: before =>
    (u ≠ t → ∀ w, lastEnter u before = some w → w / nptes ≠ n) ∧ Alone t n before
  | _ :: before => Alone t n before

/-- No other thread makes its store for the same entry of the directory between the test of a thread
and its store. -/
def Undisturbed (before : List (GrowOp ι)) (op : GrowOp ι) : Prop :=
  ∀ t, op = .store t → ∀ v, lastEnter t before = some v → Alone t (v / nptes) before

end GrowOp

namespace Growing

open GrowOp

variable {ι : Type}

/-- An empty directory, and no call. -/
def init : Growing ι :=
  ⟨fun _ => none, fun _ _ => none, fun _ => false, fun _ => .outside, fun _ => none⟩

/-- `pmap_pte`. -/
def pmapPte (v : Nat) (s : Growing ι) : Option Nat := s.page (.inl (v / nptes))

/-- The mapping of a VM page. -/
def lookup (v : Nat) (s : Growing ι) : Option Nat := (s.pmapPte v).bind fun m => s.table m v

/-- An entry of a page table is written. -/
def writePte (m v : Nat) (pa : Option Nat) (s : Growing ι) : Growing ι :=
  { s with table := update s.table m (update (s.table m) v pa), mapped := update s.mapped v pa }

/-- The mappings are in the page tables, and each page is in the directory or a thread has it. -/
structure Kept (s : Growing ι) : Prop where
  mapped : ∀ v, s.lookup v = s.mapped v
  page : ∀ m, s.allocated m = true → ∃ x, s.page x = some m

/-- Each page has one place, and the pages of threads are zeroed. -/
structure Inv (s : Growing ι) : Prop where
  mapped : ∀ v, s.lookup v = s.mapped v
  page : ∀ m, Token (s.allocated m) fun x => s.page x = some m
  zeroed : ∀ t m, s.page (.inr t) = some m → ∀ v, s.table m v = none

theorem inv_init : (init : Growing ι).Inv :=
  ⟨fun _ => rfl, fun _ => ⟨⟨nofun, fun ⟨_, hx⟩ => nomatch hx⟩, fun _ _ hx => nomatch hx⟩, nofun⟩

variable {s : Growing ι} {m v : Nat}

theorem Inv.writePte (h : s.Inv) (hm : s.pmapPte v = some m) (pa : Option Nat) :
    (s.writePte m v pa).Inv where
  mapped w := by
    change ((s.pmapPte w).bind fun k => update s.table m (update (s.table m) v pa) k w) =
      update s.mapped v pa w
    rcases eq_or_ne w v with rfl | hne
    · rw [hm, bind_some, update_self, update_self, update_self]
    rw [update_of_ne hne, ← h.mapped w, lookup]
    refine bind_congr fun k _ => ?_
    simp only [update_apply]
    grind
  page := h.page
  zeroed t k hk w := by
    have hne : k ≠ m := by
      rintro rfl
      cases (h.page k).unique _ _ hm hk
    change update s.table m (update (s.table m) v pa) k w = none
    rw [update_of_ne hne]
    exact h.zeroed t k hk w

variable [DecidableEq ι]

/-- A page for page tables, which is zeroed. -/
def grab (t : ι) (m : Nat) (s : Growing ι) : Growing ι :=
  { s with
      page := update s.page (.inr t) (some m)
      table := update s.table m fun _ => none
      allocated := update s.allocated m true }

/-- The page of a thread goes into the directory. -/
def put (t : ι) (v m : Nat) (s : Growing ι) : Growing ι :=
  { s with page := update (update s.page (.inr t) none) (.inl (v / nptes)) (some m) }

/-- One operation.  `none` if it is not possible. -/
def apply (s : Growing ι) : GrowOp ι → Option (Growing ι)
  | .enter t v pa =>
    if s.call t = .outside then some { s with call := update s.call t (.entering v pa) } else none
  | .lock t refill =>
    match s.call t with
    | .entering v pa =>
      match s.pmapPte v with
      | none => some { s with call := update s.call t (.expanding v pa) }
      | some m =>
        if refill = true ∧ (s.table m v).getD 0 ≠ pa then some (s.writePte m v none)
        else some { s.writePte m v (some pa) with call := update s.call t .outside }
    | _ => none
  | .expand t m =>
    match s.call t, s.page (.inr t), s.allocated m with
    | .expanding v pa, none, false =>
      if s.pmapPte v = none then some (s.grab t m)
      else some { s with call := update s.call t (.entering v pa) }
    | _, _, _ => none
  | .store t =>
    match s.call t, s.page (.inr t) with
    | .expanding v pa, some m => some { s.put t v m with call := update s.call t (.entering v pa) }
    | _, _ => none
  | .remove v =>
    match s.pmapPte v with
    | none => some s
    | some m => some (s.writePte m v none)

/-- The machine of these operations. -/
def step : Machine (GrowOp ι) Unit (Growing ι) := fun op s => (s.apply op).map fun s' => (s', ())

variable {s' : Growing ι} {t : ι}

theorem Inv.grab (h : s.Inv) (hm : s.allocated m = false) (ht : s.page (.inr t) = none) :
    (s.grab t m).Inv where
  mapped w := by
    change ((s.pmapPte w).bind fun k => update s.table m (fun _ => none) k w) = s.mapped w
    rw [← h.mapped w, lookup]
    refine bind_congr fun k hw => ?_
    rw [update_of_ne]
    rintro rfl
    cases hm.symm.trans ((h.page k).flag_of_owns hw)
  page k := by
    change Token (update s.allocated m true k) _
    rcases eq_or_ne k m with rfl | hne
    · rw [update_self]
      exact (hm ▸ h.page k).take (P := (· = some k)) rfl
    · rw [update_of_ne hne]
      exact (h.page k).update (P := (· = some k)) (by simp [ht, hne.symm])
  zeroed u k hk w := by
    simp only [Growing.grab, update_apply] at hk ⊢
    split
    next => rfl
    next hne => exact h.zeroed u k (by grind) w

theorem Inv.put (h : s.Inv) (ht : s.page (.inr t) = some m) (hv : s.pmapPte v = none) :
    (s.put t v m).Inv where
  mapped w := by
    have := h.mapped w
    have := h.zeroed t m ht w
    simp only [lookup, pmapPte, Growing.put, update_apply] at *
    grind
  page k := by
    change Token (s.allocated k) fun x => update (update s.page (.inr t) none) _ (some m) x = some k
    rcases eq_or_ne m k with rfl | hne
    · rw [(h.page m).flag_of_owns ht]
      exact ((h.page m).drop (x := none) (P := (· = some m)) ht nofun).take (P := (· = some m)) rfl
    · refine ((h.page k).update (P := (· = some k)) ?_).update (P := (· = some k)) ?_
      · simp [ht, hne]
      · rw [update_of_ne Sum.inl_ne_inr, ← pmapPte, hv]
        simp [hne]
  zeroed u k hk := by
    have := h.zeroed u k
    simp only [Growing.put, update_apply] at hk ⊢
    grind

theorem pmapPte_put (w : Nat) :
    (s.put t v m).pmapPte w = if w / nptes = v / nptes then some m else s.pmapPte w := by
  simp [pmapPte, Growing.put, update_apply]

theorem Inv.not_kept (h : s.Inv) (ht : s.page (.inr t) = some m) (hv : s.pmapPte v ≠ none) :
    ¬ (s.put t v m).Kept := by
  intro hkept
  obtain ⟨k, hk⟩ := ne_none_iff_exists'.mp hv
  have hne : m ≠ k := by
    rintro rfl
    cases (h.page m).unique _ _ ht hk
  obtain ⟨x, hx⟩ := hkept.page k ((h.page k).flag_of_owns hk)
  have honly (hown : s.page x = some k) := (h.page k).unique x _ hown hk
  simp only [Growing.put, update_apply] at hx
  grind

/-- The store of a thread finds the entry of the directory not set. -/
def Finds (op : GrowOp ι) (s : Growing ι) : Prop :=
  ∀ t v pa, op = .store t → s.call t = .expanding v pa → s.pmapPte v = none

variable {op : GrowOp ι}

theorem Inv.apply (h : s.Inv) (hfinds : Finds op s) (hstep : s.apply op = some s') : s'.Inv := by
  cases op with
  | enter t v pa =>
    obtain ⟨-, hstep⟩ := ite_none_right_eq_some.mp hstep
    cases hstep
    exact { h with }
  | lock t refill =>
    rw [Growing.apply] at hstep
    split at hstep
    next v pa _ =>
      split at hstep
      next =>
        cases hstep
        exact { h with }
      next m hm =>
        split at hstep
        next =>
          cases hstep
          exact h.writePte hm none
        next =>
          cases hstep
          exact { h.writePte hm (some pa) with }
    next => cases hstep
  | expand t m =>
    rw [Growing.apply] at hstep
    split at hstep
    next v pa _ ht hm =>
      split at hstep
      next =>
        cases hstep
        exact h.grab hm ht
      next =>
        cases hstep
        exact { h with }
    next => cases hstep
  | store t =>
    rw [Growing.apply] at hstep
    split at hstep
    next v pa m hcall ht =>
      cases hstep
      exact { h.put ht (hfinds t v pa rfl hcall) with }
    next => cases hstep
  | remove v =>
    rw [Growing.apply] at hstep
    split at hstep
    next =>
      cases hstep
      exact h
    next m hm =>
      cases hstep
      exact h.writePte hm none

/-- Nothing is lost only if a store finds the entry of the directory not set. -/
theorem Inv.finds (h : s.Inv) (hstep : s.apply op = some s') (hs' : s'.Kept) : Finds op s := by
  rintro t v pa rfl hcall
  rw [Growing.apply] at hstep
  split at hstep
  next v' pa' m hcall' ht =>
    cases hstep
    cases hcall.symm.trans hcall'
    by_contra hv
    exact h.not_kept ht hv { hs' with }
  next => cases hstep

/-- What the operations that were made say about the calls. -/
structure Traced (before : List (GrowOp ι)) (s : Growing ι) : Prop where
  entering : ∀ t v pa, s.call t = .entering v pa → lastEnter t before = some v
  expanding : ∀ t v pa, s.call t = .expanding v pa → lastEnter t before = some v
  alone : ∀ t m, s.page (.inr t) = some m →
    ∃ v pa, s.call t = .expanding v pa ∧ (s.pmapPte v = none ↔ Alone t (v / nptes) before)

variable {before : List (GrowOp ι)}

theorem Traced.finds_iff (h : Traced before s) (hstep : s.apply op = some s') :
    Finds op s ↔ Undisturbed before op := by
  cases op with
  | store t =>
    rw [Growing.apply] at hstep
    split at hstep
    next v pa m hcall ht =>
      obtain ⟨v', pa', hcall', halone⟩ := h.alone t m ht
      cases hcall.symm.trans hcall'
      have hlast := h.expanding t v pa hcall
      constructor
      · rintro hfinds _ ⟨⟩ w hw
        cases hlast.symm.trans hw
        exact halone.mp (hfinds t v pa rfl hcall)
      · rintro hop _ w qa ⟨⟩ hw
        cases hcall.symm.trans hw
        exact halone.mpr (hop t rfl v hlast)
    next => cases hstep
  | enter | lock | expand | remove => simp [Finds, Undisturbed]

theorem Traced.apply (h : Traced before s) (hstep : s.apply op = some s') :
    Traced (op :: before) s' := by
  obtain ⟨hentering, hexpanding, halone⟩ := h
  cases op with
  | enter t v pa =>
    obtain ⟨hout, hstep⟩ := ite_none_right_eq_some.mp hstep
    cases hstep
    constructor <;> grind [lastEnter, Alone, update_apply, pmapPte]
  | lock t refill =>
    rw [Growing.apply] at hstep
    split at hstep
    next v pa hcall =>
      have hlast := hentering t v pa hcall
      split at hstep
      next =>
        cases hstep
        constructor <;> grind [lastEnter, Alone, update_apply, pmapPte]
      next m hm =>
        split at hstep
        next =>
          cases hstep
          exact ⟨hentering, hexpanding, halone⟩
        next =>
          cases hstep
          constructor <;> grind [lastEnter, Alone, update_apply, pmapPte, Growing.writePte]
    next => cases hstep
  | expand t m =>
    rw [Growing.apply] at hstep
    split at hstep
    next v pa hcall ht hm =>
      have hlast := hexpanding t v pa hcall
      split at hstep
      next hnone =>
        cases hstep
        refine ⟨hentering, hexpanding, fun u k hk => ?_⟩
        rcases eq_or_ne u t with rfl | hne
        · exact ⟨v, pa, hcall,
            iff_of_true (by simpa [Growing.grab, pmapPte] using hnone) (.inl rfl)⟩
        · obtain ⟨w, qa, hu, hiff⟩ := halone u k (by simpa [Growing.grab, hne] using hk)
          refine ⟨w, qa, hu, ?_⟩
          simpa [Growing.grab, pmapPte, Alone, hne.symm] using hiff
      next =>
        cases hstep
        constructor <;> grind [lastEnter, Alone, update_apply, pmapPte]
    next => cases hstep
  | store t =>
    rw [Growing.apply] at hstep
    split at hstep
    next v pa m hcall ht =>
      have hlast := hexpanding t v pa hcall
      cases hstep
      refine ⟨by grind [lastEnter, update_apply], by grind [lastEnter, update_apply],
        fun u k hk => ?_⟩
      have hne : u ≠ t := by
        rintro rfl
        simp [Growing.put] at hk
      obtain ⟨w, qa, hu, hiff⟩ := halone u k (by simpa [Growing.put, hne] using hk)
      refine ⟨w, qa, (update_of_ne hne ..).trans hu, ?_⟩
      simp only [Alone, hlast, ← hiff]
      change (s.put t v m).pmapPte w = none ↔ _
      rw [pmapPte_put]
      grind
    next => cases hstep
  | remove v =>
    rw [Growing.apply] at hstep
    split at hstep
    next =>
      cases hstep
      exact ⟨hentering, hexpanding, halone⟩
    next m hm =>
      cases hstep
      exact ⟨hentering, hexpanding, halone⟩

theorem apply_of_traced {before' : List (GrowOp ι)} {r : Unit}
    (h : Machine.traced step op (before, s) = some ((before', s'), r)) :
    s.apply op = some s' ∧ before' = op :: before := by
  obtain ⟨_, hstep, heq⟩ := map_eq_some_iff.mp h
  obtain ⟨s₁, hs₁, rfl⟩ := map_eq_some_iff.mp hstep
  cases heq
  exact ⟨hs₁, rfl⟩

/-- In every run, the mappings and the pages are kept if and only if no other thread makes its store
for the same entry of the directory between the test of a thread and its store. -/
theorem expand_keeps_iff (ops : List (GrowOp ι)) : Machine.Always step Kept ops init ↔
      Machine.Steps (Machine.traced step) (fun op x => Undisturbed x.1 op) ops ([], init) := by
  rw [← Machine.always_traced []]
  refine Machine.always_iff_steps (I := fun x => x.2.Inv ∧ Traced x.1 x.2) ?_ ?_ ?_
    ⟨inv_init, by simp [init], by simp [init], by simp [init]⟩
  · rintro x ⟨hinv, -⟩
    exact ⟨hinv.mapped, fun m => (hinv.page m).flag_iff.mp⟩
  · rintro ⟨before, s⟩ op ⟨before', s'⟩ r ⟨hinv, htraced⟩ hop hstep
    obtain ⟨hs', rfl⟩ := apply_of_traced hstep
    exact ⟨hinv.apply ((htraced.finds_iff hs').mpr hop) hs', htraced.apply hs'⟩
  · rintro ⟨before, s⟩ op ⟨before', s'⟩ r ⟨hinv, htraced⟩ hstep hkept
    obtain ⟨hs', rfl⟩ := apply_of_traced hstep
    exact (htraced.finds_iff hs').mp (hinv.finds hs' hkept)

/-- Two threads enter mappings that need the same page table. -/
def raceOps : List (GrowOp Bool) :=
  [.enter true 0 7, .lock true false, .expand true 1, .enter false 1 8, .lock false false,
    .expand false 2, .store true, .lock true false, .store false]

/-- Both find that there is none.  The first one enters its mapping, and the second one puts an
empty page table in the place of the first one. -/
theorem not_kept_race : ∃ s, Machine.run step raceOps init = some s ∧ s.mapped 0 = some 7 ∧
      s.lookup 0 = none ∧ s.pmapPte 0 = some 2 ∧ s.allocated 1 = true ∧ ¬ s.Kept :=
  ⟨_, rfl, rfl, rfl, rfl, rfl, fun h => nomatch h.mapped 0⟩

end Growing

end Mach
