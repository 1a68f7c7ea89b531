import Mach.Intel.Shootdown
import Mach.Lib.Token
import Mathlib.Data.Fintype.Basic

/-!
# When the shootdown works

The argument has three parts.  A processor whose TLB has a stale translation of a pmap that it uses
has an item for it in its update list, and it cannot get below `splvm` without the update interrupt
(`Cpu.Ok`).  While a pmap is locked for an update, a processor that was signalled cannot get there
without reading the lock (`Cpu.Held`).  And the list of a processor that was signalled has the item
until it is processed, after which the TLB stays empty until the processor runs again (`Facing`).

The last part fails in the time between the item is queued and the interrupt is sent.  A processor
that already was past the locks in `pmap_update_interrupt` processes the item and runs again, and no
interrupt is pending.  What it caches then is not flushed, because the interrupt that follows finds
an empty list (`not_sound_drained`).  It also fails if a processor is active while it is idle.
`Cpus.Orderly` excludes both.
-/

namespace Mach

open Function CpuPhase Option

namespace CpuPhase

variable {π : Type} {n : Nat}

/-- The pmap is locked by the processor. -/
def Holds (p : π) : CpuPhase π n → Prop
  | .locked q => q = p
  | .signalling q _ => q = p
  | .queued q _ _ => q = p
  | .interrupting q _ _ => q = p
  | .waiting q => q = p
  | .reading q _ => q = p
  | .invalidating q => q = p
  | .updating q => q = p
  | .activated q => q = p
  | .loaded q => q = p
  | .used q => q = p
  | .unlocking q => q = p
  | _ => False

/-- The update of the pmap was put on the list of `x`, if `x` uses the pmap. -/
def Announced (p : π) (x : Fin n) : CpuPhase π n → Prop
  | .signalling q rest => q = p ∧ x ∉ rest
  | .queued q _ rest => q = p ∧ x ∉ rest
  | .interrupting q _ rest => q = p ∧ x ∉ rest
  | .waiting q => q = p
  | .reading q _ => q = p
  | .invalidating q => q = p
  | .updating q => q = p
  | _ => False

/-- And `x` was interrupted or found idle. -/
def Sent (p : π) (x : Fin n) : CpuPhase π n → Prop
  | .signalling q rest => q = p ∧ x ∉ rest
  | .queued q y rest => q = p ∧ x ∉ y :: rest
  | .interrupting q y rest => q = p ∧ x ∉ y :: rest
  | .waiting q => q = p
  | .reading q _ => q = p
  | .invalidating q => q = p
  | .updating q => q = p
  | _ => False

/-- The loop of `PMAP_UPDATE_TLBS` is over. -/
def Past (p : π) : CpuPhase π n → Prop
  | .invalidating q => q = p
  | .updating q => q = p
  | _ => False

/-- The pmap and the processor that is not yet interrupted. -/
def announcing : CpuPhase π n → Option (π × Fin n)
  | .queued p y _ => some (p, y)
  | .interrupting p y _ => some (p, y)
  | _ => none

/-- Phases of an idle processor that does nothing with pmaps. -/
def quiet : CpuPhase π n → Bool
  | .run => true
  | .entered => true
  | .idled => true
  | .waking => true
  | .lowering => true
  | _ => false

/-- In `pmap_update_interrupt`, or on the way out. -/
def handling : CpuPhase π n → Bool
  | .entered => true
  | .looping _ _ => true
  | .spinning _ _ => true
  | .spinningKernel _ _ => true
  | .free _ _ => true
  | .processed _ _ => true
  | .testing _ _ => true
  | .marking => true
  | .lowering => true
  | _ => false

/-- Phases in which `cpus_active` has the processor unless it is idle. -/
def settled : CpuPhase π n → Bool
  | .run => true
  | .entered => true
  | .testing _ _ => true
  | .switching => true
  | .deactivated => true
  | .unlocking _ => true
  | .lowering => true
  | _ => false

/-- `my_pmap`. -/
def my : CpuPhase π n → Option π
  | .looping m _ => some m
  | .spinning m _ => some m
  | .spinningKernel m _ => some m
  | .free m _ => some m
  | .processed m _ => some m
  | .testing m _ => some m
  | _ => none

/-- Phases of a switch in which no user pmap is in use. -/
def between : CpuPhase π n → Bool
  | .deactivated => true
  | .activating _ => true
  | .activated _ => true
  | .loaded _ => true
  | _ => false

/-- Phases above `splvm` in which only a pending interrupt makes the processor see an update. -/
def plain : CpuPhase π n → Bool
  | .raised => true
  | .ready => true
  | .locked _ => true
  | .signalling _ _ => true
  | .queued _ _ _ => true
  | .interrupting _ _ _ => true
  | .waiting _ => true
  | .reading _ _ => true
  | .invalidating _ => true
  | .updating _ => true
  | .idling => true
  | .switching => true
  | .deactivated => true
  | .activating _ => true
  | .activated _ => true
  | .loaded _ => true
  | .used _ => true
  | .unlocking _ => true
  | _ => false

/-- Phases of a pmap operation before the pmap changes. -/
def operating : CpuPhase π n → Bool
  | .ready => true
  | .locked _ => true
  | .signalling _ _ => true
  | .queued _ _ _ => true
  | .interrupting _ _ _ => true
  | .waiting _ => true
  | .reading _ _ => true
  | .invalidating _ => true
  | _ => false

variable {p : π} {x : Fin n} {ph : CpuPhase π n}

theorem Announced.holds (h : ph.Announced p x) : ph.Holds p := by
  cases ph <;> simp_all [Announced, Holds]

theorem Sent.announced (h : ph.Sent p x) : ph.Announced p x := by
  cases ph <;> simp_all [Announced, Sent]

theorem Past.sent (h : ph.Past p) : ph.Sent p x := by
  cases ph <;> simp_all [Past, Sent]

/-- An update that was announced was sent, or is about to be. -/
theorem Announced.sent_or (h : ph.Announced p x) : ph.Sent p x ∨ ph.announcing = some (p, x) := by
  cases ph <;> simp_all [Announced, Sent, announcing] <;> tauto

end CpuPhase

variable {π : Type} {n : Nat}

namespace Cpu

/-- The list has an item that makes the processor flush its TLB. -/
def Armed (kernel : π) (c : Cpu π n) (p : π) : Prop := p ∈ c.updates ∨ kernel ∈ c.updates

/-- The item was processed, and the processor did not run since. -/
def Drained (c : Cpu π n) (p : π) : Prop :=
  c.tlb p = .nothing ∧ c.phase.handling = true ∧ c.idle = false

/-- The processor cannot run, unless it is idle, before it reads the lock of the pmap. -/
def Held (kernel : π) (c : Cpu π n) (p : π) : Prop :=
  match c.phase with
  | .run => c.idle ∨ c.pending
  | .lowering => c.idle ∨ c.pending
  | .waking => c.idle ∨ c.pending
  | .woken => c.needed ∨ c.pending
  | .entered => True
  | .idled => True
  | .looping _ _ => True
  | .spinning _ _ => True
  | .spinningKernel _ _ => p = kernel ∨ c.pending
  | _ => c.pending

/-- The processor cannot run, unless it is idle, before it processes its list. -/
def Due (c : Cpu π n) : Prop :=
  match c.phase with
  | .run => c.idle
  | .lowering => c.idle ∨ c.pending
  | .waking => c.idle ∨ c.pending
  | .woken => True
  | .entered => True
  | .idled => True
  | .looping _ _ => True
  | .spinning _ _ => True
  | .spinningKernel _ _ => True
  | .free _ _ => True
  | _ => c.pending

/-- What holds of a processor by itself. -/
structure Ok (kernel : π) (c : Cpu π n) : Prop where
  inKernel : c.inUse kernel
  current : ∀ p, c.inUse p → p = kernel ∨ p = c.current
  my : ∀ m, c.phase.my = some m → ∀ p, c.inUse p → p = kernel ∨ p = m
  between : c.phase.between → ∀ p, c.inUse p → p = kernel
  active : c.phase.settled → c.active = !c.idle
  idled : c.phase = .idled → c.idle
  needed : c.needed = !c.updates.isEmpty
  updating : ∀ p, c.phase = .updating p → c.inUse p → c.tlb p = .nothing
  loaded : ∀ p, c.phase = .loaded p → c.tlb p = .nothing
  stale : ∀ p, c.inUse p → c.tlb p = .stale → c.Armed kernel p ∧ c.Due

end Cpu

/-- What holds of a processor that uses a pmap, while another one is in this phase. -/
structure Facing (kernel : π) (ph : CpuPhase π n) (x : Fin n) (p : π) (c : Cpu π n) : Prop where
  announced : ph.Announced p x → c.Armed kernel p ∨ c.Drained p
  sent : ph.Sent p x → c.Held kernel p
  past : ph.Past p → c.phase = .run → c.idle
  read : ∀ users, ph = .reading p users → x ∈ users

namespace Cpus

/-- An idle processor does no pmap operation and no switch, and no processor that uses a pmap runs
after it has processed an update of the pmap for which it is not yet interrupted. -/
structure Orderly (kernel : π) (s : Cpus π n) : Prop where
  idle : ∀ x, (s.cpu x).idle → (s.cpu x).phase.quiet
  window : ∀ u x p, (s.cpu u).phase.announcing = some (p, x) → (s.cpu x).inUse p →
    (s.cpu x).phase = .run → (s.cpu x).Armed kernel p

/-- What holds in every state. -/
structure Inv (kernel : π) (s : Cpus π n) : Prop where
  ok : ∀ x, (s.cpu x).Ok kernel
  lock : ∀ p, Token (s.lock p) fun x => (s.cpu x).phase.Holds p
  facing : ∀ u x p, u ≠ x → (s.cpu x).inUse p → Facing kernel (s.cpu u).phase x p (s.cpu x)

end Cpus

/-! ### Steps of one processor -/

variable {kernel p : π} {x : Fin n} {c c' : Cpu π n} {lock : π → Bool} {updates : List π}

attribute [local simp] CpuPhase.quiet CpuPhase.handling CpuPhase.settled CpuPhase.my
  CpuPhase.between CpuPhase.plain CpuPhase.operating CpuPhase.Holds Cpu.Drained Cpu.Held Cpu.Due

/-- A step after which the list, the TLB and the pmaps of the processor are as they were. -/
structure Cpu.Moves (kernel : π) (lock : π → Bool) (c : Cpu π n) (active idle pending : Bool)
    (ph : CpuPhase π n) : Prop where
  my : ∀ m, ph.my = some m → c.phase.my = some m ∨ m = c.myPmap kernel
  between : ph.between → c.phase.between
  settled : ph.settled → active = !idle
  idled : ph = .idled → idle
  updating : ∀ p, ph ≠ .updating p
  loaded : ∀ p, ph ≠ .loaded p
  due : c.needed → c.Due →
    { c with active := active, idle := idle, pending := pending, phase := ph }.Due
  handling : c.phase.handling → c.idle = false → ph.handling ∧ idle = false
  /-- The pmap is locked, so that the processor does not get past its lock. -/
  held : ∀ p, c.inUse p → lock p → (c.idle → c.needed) → c.Held kernel p →
    { c with active := active, idle := idle, pending := pending, phase := ph }.Held kernel p
  run : ∀ p, (c.phase = .run → c.idle) → c.Held kernel p → ph = .run → idle

namespace Cpu.Ok

theorem needed_of_armed (h : c.Ok kernel) (harmed : c.Armed kernel p) : c.needed = true := by
  rw [h.needed]
  rcases harmed with hmem | hmem
  · simpa using List.ne_nil_of_mem hmem
  · simpa using List.ne_nil_of_mem hmem

theorem change (h : c.Ok kernel) (hinUse : c'.inUse = c.inUse) (hcurrent : c'.current = c.current)
    (hmy : ∀ m, c'.phase.my = some m → c.phase.my = some m ∨ m = c.myPmap kernel)
    (hbetween : c'.phase.between → c.phase.between)
    (hactive : c'.phase.settled → c'.active = !c'.idle) (hidled : c'.phase = .idled → c'.idle)
    (hneeded : c'.needed = !c'.updates.isEmpty)
    (hupdating : ∀ p, c'.phase = .updating p → c.inUse p → c'.tlb p = .nothing)
    (hloaded : ∀ p, c'.phase = .loaded p → c'.tlb p = .nothing)
    (hstale : ∀ p, c.inUse p → c'.tlb p = .stale → c'.Armed kernel p ∧ c'.Due) :
    c'.Ok kernel where
  inKernel := by
    rw [hinUse]
    exact h.inKernel
  current := by
    rw [hinUse, hcurrent]
    exact h.current
  my := by
    rw [hinUse]
    intro m hm p hp
    rcases hmy m hm with hold | rfl
    · exact h.my m hold p hp
    · rcases h.current p hp with rfl | rfl
      · exact .inl rfl
      · exact .inr (if_pos hp).symm
  between := by
    rw [hinUse]
    exact fun hph => h.between (hbetween hph)
  active := hactive
  idled := hidled
  needed := hneeded
  updating := by
    rw [hinUse]
    exact hupdating
  loaded := hloaded
  stale := by
    rw [hinUse]
    exact hstale

theorem move (h : c.Ok kernel) {active idle pending : Bool} {ph : CpuPhase π n}
    (hm : c.Moves kernel lock active idle pending ph) :
    { c with active := active, idle := idle, pending := pending, phase := ph }.Ok kernel := by
  apply h.change
  case hstale =>
    intro p hp hstale
    obtain ⟨harmed, hold⟩ := h.stale p hp hstale
    exact ⟨harmed, hm.due (h.needed_of_armed harmed) hold⟩
  case hupdating => exact fun p hph => absurd hph (hm.updating p)
  case hloaded => exact fun p hph => absurd hph (hm.loaded p)
  case hneeded => exact h.needed
  case hmy => exact hm.my
  case hbetween => exact hm.between
  case hactive => exact hm.settled
  case hidled => exact hm.idled
  all_goals rfl

variable {condition : Bool}

/-- What is stale after a flush was stale before. -/
theorem stale_of_invalidateTlb (hstale : c.invalidateTlb condition p = .stale) :
    c.tlb p = .stale := by
  cases condition with
  | true => cases hstale
  | false => exact hstale

theorem invalidateTlb_nothing (h : c.tlb p = .nothing) :
    c.invalidateTlb condition p = .nothing := by
  cases condition with
  | true => rfl
  | false => exact h

end Cpu.Ok

namespace Facing

variable {ph : CpuPhase π n}

theorem of_not_announced (h : ¬ ph.Announced p x) : Facing kernel ph x p c where
  announced hph := absurd hph h
  sent hph := absurd hph.announced h
  past hph := absurd hph.sent.announced h
  read := by
    rintro users rfl
    exact absurd rfl h

section

variable (h : Facing kernel ph x p c)
include h

theorem goes (htold : c.Armed kernel p ∨ c.Drained p → c'.Armed kernel p ∨ c'.Drained p)
    (hheld : c.Armed kernel p ∨ c.Drained p → c.Held kernel p → c'.Held kernel p)
    (hrun : (c.phase = .run → c.idle) → c.Held kernel p → c'.phase = .run → c'.idle) :
    Facing kernel ph x p c' where
  announced hph := htold (h.announced hph)
  sent hph := hheld (h.announced hph.announced) (h.sent hph)
  past hph := hrun (h.past hph) (h.sent hph.sent)
  read := h.read

theorem move (hok : c.Ok kernel) (hlock : lock p = true)
    (huse : c.inUse p) {active idle pending : Bool} {ph' : CpuPhase π n}
    (hm : c.Moves kernel lock active idle pending ph') :
    Facing kernel ph x p
      { c with active := active, idle := idle, pending := pending, phase := ph' } := by
  apply h.goes
  case htold =>
    rintro (harmed | ⟨hnothing, hphase, hidle⟩)
    · exact .inl harmed
    · exact .inr ⟨hnothing, hm.handling hphase hidle⟩
  case hheld =>
    intro htold
    apply hm.held p huse hlock
    intro hidle
    rcases htold with harmed | hdrained
    · exact hok.needed_of_armed harmed
    · exact nomatch hidle.symm.trans hdrained.2.2
  case hrun => exact hm.run p

end

end Facing

/-! ### Update lists -/

theorem addUpdate_ne_nil : addUpdate kernel p updates ≠ [] := by
  rw [addUpdate]
  split
  next hfull =>
    intro hnil
    rw [List.set_eq_nil_iff] at hnil
    rw [hnil] at hfull
    cases hfull
  next => simp

/-- What an update list makes the processor flush, it does with one more item. -/
theorem armed_addUpdate {q : π} (h : (q ∈ updates ∨ q = p) ∨ kernel ∈ updates) :
    q ∈ addUpdate kernel p updates ∨ kernel ∈ addUpdate kernel p updates := by
  rw [addUpdate]
  split
  next hfull => exact .inr (List.mem_set hfull kernel)
  next => simpa using h.imp id .inl

/-! ### Steps of the system -/

section Plain

variable {ph : CpuPhase π n} {ph' : CpuPhase π n}

theorem CpuPhase.plain_of_operating (h : ph.operating) : ph.plain := by
  cases ph <;> first | rfl | cases h

theorem Cpu.held_of_plain (h : c.phase.plain) : c.Held kernel p ↔ c.pending := by
  cases hphase : c.phase <;> simp_all

theorem Cpu.due_of_plain (h : c.phase.plain) : c.Due ↔ c.pending := by
  cases hphase : c.phase <;> simp_all

theorem Cpu.held_of_pending (h : c.pending) : c.Held kernel p := by
  cases hphase : c.phase <;> simp [hphase, h]

theorem Cpu.held_of_idle (h : c.idle) (hquiet : c.phase.quiet) : c.Held kernel p := by
  cases hphase : c.phase <;> simp_all

theorem Cpu.due_of_held (h : c.Held kernel p) (hrun : c.phase = .run → c.idle) : c.Due := by
  cases hphase : c.phase <;> simp_all

theorem Facing.operate (h : Facing kernel ph x p c) (hplain : c.phase.plain) (hplain' : ph'.plain) :
    Facing kernel ph x p { c with phase := ph' } := by
  apply h.goes
  case htold =>
    rintro (harmed | hdrained)
    · exact .inl harmed
    · cases hphase : c.phase <;> simp_all
  case hheld =>
    intro _ hheld
    rw [Cpu.held_of_plain hplain] at hheld
    exact (Cpu.held_of_plain hplain').mpr hheld
  case hrun =>
    rintro - - rfl
    cases hplain'

theorem Facing.phase (h : Facing kernel ph x p c)
    (hannounced : ph'.Announced p x → ph.Announced p x) (hsent : ph'.Sent p x → ph.Sent p x)
    (hpast : ph'.Past p → ph.Past p) (hread : ∀ users, ph' ≠ .reading p users) :
    Facing kernel ph' x p c where
  announced hph := h.announced (hannounced hph)
  sent hph := h.sent (hsent hph)
  past hph := h.past (hpast hph)
  read users hph := absurd hph (hread users)

end Plain

theorem Cpu.Ok.operate (h : c.Ok kernel) {ph : CpuPhase π n} (hplain : c.phase.plain)
    (hop : ph.operating) : Cpu.Ok kernel ({ c with phase := ph } : Cpu π n) := by
  have hplain' := plain_of_operating hop
  apply h.change
  case hstale =>
    intro p hp hstale
    obtain ⟨harmed, hdue⟩ := h.stale p hp hstale
    rw [due_of_plain hplain] at hdue
    exact ⟨harmed, (due_of_plain hplain').mpr hdue⟩
  case hneeded => exact h.needed
  all_goals cases ph <;> simp_all

namespace Cpus.Inv

variable {s s' : Cpus π n} {ph : CpuPhase π n}

section

variable (h : s.Inv kernel)
include h

theorem replace {l : π → Bool} (hok : c'.Ok kernel)
    (hlock : ∀ p, Token (l p) fun y => (update s.cpu x c' y).phase.Holds p)
    (hface : ∀ u p, u ≠ x → c'.inUse p → Facing kernel (s.cpu u).phase x p c')
    (hup : ∀ y p, y ≠ x → (s.cpu y).inUse p → Facing kernel c'.phase y p (s.cpu y)) :
    { s.set x c' with lock := l }.Inv kernel where
  ok := (forall_update_iff s.cpu fun _ c => c.Ok kernel).mpr ⟨hok, fun y _ => h.ok y⟩
  lock := hlock
  facing := by
    intro u y p hne huse
    change (update s.cpu x c' y).inUse p at huse
    change Facing kernel (update s.cpu x c' u).phase y p (update s.cpu x c' y)
    rcases eq_or_ne u x with rfl | hu
    · rw [update_of_ne hne.symm] at huse ⊢
      rw [update_self]
      exact hup y p hne.symm huse
    rw [update_of_ne hu]
    rcases eq_or_ne y x with rfl | hy
    · rw [update_self] at huse ⊢
      exact hface u p hu huse
    · rw [update_of_ne hy] at huse ⊢
      exact h.facing u y p hne huse

theorem set (hok : c'.Ok kernel) (hholds : ∀ p, c'.phase.Holds p ↔ (s.cpu x).phase.Holds p)
    (hface : ∀ u p, u ≠ x → c'.inUse p → Facing kernel (s.cpu u).phase x p c')
    (hup : ∀ y p, y ≠ x → (s.cpu y).inUse p → Facing kernel c'.phase y p (s.cpu y)) :
    (s.set x c').Inv kernel :=
  h.replace hok (fun p => (h.lock p).update (P := fun c : Cpu π n => c.phase.Holds p)
    (hholds p)) hface hup

theorem operate {ph' : CpuPhase π n} (hphase : (s.cpu x).phase = ph') (hplain : ph'.plain)
    (hop : ph.operating) (hholds : ∀ p, ph.Holds p ↔ ph'.Holds p)
    (hup : ∀ y p, y ≠ x → (s.cpu y).inUse p → Facing kernel ph' y p (s.cpu y) →
      Facing kernel ph y p (s.cpu y)) : (s.goto x ph).Inv kernel := by
  subst hphase
  apply h.set ((h.ok x).operate hplain hop) hholds
  case hface =>
    exact fun u p hu huse => (h.facing u x p hu huse).operate hplain (plain_of_operating hop)
  case hup => exact fun y p hy huse => hup y p hy huse (h.facing x y p hy.symm huse)

end

theorem mem_otherUsers {y : Fin n} :
    y ∈ s.otherUsers p x ↔ (s.cpu y).inUse p ∧ y ≠ x := by
  simp [otherUsers]

theorem updateTlbs (h : s.Inv kernel) (hphase : (s.cpu x).phase = .locked p) :
    (s.goto x (Cpus.updateTlbs p (s.otherUsers p x))).Inv kernel := by
  cases husers : s.otherUsers p x with
  | nil =>
    apply h.operate hphase
    case hup =>
      intro y q hy huse _
      apply Facing.of_not_announced
      rintro rfl
      have hmem := mem_otherUsers.mpr ⟨huse, hy⟩
      rw [husers] at hmem
      cases hmem
    all_goals simp [Cpus.updateTlbs]
  | cons =>
    apply h.operate hphase
    case hup =>
      intro y q hy huse _
      apply Facing.of_not_announced
      rintro ⟨rfl, hnot⟩
      rw [← husers] at hnot
      exact hnot (mem_otherUsers.mpr ⟨huse, hy⟩)
    all_goals simp [Cpus.updateTlbs]

/-- An item is put on the list of a processor, or an interrupt is sent to it. -/
theorem notified (h : s.Inv kernel) {y : Fin n} {needed pending : Bool}
    (hneeded : needed = !updates.isEmpty)
    (harmed : ∀ q, (s.cpu y).Armed kernel q → q ∈ updates ∨ kernel ∈ updates)
    (hsome : (s.cpu y).needed → needed) (hpending : (s.cpu y).pending → pending) :
    (s.set y { s.cpu y with needed := needed, updates := updates, pending := pending }).Inv
    kernel := by
  apply h.set
  case hok =>
    apply (h.ok y).change
    case hneeded => exact hneeded
    case hstale =>
      intro q hq hstale
      obtain ⟨hold, hdue⟩ := (h.ok y).stale q hq hstale
      refine ⟨harmed q hold, ?_⟩
      cases hphase : (s.cpu y).phase <;> simp_all <;> tauto
    case hmy => exact fun m hm => .inl hm
    case hactive => exact (h.ok y).active
    case hidled => exact (h.ok y).idled
    case hupdating => exact (h.ok y).updating
    case hloaded => exact (h.ok y).loaded
    case hbetween => exact id
    all_goals rfl
  case hholds => exact fun q => .rfl
  case hface =>
    intro u q hu huse
    apply (h.facing u y q hu huse).goes
    case htold => exact .imp_left (harmed q)
    case hheld => cases hphase : (s.cpu y).phase <;> simp_all <;> tauto
    case hrun => exact fun hpast _ => hpast
  case hup => exact fun z q hz huse => h.facing y z q hz.symm huse

theorem queueUpdate (h : s.Inv kernel) (y : Fin n) : (s.queueUpdate kernel p y).Inv kernel :=
  h.notified (by simp [addUpdate_ne_nil]) (fun _ h => armed_addUpdate (h.imp_left .inl))
    (fun _ => rfl) id

theorem interruptProcessor (h : s.Inv kernel) (y : Fin n) : (s.interruptProcessor y).Inv kernel :=
  h.notified (h.ok y).needed (fun _ => id) id fun _ => rfl

variable {y : Fin n} {rest : List (Fin n)}

theorem cpu_set : (s.set x c).cpu x = c :=
  update_self ..

theorem cpu_set_of_ne (h : y ≠ x) : (s.set x c).cpu y = s.cpu y :=
  update_of_ne h ..

theorem phase_set (h : c.phase = (s.cpu y).phase) :
    ((s.set y c).cpu x).phase = (s.cpu x).phase := by
  rcases eq_or_ne x y with rfl | hne
  · rw [cpu_set, h]
  · rw [cpu_set_of_ne hne]

section

variable (h : s.Inv kernel) {ph : CpuPhase π n}

include h

theorem signal (hphase : (s.cpu x).phase = .signalling p (y :: rest)) :
    ((s.queueUpdate kernel p y).goto x (.queued p y rest)).Inv kernel := by
  have hphase' : ((s.queueUpdate kernel p y).cpu x).phase = .signalling p (y :: rest) := by
    rw [Cpus.queueUpdate, phase_set, hphase]
    rfl
  apply (h.queueUpdate (p := p) y).operate hphase'
  case hup =>
    intro z q hz huse hface
    constructor
    case announced =>
      rintro ⟨rfl, hnot⟩
      rcases eq_or_ne z y with rfl | hzy
      · left
        rw [Cpus.queueUpdate, cpu_set]
        exact armed_addUpdate (.inl (.inr rfl))
      · exact hface.announced ⟨rfl, by simp [hzy, hnot]⟩
    case sent => exact hface.sent
    case past => exact fun hpast => hpast.elim
    case read => exact nofun
  all_goals simp

theorem told
    (hphase : (s.cpu x).phase = .queued p y rest ∨ (s.cpu x).phase = .interrupting p y rest)
    (hheld : (s.cpu y).Held kernel p) : (s.goto x (.signalling p rest)).Inv kernel := by
  rcases hphase with hphase | hphase <;>
  · apply h.operate hphase
    case hup =>
      intro z q hz huse hface
      constructor
      case announced => exact hface.announced
      case sent =>
        rintro ⟨rfl, hnot⟩
        rcases eq_or_ne z y with rfl | hzy
        · exact hheld
        · exact hface.sent ⟨rfl, by simp [hzy, hnot]⟩
      case past => exact fun hpast => hpast.elim
      case read => exact nofun
    all_goals simp

theorem send (hphase : (s.cpu x).phase = .interrupting p y rest) :
    ((s.interruptProcessor y).goto x (.signalling p rest)).Inv kernel := by
  apply (h.interruptProcessor y).told
  · right
    rw [Cpus.interruptProcessor, phase_set, hphase]
    rfl
  · apply Cpu.held_of_pending
    rw [Cpus.interruptProcessor, cpu_set]

theorem leave {users : List (Fin n)} (hphase : (s.cpu x).phase = .reading p users)
    (hactive : (users.any fun y => (s.cpu y).active) = false) :
    (s.goto x (.invalidating p)).Inv kernel := by
  apply h.operate hphase
  case hup =>
    intro z q hz huse hface
    constructor
    case announced => exact hface.announced
    case sent => exact hface.sent
    case past =>
      rintro rfl hrun
      have hnot := List.any_eq_false.mp hactive z (hface.read users rfl)
      rw [(h.ok z).active (by rw [hrun]; rfl)] at hnot
      simpa using hnot
    case read => exact nofun
  all_goals simp

theorem move (hok : c'.Ok kernel) (hholds : ∀ q, ¬ (s.cpu x).phase.Holds q)
    (hholds' : ∀ q, ¬ c'.phase.Holds q)
    (hface : ∀ u q, u ≠ x → c'.inUse q → Facing kernel (s.cpu u).phase x q c') :
    (s.set x c').Inv kernel := by
  apply h.set hok _ hface
  · exact fun y q _ _ => .of_not_announced fun hph => hholds' q hph.holds
  · exact fun q => iff_of_false (hholds' q) (hholds q)

theorem moves {active idle pending : Bool}
    (hm : (s.cpu x).Moves kernel (fun _ => true) active idle pending ph)
    (hholds : ∀ q, ¬ (s.cpu x).phase.Holds q) (hholds' : ∀ q, ¬ ph.Holds q) :
    (s.set x { s.cpu x with active := active, idle := idle, pending := pending, phase := ph }).Inv
      kernel :=
  h.move ((h.ok x).move hm) hholds hholds' fun u q hu huse =>
    (h.facing u x q hu huse).move (h.ok x) rfl huse hm

theorem deliver (hphase : (s.cpu x).phase = .run) :
    (s.set x { s.cpu x with pending := false, phase := .entered }).Inv kernel := by
  have hactive := (h.ok x).active (by rw [hphase]; rfl)
  apply h.moves
  case hm => constructor <;> simp [hactive]
  all_goals simp [hphase]

theorem call {call : CpuCall} (hphase : (s.cpu x).phase = .run)
    (hidle' : (s.cpu x).idle → (call.phase : CpuPhase π n).quiet) :
    (s.goto x call.phase).Inv kernel := by
  have hactive := (h.ok x).active (by rw [hphase]; rfl)
  apply h.moves
  case hm => cases call <;> constructor <;> simp_all [CpuCall.phase]
  case hholds => simp [hphase]
  case hholds' => cases call <;> simp [CpuCall.phase]

theorem switchToKernel (hphase : (s.cpu x).phase = .deactivated) (q : π) :
    (s.set x { s.cpu x with current := q, phase := .lowering }).Inv kernel := by
  have hok := h.ok x
  have hplain : (s.cpu x).phase.plain := by rw [hphase]; rfl
  have huse : ∀ p, (s.cpu x).inUse p → p = kernel := hok.between (by rw [hphase]; rfl)
  apply h.move
  case hok =>
    constructor
    case inKernel => exact hok.inKernel
    case current => exact fun p hp => .inl (huse p hp)
    case active => exact fun _ => hok.active (by rw [hphase]; rfl)
    case needed => exact hok.needed
    case stale =>
      intro p hp hstale
      obtain ⟨harmed, hdue⟩ := hok.stale p hp hstale
      exact ⟨harmed, .inr ((Cpu.due_of_plain hplain).mp hdue)⟩
    all_goals simp
  case hface =>
    intro u p hu hp
    apply (h.facing u x p hu hp).goes
    case htold =>
      rintro (harmed | hdrained)
      · exact .inl harmed
      · exact absurd hdrained.2.1 (by simp [hphase])
    case hheld => exact fun _ hheld => .inr ((Cpu.held_of_plain hplain).mp hheld)
    case hrun => exact nofun
  all_goals simp [hphase]

end

end Cpus.Inv

theorem Cpus.Inv.sound {s : Cpus π n} (h : s.Inv kernel) : s.Sound where
  alone := by
    rintro u x p hne hpast ⟨huse, hactive, hrun⟩
    have hidle : (s.cpu x).idle = true := by
      apply (h.facing u x p hne huse).past _ hrun
      rcases hpast with hphase | hphase
      · rw [hphase]; rfl
      · rw [hphase]; rfl
    rw [(h.ok x).active (by rw [hrun]; rfl), hidle] at hactive
    cases hactive
  fresh := by
    rintro x p ⟨huse, hactive, hrun⟩ hstale
    have hdue := ((h.ok x).stale p huse hstale).2
    rw [Cpu.Due, hrun] at hdue
    rw [(h.ok x).active (by rw [hrun]; rfl), hdue] at hactive
    cases hactive

/-! ### Steps that look at pmaps -/

variable [DecidableEq π]

theorem Cpu.deactivateUser_eq :
    c.deactivateUser kernel = { c with inUse := (c.deactivateUser kernel).inUse } := by
  rw [deactivateUser]
  split <;> rfl

theorem Cpu.inUse_of_deactivateUser (h : (c.deactivateUser kernel).inUse p) : c.inUse p := by
  rw [deactivateUser] at h
  split at h
  next =>
    dsimp only at h
    rcases eq_or_ne p c.current with rfl | hne
    · rw [update_self] at h
      cases h
    · rwa [update_of_ne hne] at h
  next => exact h

/-- The steps of one processor alone. -/
inductive Cpu.Advances (kernel : π) (lock : π → Bool) (c : Cpu π n) : Cpu π n → Prop
  | stay : c.Advances kernel lock c
  | move {active idle pending : Bool} {ph : CpuPhase π n}
      (hm : c.Moves kernel lock active idle pending ph) :
      c.Advances kernel lock
        { c with active := active, idle := idle, pending := pending, phase := ph }
  | invalidate (q : π) (hphase : c.phase = .invalidating q) :
      c.Advances kernel lock { c with tlb := c.invalidateTlb (c.inUse q), phase := .updating q }
  | process (my : π) (nested : Bool) (hphase : c.phase = .free my nested) :
      c.Advances kernel lock { c.processPmapUpdates kernel my with phase := .processed my nested }
  | deactivate (hphase : c.phase = .switching) :
      c.Advances kernel lock { c.deactivateUser kernel with phase := .deactivated }
  | load (q : π) (hphase : c.phase = .activated q) :
      c.Advances kernel lock { c with tlb := c.invalidateTlb true, phase := .loaded q }
  | use (q : π) (hphase : c.phase = .loaded q) :
      c.Advances kernel lock
        { c with inUse := update c.inUse q true, current := q, phase := .used q }
  | resume (hphase : c.phase = .lowering) (hpending : c.pending = false) :
      c.Advances kernel lock { c with phase := .run }

namespace Cpu.Ok

variable {my : π}

/-- A processor uses the pmap of a handler, or the kernel pmap, so that an item for what it uses
makes it flush. -/
theorem flushes (h : c.Ok kernel) (hmy : c.phase.my = some my) (hp : c.inUse p)
    (harmed : c.Armed kernel p) :
    c.invalidateTlb (c.updates.any fun q => q = my || q = kernel) p = .nothing := by
  have hany : (c.updates.any fun q => q = my || q = kernel) = true := by
    rw [List.any_eq_true]
    rcases harmed with hmem | hmem
    · rcases h.my my hmy p hp with rfl | rfl
      · exact ⟨p, hmem, by simp⟩
      · exact ⟨p, hmem, by simp⟩
    · exact ⟨kernel, hmem, by simp⟩
  rw [invalidateTlb, if_pos hany]

variable (h : c.Ok kernel)

include h

/-- `process_pmap_updates` leaves nothing that is stale. -/
theorem processed {nested : Bool} (hphase : c.phase = .free my nested) :
    Ok kernel
      ({ c.processPmapUpdates kernel my with phase := .processed my nested } : Cpu π n) := by
  have hmy : c.phase.my = some my := by rw [hphase]; rfl
  apply h.change
  case hstale =>
    intro p hp hstale
    have hold := stale_of_invalidateTlb hstale
    have hnothing := h.flushes hmy hp (h.stale p hp hold).1
    exact nomatch hstale.symm.trans hnothing
  all_goals simp [hphase, processPmapUpdates]

theorem inUse_deactivateUser : (c.deactivateUser kernel).inUse p = true ↔ p = kernel := by
  rw [deactivateUser]
  split
  next hne =>
    rcases eq_or_ne p c.current with rfl | hp
    · simp [hne]
    dsimp only
    rw [update_of_ne hp]
    refine ⟨fun huse => (h.current p huse).resolve_right hp, ?_⟩
    rintro rfl
    exact h.inKernel
  next heq =>
    rw [not_not] at heq
    refine ⟨fun huse => (h.current p huse).elim id (·.trans heq), ?_⟩
    rintro rfl
    exact h.inKernel

theorem deactivated (hphase : c.phase = .switching) :
    Ok kernel ({ c.deactivateUser kernel with phase := .deactivated } : Cpu π n) := by
  rw [deactivateUser_eq]
  constructor
  case inKernel => exact h.inUse_deactivateUser.mpr rfl
  case current => exact fun p hp => .inl (h.inUse_deactivateUser.mp hp)
  case between => exact fun _ p hp => h.inUse_deactivateUser.mp hp
  case active => exact fun _ => h.active (by rw [hphase]; rfl)
  case needed => exact h.needed
  case stale =>
    intro p hp hstale
    obtain rfl := h.inUse_deactivateUser.mp hp
    have hold := h.stale p h.inKernel hstale
    rw [Due, hphase] at hold
    exact hold
  all_goals simp

theorem activated {q : π} (hphase : c.phase = .loaded q) : Ok kernel
      ({ c with inUse := update c.inUse q true, current := q, phase := .used q } : Cpu π n) := by
  have huse : ∀ p, update c.inUse q true p = true → p = kernel ∨ p = q := by
    intro p hp
    rcases eq_or_ne p q with rfl | hne
    · exact .inr rfl
    · rw [update_of_ne hne] at hp
      exact .inl (h.between (by rw [hphase]; rfl) p hp)
  constructor
  case inKernel =>
    rcases eq_or_ne kernel q with rfl | hne
    · exact update_self ..
    · exact (update_of_ne hne ..).trans h.inKernel
  case current => exact huse
  case needed => exact h.needed
  case stale =>
    intro p hp hstale
    rcases eq_or_ne p q with rfl | hne
    · exact nomatch hstale.symm.trans (h.loaded p hphase)
    · have hold := h.stale p ((update_of_ne hne ..).symm.trans hp) hstale
      rw [Due, hphase] at hold
      exact hold
  all_goals simp

theorem advances (hidle : c.idle → c.phase.quiet)
    (hstep : c.advance kernel lock = some c') : c.Advances kernel lock c' := by
  have hawake : c.phase.quiet = false → c.idle = false := by
    intro hquiet
    cases hi : c.idle with
    | false => rfl
    | true => exact nomatch hquiet.symm.trans (hidle hi)
  have hactive := h.active
  cases hphase : c.phase <;> simp only [advance, hphase, some.injEq, reduceCtorEq] at hstep
  case raised | looping | idling =>
    subst hstep
    refine .move ?_
    constructor <;> simp [hphase]
  case ready | processed | marking | used =>
    subst hstep
    refine .move ?_
    constructor <;> simp [hphase, hawake]
  case invalidating q =>
    subst hstep
    exact .invalidate q hphase
  case entered =>
    split at hstep
    next hi =>
      cases hstep
      refine .move ?_
      constructor <;> simp_all
    next =>
      cases hstep
      refine .move ?_
      constructor <;> simp
  case spinning my nested =>
    split at hstep
    next =>
      cases hstep
      exact .stay
    rename_i hfree
    cases hstep
    refine .move ?_
    constructor
    case held =>
      intro p huse hlock _ _
      -- The pmap of the handler is not the one that is locked.
      refine .inl ((h.my my (by rw [hphase]; rfl) p huse).resolve_right ?_)
      rintro rfl
      exact hfree hlock
    all_goals simp [hphase]
  case spinningKernel my nested =>
    split at hstep
    next =>
      cases hstep
      refine .move ?_
      constructor <;> simp [hphase]
    rename_i hfree
    cases hstep
    refine .move ?_
    constructor
    case held =>
      intro p _ hlock _ hheld
      have hne : p ≠ kernel := by
        rintro rfl
        exact hfree hlock
      simpa [hphase, hne] using hheld
    all_goals simp [hphase]
  case free my nested =>
    subst hstep
    exact .process my nested hphase
  case testing =>
    split at hstep
    next =>
      cases hstep
      refine .move ?_
      constructor <;> simp [hphase]
    next =>
      split at hstep <;>
      · cases hstep
        refine .move ?_
        constructor <;> simp_all
  case idled =>
    subst hstep
    refine .move ?_
    constructor <;> simp [h.idled hphase]
  case waking =>
    subst hstep
    refine .move ?_
    constructor
    case held =>
      simp only [Held, hphase]
      exact fun _ _ _ => .imp_left
    all_goals simp [hphase]
  case woken =>
    split at hstep
    next =>
      cases hstep
      refine .move ?_
      constructor <;> simp
    next hneeded =>
      cases hstep
      refine .move ?_
      constructor <;> simp [hphase, hneeded]
  case switching =>
    subst hstep
    exact .deactivate hphase
  case activated q =>
    subst hstep
    exact .load q hphase
  case loaded q =>
    subst hstep
    exact .use q hphase
  case lowering =>
    split at hstep
    next hpending =>
      cases hstep
      refine .move ?_
      constructor <;> simp_all
    next hpending =>
      cases hstep
      exact .resume hphase (by simpa using hpending)

theorem advance (hstep : c.Advances kernel lock c') : c'.Ok kernel := by
  cases hstep with
  | stay => exact h
  | move hm => exact h.move hm
  | invalidate q hphase =>
    apply h.change
    case hstale =>
      intro p hp hstale
      have hold := h.stale p hp (stale_of_invalidateTlb hstale)
      rw [Due, hphase] at hold
      exact hold
    case hupdating =>
      rintro p ⟨⟩ hp
      simp [invalidateTlb, hp]
    all_goals simp [h.needed]
  | process my nested hphase => exact h.processed hphase
  | deactivate hphase => exact h.deactivated hphase
  | load q hphase => apply h.change <;> simp [hphase, h.needed, invalidateTlb]
  | use q hphase => exact h.activated hphase
  | resume hphase hpending =>
    have hactive := h.active (by rw [hphase]; rfl)
    apply h.change
    case hstale =>
      intro p hp hstale
      have hold := h.stale p hp hstale
      simpa [hphase, hpending, Armed] using hold
    all_goals simp [hactive, h.needed]

end Cpu.Ok

/-- The pmap is locked by the processor that announced the update, so that the others do not get
past its lock. -/
theorem Facing.advance {ph : CpuPhase π n} (h : Facing kernel ph x p c) (hok : c.Ok kernel)
    (hidle : c.idle → c.phase.quiet)
    (hlock : lock p = true) (huse : c.inUse p)
    (hwindow : ph.announcing = some (p, x) → c'.phase = .run → c'.Armed kernel p)
    (hstep : c.Advances kernel lock c') : Facing kernel ph x p c' := by
  cases hstep with
  | stay => exact h
  | move hm => exact h.move hok hlock huse hm
  | process my nested hphase =>
    apply h.goes
    · rintro (harmed | hdrained)
      · have hawake : c.idle = false := by
          cases hi : c.idle with
          | false => rfl
          | true =>
            have hquiet := hidle hi
            simp [hphase] at hquiet
        exact .inr ⟨hok.flushes (by rw [hphase]; rfl) huse harmed, rfl, hawake⟩
      · exact .inr ⟨Cpu.Ok.invalidateTlb_nothing hdrained.1, rfl, hdrained.2.2⟩
    · simp [hphase, Cpu.processPmapUpdates]
    · simp
  | deactivate hphase =>
    rw [Cpu.deactivateUser_eq]
    apply h.goes <;> simp [hphase, Cpu.Armed]
  | invalidate q hphase | load q hphase | use q hphase =>
    apply h.goes <;> simp [hphase, Cpu.Armed]
  | resume hphase hpending =>
    have hidle_of_sent : ph.Sent p x → c.idle = true := by
      intro hsent
      have hheld := h.sent hsent
      simpa [hphase, hpending] using hheld
    constructor
    case announced =>
      intro hph
      rcases h.announced hph with harmed | hdrained
      · exact .inl harmed
      · rcases hph.sent_or with hsent | hannouncing
        · exact nomatch (hidle_of_sent hsent).symm.trans hdrained.2.2
        · exact .inl (hwindow hannouncing rfl)
    case sent => exact fun hsent => .inl (hidle_of_sent hsent)
    case past => exact fun hpast _ => hidle_of_sent hpast.sent
    case read => exact h.read

namespace Cpu

theorem holds_advance (hstep : c.advance kernel lock = some c') :
    c'.phase.Holds p ↔ c.phase.Holds p := by
  rw [advance] at hstep
  split at hstep <;> (try split at hstep) <;> (try split at hstep) <;> cases hstep <;>
    simp_all

/-- The only such step with an update announced is the one at the end of `PMAP_UPDATE_TLBS`. -/
theorem announced_advance (hstep : c.advance kernel lock = some c') (hph : c'.phase.Announced p x) :
    c.phase = .invalidating p ∧ c'.phase = .updating p := by
  rw [advance] at hstep
  split at hstep <;> (try split at hstep) <;> (try split at hstep) <;> cases hstep <;>
    simp_all [CpuPhase.Announced]

theorem advance_ne_some_of_announcing (h : c.phase.announcing = some (p, x)) :
    c.advance kernel lock ≠ some c' := by
  cases hphase : c.phase <;> simp_all [announcing, advance]

/-- A pmap that comes into use was locked. -/
theorem inUse_advance (hstep : c.advance kernel lock = some c') (huse : c'.inUse p) :
    c.inUse p ∨ c.phase.Holds p := by
  rw [advance] at hstep
  split at hstep
  case h_16 =>
    cases hstep
    exact .inl (inUse_of_deactivateUser huse)
  case h_18 q hphase =>
    cases hstep
    rcases eq_or_ne p q with rfl | hne
    · exact .inr (by rw [hphase]; rfl)
    · exact .inl ((update_of_ne hne ..).symm.trans huse)
  all_goals (try split at hstep) <;> (try split at hstep) <;> cases hstep <;> exact .inl huse

end Cpu

namespace Cpus.Inv

variable {s s' : Cpus π n} {ph : CpuPhase π n} {y : Fin n} {q : π}

theorem nothing_changePmap (h : (s.cpu y).tlb q = .nothing) :
    ((s.changePmap p).cpu y).tlb q = .nothing := by
  change update (s.cpu y).tlb p ((s.cpu y).tlb p).age q = .nothing
  rcases eq_or_ne q p with rfl | hne
  · rw [update_self, h]
    rfl
  · rwa [update_of_ne hne]

variable (h : s.Inv kernel)
include h

theorem advance (hidle : (s.cpu x).idle → (s.cpu x).phase.quiet)
    (hwindow : ∀ u p, (s.cpu u).phase.announcing = some (p, x) → c'.inUse p → c'.phase = .run →
      c'.Armed kernel p)
    (hstep : (s.cpu x).advance kernel s.lock = some c') : (s.set x c').Inv kernel := by
  have hadv := (h.ok x).advances hidle hstep
  apply h.set ((h.ok x).advance hadv) fun p => Cpu.holds_advance hstep
  case hface =>
    intro u p hu huse
    by_cases hph : (s.cpu u).phase.Announced p x
    · rcases Cpu.inUse_advance hstep huse with hold | hholds
      · exact (h.facing u x p hu hold).advance (h.ok x) hidle
          ((h.lock p).flag_of_owns hph.holds) hold
          (fun hannouncing => hwindow u p hannouncing huse) hadv
      · exact absurd ((h.lock p).unique u x hph.holds hholds) hu
    · exact .of_not_announced hph
  case hup =>
    intro y p hy huse
    by_cases hph : c'.phase.Announced p y
    · obtain ⟨hold, hnew⟩ := Cpu.announced_advance hstep hph
      have hface := h.facing x y p hy.symm huse
      rw [hold] at hface
      rw [hnew]
      exact hface.phase id id id nofun
    · exact .of_not_announced hph

theorem takeLock (hlock : s.takeLock x p ph = some s')
    (hplain : (s.cpu x).phase.plain) (hplain' : ph.plain)
    (hok : Cpu.Ok kernel ({ s.cpu x with phase := ph } : Cpu π n))
    (hholds : ∀ q, ¬ (s.cpu x).phase.Holds q) (hholds' : ∀ q, ph.Holds q ↔ p = q)
    (hannounced : ∀ y q, ¬ ph.Announced q y) : s'.Inv kernel := by
  obtain ⟨hfree, ⟨⟩⟩ := ite_none_left_eq_some.mp hlock
  rw [Bool.not_eq_true] at hfree
  apply h.replace hok
  case hlock =>
    intro q
    rcases eq_or_ne q p with rfl | hne
    · rw [update_self]
      have htoken := h.lock q
      rw [hfree] at htoken
      exact htoken.take (P := fun c : Cpu π n => c.phase.Holds q) ((hholds' q).mpr rfl)
    · rw [update_of_ne hne]
      apply (h.lock q).update (P := fun c : Cpu π n => c.phase.Holds q)
      exact iff_of_false (fun hq => hne ((hholds' q).mp hq).symm) (hholds q)
  case hface => exact fun u q hu huse => (h.facing u x q hu huse).operate hplain hplain'
  case hup => exact fun y q _ _ => .of_not_announced (hannounced y q)

theorem dropLock (hok : Cpu.Ok kernel ({ s.cpu x with phase := ph } : Cpu π n))
    (hholds : ∀ q, (s.cpu x).phase.Holds q ↔ p = q) (hholds' : ∀ q, ¬ ph.Holds q)
    (hface : ∀ u q, u ≠ x → (s.cpu x).inUse q →
      Facing kernel (s.cpu u).phase x q { s.cpu x with phase := ph }) :
    (s.dropLock x p ph).Inv kernel := by
  apply h.replace hok
  case hlock =>
    intro q
    rcases eq_or_ne q p with rfl | hne
    · rw [update_self]
      exact (h.lock q).drop (P := fun c : Cpu π n => c.phase.Holds q)
        ((hholds q).mpr rfl) (hholds' q)
    · rw [update_of_ne hne]
      apply (h.lock q).update (P := fun c : Cpu π n => c.phase.Holds q)
      exact iff_of_false (hholds' q) fun hq => hne ((hholds q).mp hq).symm
  case hface => exact hface
  case hup => exact fun y q _ _ => .of_not_announced fun hph => hholds' q hph.holds

/-- A translation gets stale only on the list of a processor that is to see the item. -/
theorem stale_changePmap (hphase : (s.cpu x).phase = .updating p)
    (hq : (s.cpu y).inUse q) (hstale : ((s.changePmap p).cpu y).tlb q = .stale) :
    (s.cpu y).Armed kernel q ∧ (s.cpu y).Due := by
  change update (s.cpu y).tlb p ((s.cpu y).tlb p).age q = .stale at hstale
  rcases eq_or_ne q p with rfl | hne
  · have hcached : (s.cpu y).tlb q ≠ .nothing := by
      intro hnothing
      rw [update_self, hnothing] at hstale
      cases hstale
    rcases eq_or_ne x y with rfl | hxy
    · exact absurd ((h.ok x).updating q hphase hq) hcached
    have hface := h.facing x y q hxy hq
    rw [hphase] at hface
    refine ⟨(hface.announced rfl).resolve_right fun hdrained => hcached hdrained.1, ?_⟩
    exact Cpu.due_of_held (hface.sent rfl) (hface.past rfl)
  · rw [update_of_ne hne] at hstale
    exact (h.ok y).stale q hq hstale

theorem changePmap (hphase : (s.cpu x).phase = .updating p) : (s.changePmap p).Inv kernel where
  ok := by
    intro y
    have hok := h.ok y
    apply hok.change
    case hstale => exact fun q hq hstale => h.stale_changePmap hphase hq hstale
    case hmy => exact fun m hm => .inl hm
    case hactive => exact hok.active
    case hidled => exact hok.idled
    case hneeded => exact hok.needed
    case hupdating => exact fun q hq huse => nothing_changePmap (hok.updating q hq huse)
    case hloaded => exact fun q hq => nothing_changePmap (hok.loaded q hq)
    case hbetween => exact id
    all_goals rfl
  lock := h.lock
  facing := by
    intro u y q hne huse
    apply (h.facing u y q hne huse).goes
    case htold => exact .imp_right fun hdrained => ⟨nothing_changePmap hdrained.1, hdrained.2⟩
    case hheld => exact fun _ => id
    case hrun => exact fun hpast _ => hpast

theorem access (huses : (s.cpu x).Uses p) : (s.set x { s.cpu x with
      tlb := update (s.cpu x).tlb p ((s.cpu x).tlb p).use }).Inv kernel := by
  obtain ⟨_, _, hphase⟩ := huses
  have hok := h.ok x
  have hstale : ∀ q, update (s.cpu x).tlb p ((s.cpu x).tlb p).use q = .stale →
      (s.cpu x).tlb q = .stale := by
    intro q hq
    rcases eq_or_ne q p with rfl | hne
    · cases htlb : (s.cpu x).tlb q <;> simp_all [Cached.use]
    · rwa [update_of_ne hne] at hq
  apply h.set
  case hok =>
    apply hok.change
    case hstale => exact fun q hq hnew => hok.stale q hq (hstale q hnew)
    case hactive => exact hok.active
    case hneeded => exact hok.needed
    all_goals simp [hphase]
  case hface =>
    intro u q hu huse
    apply (h.facing u x q hu huse).goes
    case htold =>
      rintro (harmed | hdrained)
      · exact .inl harmed
      · exact absurd hdrained.2.1 (by simp [hphase])
    case hheld => exact fun _ => id
    case hrun => exact fun hpast _ => hpast
  case hholds => exact fun q => .rfl
  case hup => exact fun y q hy huse => h.facing x y q hy.symm huse

theorem switchTo (hphase : (s.cpu x).phase = .deactivated) (q : π) :
    (s.switchTo kernel x q).Inv kernel := by
  rw [Cpus.switchTo]
  split
  next => exact h.switchToKernel hphase q
  next =>
    apply h.moves
    case hm => constructor <;> simp [hphase]
    all_goals simp [hphase]

theorem unlock (hstep : s.unlock x = some s') : s'.Inv kernel := by
  rw [Cpus.unlock] at hstep
  split at hstep
  case h_3 => cases hstep
  case h_1 q hphase | h_2 q hphase =>
    cases hstep
    apply h.dropLock
    case hok => exact (h.ok x).operate (by rw [hphase]; rfl) rfl
    case hface =>
      exact fun u q hu huse => (h.facing u x q hu huse).operate (by rw [hphase]; rfl) rfl
    all_goals simp [hphase]

theorem next (hord : s.Orderly kernel) (hord' : s'.Orderly kernel)
    (hstep : s.next kernel x = some s') : s'.Inv kernel := by
  rw [Cpus.next] at hstep
  split at hstep
  next q hphase =>
    cases hstep
    exact h.updateTlbs hphase
  next q hphase =>
    cases hstep
    apply h.operate hphase
    case hup =>
      intro y p hy huse hface
      apply hface.phase <;> simp [CpuPhase.Announced, CpuPhase.Sent, CpuPhase.Past]
    all_goals simp
  next q y rest hphase =>
    cases hstep
    exact h.signal hphase
  next q y rest hphase =>
    cases hstep
    split
    next hidle => exact h.told (.inl hphase) (Cpu.held_of_idle hidle (hord.idle y hidle))
    next =>
      refine h.operate hphase rfl rfl (fun _ => .rfl) fun _ _ _ _ hface => ?_
      exact hface.phase id id id nofun
  next q y rest hphase =>
    cases hstep
    exact h.send hphase
  next q hphase =>
    cases hstep
    refine h.operate hphase rfl rfl (fun _ => .rfl) fun y p hy huse hface => ?_
    refine ⟨hface.announced, hface.sent, hface.past, ?_⟩
    rintro users ⟨⟩
    exact mem_otherUsers.mpr ⟨huse, hy⟩
  next q users hphase =>
    cases hstep
    split
    next =>
      refine h.operate hphase rfl rfl (fun _ => .rfl) fun _ _ _ _ hface => ?_
      exact hface.phase id id id nofun
    next hactive => exact h.leave hphase (by simpa using hactive)
  next q hphase =>
    apply h.takeLock hstep
    case hok =>
      refine (h.ok x).move (show (s.cpu x).Moves kernel (fun _ => true) _ _ _ _ from ?_)
      constructor <;> simp [hphase]
    all_goals simp [hphase, CpuPhase.Announced]
  next hphase =>
    cases hstep
    have hactive := (h.ok x).active (by rw [hphase]; rfl)
    have hm : (s.cpu x).Moves kernel (fun _ => true) (s.cpu x).active (s.cpu x).idle
        (s.cpu x).pending .lowering := by
      constructor
      case due =>
        intro _ hdue
        rw [Cpu.due_of_plain (by rw [hphase]; rfl)] at hdue
        exact .inr hdue
      case held =>
        intro p _ _ _ hheld
        rw [Cpu.held_of_plain (by rw [hphase]; rfl)] at hheld
        exact .inr hheld
      all_goals simp [hactive]
    apply h.dropLock
    case hok => exact (h.ok x).move hm
    case hface =>
      exact fun u p hu huse => (h.facing u x p hu huse).move (h.ok x) rfl huse hm
    all_goals simp [hphase]
  next =>
    obtain ⟨c', hadvance, rfl⟩ := map_eq_some_iff.mp hstep
    apply h.advance (hord.idle x) _ hadvance
    intro u p hannouncing huse hrun
    rcases eq_or_ne u x with rfl | hu
    · exact absurd hadvance (Cpu.advance_ne_some_of_announcing hannouncing)
    · have hwindow := hord'.window u x p
      rw [cpu_set, cpu_set_of_ne hu] at hwindow
      exact hwindow hannouncing huse hrun

/-- A step of a processor between orderly states. -/
theorem act (hord : s.Orderly kernel) (hord' : s'.Orderly kernel) {a : CpuAct π}
    (hstep : s.act kernel x a = some s') : s'.Inv kernel := by
  cases a with
  | access q =>
    obtain ⟨huses, ⟨⟩⟩ := ite_none_right_eq_some.mp hstep
    exact h.access huses
  | deliver =>
    obtain ⟨⟨hphase, _⟩, ⟨⟩⟩ := ite_none_right_eq_some.mp hstep
    exact h.deliver hphase
  | call =>
    obtain ⟨hphase, ⟨⟩⟩ := ite_none_right_eq_some.mp hstep
    apply h.call hphase
    have hidle := hord'.idle x
    rwa [goto, cpu_set] at hidle
  | lock q =>
    obtain ⟨hphase, hlock⟩ := ite_none_right_eq_some.mp hstep
    apply h.takeLock hlock
    case hok => exact (h.ok x).operate (by rw [hphase]; rfl) rfl
    all_goals simp [hphase, CpuPhase.Announced]
  | change =>
    change s.change x = some s' at hstep
    rw [change] at hstep
    split at hstep
    next hphase =>
      cases hstep
      exact h.changePmap hphase
    next => cases hstep
  | unlock => exact h.unlock hstep
  | switchTo q =>
    obtain ⟨hphase, ⟨⟩⟩ := ite_none_right_eq_some.mp hstep
    exact h.switchTo hphase q
  | next => exact h.next hord hord' hstep

end Cpus.Inv

/-! ### Runs -/

namespace Cpus

variable {s : Cpus π n}

theorem inv_init : (init kernel : Cpus π n).Inv kernel where
  ok x := by
    constructor <;> simp [init]
  lock p := ⟨by simp [init], by simp [init]⟩
  facing u x p _ _ := .of_not_announced fun h => h

end Cpus

/-- The shootdown works in every run through orderly states. -/
theorem shootdown_sound (kernel : π) (ops : List (Fin n × CpuAct π))
    (h : (Cpus.machine kernel).Always (Cpus.Orderly kernel) ops (Cpus.init kernel)) :
    (Cpus.machine kernel).Always Cpus.Sound ops (Cpus.init kernel) := by
  have hinv : (Cpus.machine kernel).Always (Cpus.Inv kernel) ops (.init kernel) := by
    apply Machine.Always.invariant _ Cpus.inv_init h
    intro s op s' r hinv hord hord' hstep
    obtain ⟨s₁, hact, ⟨⟩⟩ := map_eq_some_iff.mp hstep
    exact hinv.act hord hord' hact
  exact hinv.mono fun s hs => hs.sound

section Decide

variable [Fintype π]

instance (s : Cpus π n) : Decidable (s.Orderly kernel) :=
  decidable_of_iff
    ((∀ x, (s.cpu x).idle → (s.cpu x).phase.quiet) ∧
      ∀ u x p, (s.cpu u).phase.announcing = some (p, x) → (s.cpu x).inUse p →
        (s.cpu x).phase = .run → p ∈ (s.cpu x).updates ∨ kernel ∈ (s.cpu x).updates)
    ⟨fun h => ⟨h.1, h.2⟩, fun h => ⟨h.idle, h.window⟩⟩

instance (s : Cpus π n) : Decidable s.Sound :=
  decidable_of_iff
    ((∀ u x p, u ≠ x → (s.cpu u).phase = .invalidating p ∨ (s.cpu u).phase = .updating p →
      ¬ (s.cpu x).Uses p) ∧ ∀ x p, (s.cpu x).Uses p → (s.cpu x).tlb p ≠ .stale)
    ⟨fun h => ⟨h.1, h.2⟩, fun h => ⟨h.alone, h.fresh⟩⟩

/-- Several steps of a processor. -/
def cpuSteps (x : Fin 2) (k : Nat) : List (Fin 2 × CpuAct Unit) := List.replicate k (x, .next)

/-- Processor 0 locks the kernel pmap and signals processor 1, which enters its interrupt routine.
Then processor 0 changes the pmap. -/
def updateRun : List (Fin 2 × CpuAct Unit) :=
  [(1, .access ()), (0, .call .pmapOperation)] ++ cpuSteps 0 1 ++ [(0, .lock ())] ++ cpuSteps 0 4 ++
  [(1, .deliver)] ++ cpuSteps 1 2 ++ cpuSteps 0 4 ++ [(0, .change), (0, .unlock)] ++ cpuSteps 1 6 ++
  [(1, .access ())]

theorem shootdown_sound_update : ((Cpus.machine ()).run updateRun (Cpus.init ())).isSome ∧
      (Cpus.machine ()).Always Cpus.Sound updateRun (Cpus.init ()) :=
  ⟨by decide +kernel, shootdown_sound () updateRun (by decide +kernel)⟩

/-- Processor 1 is past the locks when processor 0 puts a second item on its list, and runs before
it is interrupted. -/
def drainedRun : List (Fin 2 × CpuAct Unit) :=
  [(0, .call .pmapOperation)] ++ cpuSteps 0 1 ++ [(0, .lock ())] ++ cpuSteps 0 4 ++
  [(1, .deliver)] ++ cpuSteps 1 2 ++ cpuSteps 0 4 ++ [(0, .unlock)] ++ cpuSteps 1 2 ++
  [(0, .lock ())] ++ cpuSteps 0 2 ++ cpuSteps 1 4 ++ [(1, .access ())] ++ cpuSteps 0 2 ++
  [(1, .deliver)] ++ cpuSteps 1 2 ++ cpuSteps 0 4 ++ [(0, .change), (0, .unlock)] ++ cpuSteps 1 6

/-- Processor 1 is idle and does a pmap operation. -/
def idleRun : List (Fin 2 × CpuAct Unit) :=
  [(1, .call .markCpuIdle)] ++ cpuSteps 1 3 ++ [(1, .call .pmapOperation)] ++ cpuSteps 1 1 ++
  [(0, .call .pmapOperation)] ++ cpuSteps 0 1 ++ [(0, .lock ())] ++ cpuSteps 0 7 ++ cpuSteps 1 2

theorem not_sound_drained : ¬ (Cpus.machine ()).Always Cpus.Sound drainedRun (Cpus.init ()) ∧
      ¬ (Cpus.machine ()).Always Cpus.Sound idleRun (Cpus.init ()) := by
  decide +kernel

end Decide

end Mach
