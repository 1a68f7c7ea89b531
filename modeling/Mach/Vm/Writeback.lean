import Mach.Lib.Runs
import Mach.Vm.LockRequest

/-!
# The order in which a memory manager sees modified data

`vm_pageout_page` and `memory_object_lock_request` take a dirty page with the object locked, copy it
or replace it by a place-holder in `vm_pageout_setup`, and send it later, in a message with other
pages.  Everybody else runs wherever the object is not locked.

The manager sees each page for itself, so that the object is a family of pages (`PageLine`).  The
contents of a page are a version, and versions are numbered by the time at which they are written.
A message of a thread has all the versions that wait in its `new_object`; where a thread cuts its
clusters is left open.

A page that was copied is not busy while its copy waits.  If it is taken again or freed then, a
later version or a request for the page can get ahead of the copy.  So no operation may do this
(`Spares`), nor discard a modified version.
-/

namespace Mach

open Option

/-- A page of a memory object, and what the kernel has sent for it. -/
structure PageLine (ι : Type) where
  page : Option (CachedPage Nat)
  /-- The last version. -/
  clock : Nat
  /-- The thread that is in `vm_pageout_setup` with the page, and `flush`. -/
  taken : Option (ι × Bool)
  /-- The thread whose place-holder is there. -/
  holder : Option ι
  /-- The versions that threads are to send. -/
  waiting : List (ι × Nat)
  /-- The versions in `memory_object_data_write` messages. -/
  sent : List Nat
  /-- The modified versions that were removed or marked clean. -/
  left : List Nat

/-- What is done to a page while the object is locked. -/
inductive PageAct (ι : Type) where
  /-- By a user, through a mapping. -/
  | write
  /-- `memory_object_lock_page`, and `busy` if the page must be cleaned. -/
  | lock (t : ι) (call : RangeLock)
  /-- `vm_page_activate` or `vm_page_deactivate`, by a fault or by `vm_pageout_scan`. -/
  | queue (inactive : Bool)
  /-- `vm_pageout_scan` finds the page on the inactive queue, up to `vm_pageout_setup`. -/
  | pageout (t : ι)
  /-- `vm_pageout_setup`, and whether it gets a page for the copy. -/
  | setup (t : ι) (alloc : Bool)
  /-- The place-holder is freed. -/
  | free (t : ι)
  /-- A fault, which sends `memory_object_data_request`. -/
  | fault
  /-- The data arrives. -/
  | provide

namespace PageLine

variable {ι : Type} [DecidableEq ι]

/-- The page while its data is requested. -/
def absentPage : CachedPage Nat := ⟨0, true, true, false, false, false, 0, 0, false, false⟩

/-- What happens to the page.  There is no result if it cannot happen now. -/
def act (l : PageLine ι) : PageAct ι → Option (PageLine ι)
  | .write =>
    l.page.bind fun m =>
      if m.busy ∨ m.absent then none
      else
        some { l with
          page := some { m with contents := l.clock + 1, modified := true }, clock := l.clock + 1 }
  | .lock t call =>
    l.page.map fun m =>
      match memoryObjectLockPage call m with
      | .done page =>
        { l with
            page := page
            left := l.left ++ if page.isNone ∧ m.Dirty then [m.contents] else [] }
      | .mustBlock => l
      | .mustClean m =>
        { l with page := some { m with busy := true }, taken := some (t, call.shouldFlush) }
  | .queue inactive =>
    l.page.bind fun m =>
      if m.busy ∨ m.wired then none
      else some { l with page := some { m with active := !inactive, inactive := inactive } }
  | .pageout t =>
    l.page.bind fun m =>
      if m.busy ∨ m.absent ∨ m.inactive = false then none
      else if m.Dirty then
        some { l with
          page := some { m with busy := true, dirty := true, active := false, inactive := false }
          taken := some (t, true) }
      else some { l with page := none }
  | .setup t alloc =>
    match l.taken, l.page with
    | some (t', flush), some m =>
      if t' ≠ t then none
      else
        let l := { l with
          taken := none, waiting := l.waiting ++ [(t, m.contents)], left := l.left ++ [m.contents] }
        if flush ∨ alloc = false then some { l with page := some .holdingPage, holder := some t }
        else some { l with page := some m.copyOut }
    | _, _ => none
  | .free t =>
    if l.holder = some t ∧ ∀ e ∈ l.waiting, e.1 ≠ t then
      some { l with page := none, holder := none }
    else none
  | .fault => if l.page.isNone then some { l with page := some absentPage } else none
  | .provide =>
    l.page.bind fun m =>
      if m.absent then
        some { l with
          page := some { m with contents := l.clock + 1, absent := false, busy := false }
          clock := l.clock + 1 }
      else none

/-- A thread sends its message. -/
def send (t : ι) (l : PageLine ι) : PageLine ι :=
  { l with
      sent := l.sent ++ (l.waiting.filter (·.1 = t)).map Prod.snd
      waiting := l.waiting.filter (·.1 ≠ t) }

end PageLine

/-- What the threads do to the pages of a memory object. -/
inductive WritebackOp (ι κ : Type) where
  | act (x : κ) (a : PageAct ι)
  /-- `memory_object_data_write`. -/
  | send (t : ι)

/-- A memory object. -/
def writeback {ι κ : Type} [DecidableEq ι] [DecidableEq κ] :
    Machine (WritebackOp ι κ) Unit (κ → PageLine ι)
  | .act x a, s => ((s x).act a).map fun l => (Function.update s x l, ())
  | .send t, s => some (fun x => (s x).send t, ())

namespace PageLine

variable {ι : Type} (l : PageLine ι)

/-- The versions that were sent, or wait to be sent. -/
def out : List Nat := l.sent ++ l.waiting.map Prod.snd

/-- The versions are sent in their order, and when the page is requested, those that are gone from
the cache have been sent. -/
def Orderly : Prop :=
  l.sent.Pairwise (· < ·) ∧ ∀ m ∈ l.page, m.absent = true → ∀ v ∈ l.left, v ∈ l.sent

instance : Decidable l.Orderly := inferInstanceAs (Decidable (_ ∧ _))

/-- The page is neither taken nor freed while a copy of it waits, and it is not freed if it is
modified. -/
def Spares : PageAct ι → Prop
  | .lock _ call => ∀ m ∈ l.page, m.busy = false →
      (call.shouldFlush = true → m.Dirty → call.shouldClean = true) ∧
      (call.shouldFlush = true ∨ call.shouldClean = true ∧ m.Dirty → l.waiting = [])
  | .pageout _ => l.waiting = []
  | _ => True

instance [DecidableEq ι] : DecidablePred l.Spares
  | .lock _ _ => inferInstanceAs (Decidable (∀ m ∈ l.page, _ → _ ∧ _))
  | .pageout _ => inferInstanceAs (Decidable (_ = _))
  | .write | .queue _ | .setup _ _ | .free _ | .fault | .provide => .isTrue trivial

/-- No thread is at work on the page, and nothing is sent. -/
structure Fresh : Prop where
  taken : l.taken = none
  holder : l.holder = none
  waiting : l.waiting = []
  sent : l.sent = []
  left : l.left = []
  version : ∀ m ∈ l.page, m.contents ≤ l.clock

/-- What holds as long as every operation spares the page. -/
structure Inv : Prop where
  ascending : l.out.Pairwise (· < ·)
  bound : ∀ v ∈ l.out, v ≤ l.clock
  single : l.waiting.length ≤ 1
  version : ∀ m ∈ l.page, m.contents ≤ l.clock
  /-- A version that is not yet sent is newer than all that are. -/
  newer : ∀ m ∈ l.page, m.Dirty ∨ l.taken ≠ none → ∀ v ∈ l.out, v < m.contents
  busy : l.taken ≠ none ∨ l.holder ≠ none → ∃ m ∈ l.page, m.busy = true ∧ m.absent = false
  apart : l.taken = none ∨ l.holder = none
  kept : ∀ v ∈ l.left, v ∈ l.out
  held : ∀ t, l.holder = some t → ∀ e ∈ l.waiting, e.1 = t
  /-- While a copy waits its page can be used, or a place-holder is there. -/
  sheltered : l.waiting = [] ∨ l.holder ≠ none ∨ ∃ m ∈ l.page, m.busy = false ∧ m.absent = false

variable {l} {l' : PageLine ι} {left : List Nat} {t : ι}

theorem Fresh.inv (h : l.Fresh) : l.Inv := by
  have hout : l.out = [] := by simp [out, h.sent, h.waiting]
  constructor <;> simp [hout, h.taken, h.holder, h.waiting, h.left]
  exact h.version

variable {m : CachedPage Nat}

/-- No copy waits of a page that is busy and not a place-holder, or absent. -/
theorem Inv.not_waiting (h : l.Inv) (hm : l.page = some m) (hholder : l.holder = none)
    (hbusy : m.busy = true ∨ m.absent = true) : l.waiting = [] := by
  rcases h.sheltered with hw | hw | ⟨_, hm', hfree, hpresent⟩
  · exact hw
  · exact absurd hholder hw
  · cases hm.symm.trans hm'
    simp [hfree, hpresent] at hbusy

theorem Inv.idle (h : l.Inv) (hm : l.page = some m)
    (hfree : m.busy = false ∨ m.absent = true) : l.taken = none ∧ l.holder = none := by
  by_contra hne
  obtain ⟨m', hm', hbusy, hpresent⟩ := h.busy (not_and_or.mp hne)
  cases hm.symm.trans hm'
  simp [hbusy, hpresent] at hfree

theorem Inv.orderly (h : l.Inv) : l.Orderly := by
  refine ⟨h.ascending.sublist (List.sublist_append_left ..), fun m hm habsent v hv => ?_⟩
  have hempty := h.not_waiting hm (h.idle hm (.inr habsent)).2 (.inr habsent)
  simpa [out, hempty] using h.kept v hv

theorem Inv.repage (h : l.Inv) {page : Option (CachedPage Nat)} {clock : Nat}
    (hclock : l.clock ≤ clock) (hversion : ∀ m ∈ page, m.contents ≤ clock)
    (hnewer : ∀ m ∈ page, m.Dirty ∨ l.taken ≠ none → ∀ v ∈ l.out, v < m.contents)
    (hbusy : l.taken ≠ none ∨ l.holder ≠ none → ∃ m ∈ page, m.busy = true ∧ m.absent = false)
    (hsheltered : l.waiting = [] ∨ l.holder ≠ none ∨
      ∃ m ∈ page, m.busy = false ∧ m.absent = false) :
    { l with page := page, clock := clock }.Inv :=
  ⟨h.ascending, fun v hv => (h.bound v hv).trans hclock, h.single, hversion, hnewer, hbusy, h.apart,
    h.kept, h.held, hsheltered⟩

variable {m' : CachedPage Nat}

theorem Inv.renew (h : l.Inv) (hm : l.page = some m)
    (hfree : m.busy = false ∧ m.absent = false ∨ m.absent = true)
    (hnew : m'.contents = l.clock + 1) (hbusy : m'.busy = false) (hpresent : m'.absent = false) :
    { l with page := some m', clock := l.clock + 1 }.Inv := by
  obtain ⟨htaken, hholder⟩ := h.idle hm (hfree.imp_left And.left)
  apply h.repage (Nat.le_succ _)
  · rintro _ ⟨⟩
    exact hnew.le
  · rintro _ ⟨⟩ - v hv
    rw [hnew]
    exact Nat.lt_succ_of_le (h.bound v hv)
  · simp [htaken, hholder]
  · exact .inr (.inr ⟨m', rfl, hbusy, hpresent⟩)

theorem Inv.same (h : l.Inv) (hm : l.page = some m) (hsame : m'.contents = m.contents)
    (hbusy : m'.busy = m.busy) (habsent : m'.absent = m.absent) (hdirty : m'.Dirty → m.Dirty) :
    { l with page := some m' }.Inv := by
  apply h.repage le_rfl
  · rintro _ ⟨⟩
    exact hsame ▸ h.version m hm
  · rintro _ ⟨⟩ hnew
    exact hsame ▸ h.newer m hm (hnew.imp_left hdirty)
  · intro hwork
    obtain ⟨_, hm', hbusy', hpresent⟩ := h.busy hwork
    cases hm.symm.trans hm'
    exact ⟨m', rfl, hbusy.trans hbusy', habsent.trans hpresent⟩
  · refine h.sheltered.imp_right (Or.imp_right ?_)
    rintro ⟨_, hm', hfree, hpresent⟩
    cases hm.symm.trans hm'
    exact ⟨m', rfl, hbusy.trans hfree, habsent.trans hpresent⟩

theorem Inv.drop (h : l.Inv) (hm : l.page = some m) (hfree : m.busy = false)
    (hempty : l.waiting = []) : { l with page := none }.Inv := by
  obtain ⟨htaken, hholder⟩ := h.idle hm (.inl hfree)
  apply h.repage le_rfl <;> simp [htaken, hholder, hempty]

/-- A thread takes a dirty page. -/
theorem Inv.take (h : l.Inv) (hm : l.page = some m) (hfree : m.busy = false)
    (hdirty : m.Dirty) (hsame : m'.contents = m.contents) (hbusy : m'.busy = true)
    (hpresent : m'.absent = false) (hempty : l.waiting = []) (t : ι × Bool) :
    { l with page := some m', taken := some t }.Inv := by
  refine ⟨h.ascending, h.bound, h.single, ?_, ?_, fun _ => ⟨m', rfl, hbusy, hpresent⟩,
    .inr (h.idle hm (.inl hfree)).2, h.kept, h.held, .inl hempty⟩
  · rintro _ ⟨⟩
    exact hsame ▸ h.version m hm
  · rintro _ ⟨⟩ -
    exact hsame ▸ h.newer m hm (.inl hdirty)

theorem lockPage_spec (call : RangeLock) (m : CachedPage Nat) :
    match memoryObjectLockPage call m with
    | .done none => m.busy = false ∧ call.shouldFlush = true ∧ (m.Dirty → call.shouldClean = false)
    | .done (some m') =>
      m'.contents = m.contents ∧ m'.busy = m.busy ∧ m'.absent = m.absent ∧ (m'.Dirty → m.Dirty)
    | .mustBlock => True
    | .mustClean m' => m.busy = false ∧ (call.shouldClean = true ∧ m.Dirty) ∧
      m'.contents = m.contents ∧ m'.absent = false := by
  by_cases hcalm : m.busy = false ∧ m.wired = false
  · rw [memoryObjectLockPage_eq hcalm.1 hcalm.2]
    split_ifs with habsent howes hflush
    · simp
    · exact ⟨hcalm.1, ⟨howes.1, howes.2.2⟩, rfl, howes.2.1⟩
    · refine ⟨hcalm.1, hflush, fun hdirty => Bool.eq_false_iff.mpr fun hclean => howes ?_⟩
      exact ⟨hclean, Bool.eq_false_iff.mpr habsent, hdirty⟩
    · cases hclean : call.shouldClean <;>
        simp [CachedPage.locked, CachedPage.deactivate, CachedPage.Dirty, hclean, hcalm]
  · have hblock : m.busy = true ∨ m.wired = true := by simpa [or_iff_not_imp_left] using hcalm
    rw [memoryObjectLockPage, if_pos hblock]
    split_ifs <;> simp [CachedPage.Dirty]

theorem Inv.lock [DecidableEq ι] (h : l.Inv) {call : RangeLock} (hspares : l.Spares (.lock t call))
    (hact : l.act (.lock t call) = some l') : l'.Inv := by
  obtain ⟨m, hm, rfl⟩ := map_eq_some_iff.mp hact
  have hspec := lockPage_spec call m
  have hspares := hspares m hm
  cases hres : memoryObjectLockPage call m with
  | mustBlock => exact h
  | mustClean m' =>
    rw [hres] at hspec
    obtain ⟨hfree, hclean, hsame, hpresent⟩ := hspec
    have hempty := (hspares hfree).2 (.inr hclean)
    exact h.take hm hfree hclean.2 (by exact hsame) rfl (by exact hpresent) hempty _
  | done page =>
    rw [hres] at hspec
    cases page with
    | none =>
      obtain ⟨hfree, hflush, hclean⟩ := hspec
      obtain ⟨hkeep, hempty⟩ := hspares hfree
      have hnot : ¬ m.Dirty := fun hdirty => by
        simpa [hclean hdirty] using hkeep hflush hdirty
      simpa [hnot] using h.drop hm hfree (hempty (.inl hflush))
    | some m' =>
      obtain ⟨hsame, hbusy, habsent, hdirty⟩ := hspec
      simpa using h.same hm hsame hbusy habsent hdirty

theorem Inv.setup [DecidableEq ι] (h : l.Inv) {alloc : Bool}
    (hact : l.act (.setup t alloc) = some l') : l'.Inv := by
  rw [act] at hact
  split at hact
  case h_2 => cases hact
  rename_i t' flush m htaken hm
  obtain ⟨-, hact⟩ := ite_none_left_eq_some.mp hact
  have hholder : l.holder = none := h.apart.resolve_left (by simp [htaken])
  obtain ⟨_, hm', hbusy, hpresent⟩ := h.busy (.inl (by simp [htaken]))
  cases hm.symm.trans hm'
  have hempty := h.not_waiting hm hholder (.inl hbusy)
  have hnewer := h.newer m hm (.inr (by simp [htaken]))
  have hascending := h.ascending
  have hbound := h.bound
  have hkept := h.kept
  simp only [out, hempty, List.map_nil, List.append_nil] at hnewer hascending hbound hkept
  have hout : (l.sent ++ [m.contents]).Pairwise (· < ·) :=
    List.pairwise_append.mpr ⟨hascending, List.pairwise_singleton .., by simpa using hnewer⟩
  have hclock : ∀ v ∈ l.sent ++ [m.contents], v ≤ l.clock := by
    simpa [or_imp, forall_and] using ⟨hbound, h.version m hm⟩
  have hleft : ∀ v ∈ l.left ++ [m.contents], v ∈ l.sent ++ [m.contents] := fun v hv =>
    List.mem_append.mpr ((List.mem_append.mp hv).imp_left (hkept v))
  split at hact <;> cases hact
  · constructor <;> simp [out, hempty, hout, CachedPage.holdingPage, CachedPage.Dirty]
    · simpa using hclock
    · simpa using hleft
  have hcopy : m.copyOut.contents = m.contents ∧ ¬ m.copyOut.Dirty ∧ m.copyOut.busy = false ∧
      m.copyOut.absent = false := by
    rw [CachedPage.copyOut, CachedPage.deactivate]
    split <;> simp [CachedPage.Dirty, hpresent]
  constructor <;> simp [out, hempty, hout, hcopy, h.version m hm, hholder]
  · simpa using hclock
  · simpa using hleft

theorem Inv.act [DecidableEq ι] (h : l.Inv) {a : PageAct ι} (hspares : l.Spares a)
    (hact : l.act a = some l') : l'.Inv := by
  cases a with
  | lock t => exact h.lock hspares hact
  | setup t => exact h.setup hact
  | write =>
    obtain ⟨m, hm, hact⟩ := bind_eq_some_iff.mp hact
    obtain ⟨hfree, ⟨⟩⟩ := ite_none_left_eq_some.mp hact
    have hfree : m.busy = false ∧ m.absent = false := by simpa using hfree
    exact h.renew hm (.inl hfree) rfl hfree.1 hfree.2
  | queue inactive =>
    obtain ⟨m, hm, hact⟩ := bind_eq_some_iff.mp hact
    obtain ⟨-, ⟨⟩⟩ := ite_none_left_eq_some.mp hact
    exact h.same hm rfl rfl rfl id
  | provide =>
    obtain ⟨m, hm, hact⟩ := bind_eq_some_iff.mp hact
    obtain ⟨habsent, ⟨⟩⟩ := ite_none_right_eq_some.mp hact
    exact h.renew hm (.inr habsent) rfl rfl rfl
  | pageout t =>
    obtain ⟨m, hm, hact⟩ := bind_eq_some_iff.mp hact
    obtain ⟨hfree, hact⟩ := ite_none_left_eq_some.mp hact
    have hfree : m.busy = false ∧ m.absent = false ∧ m.inactive = true := by simpa using hfree
    by_cases hdirty : m.Dirty
    · rw [if_pos hdirty] at hact
      cases hact
      exact h.take hm hfree.1 hdirty (by rfl) (by rfl) (by exact hfree.2.1) hspares _
    · rw [if_neg hdirty] at hact
      cases hact
      exact h.drop hm hfree.1 hspares
  | free t =>
    obtain ⟨⟨hholder, hsent⟩, ⟨⟩⟩ := ite_none_right_eq_some.mp hact
    have htaken : l.taken = none := h.apart.resolve_right (by simp [hholder])
    have hempty : l.waiting = [] :=
      List.eq_nil_iff_forall_not_mem.mpr fun e he => hsent e he (h.held t hholder e he)
    refine ⟨h.ascending, h.bound, h.single, ?_, ?_, ?_, .inr rfl, h.kept, ?_, .inl hempty⟩ <;>
      simp [htaken]
  | fault =>
    obtain ⟨hnone, ⟨⟩⟩ := ite_none_right_eq_some.mp hact
    rw [isNone_iff_eq_none] at hnone
    have hidle : l.taken = none ∧ l.holder = none := by
      by_contra hne
      obtain ⟨m, hm, -⟩ := h.busy (not_and_or.mp hne)
      rw [hnone] at hm
      cases hm
    have hempty : l.waiting = [] := by simpa [hnone, hidle] using h.sheltered
    apply h.repage le_rfl <;> simp [absentPage, CachedPage.Dirty, hidle, hempty]

theorem Inv.send [DecidableEq ι] (h : l.Inv) (t : ι) : (l.send t).Inv := by
  have hout : (l.send t).out = l.out := by
    have hsingle := h.single
    rw [out, out, PageLine.send]
    match l.waiting, hsingle with
    | [], _ => simp
    | [e], _ => by_cases he : e.1 = t <;> simp [he]
  refine ⟨hout ▸ h.ascending, hout ▸ h.bound, (List.length_filter_le ..).trans h.single, h.version,
    fun m hm hnew => hout ▸ h.newer m hm hnew, h.busy, h.apart, hout ▸ h.kept,
    fun u hu e he => h.held u hu e (List.mem_of_mem_filter he), h.sheltered.imp_left fun hw => ?_⟩
  simp [PageLine.send, hw]

end PageLine

/-- The operation spares the page it is on. -/
def WritebackOp.Spares {ι κ : Type} (op : WritebackOp ι κ) (s : κ → PageLine ι) : Prop :=
  match op with
  | .act x a => (s x).Spares a
  | .send _ => True

instance {ι κ : Type} [DecidableEq ι] (op : WritebackOp ι κ) (s : κ → PageLine ι) :
    Decidable (op.Spares s) :=
  match op with
  | .act x a => inferInstanceAs (Decidable ((s x).Spares a))
  | .send _ => .isTrue trivial

/-- As long as no modified version is discarded and no page is taken or freed while a copy of it
waits, the manager sees the versions in their order, and no request before what it is to answer it
with. -/
theorem writeback_orderly {ι κ : Type} [DecidableEq ι] [DecidableEq κ] {s : κ → PageLine ι}
    (hs : ∀ x, (s x).Fresh) {ops : List (WritebackOp ι κ)}
    (h : writeback.Steps WritebackOp.Spares ops s) :
    writeback.Always (fun s => ∀ x, (s x).Orderly) ops s := by
  refine (h.always (I := fun s => ∀ x, (s x).Inv) (fun s op s' _ hinv hspares hstep x => ?_)
    fun x => (hs x).inv).mono fun s hinv x => (hinv x).orderly
  cases op with
  | send t =>
    cases hstep
    exact (hinv x).send t
  | act y =>
    obtain ⟨l, hact, ⟨⟩⟩ := map_eq_some_iff.mp hstep
    rcases eq_or_ne x y with rfl | hne
    · rw [Function.update_self]
      exact (hinv x).act hspares hact
    · rw [Function.update_of_ne hne]
      exact hinv x

/-- A page that was written to. -/
def PageLine.dirty : PageLine Bool :=
  ⟨some ⟨1, false, false, false, true, false, 0, 0, true, false⟩, 1, none, none, [], [], []⟩

theorem PageLine.fresh_dirty : PageLine.dirty.Fresh :=
  ⟨rfl, rfl, rfl, rfl, rfl, by rintro _ ⟨⟩; decide⟩

/-- A `memory_object_lock_request`. -/
def RangeLock.sample (clean flush : Bool) : RangeLock :=
  ⟨4096, 0, 4096, clean, flush, 0, true, 0, fun _ => true⟩

/-- The page is cleaned, modified, flushed after the copy has been sent, and asked for again. -/
theorem writeback_orderly_flush :
    writeback.Always (fun s : Fin 1 → PageLine Bool => ∀ x, (s x).Orderly)
      [.act 0 (.lock true (.sample true false)), .act 0 (.setup true true), .act 0 .write,
        .send true, .act 0 (.lock false (.sample true true)), .act 0 (.setup false true),
        .send false, .act 0 (.free false), .act 0 .fault] fun _ => .dirty :=
  writeback_orderly (fun _ => PageLine.fresh_dirty) (by decide)

/-- While the copy of a page waits, the page is modified and cleaned by another thread, or it is
flushed and asked for again.  And a modified page is flushed without being cleaned. -/
theorem not_writeback_orderly : PageLine.dirty.Fresh ∧
      ¬ writeback.Always (fun s : Fin 1 → PageLine Bool => ∀ x, (s x).Orderly)
        [.act 0 (.lock true (.sample true false)), .act 0 (.setup true true), .act 0 .write,
          .act 0 (.lock false (.sample true false)), .act 0 (.setup false true), .send false,
          .send true] (fun _ => .dirty) ∧
      ¬ writeback.Always (fun s : Fin 1 → PageLine Bool => ∀ x, (s x).Orderly)
        [.act 0 (.lock true (.sample true false)), .act 0 (.setup true true),
          .act 0 (.lock false (.sample false true)), .act 0 .fault] (fun _ => .dirty) ∧
      ¬ writeback.Always (fun s : Fin 1 → PageLine Bool => ∀ x, (s x).Orderly)
        [.act 0 (.lock true (.sample false true)), .act 0 .fault] fun _ => .dirty :=
  ⟨PageLine.fresh_dirty, by decide, by decide, by decide⟩

end Mach
