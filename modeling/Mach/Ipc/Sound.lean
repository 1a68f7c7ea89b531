import Mach.Ipc.Accounts

/-!
# The invariant of the operations on rights

`World.Sound` says that spaces represent maps of well-formed entries and that the accounts
of the ports come out, with the rights that are held in spaces counted over all of them.
`World.SoundBut` allows for rights that are counted and that nobody has any more.
Operations on the right of an entry keep it (`World.SoundBut.act`), and so does whatever
changes the map of a space at a name without a right (`World.SoundBut.remap`).
-/

namespace Mach

open Function Finset Option

/-! ## Counting the rights in spaces -/

/-- The entries with a right of a space that is alive. -/
def World.live (w : World) (a : Nat) : List (Nat × IpcEntry) :=
  if (w.space a).isActive then (w.space a).rights else []

/-- A sum over the entries of all spaces. -/
def World.count (spaces : Finset Nat) (c : IpcEntry → Nat) (w : World) : Nat :=
  ∑ a ∈ spaces, (weight c (w.live a) + weight c (w.dying a))

/-- The rights for a port that the spaces hold. -/
def World.held (spaces : Finset Nat) (w : World) (q : Nat) : Rights :=
  ⟨w.count spaces fun e => e.sends q, w.count spaces fun e => e.sendsOnce q,
    w.count spaces fun e => e.receives q⟩

/-- A number that depends on the right only. -/
def OfType (c : IpcEntry → Nat) : Prop :=
  (∀ e, c e.right = c e) ∧ ∀ e, e.ieBits.type = machPortTypeNone → c e = 0

theorem ofType_counts (q : Nat) : OfType (·.sends q) ∧ OfType (·.sendsOnce q) ∧
    OfType (·.receives q) := by
  refine ⟨⟨fun _ => rfl, fun e he => ?_⟩, ⟨fun _ => rfl, fun e he => ?_⟩, fun _ => rfl,
    fun e he => ?_⟩
  · simp [IpcEntry.sends, he, machPortTypeNone]
  · simp [IpcEntry.sendsOnce, he, machPortTypeNone]
  · simp [IpcEntry.receives, he, machPortTypeNone]

theorem rightsAt_of_type {e : IpcEntry} (q : Nat) (h : e.ieBits.type = machPortTypeNone) :
    rightsAt q (some e.right) = .zero := by
  ext
  · exact (ofType_counts q).1.2 e.right h
  · exact (ofType_counts q).2.1.2 e.right h
  · exact (ofType_counts q).2.2.2 e.right h

theorem storable_right (P : IpcPorts) (e : IpcEntry) : Storable P e.right ↔ Storable P e :=
  ⟨fun h => ⟨h.ok.congr rfl, h.receiver⟩, fun h => ⟨h.ok.congr rfl, h.receiver⟩⟩

namespace World

variable {its : IpcTableSizes} {spaces ports : Finset Nat} {lost : Nat → Rights} {w w' : World}
  {c : IpcEntry → Nat}

variable {a : Nat} {free : List Nat} {m : Nat → Option IpcEntry}
  {name : Nat} {o : Option IpcEntry} {P : IpcPorts}

theorem le_count (ha : a ∈ spaces) {v : IpcEntry}
    (hv : (∃ n, (n, v) ∈ w.live a) ∨ ∃ k, (k, v) ∈ w.dying a) : c v ≤ w.count spaces c := by
  refine le_trans ?_
    (single_le_sum_of_canonicallyOrdered (f := fun a => weight c (w.live a) + weight c (w.dying a))
      ha)
  rcases hv with ⟨n, hn⟩ | ⟨k, hk⟩
  · exact (le_weight hn).trans (Nat.le_add_right ..)
  · exact (le_weight hk).trans (Nat.le_add_left ..)

theorem count_change (c : IpcEntry → Nat) (w w' : World) (ha : a ∈ spaces)
    (hother : ∀ b, b ≠ a → w'.live b = w.live b ∧ w'.dying b = w.dying b) :
    w'.count spaces c + (weight c (w.live a) + weight c (w.dying a)) =
      w.count spaces c + (weight c (w'.live a) + weight c (w'.dying a)) := by
  have hrest : ∑ b ∈ spaces.erase a, (weight c (w'.live b) + weight c (w'.dying b)) =
      ∑ b ∈ spaces.erase a, (weight c (w.live b) + weight c (w.dying b)) := by
    refine sum_congr rfl fun b hb => ?_
    rw [(hother b (ne_of_mem_erase hb)).1, (hother b (ne_of_mem_erase hb)).2]
  rw [count, count, ← sum_erase_add spaces _ ha, ← sum_erase_add spaces _ ha, hrest]
  omega

/-! ## The calls of an operation -/

theorem spaceCalls_eq (ptr : EntryPtr) (l : List RightCall) (x : SpaceState) :
    l.foldlM (SpaceState.call its ptr) x =
      (l.filter RightCall.inSpace).foldlM (SpaceState.call its ptr) x := by
  induction l generalizing x with
  | nil => rfl
  | cons c l ih =>
    cases c with
    | hashInsert obj | hashDelete obj | entryDealloc =>
      rw [List.filter_cons_of_pos rfl, List.foldlM_cons, List.foldlM_cons]
      exact congrArg _ (funext ih)
    | _ => exact ih x

variable {ptr : EntryPtr} {e : IpcEntry} {x : SpaceState}

/-- What the calls leave of the space: it is as the entry was stored, or the entry has been
deallocated. -/
theorem space_of_shape {l : List RightCall} {x' : SpaceState}
    (h : SpaceShape e l) (hstep : l.foldlM (SpaceState.call its ptr) x = some x') :
    (RightCall.entryDealloc ∉ l ∧ x'.space = x.space) ∨
      (RightCall.entryDealloc ∈ l ∧ e.ieObject = ioNull ∧ ∃ calls,
        ipcEntryDealloc its x.space ptr.name ptr.ref = some (x'.space, calls)) := by
  have hhash : ∀ {o : Option IpcHash} {y : SpaceState}, o.map (⟨x.space, ·⟩) = some y →
      y.space = x.space := by
    intro o y hy
    obtain ⟨hash, -, rfl⟩ := map_eq_some_iff.mp hy
    rfl
  have hdealloc : ∀ {y y' : SpaceState}, y.space = x.space → y.entryDealloc its ptr = some y' →
      ∃ calls, ipcEntryDealloc its x.space ptr.name ptr.ref = some (y'.space, calls) := by
    intro y y' hy hy'
    obtain ⟨⟨s, calls⟩, hs, hrest⟩ := bind_eq_some_iff.mp hy'
    obtain ⟨-, -, rfl⟩ := map_eq_some_iff.mp hrest
    exact ⟨calls, hy ▸ hs⟩
  cases h with
  | keep =>
    cases hstep
    exact .inl ⟨by simp, rfl⟩
  | dealloc hobject =>
    obtain ⟨y, hy, hrest⟩ := bind_eq_some_iff.mp hstep
    cases hrest
    exact .inr ⟨by simp, hobject, hdealloc rfl hy⟩
  | deleteDealloc p hobject =>
    obtain ⟨y, hy, hrest⟩ := bind_eq_some_iff.mp hstep
    obtain ⟨z, hz, hrest⟩ := bind_eq_some_iff.mp hrest
    cases hrest
    exact .inr ⟨by simp, hobject, hdealloc (hhash hy) hz⟩
  | _ =>
    obtain ⟨y, hy, hrest⟩ := bind_eq_some_iff.mp hstep
    cases hrest
    exact .inl ⟨by simp, hhash hy⟩

/-! ## The invariant -/

/-- The spaces represent maps of well-formed entries, receive rights are for live ports, and
the accounts of the ports come out but for rights that are lost: they are counted and nobody
has them. -/
structure SoundBut (its : IpcTableSizes) (spaces ports : Finset Nat) (lost : Nat → Rights)
    (w : World) : Prop where
  space : ∀ a ∈ spaces, (w.space a).isActive = true → ∃ free m, (w.space a).Rep its free m ∧
    ∀ n v, m n = some v → Storable w.ports v
  dying : ∀ a ∈ spaces, ∀ e ∈ w.dying a, Storable w.ports e.2 ∧ e.2.ieBits.gen < 2 ^ 8
  quiet : ∀ a ∈ spaces, (w.space a).isActive = true → w.dying a = []
  null : (w.ports.port ioNull).ipActive = false
  dead : (w.ports.port ioDead).ipActive = false
  accounted : w.toPortState.Accounted ports fun q => w.held spaces q + lost q

/-- The accounts come out with nothing lost. -/
abbrev Sound (its : IpcTableSizes) (spaces ports : Finset Nat) (w : World) : Prop :=
  w.SoundBut its spaces ports fun _ => .zero

namespace SoundBut

theorem ready (h : w.SoundBut its spaces ports lost) (hstore : Storable w.ports e)
    (hgen : e.ieBits.gen < 2 ^ 8) (hcount : ∀ q, e.sends q ≤ (w.held spaces q).send) :
    (⟨e, w.ports, []⟩ : RightState).Ready where
  ok := hstore.ok
  fits := ⟨Nat.lt_succ_of_le hstore.ok.urefs_le, hgen⟩
  calls := rfl
  receiver := hstore.receiver
  srights := by
    intro hsend hactive
    have hone := hcount e.ieObject
    have hbooks := h.accounted.send e.ieObject hactive
    rw [IpcEntry.sends, if_pos ⟨hsend, rfl⟩] at hone
    rw [Rights.add_send] at hbooks
    show 0 < (w.ports.port e.ieObject).ipSrights
    omega

theorem points (h : w.SoundBut its spaces ports lost) (ha : ptr.space ∈ spaces)
    (hptr : w.Points its ptr) :
    ∃ free m e, (w.space ptr.space).Rep its free m ∧
      (w.space ptr.space).Refers free ptr.name ptr.ref ∧
      (∀ n v, m n = some v → Storable w.ports v) ∧ w.deref ptr = some e ∧
      m ptr.name = some e.right ∧ (⟨e, w.ports, []⟩ : RightState).Ready := by
  obtain ⟨free', hcore, href⟩ := hptr
  obtain ⟨free, m, hrep, hstore⟩ := h.space ptr.space ha hcore.active
  obtain rfl := hrep.chain.unique hcore.chain
  obtain ⟨e, he, hm⟩ := hrep.deref href
  refine ⟨free, m, e, hrep, href, hstore, he, hm, h.ready ?_ ?_ fun q => ?_⟩
  · exact (storable_right ..).mp (hstore _ _ hm)
  · exact hrep.gen_lt_of_deref href he
  · by_cases htype : e.ieBits.type = machPortTypeNone
    · exact ((ofType_counts q).1.2 e htype).trans_le (Nat.zero_le _)
    · refine le_count (c := fun e => e.sends q) ha (v := e.right) (.inl ⟨ptr.name, ?_⟩)
      rw [live, if_pos hrep.active, hrep.mem_rights]
      exact ⟨hm, htype⟩

/-- The receive right of an entry keeps its port alive, so entries stay as they should be. -/
theorem of_activeOr {x : PortState}
    (space : ∀ a ∈ spaces, (w.space a).isActive = true → ∃ free m, (w.space a).Rep its free m ∧
      ∀ n v, m n = some v → Storable x.ports v)
    (dying : ∀ a ∈ spaces, ∀ e ∈ w.dying a, Storable x.ports e.2 ∧ e.2.ieBits.gen < 2 ^ 8)
    (quiet : ∀ a ∈ spaces, (w.space a).isActive = true → w.dying a = [])
    (null : (x.ports.port ioNull).ipActive = false)
    (dead : (x.ports.port ioDead).ipActive = false)
    (active : ActiveOr (w.held spaces) x w.toPortState)
    (accounted : w.toPortState.Accounted ports fun q => w.held spaces q + lost q) :
    w.SoundBut its spaces ports lost := by
  have hkept : ∀ a ∈ spaces, ∀ v : IpcEntry, (v.ieBits.type ≠ machPortTypeNone →
        (∃ n, (n, v) ∈ w.live a) ∨ ∃ k, (k, v) ∈ w.dying a) →
      Storable x.ports v → Storable w.ports v := by
    intro a ha v hin hv
    refine ⟨hv.ok, fun hreceive => ?_⟩
    rcases (active v.ieObject).2 (hv.receiver hreceive) with hactive | hzero
    · exact hactive
    have htype : v.ieBits.type ≠ machPortTypeNone := by
      intro htype
      rw [htype] at hreceive
      cases hreceive
    have hle := le_count (c := fun e => e.receives v.ieObject) ha (hin htype)
    rw [IpcEntry.receives, if_pos ⟨hreceive, rfl⟩] at hle
    exact absurd hzero (ne_of_gt hle)
  have hinactive : ∀ q, (x.ports.port q).ipActive = false → (w.ports.port q).ipActive = false := by
    intro q hq
    rw [← Bool.not_eq_true]
    intro hactive
    rw [(active q).1 hactive] at hq
    cases hq
  refine ⟨fun a ha hactive => ?_, fun a ha e he => ?_, quiet, hinactive _ null, hinactive _ dead,
    accounted⟩
  · obtain ⟨free, m, hrep, hstore⟩ := space a ha hactive
    refine ⟨free, m, hrep, fun n v hv => hkept a ha v (fun htype => .inl ⟨n, ?_⟩) (hstore n v hv)⟩
    rw [live, if_pos hactive, hrep.mem_rights]
    exact ⟨hv, htype⟩
  · exact ⟨hkept a ha e.2 (fun _ => .inr ⟨e.1, he⟩) (dying a ha e he).1, (dying a ha e he).2⟩

end SoundBut

theorem held_update (w w' : World) (ha : a ∈ spaces) (hspace : ∀ b, b ≠ a → w'.space b = w.space b)
    (hdying : w'.dying = w.dying) {free' : List Nat}
    (h : (w.space a).Rep its free m)
    (h' : (w'.space a).Rep its free' (update m name o)) (q : Nat) :
    w'.held spaces q + rightsAt q (m name) = w.held spaces q + rightsAt q o := by
  have hcount : ∀ {c : IpcEntry → Nat}, OfType c →
      w'.count spaces c + (m name).elim 0 c = w.count spaces c + o.elim 0 c := by
    intro c hc
    have hchange := count_change c w w' ha fun b hb => by
      rw [live, live, hspace b hb, hdying]
      exact ⟨rfl, rfl⟩
    have hweight := h.weight_rights hc.2 h'
    rw [live, live, if_pos h.active, if_pos h'.active, hdying] at hchange
    omega
  have hrights : ∀ o : Option IpcEntry, rightsAt q o =
      ⟨o.elim 0 fun e => e.sends q, o.elim 0 fun e => e.sendsOnce q,
        o.elim 0 fun e => e.receives q⟩ := by
    intro o
    cases o <;> rfl
  rw [hrights, hrights]
  ext
  · exact hcount (ofType_counts q).1
  · exact hcount (ofType_counts q).2.1
  · exact hcount (ofType_counts q).2.2

theorem SoundBut.space_update (h : w.SoundBut its spaces ports lost) (w' : World) (ha : a ∈ spaces)
    (hactive : (w.space a).isActive = true)
    (hrep : (w'.space a).Rep its free m) (hstore : ∀ n v, m n = some v → Storable w.ports v)
    (hspace : ∀ b, b ≠ a → w'.space b = w.space b) (hdying : w'.dying = w.dying) :
    (∀ b ∈ spaces, (w'.space b).isActive = true → ∃ free m, (w'.space b).Rep its free m ∧
      ∀ n v, m n = some v → Storable w.ports v) ∧
    ∀ b ∈ spaces, (w'.space b).isActive = true → w'.dying b = [] := by
  rw [hdying]
  refine ⟨fun b hb hact => ?_, fun b hb hact => ?_⟩
  · by_cases heq : b = a
    · exact heq ▸ ⟨free, m, hrep, hstore⟩
    · rw [hspace b heq] at hact ⊢
      exact h.space b hb hact
  · by_cases heq : b = a
    · exact heq ▸ h.quiet a ha hactive
    · rw [hspace b heq] at hact
      exact h.quiet b hb hact

theorem storable_update (hstore : ∀ n v, m n = some v → Storable P v)
    (ho : ∀ v, o = some v → Storable P v) (n : Nat) (v : IpcEntry)
    (hv : update m name o n = some v) : Storable P v := by
  by_cases hn : n = name
  · rw [hn, update_self] at hv
    exact ho v hv
  · rw [update_of_ne hn] at hv
    exact hstore n v hv

/-! ## Operations on entries -/

theorem space_finish {s : IpcSpace} (hrep : s.Rep its free m)
    (href : s.Refers free ptr.name ptr.ref) {calls : List RightCall} {hash : IpcHash}
    (hstored : RightCall.entryDealloc ∈ calls.filter RightCall.inSpace ∨ Storable P e)
    (hshape : SpaceShape e (calls.filter RightCall.inSpace))
    (hx : calls.foldlM (SpaceState.call its ptr) ⟨s.write ptr.ref e, hash⟩ = some x) :
    ∃ free' o, x.space.Rep its free' (update m ptr.name o) ∧
      (∀ v, o = some v → Storable P v) ∧ (∀ q, q ≠ ioNull → rightsAt q o = rightsAt q (some e)) ∧
      ∀ n r, s.Refers free n r → (RightCall.entryDealloc ∉ calls.filter RightCall.inSpace ∨
        n ≠ ptr.name ∧ s.moved ptr.ref ≠ some n) → x.space.Refers free' n r := by
  obtain ⟨hwrite, href'⟩ := hrep.write href e
  rw [spaceCalls_eq] at hx
  rcases space_of_shape hshape hx with ⟨hkept, heq⟩ | ⟨hmem, hobject, calls', hdealloc⟩
  · rw [heq]
    refine ⟨free, some e.right, hwrite, fun v hv => ?_, fun _ _ => rfl,
      fun n r hr _ => hrep.refers_write href e hr⟩
    cases hv
    exact (storable_right P e).mpr (hstored.resolve_left hkept)
  obtain ⟨s', free', hs', hrep', -, htree⟩ :=
    hwrite.dealloc href' fun e' he' => (hrep.object_write href e he').trans hobject
  rw [hs'] at hdealloc
  cases hdealloc
  have hrep₁ := hrep'
  rw [update_idem] at hrep₁
  refine ⟨free', none, hrep₁, nofun, fun q hq => ?_, fun n r hr hother => ?_⟩
  · have hne : e.ieObject ≠ q := hobject ▸ hq.symm
    simp [rightsAt, IpcEntry.sends, IpcEntry.sendsOnce, IpcEntry.receives, hne, Rights.zero]
  · obtain ⟨hne, hmoved⟩ := hother.resolve_left (not_not.mpr hmem)
    exact hwrite.refers_dealloc hrep' htree (hrep.refers_write href e hr) hne
      (IpcSpace.moved_write s ptr.ref e ▸ hmoved)

namespace SoundBut

variable {ptr : EntryPtr} {lockTry : Bool} {fuel : Nat}

variable (h : w.SoundBut its spaces ports lost)
  {e : IpcEntry} {α : Type} {f : RightState → α × RightState} {r : α × World}

include h

section

variable (ha : ptr.space ∈ spaces)
include ha

theorem finish (hrep : (w.space ptr.space).Rep its free m)
    (href : (w.space ptr.space).Refers free ptr.name ptr.ref)
    (hstore : ∀ n v, m n = some v → Storable w.ports v) (hm : m ptr.name = some e.right)
    {s : RightState} {gain lose lost₁ : Nat → Rights}
    (heffect : ∀ q, EntryEffect q ⟨e, w.ports, []⟩ s (gain q + lost₁ q) (lose q))
    (hlose : ∀ q, lose q ≤ w.naked q)
    (hfinish : w.finish its lockTry fuel ptr s gain lose = some w') :
    w'.SoundBut its spaces ports fun q => lost q + lost₁ q := by
  obtain ⟨x, hx, hrest⟩ := bind_eq_some_iff.mp hfinish
  obtain ⟨y, hy, rfl⟩ := map_eq_some_iff.mp hrest
  have hself : ((w.setSpaceState ptr.space x).setPortState y).space ptr.space = x.space :=
    update_self ..
  have hother : ∀ b, b ≠ ptr.space →
      ((w.setSpaceState ptr.space x).setPortState y).space b = w.space b :=
    fun b hb => update_of_ne hb ..
  obtain ⟨free', o, hrep', ho, hrights, -⟩ :=
    space_finish hrep href (heffect 0).stored (heffect 0).shape hx
  have hheld : ∀ q, q ≠ ioNull →
      ((w.setSpaceState ptr.space x).setPortState y).held spaces q + lost q +
          rightsAt q (some e) =
        w.held spaces q + lost q + rightsAt q (some s.entry) := by
    intro q hq
    have hupdate := held_update w ((w.setSpaceState ptr.space x).setPortState y) ha hother rfl hrep
      (hself ▸ hrep') q
    rw [hm] at hupdate
    rw [← hrights q hq, Rights.add_right_comm, Rights.add_right_comm (w.held spaces q), ← hupdate]
    rfl
  obtain ⟨hacc, hactive⟩ := (h.accounted.effect gain lose lost₁ h.null h.dead
    (fun q => (heffect q).toPortEffect) hlose hheld).calls hy
  have hactive₁ : ∀ q, (s.ports.port q).ipActive = (w.ports.port q).ipActive :=
    fun q => (heffect q).active
  obtain ⟨hspace, hquiet⟩ := h.space_update
    ((w.setSpaceState ptr.space x).setPortState y) ha hrep.active (hself ▸ hrep')
    (storable_update hstore ho) hother rfl
  refine .of_activeOr hspace h.dying hquiet h.null h.dead
    (fun q => ⟨fun hq => ?_, fun hq => ?_⟩) (hacc.congr fun q hq => ?_)
  · exact (hactive₁ q).symm.trans ((hactive q).1 hq)
  · rcases (hactive q).2 ((hactive₁ q).trans hq) with hact | hzero
    · exact .inl hact
    · rw [Rights.add_receive, Rights.add_receive] at hzero
      exact .inr (by omega)
  · exact (Rights.add_assoc ..).symm

theorem act (hptr : w.Points its ptr)
    {gain lose : α → Nat → Rights} (lost₁ : Nat → Rights)
    (heffect : ∀ e, w.deref ptr = some e → (⟨e, w.ports, []⟩ : RightState).Ready → ∀ q,
      EntryEffect q ⟨e, w.ports, []⟩ (f ⟨e, w.ports, []⟩).2
        (gain (f ⟨e, w.ports, []⟩).1 q + lost₁ q) (lose (f ⟨e, w.ports, []⟩).1 q))
    (hlose : ∀ r q, lose r q ≤ w.naked q)
    (hact : w.act its lockTry fuel ptr f gain lose = some r) :
    r.2.SoundBut its spaces ports fun q => lost q + lost₁ q := by
  obtain ⟨free, m, e, hrep, href, hstore, he, hm, hready⟩ := h.points ha hptr
  obtain ⟨e', he', hrest⟩ := bind_eq_some_iff.mp hact
  obtain rfl : e = e' := some.inj (he.symm.trans he')
  obtain ⟨w', hfinish, rfl⟩ := map_eq_some_iff.mp hrest
  exact h.finish ha hrep href hstore hm (heffect e he hready) (hlose _) hfinish

theorem act_keep (hptr : w.Points its ptr)
    {gain lose : α → Nat → Rights}
    (heffect : ∀ e, w.deref ptr = some e → (⟨e, w.ports, []⟩ : RightState).Ready → ∀ q,
      EntryEffect q ⟨e, w.ports, []⟩ (f ⟨e, w.ports, []⟩).2 (gain (f ⟨e, w.ports, []⟩).1 q)
        (lose (f ⟨e, w.ports, []⟩).1 q))
    (hlose : ∀ r q, lose r q ≤ w.naked q)
    (hact : (w.act its lockTry fuel ptr f gain lose).map Prod.snd = some w') :
    w'.SoundBut its spaces ports lost := by
  obtain ⟨r, hr, rfl⟩ := map_eq_some_iff.mp hact
  exact h.act ha hptr (fun _ => .zero) heffect hlose hr

/-- Pointers stay good through an operation that does not deallocate the entry, and so do
those to other entries unless they move. -/
theorem act_points (hptr : w.Points its ptr)
    {gain lose : α → Nat → Rights} {gain' lose' : Rights}
    (he : w.deref ptr = some e)
    (heffect : EntryEffect 0 ⟨e, w.ports, []⟩ (f ⟨e, w.ports, []⟩).2 gain' lose')
    (hact : w.act its lockTry fuel ptr f gain lose = some r) :
    (f ⟨e, w.ports, []⟩).1 = r.1 ∧ ∀ new : EntryPtr, new.space = ptr.space → w.Points its new →
        (RightCall.entryDealloc ∉ (handed 0 (f ⟨e, w.ports, []⟩).2.calls).space ∨
          new.name ≠ ptr.name ∧ (w.space ptr.space).moved ptr.ref ≠ some new.name) →
        r.2.Points its new ∧ (new.name ≠ ptr.name → ∀ e', r.2.deref new = some e' →
          ∃ e₀, w.deref new = some e₀ ∧ e'.right = e₀.right) := by
  obtain ⟨free, m, e₁, hrep, href, -, he₁, -⟩ := h.points ha hptr
  obtain ⟨e', he', hrest⟩ := bind_eq_some_iff.mp hact
  obtain rfl : e = e' := some.inj (he.symm.trans he')
  obtain ⟨w', hfinish, rfl⟩ := map_eq_some_iff.mp hrest
  obtain ⟨x, hx, hrest⟩ := bind_eq_some_iff.mp hfinish
  obtain ⟨y, -, rfl⟩ := map_eq_some_iff.mp hrest
  obtain ⟨free', o, hrep', -, -, hrefers⟩ :=
    space_finish hrep href heffect.stored heffect.shape hx
  refine ⟨rfl, fun new hspace hnew hkept => ?_⟩
  obtain ⟨free₀, hcore₀, hrefn⟩ := hnew
  rw [hspace] at hcore₀ hrefn
  obtain rfl := hrep.chain.unique hcore₀.chain
  have hself : ((w.setSpaceState ptr.space x).setPortState y).space new.space = x.space := by
    rw [hspace]
    exact update_self ..
  have hrefn' := hrefers new.name new.ref hrefn hkept
  refine ⟨⟨free', hself ▸ hrep'.toCore, hself ▸ hrefn'⟩, fun hne e' he' => ?_⟩
  obtain ⟨e₀, he₀, hm₀⟩ := hrep.deref hrefn
  obtain ⟨e₁, he₁, hm₁⟩ := hrep'.deref hrefn'
  rw [deref, hself] at he'
  obtain rfl : e' = e₁ := some.inj (he'.symm.trans he₁)
  rw [update_of_ne hne, hm₀] at hm₁
  exact ⟨e₀, by rw [deref, hspace]; exact he₀, (some.inj hm₁).symm⟩

end

variable {free' : List Nat}

theorem remap (ha : a ∈ spaces)
    (hrep : (w.space a).Rep its free m) (hstore : ∀ n v, m n = some v → Storable w.ports v)
    (hrep' : x.space.Rep its free' (update m name o))
    (ho : ∀ v, o = some v → Storable w.ports v)
    (hrights : ∀ q, rightsAt q o = rightsAt q (m name)) :
    (w.setSpaceState a x).SoundBut its spaces ports lost := by
  have hself : (w.setSpaceState a x).space a = x.space := update_self ..
  have hother : ∀ b, b ≠ a → (w.setSpaceState a x).space b = w.space b :=
    fun b hb => update_of_ne hb ..
  obtain ⟨hspace, hquiet⟩ := h.space_update (w.setSpaceState a x) ha hrep.active
    (hself ▸ hrep') (storable_update hstore ho) hother rfl
  have hheld : ∀ q, (w.setSpaceState a x).held spaces q = w.held spaces q := by
    intro q
    have hupdate := held_update w (w.setSpaceState a x) ha hother rfl hrep (hself ▸ hrep') q
    rw [hrights q] at hupdate
    exact Rights.add_cancel hupdate
  exact .of_activeOr hspace h.dying hquiet h.null h.dead
    (.refl w.toPortState) (h.accounted.congr fun q _ => congrArg (· + lost q) (hheld q))

theorem alloc (ha : a ∈ spaces)
    {s : IpcSpace} {calls : List HashCall}
    (hrep : (w.space a).Rep its free m)
    (hrep' : s.Rep its free' m ∨
      ∃ name, m name = none ∧ s.Rep its free' (update m name (some .zero)))
    (halloc : w.alloc a s calls = some w') : w'.SoundBut its spaces ports lost := by
  obtain ⟨-, -, rfl⟩ := map_eq_some_iff.mp halloc
  obtain ⟨free₁, m₁, hrep₁, hstore⟩ := h.space a ha hrep.active
  obtain rfl : m₁ = m := hrep₁.map_unique hrep
  rcases hrep' with hrep' | ⟨name, hnone, hrep'⟩
  · have hsame : s.Rep its free' (update m₁ 0 (m₁ 0)) := by
      rw [update_eq_self]
      exact hrep'
    exact h.remap ha hrep hstore hsame (hstore 0) fun _ => rfl
  · refine h.remap ha hrep hstore hrep' (fun v hv => ?_) fun q => ?_
    · cases hv
      exact ⟨.none rfl (Nat.zero_le _), nofun⟩
    · rw [hnone]
      rfl

theorem entryDealloc (ha : ptr.space ∈ spaces) (hptr : w.Points its ptr)
    (hfree : ∀ e, w.deref ptr = some e → e.ieBits.type = machPortTypeNone ∧ e.ieObject = ioNull)
    (hstep : w.entryDealloc its ptr = some w') : w'.SoundBut its spaces ports lost := by
  obtain ⟨free, m, e, hrep, href, hstore, he, hm, -⟩ := h.points ha hptr
  obtain ⟨x, hx, rfl⟩ := map_eq_some_iff.mp hstep
  obtain ⟨⟨s, calls⟩, hs, hrest⟩ := bind_eq_some_iff.mp hx
  obtain ⟨-, -, rfl⟩ := map_eq_some_iff.mp hrest
  obtain ⟨s', free', hs', hrep', -⟩ := hrep.dealloc href fun e he => (hfree e he).2
  obtain ⟨rfl, -⟩ := Prod.mk.inj (some.inj (hs.symm.trans hs'))
  refine h.remap ha hrep hstore hrep' nofun fun q => ?_
  rw [hm, rightsAt_of_type q (hfree e he).1]
  rfl

end SoundBut

end World

end Mach
