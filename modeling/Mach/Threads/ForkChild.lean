import Mathlib.Data.List.Basic

/-!
# The child of a fork

`cthread_fork_prepare` takes the locks of the C Threads library (`cthreads.c`, `cprocs.c`,
`malloc.c`) and `cthread_fork_child` is to leave a fresh library with one cthread.

It does not.  The loop over the cprocs never advances, since `m-l->next` does not assign `m`, and
the pointer is what the stack held.  `free` waits for the locks of the allocator, which are given
back only later.  If the child ends, `mig_init(1)` has written through the address 1
(`forkChild_not_fresh`).
-/

namespace Mach

/-- A lock that `cthread_fork_prepare` takes; those of the allocator are one. -/
inductive ForkLock where
  | freeLock
  | cthreadLock
  | malloc
  | portLock
  | cprocListLock
deriving Repr, DecidableEq

/-- Why the child has not ended. -/
inductive ForkStop where
  /-- It waits for a lock that nobody gives back. -/
  | waits (lock : ForkLock)
  | outOfFuel
deriving Repr, DecidableEq

/-- The library at the fork.  Records are given by their addresses. -/
structure CthreadsImage where
  /-- The cproc of the caller. -/
  self : Nat
  /-- `cproc_list`, linked by `list`. -/
  cprocs : List Nat
  portList : List Nat
  /-- The queue `cthreads`, then `free_cthreads`. -/
  cthreads : List Nat
  /-- `wired` of the caller. -/
  wired : Nat
  /-- The word before the address points into `malloc_free_list`. -/
  isBlock : Nat → Bool
  self_mem : self ∈ cprocs
  blocks : ∀ a ∈ cprocs ++ portList ++ cthreads, isBlock a = true
  /-- A header is four bytes, at a multiple of eight. -/
  aligned : ∀ a ∈ cprocs ++ portList ++ cthreads, a % 8 = 4

/-- What the child has made of it. -/
structure ForkChild where
  held : List ForkLock := [.cprocListLock, .portLock, .malloc, .cthreadLock, .freeLock]
  cprocs : List Nat
  portList : List Nat
  cthreads : List Nat
  kernelThreads : Int := 0
  cthreadCprocs : Int := 0
  cthreadCthreads : Int := 0
  wired : Nat
  /-- The names of ports in the child's space. -/
  names : List Nat := []
  freed : List Nat := []
  /-- The cprocs that were written, by their addresses. -/
  written : List Nat := []
deriving Repr, DecidableEq

namespace ForkChild

variable (lib : CthreadsImage)

/-- `free`.  It waits if the lock is held. -/
def free (base : Nat) (c : ForkChild) : Except ForkStop ForkChild :=
  if base = 0 ∨ lib.isBlock base = false then .ok c
  else if .malloc ∈ c.held then .error (.waits .malloc)
  else .ok { c with freed := base :: c.freed }

/-- `free` for each block. -/
def freeAll : List Nat → ForkChild → Except ForkStop ForkChild
  | [], c => .ok c
  | base :: rest, c => (c.free lib base).bind (freeAll rest)

/-- The loop over `cproc_list`, where `m` is not assigned. -/
def cprocLoop (m : Nat) : Nat → Nat → ForkChild → Except ForkStop ForkChild
  | 0, _, _ => .error .outOfFuel
  | fuel + 1, l, c =>
    if l = 0 then .ok c
    else (if l = lib.self then .ok c else c.free lib l).bind (cprocLoop m fuel m)

/-- A lock is released. -/
def unlock (lock : ForkLock) (c : ForkChild) : ForkChild := { c with held := c.held.erase lock }

/-- `cthread_wire`, with the name of a new port. -/
def cthreadWire (name : Nat) (c : ForkChild) : ForkChild :=
  if c.wired = 0 then { c with wired := name, names := name :: c.names } else c

/-- The last line of `cproc_fork_child`. -/
def rewire (name : Nat) (c : ForkChild) : ForkChild := if c.wired = 0 then c else c.cthreadWire name

/-- `mig_init`. -/
def migInit (initial : Nat) (c : ForkChild) : ForkChild :=
  if initial = 0 then c else { c with written := initial :: c.written }

/-- `cproc_fork_child` after the loop; `p->next` is not the link of `cproc_list`. -/
def cprocForkChildRest (waitPort name : Nat) (c : ForkChild) : Except ForkStop ForkChild :=
  let c := unlock .cprocListLock { c with
    cprocs := lib.cprocs.dropWhile (· ≠ lib.self)
    written := lib.self :: c.written
    names := waitPort :: c.names }
  (freeAll lib c.portList c).bind fun c =>
    .ok (rewire name (unlock .portLock { c with portList := [] }))

/-- `cthread_fork_child` after `cproc_fork_child`. -/
def cthreadForkChildRest (c : ForkChild) : Except ForkStop ForkChild :=
  let c := ((c.unlock .malloc).unlock .cthreadLock).unlock .freeLock
  (freeAll lib c.cthreads c).bind fun c =>
    .ok (migInit 1 { c with cthreads := [], cthreadCprocs := 1, cthreadCthreads := 1 })

/-- `cthread_fork_child`, where `m` is what the stack held. -/
def cthreadForkChild (m waitPort name fuel : Nat) : Except ForkStop ForkChild :=
  let start : ForkChild := {
    cprocs := lib.cprocs, portList := lib.portList, cthreads := lib.cthreads, wired := lib.wired }
  ((cprocLoop lib m fuel (lib.cprocs.headD 0) start).bind
    (cprocForkChildRest lib waitPort name)).bind (cthreadForkChildRest lib)

/-- The library is as `cthread_init` leaves it. -/
structure Fresh (c : ForkChild) : Prop where
  held : c.held = []
  cprocs : c.cprocs = [lib.self]
  freed : ∀ a, a ∈ lib.cprocs ∧ a ≠ lib.self ∨ a ∈ lib.portList → c.freed.count a = 1
  counts : c.kernelThreads = 1 ∧ c.cthreadCprocs = 1 ∧ c.cthreadCthreads = 1
  wired : lib.wired ≠ 0 → c.wired ∈ c.names
  written : ∀ a ∈ c.written, a ∈ lib.cprocs

variable {lib} {m waitPort name fuel l : Nat} {c c' : ForkChild}

theorem free_block (hl : l ∈ lib.cprocs ++ lib.portList ++ lib.cthreads) :
    c.free lib l = if .malloc ∈ c.held then .error (.waits .malloc)
      else .ok { c with freed := l :: c.freed } := by
  have haligned := lib.aligned l hl
  exact if_neg (by simp [lib.blocks l hl]; omega)

theorem freeAll_ok {bases : List Nat} (hbases : ∀ l ∈ bases, l ∈ lib.cthreads)
    (hheld : .malloc ∉ c.held) : ∃ c', freeAll lib bases c = .ok c' := by
  induction bases generalizing c with
  | nil => exact ⟨c, rfl⟩
  | cons base rest ih =>
    have hfree := free_block (c := c) (List.mem_append_right (lib.cprocs ++ lib.portList)
      (hbases base List.mem_cons_self))
    rw [if_neg hheld] at hfree
    obtain ⟨c', hc'⟩ := ih (c := { c with freed := base :: c.freed })
      (fun l hl => hbases l (List.mem_cons_of_mem _ hl)) hheld
    exact ⟨c', by rw [freeAll, hfree]; exact hc'⟩

theorem bind_eq_ok {x : Except ForkStop ForkChild} {f : ForkChild → Except ForkStop ForkChild} :
    x.bind f = .ok c' ↔ ∃ c, x = .ok c ∧ f c = .ok c' := by
  cases x <;> simp [Except.bind]

/-- From the pointer that nothing assigns, the loop ends only at once. -/
theorem cprocLoop_stack (hheld : .malloc ∈ c.held) (h : cprocLoop lib m fuel m c = .ok c') :
    m = 0 ∧ c' = c := by
  induction fuel with
  | zero => cases h
  | succ fuel ih =>
    rw [cprocLoop] at h
    split at h
    next hm =>
      cases h
      exact ⟨hm, rfl⟩
    obtain ⟨c₁, hc₁, h⟩ := bind_eq_ok.mp h
    obtain rfl : c = c₁ := by
      rw [free, if_pos hheld] at hc₁
      split at hc₁
      next => exact Except.ok.inj hc₁
      split at hc₁
      next => exact Except.ok.inj hc₁
      next => cases hc₁
    exact ih h

theorem cprocLoop_cprocs (hheld : .malloc ∈ c.held)
    (h : cprocLoop lib m fuel (lib.cprocs.headD 0) c = .ok c') :
    lib.cprocs.headD 0 = lib.self ∧ m = 0 ∧ c' = c := by
  obtain ⟨l, rest, hl⟩ := List.exists_cons_of_ne_nil (List.ne_nil_of_mem lib.self_mem)
  have hmem : l ∈ lib.cprocs ++ lib.portList ++ lib.cthreads := by simp [hl]
  have haligned := lib.aligned l hmem
  rw [hl, List.headD_cons] at h ⊢
  cases fuel with
  | zero => cases h
  | succ fuel =>
    rw [cprocLoop, if_neg (by omega), free_block hmem, if_pos hheld] at h
    obtain ⟨c₁, hc₁, h⟩ := bind_eq_ok.mp h
    split at hc₁
    next hself =>
      cases hc₁
      exact ⟨hself, cprocLoop_stack hheld h⟩
    next => cases hc₁

theorem cthreadForkChildRest_ok (hcthreads : c.cthreads = lib.cthreads)
    (hheld : .malloc ∉ (((c.unlock .malloc).unlock .cthreadLock).unlock .freeLock).held) :
    ∃ c', cthreadForkChildRest lib c = .ok c' := by
  obtain ⟨c', hc'⟩ := freeAll_ok (fun l (hl : l ∈ c.cthreads) => hcthreads ▸ hl) hheld
  exact ⟨_, bind_eq_ok.mpr ⟨c', hc', rfl⟩⟩

/-- A wired caller keeps the name of its port. -/
theorem rewire_eq : c.rewire name = c := ite_eq_left_iff.mpr fun hwired => if_neg hwired

/-- The child ends in one case only, and never with a fresh library. -/
theorem forkChild_not_fresh (lib : CthreadsImage) (m waitPort name : Nat) :
    ((∃ fuel c, cthreadForkChild lib m waitPort name fuel = .ok c) ↔
      lib.cprocs.headD 0 = lib.self ∧ m = 0 ∧ lib.portList = []) ∧
    ∀ fuel c, cthreadForkChild lib m waitPort name fuel = .ok c → ¬ c.Fresh lib := by
  refine ⟨⟨?_, ?_⟩, ?_⟩
  · rintro ⟨fuel, c, h⟩
    obtain ⟨c₂, h₂, -⟩ := bind_eq_ok.mp h
    obtain ⟨c₁, h₁, h₂⟩ := bind_eq_ok.mp h₂
    obtain ⟨hself, hm, rfl⟩ := cprocLoop_cprocs (by simp) h₁
    refine ⟨hself, hm, ?_⟩
    cases hports : lib.portList with
    | nil => rfl
    | cons pe rest =>
      have hpe : pe ∈ lib.cprocs ++ lib.portList ++ lib.cthreads := by simp [hports]
      simp [cprocForkChildRest, hports, freeAll, free_block hpe, unlock, Except.bind] at h₂
  · rintro ⟨hself, rfl, hports⟩
    have haligned := lib.aligned lib.self (by simp [lib.self_mem])
    have hne : lib.self ≠ 0 := by omega
    refine ⟨2, ?_⟩
    simp only [cthreadForkChild, cprocLoop, hself, hne, if_true, if_false, Except.bind,
      cprocForkChildRest, hports, freeAll, rewire_eq, unlock]
    exact cthreadForkChildRest_ok rfl (by simp [unlock])
  · intro fuel c h hfresh
    obtain ⟨c₁, -, h₁⟩ := bind_eq_ok.mp h
    obtain ⟨c₂, -, h₂⟩ := bind_eq_ok.mp h₁
    cases h₂
    have haligned := lib.aligned 1 (by simp [hfresh.written 1 (by simp [migInit])])
    omega

/-- A cproc that comes before the caller's. -/
def secondFirst : CthreadsImage where
  self := 4
  cprocs := [12, 4]
  portList := []
  cthreads := []
  wired := 0
  isBlock _ := true
  self_mem := by decide
  blocks _ _ := rfl
  aligned := by decide

theorem forkChild_waits : cthreadForkChild secondFirst 0 1 2 1 = .error (.waits .malloc) := rfl

end ForkChild

end Mach
