import Mathlib.Algebra.GroupWithZero.Nat
import Mathlib.Algebra.BigOperators.Group.List.Basic
import Mathlib.Data.List.Nodup

/-!
# Weighing association lists

The weight of an association list is the sum of the weights of its values.  When the keys
are distinct, lists with the same members weigh the same whatever their order, and
changing the value of one key changes the weight by the difference (`weight_update`).
-/

universe u v

/-- The sum of the weights of the values. -/
def weight {κ : Type u} {β : Type v} (c : β → Nat) (l : List (κ × β)) : Nat :=
  (l.map fun e => c e.2).sum

/-- No key occurs twice. -/
def Keyed {κ : Type u} {β : Type v} (l : List (κ × β)) : Prop := (l.map Prod.fst).Nodup

section

variable {κ : Type u} {β : Type v} {c : β → Nat} {l l' : List (κ × β)}

@[simp] theorem weight_nil : weight c ([] : List (κ × β)) = 0 := rfl

@[simp] theorem weight_cons (e : κ × β) : weight c (e :: l) = c e.2 + weight c l := by
  simp [weight]

@[simp] theorem weight_append : weight c (l ++ l') = weight c l + weight c l' := by
  simp [weight]

@[simp] theorem weight_map {κ' : Type u} (f : κ × β → κ') :
    weight c (l.map fun e => (f e, e.2)) = weight c l := by
  simp [weight, Function.comp_def]

theorem weight_perm (h : l.Perm l') : weight c l = weight c l' :=
  List.Perm.sum_eq (h.map fun e : κ × β => c e.2)

theorem le_weight {e : κ × β} (h : e ∈ l) : c e.2 ≤ weight c l := by
  obtain ⟨l₁, l₂, rfl⟩ := List.append_of_mem h
  rw [weight_append, weight_cons]
  omega

theorem Keyed.nodup (h : Keyed l) : l.Nodup := .of_map _ h

/-- Distinct keys determine the list up to its order. -/
theorem Keyed.perm (h : Keyed l) (h' : Keyed l') (hmem : ∀ e, e ∈ l ↔ e ∈ l') : l.Perm l' :=
  (List.perm_ext_iff_of_nodup h.nodup h'.nodup).mpr hmem

theorem Keyed.filter (h : Keyed l) (p : κ × β → Bool) : Keyed (l.filter p) :=
  h.sublist (List.filter_sublist.map _)

theorem Keyed.append (h : Keyed l) (h' : Keyed l')
    (hdisj : ∀ e ∈ l, ∀ e' ∈ l', e.1 ≠ e'.1) : Keyed (l ++ l') := by
  rw [Keyed, List.map_append]
  refine .append h h' fun k hk hk' => ?_
  obtain ⟨e, he, rfl⟩ := List.mem_map.mp hk
  obtain ⟨e', he', heq⟩ := List.mem_map.mp hk'
  exact hdisj e he e' he' heq.symm

variable {k : κ} {o : Option β}

theorem Keyed.perm_cons [DecidableEq κ] (h : Keyed l) (ho : ∀ v, (k, v) ∈ l ↔ o = some v) :
    l.Perm ((o.map (Prod.mk k)).toList ++ l.filter fun e => e.1 ≠ k) := by
  refine h.perm (append ?_ (h.filter _) ?_) fun e => ?_
  · cases o <;> simp [Keyed]
  · intro e he e' he'
    obtain ⟨v, -, rfl⟩ : ∃ v, o = some v ∧ (k, v) = e := by simpa using he
    rintro rfl
    simpa using (List.mem_filter.mp he').2
  · obtain ⟨n, v⟩ := e
    by_cases hn : n = k
    · subst hn
      simp [ho]
    · simp [hn, Ne.symm hn]

theorem weight_update [DecidableEq κ] (h : Keyed l) (h' : Keyed l') {o' : Option β}
    (ho : ∀ v, (k, v) ∈ l ↔ o = some v) (ho' : ∀ v, (k, v) ∈ l' ↔ o' = some v)
    (hother : ∀ n v, n ≠ k → ((n, v) ∈ l' ↔ (n, v) ∈ l)) :
    weight c l' + o.elim 0 c = weight c l + o'.elim 0 c := by
  have hrest : (l'.filter fun e => e.1 ≠ k).Perm (l.filter fun e => e.1 ≠ k) := by
    refine (h'.filter _).perm (h.filter _) fun e => ?_
    rw [List.mem_filter, List.mem_filter, decide_eq_true_eq, and_congr_left_iff]
    exact hother e.1 e.2
  have hval : ∀ o : Option β, weight c (o.map (.mk k)).toList = o.elim 0 c := by
    rintro (_ | v) <;> simp
  rw [weight_perm (h.perm_cons ho), weight_perm (h'.perm_cons ho'), weight_append, weight_append,
    weight_perm hrest, hval, hval]
  omega

end
