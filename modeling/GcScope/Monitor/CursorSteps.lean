import GcScope.Monitor.Cursor

/-!
# What one step of the cursor does

Each operation of the cursor, described by what it leaves under every key.

* `evicts_spec`: an eviction takes the interpreter seen least recently, out of a full set that
  lacks the newcomer.
* `retain_rings`, `retain_retainedOf_self`: the gate's effect on the accumulators and on the kept set.
* **`admitRecord_ring`**, **`admitRecord_outs`**: an offered Record is accepted exactly when it is
  eligible and its ring admits it, and then only its ring moves.
* `forget_ring`: forgetting clears the process and nothing else.
-/

set_option autoImplicit false

namespace GcScope

open Std (ExtTreeMap TransCmp LawfulEqCmp)
open StableSort MachineInt

/-- A Record the cursor may accept: finished, with a positive counter. -/
def GcStat.Eligible (r : GcStat) : Prop := r.isComplete = true ∧ 0 < r.collections

instance (r : GcStat) : Decidable r.Eligible := by unfold GcStat.Eligible; infer_instance

namespace Cursor

variable {F : Type} (c : Cursor F)

/-! ## The gate -/

theorem stalest_spec {m : ExtTreeMap ℤ ℕ} {s : ℤ} (h : stalest m = some s) :
    ∃ seen, m[s]? = some seen ∧ ∀ (i : ℤ) (seen' : ℕ), m[i]? = some seen' → seen ≤ seen' := by
  obtain ⟨e, he, rfl⟩ := Option.map_eq_some_iff.mp h
  obtain ⟨hmem, hmin⟩ := List.min?_eq_some_iff.mp he
  obtain ⟨⟨i, seen⟩, hi, rfl⟩ := List.mem_map.mp hmem
  refine ⟨seen, ExtTreeMap.mem_toList_iff_getElem?_eq_some.mp hi, fun j seen' hj => ?_⟩
  have hle := hmin _ (List.mem_map_of_mem (f := fun e : ℤ × ℕ => toLex (e.2, e.1))
    (ExtTreeMap.mem_toList_iff_getElem?_eq_some.mpr hj))
  exact Prod.Lex.monotone_fst _ _ hle

theorem stalest_isSome {m : ExtTreeMap ℤ ℕ} (h : m ≠ ∅) : (stalest m).isSome := by
  rw [stalest, Option.isSome_map, List.isSome_min?_iff, ne_eq, List.map_eq_nil_iff,
    ExtTreeMap.toList_eq_nil_iff]
  exact h

/-- **An eviction takes the interpreter seen least recently, out of a full set that lacks the
newcomer.** -/
theorem evicts_spec {pid : ℕ} {i s : ℤ} (h : c.evicts pid i = some s) :
    (c.retainedOf pid)[i]? = none ∧ maxRetainedInterpreters ≤ (c.retainedOf pid).size ∧
      ∃ seen, (c.retainedOf pid)[s]? = some seen ∧
        ∀ (j : ℤ) (seen' : ℕ), (c.retainedOf pid)[j]? = some seen' → seen ≤ seen' := by
  unfold evicts at h
  split_ifs at h with hc hs
  refine ⟨?_, not_lt.mp hs, stalest_spec h⟩
  exact ExtTreeMap.getElem?_eq_none_of_contains_eq_false (Bool.eq_false_iff.mpr hc)

theorem evicts_ne_self (pid : ℕ) (i : ℤ) : c.evicts pid i ≠ some i := fun h => by
  obtain ⟨hi, -, seen, hs, -⟩ := c.evicts_spec h
  rw [hi] at hs
  cases hs

theorem retain_rings (pid : ℕ) (i : ℤ) (K : RingKey) : (c.retain pid i).rings[K]? =
    if K.pid = pid ∧ c.evicts pid i = some K.interpreter then none else c.rings[K]? := by
  unfold retain
  cases h : c.evicts pid i with
  | none => simp
  | some s =>
    simp only [dropInterpreter, ExtTreeMap.getElem?_filter', Option.some.injEq]
    cases hK : c.rings[K]? with
    | none => simp
    | some o =>
      by_cases h₁ : K.pid = pid <;> by_cases h₂ : s = K.interpreter
      · simp [h₁, h₂]
      · simp [h₁, h₂, Ne.symm h₂]
      · simp [h₁]
      · simp [h₁]

theorem retain_ring_self (pid : ℕ) (r : GcStat) :
    (c.retain pid r.interpreterId).rings[r.ring pid]? = c.rings[r.ring pid]? := by
  rw [retain_rings, if_neg]
  rintro ⟨-, h⟩
  exact c.evicts_ne_self pid _ h

theorem retain_retainedOf_self (pid : ℕ) (i : ℤ) : (c.retain pid i).retainedOf pid =
    (match c.evicts pid i with
      | none => c.retainedOf pid
      | some s => (c.retainedOf pid).erase s).insert i c.polls := by
  unfold retain
  cases c.evicts pid i <;> simp [retainedOf, dropInterpreter]

theorem retain_retainedOf_ne {pid pid' : ℕ} (h : pid' ≠ pid) (i : ℤ) :
    (c.retain pid i).retainedOf pid' = c.retainedOf pid' := by
  unfold retain
  cases c.evicts pid i <;>
    simp [retainedOf, dropInterpreter, ExtTreeMap.getD_insert, h.symm]

@[simp] theorem retain_polls (pid : ℕ) (i : ℤ) : (c.retain pid i).polls = c.polls := by
  unfold retain
  cases c.evicts pid i <;> rfl

@[simp] theorem raiseCertainty_rings (pid : ℕ) (i m : ℤ) :
    (c.raiseCertainty pid i m).rings = c.rings := by
  unfold raiseCertainty; split_ifs <;> rfl

@[simp] theorem raiseCertainty_retained (pid : ℕ) (i m : ℤ) :
    (c.raiseCertainty pid i m).retained = c.retained := by
  unfold raiseCertainty; split_ifs <;> rfl

@[simp] theorem raiseCertainty_polls (pid : ℕ) (i m : ℤ) :
    (c.raiseCertainty pid i m).polls = c.polls := by
  unfold raiseCertainty; split_ifs <;> rfl

@[simp] theorem tick_rings : c.tick.rings = c.rings := rfl
@[simp] theorem tick_retained : c.tick.retained = c.retained := rfl
@[simp] theorem tick_polls : c.tick.polls = c.polls + 1 := rfl

/-! ## Offering a Record -/

section Offer

variable [F64 F]

theorem observationOrDefault_eq (K : RingKey) :
    c.observationOrDefault K = (c.rings[K]?).getD default := ExtTreeMap.getD_eq_getD_getElem?

/-- **A Record is accepted exactly when it is eligible and its ring admits its counter.** -/
theorem admitRecord_outs (pid : ℕ) (r : GcStat) : (admitRecord pid c r).2 =
    if r.Eligible ∧ (c.observationOrDefault (r.ring pid)).admits r.collections then [r] else [] := by
  have ho : (c.retain pid r.interpreterId).observationOrDefault (r.ring pid) =
      c.observationOrDefault (r.ring pid) := by
    rw [observationOrDefault_eq, retain_ring_self, ← observationOrDefault_eq]
  unfold admitRecord GcStat.Eligible
  simp only [ho]
  by_cases h₁ : r.isComplete = true
  · by_cases h₂ : r.collections ≤ 0
    · simp [h₁, h₂]
    · by_cases h₃ : (c.observationOrDefault (r.ring pid)).admits r.collections = true <;>
        simp [h₁, h₂, h₃, not_le.mp h₂]
  · simp [h₁]

/-- **Only the offered Record's ring moves, and only when the Record is eligible**, the gate's
eviction apart. -/
theorem admitRecord_ring (pid : ℕ) (r : GcStat) (K : RingKey) :
    (admitRecord pid c r).1.rings[K]? =
      if r.ring pid = K ∧ r.Eligible then
        some (if (c.observationOrDefault K).admits r.collections then
          (c.observationOrDefault K).fold r else c.observationOrDefault K)
      else (c.retain pid r.interpreterId).rings[K]? := by
  have ho : (c.retain pid r.interpreterId).observationOrDefault (r.ring pid) =
      c.observationOrDefault (r.ring pid) := by
    rw [observationOrDefault_eq, retain_ring_self, ← observationOrDefault_eq]
  unfold admitRecord GcStat.Eligible
  simp only [ho]
  by_cases h₁ : r.isComplete = true
  · by_cases h₂ : r.collections ≤ 0
    · simp [h₁, h₂, not_lt.mpr h₂]
    · have h₂' := not_le.mp h₂
      by_cases hK : r.ring pid = K
      · subst hK
        by_cases h₃ : (c.observationOrDefault (r.ring pid)).admits r.collections = true <;>
          simp [h₁, h₂, h₃, h₂']
      · by_cases h₃ : (c.observationOrDefault (r.ring pid)).admits r.collections = true <;>
          simp [h₁, h₂, h₃, hK, ExtTreeMap.getElem?_insert]
  · simp [h₁]

theorem admitRecord_retained (pid : ℕ) (r : GcStat) :
    (admitRecord pid c r).1.retained = (c.retain pid r.interpreterId).retained := by
  unfold admitRecord
  simp only
  split_ifs <;> simp

@[simp] theorem admitRecord_polls (pid : ℕ) (r : GcStat) :
    (admitRecord pid c r).1.polls = c.polls := by
  unfold admitRecord
  simp only
  split_ifs <;> simp

end Offer

/-! ## Forgetting a process -/

theorem forget_ring (pid : ℕ) (K : RingKey) :
    (c.forget pid).rings[K]? = if K.pid = pid then none else c.rings[K]? := by
  simp only [forget, ExtTreeMap.getElem?_filter']
  cases hK : c.rings[K]? with
  | none => simp
  | some o => by_cases h : K.pid = pid <;> simp [h]

end Cursor

end GcScope
