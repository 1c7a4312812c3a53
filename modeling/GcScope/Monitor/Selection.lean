import GcScope.Lib.HighWater
import GcScope.Monitor.CursorSteps

/-!
# Cursor selection is a high-water mark per ring

For as long as a ring keeps its accumulator, the Records the cursor accepts from it are those that
rise above every eligible Record offered before: the abstract selection is
`HighWater.climb` over the ring's stream of eligible Records.

* `RingObservation.ofRecords`: the accumulator a list of accepted Records leaves.
* `offersOf`, `acceptedOf`: a ring's eligible stream and what the cursor accepts of it.
* **`ring_of_climb`**, **`acceptedOf_of_climb`**: the simulation, by induction over the run.
* **`admit_selects_exactly`**: what a poll returns, in every run.
-/

set_option autoImplicit false

namespace GcScope

open Std (ExtTreeMap TransCmp LawfulEqCmp)
open StableSort MachineInt HighWater LittleEndian

/-! ## Accumulators of accepted Records -/

namespace RingObservation

variable {F : Type} [F64 F]

/-- The accumulator after folding a list of Records into an empty one. -/
def ofRecords (l : List GcStat) : RingObservation F := l.foldl fold default

theorem ofRecords_concat (l : List GcStat) (r : GcStat) :
    (ofRecords (l ++ [r]) : RingObservation F) = (ofRecords l).fold r := by
  rw [ofRecords, List.foldl_append]; rfl

theorem fold_of_nonempty {o : RingObservation F} (h : o.isEmpty = false) (r : GcStat) :
    o.fold r = { o with
      last := Lifetime.of r
      sampled := o.sampled + 1
      measuredPauseNs := wrap64 (o.measuredPauseNs + pauseNs r) } := by
  rw [fold, opened, if_neg (by simp [h])]

/-- **What an accumulator holds, given the Records folded into it.** -/
theorem ofRecords_cons (r : GcStat) (l : List GcStat) : (ofRecords (r :: l) : RingObservation F) =
    { first := Lifetime.of r
      firstPauseNs := pauseNs r
      last := Lifetime.of ((r :: l).getLast (List.cons_ne_nil r l))
      sampled := l.length + 1
      measuredPauseNs := ((r :: l).map pauseNs).foldl (fun s p => wrap64 (s + p)) 0
      timed := r.hasTiming
      pricesPause := r.has "duration" } := by
  induction l using List.reverseRecOn with
  | nil => rfl
  | append_singleton l x ih =>
    have h := ofRecords_concat (F := F) (r :: l) x
    rw [List.cons_append] at h
    rw [h, fold_of_nonempty (by rw [ih]; rfl), ih]
    simp [List.foldl_append]

theorem isEmpty_ofRecords (l : List GcStat) :
    (ofRecords l : RingObservation F).isEmpty = l.isEmpty := by
  cases l with
  | nil => rfl
  | cons r l => rw [ofRecords_cons]; rfl

theorem ofRecords_last {l : List GcStat} (h : l ≠ []) :
    (ofRecords l : RingObservation F).last = Lifetime.of (l.getLast h) := by
  obtain ⟨r, l, rfl⟩ := List.exists_cons_of_ne_nil h
  rw [ofRecords_cons]

theorem ofRecords_append_first {l : List GcStat} (h : l ≠ []) (l' : List GcStat) :
    (ofRecords (l ++ l') : RingObservation F).first = (ofRecords l).first := by
  obtain ⟨r, l, rfl⟩ := List.exists_cons_of_ne_nil h
  rw [List.cons_append, ofRecords_cons, ofRecords_cons]

/-- **The test against an accumulator is the test against the mark it keeps.** -/
theorem admits_ofRecords_climb (l : List GcStat) (n : ℤ) :
    (ofRecords (climb GcStat.collections ⊥ l) : RingObservation F).admits n = true ↔
      mark GcStat.collections ⊥ l < n := by
  rw [admits, isEmpty_ofRecords]
  by_cases h : climb GcStat.collections ⊥ l = []
  · rw [h, mark_eq_bot_of_climb _ l h]
    simp
  · rw [mark_eq_getLast _ l h, ofRecords_last h, WithBot.coe_lt_coe,
      List.isEmpty_eq_false_iff.mpr h, Bool.false_or, decide_eq_true_eq]
    rfl

end RingObservation

/-! ## One ring's part of a run -/

/-- The eligible Records of a ring among the steps, in the order they are offered. -/
def offersOf (K : RingKey) (steps : List CursorStep) : List GcStat :=
  steps.flatMap fun
    | .offer pid r => if r.ring pid = K ∧ r.Eligible then [r] else []
    | _ => []

namespace Cursor

variable {F : Type} [F64 F]

/-- The step, showing only what it accepts from one ring. -/
def stepOf (K : RingKey) (c : Cursor F) (s : CursorStep) : Cursor F × List GcStat :=
  ((c.step s).1, match s with
    | .offer pid r => if r.ring pid = K then (c.step s).2 else []
    | _ => [])

/-- The Records accepted from one ring along a run of steps. -/
def acceptedOf (K : RingKey) (c : Cursor F) (steps : List CursorStep) : List GcStat :=
  Mealy.outs (stepOf K) c steps

/-- The step takes a ring's accumulator away. -/
def Loses (c : Cursor F) (K : RingKey) (s : CursorStep) : Prop :=
  (c.rings[K]?).isSome ∧ (c.step s).1.rings[K]? = none

instance (c : Cursor F) (K : RingKey) (s : CursorStep) : Decidable (c.Loses K s) := by
  unfold Loses; infer_instance

/-- A ring's accumulator, once there, stays through the run: neither evicted nor forgotten. -/
def Keeps (c : Cursor F) (K : RingKey) (steps : List CursorStep) : Prop :=
  ∀ pre s post, steps = pre ++ s :: post → ¬ (Mealy.exec step c pre).Loses K s

@[simp] theorem keeps_nil (c : Cursor F) (K : RingKey) : c.Keeps K [] := fun pre s post e => by
  cases pre <;> cases e

theorem keeps_cons (c : Cursor F) (K : RingKey) (s : CursorStep) (steps : List CursorStep) :
    c.Keeps K (s :: steps) ↔ ¬ c.Loses K s ∧ (c.step s).1.Keeps K steps := by
  constructor
  · intro h
    exact ⟨h [] s steps rfl, fun pre t post e => h (s :: pre) t post (by rw [e]; rfl)⟩
  · rintro ⟨hs, h⟩ pre t post e
    cases pre with
    | nil => obtain ⟨rfl, -⟩ := List.cons.inj e; exact hs
    | cons s' pre => obtain ⟨rfl, e'⟩ := List.cons.inj e; exact h pre t post e'

instance decidableKeeps (K : RingKey) :
    (steps : List CursorStep) → (c : Cursor F) → Decidable (c.Keeps K steps)
  | [], c => isTrue (keeps_nil c K)
  | s :: steps, c =>
    have := decidableKeeps K steps (c.step s).1
    decidable_of_iff _ (keeps_cons c K s steps).symm

/-- **An accumulator is lost by forgetting its process or evicting its interpreter, and in no
other way.** -/
theorem loses_iff (c : Cursor F) (K : RingKey) (s : CursorStep) : c.Loses K s ↔
    (c.rings[K]?).isSome ∧ (s = .forget K.pid ∨ ∃ r, s = .offer K.pid r ∧
      c.evicts K.pid r.interpreterId = some K.interpreter ∧ ¬ (r.ring K.pid = K ∧ r.Eligible)) := by
  refine and_congr_right fun hs => ?_
  cases s with
  | tick =>
    simp only [step, tick_rings, reduceCtorEq, false_and, exists_false, or_false, iff_false]
    exact fun h => by rw [h] at hs; cases hs
  | forget pid =>
    simp only [step, forget_ring, CursorStep.forget.injEq, reduceCtorEq, false_and, exists_false,
      or_false]
    constructor
    · intro h
      split_ifs at h with hp
      · exact hp.symm
      · rw [h] at hs; cases hs
    · exact fun h => if_pos h.symm
  | offer pid r =>
    simp only [step, admitRecord_ring, retain_rings, reduceCtorEq, CursorStep.offer.injEq, false_or]
    constructor
    · intro h
      split_ifs at h with h₁ h₂
      · obtain ⟨rfl, he⟩ := h₂
        exact ⟨r, ⟨rfl, rfl⟩, he, h₁⟩
      · rw [h] at hs; cases hs
    · rintro ⟨_, ⟨rfl, rfl⟩, he, h⟩
      rw [if_neg h, if_pos ⟨rfl, he⟩]

theorem Keeps.of_append {c : Cursor F} {K : RingKey} {s₁ s₂ : List CursorStep}
    (h : c.Keeps K (s₁ ++ s₂)) : c.Keeps K s₁ := fun pre s post e =>
  h pre s (post ++ s₂) (by rw [e, List.append_assoc, List.cons_append])

theorem Keeps.of_append_right {c : Cursor F} {K : RingKey} {s₁ s₂ : List CursorStep}
    (h : c.Keeps K (s₁ ++ s₂)) : (Mealy.exec step c s₁).Keeps K s₂ := fun pre s post e => by
  rw [← Mealy.exec_append]
  exact h (s₁ ++ pre) s post (by rw [e, List.append_assoc])

theorem exec_stepOf (K : RingKey) (c : Cursor F) (steps : List CursorStep) :
    Mealy.exec (stepOf K) c steps = Mealy.exec step c steps := rfl

theorem acceptedOf_append (K : RingKey) (c : Cursor F) (s₁ s₂ : List CursorStep) :
    acceptedOf K c (s₁ ++ s₂) = acceptedOf K c s₁ ++ acceptedOf K (Mealy.exec step c s₁) s₂ :=
  Mealy.outs_append (stepOf K) c s₁ s₂

/-- The accumulator a ring holds after accepting a list of Records. -/
def heldAfter (l : List GcStat) : Option (RingObservation F) :=
  if l = [] then none else some (RingObservation.ofRecords l)

theorem getD_heldAfter (l : List GcStat) :
    (heldAfter l : Option (RingObservation F)).getD default = RingObservation.ofRecords l := by
  unfold heldAfter
  split_ifs with h
  · rw [h]; rfl
  · rfl

theorem heldAfter_eq_none_iff {l : List GcStat} :
    (heldAfter l : Option (RingObservation F)) = none ↔ l = [] := by
  simp [heldAfter]

theorem heldAfter_eq_some_iff {l : List GcStat} {o : RingObservation F} :
    heldAfter l = some o ↔ l ≠ [] ∧ o = RingObservation.ofRecords l := by
  simp [heldAfter, eq_comm]

/-- **One step of the simulation.** A ring that holds what its stream climbed to, and keeps its
accumulator, holds what the longer stream climbs to; it accepts what the stream adds. -/
theorem stepOf_climb {c : Cursor F} {K : RingKey} {l : List GcStat} {s : CursorStep}
    (hc : c.rings[K]? = heldAfter (climb GcStat.collections ⊥ l)) (hk : ¬ c.Loses K s) :
    (c.step s).1.rings[K]? = heldAfter (climb GcStat.collections ⊥ (l ++ offersOf K [s])) ∧
      (stepOf K c s).2 =
        climb GcStat.collections (mark GcStat.collections ⊥ l) (offersOf K [s]) := by
  -- a step that offers nothing eligible to the ring leaves it alone
  have hquiet : offersOf K [s] = [] → (stepOf K c s).2 = [] →
      ((c.step s).1.rings[K]? = c.rings[K]? ∨ (c.step s).1.rings[K]? = none) →
      (c.step s).1.rings[K]? = heldAfter (climb GcStat.collections ⊥ (l ++ offersOf K [s])) ∧
        (stepOf K c s).2 =
          climb GcStat.collections (mark GcStat.collections ⊥ l) (offersOf K [s]) := by
    intro ho hs hr
    rw [ho, hs, List.append_nil, climb_nil, ← hc]
    refine ⟨hr.elim id fun hn => ?_, rfl⟩
    rw [hn]
    by_contra hne
    exact hk ⟨Option.isSome_iff_ne_none.mpr fun h => hne h.symm, hn⟩
  cases s with
  | tick => exact hquiet rfl rfl (Or.inl rfl)
  | forget pid =>
    refine hquiet rfl rfl ?_
    rw [step, forget_ring]
    split_ifs
    · exact Or.inr rfl
    · exact Or.inl rfl
  | offer pid r =>
    by_cases hr : r.ring pid = K ∧ r.Eligible
    · obtain ⟨rfl, he⟩ := hr
      have ho : offersOf (r.ring pid) [.offer pid r] = [r] := by simp [offersOf, he]
      have hobs : c.observationOrDefault (r.ring pid) =
          RingObservation.ofRecords (climb GcStat.collections ⊥ l) := by
        rw [observationOrDefault_eq, hc, getD_heldAfter]
      rw [ho, stepOf, step, if_pos rfl, admitRecord_ring, admitRecord_outs, hobs, climb_append]
      by_cases ha : mark GcStat.collections ⊥ l < r.collections
      · rw [climb_cons_of_lt _ ha, climb_nil, if_pos ⟨rfl, he⟩,
          if_pos ((RingObservation.admits_ofRecords_climb l _).mpr ha),
          if_pos ⟨he, (RingObservation.admits_ofRecords_climb l _).mpr ha⟩,
          ← RingObservation.ofRecords_concat, heldAfter, if_neg (by simp)]
        exact ⟨rfl, rfl⟩
      · rw [climb_cons_of_not_lt _ ha, climb_nil, List.append_nil, if_pos ⟨rfl, he⟩,
          if_neg fun h => ha ((RingObservation.admits_ofRecords_climb l _).mp h),
          if_neg fun h => ha ((RingObservation.admits_ofRecords_climb l _).mp h.2), heldAfter,
          if_neg]
        · exact ⟨rfl, rfl⟩
        · -- a refused Record stands below a mark, so something was accepted
          intro hn
          exact ha (by rw [mark_eq_bot_of_climb _ l hn]; exact WithBot.bot_lt_coe _)
    · refine hquiet (by simp [offersOf, hr]) ?_ ?_
      · rw [stepOf, step]
        simp only
        split_ifs with hK
        · rw [admitRecord_outs, if_neg fun h => hr ⟨hK, h.1⟩]
        · rfl
      · rw [step, admitRecord_ring, if_neg hr, retain_rings]
        split_ifs
        · exact Or.inr rfl
        · exact Or.inl rfl

/-- **A ring that keeps its accumulator goes on from what its stream climbed to.** -/
theorem ring_of_climb {c : Cursor F} {K : RingKey} {l : List GcStat}
    (hc : c.rings[K]? = heldAfter (climb GcStat.collections ⊥ l)) {steps : List CursorStep}
    (hk : c.Keeps K steps) : (Mealy.exec step c steps).rings[K]? =
      heldAfter (climb GcStat.collections ⊥ (l ++ offersOf K steps)) := by
  induction steps using List.reverseRecOn with
  | nil => rw [show offersOf K [] = [] from rfl, List.append_nil]; exact hc
  | append_singleton steps s ih =>
    rw [Mealy.exec_concat, offersOf, List.flatMap_append, ← List.append_assoc]
    exact (stepOf_climb (ih hk.of_append) (hk steps s [] rfl)).1

/-- **What the cursor accepts from it is what climbs on.** -/
theorem acceptedOf_of_climb {c : Cursor F} {K : RingKey} {l : List GcStat}
    (hc : c.rings[K]? = heldAfter (climb GcStat.collections ⊥ l)) {steps : List CursorStep}
    (hk : c.Keeps K steps) : acceptedOf K c steps =
      climb GcStat.collections (mark GcStat.collections ⊥ l) (offersOf K steps) := by
  induction steps using List.reverseRecOn with
  | nil => rfl
  | append_singleton steps s ih =>
    rw [acceptedOf, Mealy.outs_concat, exec_stepOf, show offersOf K (steps ++ [s]) =
      offersOf K steps ++ offersOf K [s] from List.flatMap_append, climb_append, ← mark_append,
      (stepOf_climb (ring_of_climb hc hk.of_append) (hk steps s [] rfl)).2]
    exact congrArg (· ++ _) (ih hk.of_append)

/-- **A kept ring holds exactly what its stream climbed to.** -/
theorem ring_of_keeps {c : Cursor F} {K : RingKey} (h₀ : c.rings[K]? = none)
    {steps : List CursorStep} (hk : c.Keeps K steps) :
    (Mealy.exec step c steps).rings[K]? =
      heldAfter (climb GcStat.collections ⊥ (offersOf K steps)) :=
  ring_of_climb (l := []) h₀ hk

/-- **What the cursor accepts from a kept ring is what climbs its stream.** -/
theorem acceptedOf_of_keeps {c : Cursor F} {K : RingKey} (h₀ : c.rings[K]? = none)
    {steps : List CursorStep} (hk : c.Keeps K steps) :
    acceptedOf K c steps = climb GcStat.collections ⊥ (offersOf K steps) :=
  acceptedOf_of_climb (l := []) h₀ hk

/-! ## Selection is exact -/

theorem mem_offersOf {K : RingKey} {steps : List CursorStep} {r : GcStat} :
    r ∈ offersOf K steps ↔ .offer K.pid r ∈ steps ∧ r.ring K.pid = K ∧ r.Eligible := by
  simp only [offersOf, List.mem_flatMap]
  constructor
  · rintro ⟨s, hs, hr⟩
    cases s with
    | tick => cases hr
    | forget pid => cases hr
    | offer pid r' =>
      simp only at hr
      split_ifs at hr with h
      · obtain rfl := List.mem_singleton.mp hr
        obtain ⟨rfl, he⟩ := h
        exact ⟨hs, rfl, he⟩
      · cases hr
  · rintro ⟨hs, hr⟩
    exact ⟨_, hs, by simp [hr]⟩

theorem offersOf_admitRecords (K : RingKey) (records : List GcStat) :
    offersOf K (CursorOp.admitRecords K.pid records).steps =
      (sortCandidates records).filter fun r => r.ring K.pid = K ∧ r.Eligible := by
  rw [CursorOp.steps, offersOf, List.flatMap_cons, List.nil_append, List.flatMap_map]
  induction sortCandidates records with
  | nil => rfl
  | cons r rs ih =>
    rw [List.flatMap_cons, ih, List.filter_cons]
    split_ifs <;> simp_all

/-- The Record may be accepted, and its counter beats that of every eligible Record of its ring
among the earlier steps. -/
def Passes (K : RingKey) (earlier : List CursorStep) (r : GcStat) : Prop :=
  r.Eligible ∧ ∀ r', .offer K.pid r' ∈ earlier → r'.ring K.pid = K → r'.Eligible →
    r'.collections < r.collections

instance (K : RingKey) (earlier : List CursorStep) (r : GcStat) : Decidable (Passes K earlier r) :=
  decidable_of_iff (r.Eligible ∧ ∀ r' ∈ offersOf K earlier, r'.collections < r.collections) <| by
    simp only [Passes, mem_offersOf, and_imp]

theorem passes_iff (K : RingKey) (earlier : List CursorStep) (r : GcStat) : Passes K earlier r ↔
    r.Eligible ∧ mark GcStat.collections ⊥ (offersOf K earlier) < r.collections := by
  rw [mark_bot_lt_iff]
  simp only [Passes, mem_offersOf, and_imp]

/-- **An offered Record of a kept ring is accepted exactly when it passes every earlier one.** -/
theorem offer_of_keeps {c : Cursor F} (pid : ℕ) (r : GcStat) (h₀ : c.rings[r.ring pid]? = none)
    {earlier : List CursorStep} (hk : c.Keeps (r.ring pid) earlier) :
    (admitRecord pid (Mealy.exec step c earlier) r).2 =
      if Passes (r.ring pid) earlier r then [r] else [] := by
  rw [admitRecord_outs, observationOrDefault_eq, ring_of_keeps h₀ hk, getD_heldAfter]
  simp only [passes_iff, RingObservation.admits_ofRecords_climb]

theorem mem_outs_admitRecord {c : Cursor F} {pid : ℕ} {records : List GcStat} {r : GcStat}
    (h : r ∈ Mealy.outs (admitRecord pid) c records) : r ∈ records ∧ r.Eligible := by
  obtain ⟨pre, r', post, rfl, hr⟩ := (Mealy.mem_outs _).mp h
  rw [admitRecord_outs] at hr
  split_ifs at hr with he
  · obtain rfl := List.mem_singleton.mp hr
    exact ⟨by simp, he.1⟩
  · cases hr

theorem mem_admitRecords {c : Cursor F} {pid : ℕ} {records : List GcStat} {r : GcStat}
    (h : r ∈ (c.admitRecords pid records).2) : r ∈ records ∧ r.Eligible := by
  obtain ⟨hs, he⟩ := mem_outs_admitRecord ((stableSort_perm _ _).subset h)
  exact ⟨(stableSort_perm _ _).subset hs, he⟩

/-- An operation, showing only the Records of one ring that it returns. -/
def applyOf (K : RingKey) (c : Cursor F) (op : CursorOp) : Cursor F × List GcStat :=
  ((c.apply op).1, match op with
    | .admitRecords pid _ => (c.apply op).2.filter fun r => r.ring pid = K
    | .forget _ => [])

/-- The Records of one ring returned by a run of operations, call after call. -/
def returnedOf (K : RingKey) (c : Cursor F) (ops : List CursorOp) : List GcStat :=
  Mealy.outs (applyOf K) c ops

/-- Over polls of one process, a ring's returned Records are picked out of all the returned. -/
theorem returnedOf_polls (K : RingKey) (c : Cursor F) (polls : List (List GcStat)) :
    returnedOf K c (polls.map (CursorOp.admitRecords K.pid)) =
      (Mealy.outs apply c (polls.map (CursorOp.admitRecords K.pid))).filter
        fun r => r.ring K.pid = K := by
  induction polls generalizing c with
  | nil => rfl
  | cons records polls ih =>
    rw [List.map_cons, returnedOf, Mealy.outs_cons, Mealy.outs_cons, List.filter_append, ← ih]
    rfl

theorem acceptedOf_offers (K : RingKey) (pid : ℕ) (c : Cursor F) (records : List GcStat) :
    acceptedOf K c (records.map (CursorStep.offer pid)) =
      (Mealy.outs (admitRecord pid) c records).filter fun r => r.ring pid = K := by
  induction records generalizing c with
  | nil => rfl
  | cons r rs ih =>
    rw [List.map_cons, acceptedOf, Mealy.outs_cons, Mealy.outs_cons, List.filter_append, ← ih]
    refine congrArg₂ (· ++ ·) ?_ rfl
    simp only [stepOf, step, admitRecord_outs]
    by_cases h : r.ring pid = K
    · rw [if_pos h]; split_ifs <;> simp [h]
    · rw [if_neg h]; split_ifs <;> simp [h]

/-- Over a run, a ring's returned Records are its accepted ones, reordered inside each call. -/
theorem returnedOf_perm (K : RingKey) (c : Cursor F) (ops : List CursorOp) :
    (returnedOf K c ops).Perm (acceptedOf K c (ops.flatMap CursorOp.steps)) := by
  induction ops generalizing c with
  | nil => exact List.Perm.refl _
  | cons op ops ih =>
    rw [returnedOf, Mealy.outs_cons, List.flatMap_cons, acceptedOf_append, exec_steps]
    refine List.Perm.append ?_ (ih _)
    cases op with
    | forget pid => exact List.Perm.refl _
    | admitRecords pid records =>
      rw [applyOf, outs_steps]
      simp only
      rw [filter_stableSort, CursorOp.steps, Mealy.outs_cons, acceptedOf, Mealy.outs_cons]
      refine (stableSort_perm _ _).trans ?_
      rw [show (step c .tick).2 ++ Mealy.outs step (step c .tick).1
        ((sortCandidates records).map (CursorStep.offer pid)) =
          Mealy.outs (admitRecord pid) c.tick (sortCandidates records) from
            outs_offers pid c.tick _, ← acceptedOf_offers]
      exact List.Perm.refl _

/-- **The accepted counters of a kept ring strictly increase.** -/
theorem pairwise_acceptedOf {c : Cursor F} {K : RingKey} (h₀ : c.rings[K]? = none)
    {steps : List CursorStep} (hk : c.Keeps K steps) :
    (acceptedOf K c steps).Pairwise fun a b => a.collections < b.collections := by
  rw [acceptedOf_of_keeps h₀ hk]
  exact pairwise_climb _ _ _

/-- **A kept ring returns no counter twice.** -/
theorem nodup_returnedOf {c : Cursor F} {K : RingKey} (h₀ : c.rings[K]? = none)
    {ops : List CursorOp} (hk : c.Keeps K (ops.flatMap CursorOp.steps)) :
    ((returnedOf K c ops).map GcStat.collections).Nodup :=
  ((returnedOf_perm K c ops).map _).nodup_iff.mpr
    (List.pairwise_map.mpr ((pairwise_acceptedOf h₀ hk).imp fun h => h.ne))

/-- A Record still in flight leaves its ring's accumulator where it was. -/
theorem in_flight_ring (c : Cursor F) (pid : ℕ) {r : GcStat} (h : r.isComplete = false) :
    (admitRecord pid c r).1.rings[r.ring pid]? = c.rings[r.ring pid]? := by
  rw [admitRecord_ring, if_neg fun hr => by simp [GcStat.Eligible, h] at hr, retain_ring_self]

/-- The mark a kept ring stands at, read off the Records it accepted. -/
theorem mark_lt_iff_acceptedOf {c : Cursor F} {K : RingKey} (h₀ : c.rings[K]? = none)
    {steps : List CursorStep} (hk : c.Keeps K steps) (n : ℤ) :
    mark GcStat.collections ⊥ (offersOf K steps) < n ↔
      ∀ x ∈ acceptedOf K c steps, x.collections < n := by
  rw [acceptedOf_of_keeps h₀ hk, ← mark_climb, mark_bot_lt_iff]

/-- **Selection is exact.** For a ring that starts without an accumulator, over any run of
operations and for as long as it keeps the accumulator it gets:

1. a Record of the ring is returned exactly when it passes every earlier one;
2. a poll returns the Records accepted in its turns, by start, ties in the order they were folded;
3. the accepted counters strictly increase;
4. no counter is returned twice;
5. a Record in flight moves nothing, and its Collection, seen finished later, is returned unless a
   counter of the ring that reaches it was returned before or in between. -/
theorem admit_selects_exactly {c : Cursor F} {K : RingKey} (h₀ : c.rings[K]? = none)
    (ops : List CursorOp) :
    (∀ pre pid records post before r after, ops = pre ++ .admitRecords pid records :: post →
      sortCandidates records = before ++ r :: after → r.ring pid = K →
      c.Keeps K (pre.flatMap CursorOp.steps ++ .tick :: before.map (CursorStep.offer pid)) →
      (admitRecord pid (Mealy.exec step c (pre.flatMap CursorOp.steps ++ .tick ::
        before.map (CursorStep.offer pid))) r).2 =
          if Passes K (pre.flatMap CursorOp.steps ++ .tick :: before.map (CursorStep.offer pid)) r
          then [r] else []) ∧
    (∀ pre pid records post, ops = pre ++ .admitRecords pid records :: post →
      let before := Mealy.exec apply c pre
      let fresh := Mealy.outs (admitRecord pid) before.tick (sortCandidates records)
      let returned := (before.admitRecords pid records).2
      returned.Perm fresh ∧ returned.Pairwise (fun a b => a.tsStart ≤ b.tsStart) ∧
        ∀ t, returned.filter (fun r => r.tsStart = t) = fresh.filter fun r => r.tsStart = t) ∧
    (c.Keeps K (ops.flatMap CursorOp.steps) →
      (acceptedOf K c (ops.flatMap CursorOp.steps)).Pairwise
        (fun a b => a.collections < b.collections) ∧
      ((returnedOf K c ops).map GcStat.collections).Nodup) ∧
    (∀ s₁ r₁ s₂ r₂ s₃, ops.flatMap CursorOp.steps =
        s₁ ++ .offer K.pid r₁ :: (s₂ ++ .offer K.pid r₂ :: s₃) →
      r₁.ring K.pid = K → r₂.ring K.pid = K → r₁.isComplete = false → r₂.Eligible →
      r₁.collections = r₂.collections → c.Keeps K (s₁ ++ .offer K.pid r₁ :: s₂) →
      (Mealy.exec step c (s₁ ++ [.offer K.pid r₁])).rings[K]? =
          (Mealy.exec step c s₁).rings[K]? ∧
        ((admitRecord K.pid (Mealy.exec step c (s₁ ++ .offer K.pid r₁ :: s₂)) r₂).2 = [r₂] ↔
          (∀ x ∈ acceptedOf K c s₁, x.collections < r₁.collections) ∧
          ∀ x ∈ acceptedOf K (Mealy.exec step c (s₁ ++ [.offer K.pid r₁])) s₂,
            x.collections < r₁.collections)) := by
  refine ⟨?_, ?_, ?_, ?_⟩
  · rintro pre pid records post before r after - - rfl hk
    exact offer_of_keeps pid r h₀ hk
  · intro pre pid records post _
    exact ⟨stableSort_perm _ _, pairwise_stableSort _ _, fun t => stableSort_ties _ t _⟩
  · exact fun hk => ⟨pairwise_acceptedOf h₀ hk, nodup_returnedOf h₀ hk⟩
  · rintro s₁ r₁ s₂ r₂ s₃ - hr₁ hr₂ hf he hn hk
    have hk' : c.Keeps K ((s₁ ++ [.offer K.pid r₁]) ++ s₂) := by
      rw [List.append_assoc]; exact hk
    refine ⟨?_, ?_⟩
    · rw [Mealy.exec_concat]
      exact hr₁ ▸ in_flight_ring _ K.pid hf
    · have hnone : acceptedOf K (Mealy.exec step c s₁) [.offer K.pid r₁] = [] := by
        rw [acceptedOf, Mealy.outs_cons, Mealy.outs_nil, List.append_nil, stepOf]
        simp only [step, hr₁, if_true, admitRecord_outs]
        exact if_neg fun h => by simp [GcStat.Eligible, hf] at h
      have hoff : (admitRecord K.pid (Mealy.exec step c (s₁ ++ .offer K.pid r₁ :: s₂)) r₂).2 =
          if Passes K (s₁ ++ .offer K.pid r₁ :: s₂) r₂ then [r₂] else [] := by
        have := offer_of_keeps K.pid r₂ (hr₂ ▸ h₀) (hr₂ ▸ hk)
        rwa [hr₂] at this
      rw [hoff, show s₁ ++ .offer K.pid r₁ :: s₂ = (s₁ ++ [.offer K.pid r₁]) ++ s₂ by simp,
        ite_eq_left_iff, not_imp_comm]
      have hone : ([] : List GcStat) ≠ [r₂] := (List.cons_ne_nil _ _).symm
      simp only [hone, not_false_eq_true, forall_const]
      rw [passes_iff, mark_lt_iff_acceptedOf h₀ hk', acceptedOf_append, acceptedOf_append, hnone,
        List.append_nil, hn]
      simp only [he, true_and, List.mem_append]
      exact ⟨fun h => ⟨fun x hx => h x (Or.inl hx), fun x hx => h x (Or.inr hx)⟩,
        fun h x hx => hx.elim (h.1 x) (h.2 x)⟩

/-- An Entry of generation 0 that publishes its timestamps and its counter. -/
def timedEntry (start stop counter : ℕ) : GcStat :=
  ⟨0, 0, 0, wordsBytes (([start, stop, counter] : List ℕ).map (BitVec.ofNat 64)),
    ⟨24, [("ts_start", 0), ("ts_stop", 8), ("collections", 16)]⟩⟩

/-- A Collection seen in flight and later finished is returned. -/
theorem admit_selects_exactly_in_flight :
    (admitRecord 7 ((new : Cursor (Secs fun w => w.toInt)).admitRecords 7
      [timedEntry 5 9 1, timedEntry 12 9 2]).1.tick (timedEntry 12 15 2)).2 =
        [timedEntry 12 15 2] := by
  refine (((admit_selects_exactly (c := (new : Cursor (Secs fun w => w.toInt)))
    (K := ⟨7, 0, 0⟩) (by decide) [.admitRecords 7 [timedEntry 5 9 1, timedEntry 12 9 2],
      .admitRecords 7 [timedEntry 12 15 2]]).2.2.2
        [.tick, .offer 7 (timedEntry 5 9 1)] (timedEntry 12 9 2) [.tick] (timedEntry 12 15 2) []
        (by decide) (by decide) (by decide) (by decide) (by decide) (by decide)
        (by decide)).2).mpr ?_
  decide

/-- A Collection seen in flight after a larger counter of its ring was returned is not returned once
it is finished, though nothing of the ring was returned in between. -/
theorem in_flight_behind_larger :
    let first := (new : Cursor (Secs fun w => w.toInt)).admitRecords 7 [timedEntry 5 9 7]
    let second := first.1.admitRecords 7 [timedEntry 12 11 5]
    let third := second.1.admitRecords 7 [timedEntry 12 15 5]
    ((timedEntry 12 11 5).isComplete = false ∧ (timedEntry 12 15 5).Eligible ∧
      (new : Cursor (Secs fun w => w.toInt)).Keeps ⟨7, 0, 0⟩
        ([CursorOp.admitRecords 7 [timedEntry 5 9 7], .admitRecords 7 [timedEntry 12 11 5],
          .admitRecords 7 [timedEntry 12 15 5]].flatMap CursorOp.steps)) ∧
    ¬ (timedEntry 12 15 5 ∈ third.2 ∨ ∃ x ∈ second.2 ++ third.2, 5 < x.collections) := by
  decide

end Cursor

end GcScope
