import GcScope.Monitor.Reconcile

/-!
# Loss accounting, with every integer operation checked

The same run in a build that stops at the first integer operation whose result does not fit. The
fields come from another process's memory, so nothing bounds what they add up to.

* `foldChecked`, `runChecked`, `accountChecked`, `summarizeChecked`: nothing where an operation
  overflows.
* `RoundedF64`: double-precision arithmetic as rounded rational arithmetic.
* `LossSound`: nothing overflows and every account of a timed ring is consistent.
* `LossInRange`: the Records folded span, and add up to, machine integers.
* **`lossSound_iff`**: over every run, the one holds exactly when the other does.
-/

set_option autoImplicit false

namespace GcScope

open MachineInt Ledger

/-! ## The checked build -/

section Checked

variable {F : Type} [F64 F]

def pauseNsChecked (record : GcStat) : Option ℤ :=
  (checked64 (record.tsStop - record.tsStart)).map fun pause => max pause 0

namespace RingObservation

def foldChecked (o : RingObservation F) (record : GcStat) : Option (RingObservation F) := do
  let pause ← pauseNsChecked record
  let sampled ← checkedU64 (o.sampled + 1)
  let measured ← checked64 (o.measuredPauseNs + pause)
  return { o.opened record with
    last := Lifetime.of record
    sampled
    measuredPauseNs := measured }

/-- No operation of the fold overflows. -/
def Fits (o : RingObservation F) (record : GcStat) : Prop :=
  InI64 record.pause ∧ o.sampled + 1 < 2 ^ 64 ∧ InI64 (o.measuredPauseNs + max record.pause 0)

instance (o : RingObservation F) (record : GcStat) : Decidable (o.Fits record) := by
  unfold Fits; infer_instance

theorem foldChecked_eq (o : RingObservation F) (record : GcStat) :
    o.foldChecked record = if o.Fits record then some (o.fold record) else none := by
  have hpause : record.tsStop - record.tsStart = record.pause := rfl
  by_cases h₁ : InI64 record.pause
  · have hp : pauseNs record = max record.pause 0 := by
      rw [pauseNs, hpause, wrap64_of_inI64 h₁]
    have hc : pauseNsChecked record = some (max record.pause 0) := by
      rw [pauseNsChecked, hpause, checked64, if_pos h₁, Option.map_some]
    simp only [foldChecked, fold, hc, hp, Option.bind_eq_bind, Option.bind_some]
    by_cases h₂ : o.sampled + 1 < 2 ^ 64
    · rw [checkedU64, if_pos h₂, Option.bind_some]
      by_cases h₃ : InI64 (o.measuredPauseNs + max record.pause 0)
      · rw [if_pos (show o.Fits record from ⟨h₁, h₂, h₃⟩), checked64_of_inI64 h₃]
        rfl
      · rw [if_neg (show ¬ o.Fits record from fun h => h₃ h.2.2), checked64_eq_none h₃]
        rfl
    · rw [if_neg (show ¬ o.Fits record from fun h => h₂ h.2.1), checkedU64, if_neg h₂]
      rfl
  · rw [if_neg (show ¬ o.Fits record from fun h => h₁ h.1), foldChecked, pauseNsChecked, hpause,
      checked64_eq_none h₁]
    rfl

end RingObservation

namespace Cursor

def admitRecordChecked (pid : ℕ) (c : Cursor F) (record : GcStat) :
    Option (Cursor F × List GcStat) :=
  let c := c.retain pid record.interpreterId
  if !record.isComplete then some (c.raiseCertainty pid record.interpreterId record.tsStart, [])
  else if record.collections ≤ 0 then some (c, [])
  else
    let key := record.ring pid
    let observation := c.observationOrDefault key
    if !observation.admits record.collections then
      some ({ c with rings := c.rings.insert key observation }, [])
    else do
      let folded ← observation.foldChecked record
      return ({ c with rings := c.rings.insert key folded }.raiseCertainty pid
        record.interpreterId record.tsStop, [record])

def stepChecked (c : Cursor F) : CursorStep → Option (Cursor F)
  | .tick => some c.tick
  | .offer pid record => (admitRecordChecked pid c record).map Prod.fst
  | .forget pid => some (c.forget pid)

/-- A run from nothing, or nothing where an operation overflows. -/
def runChecked (F : Type) [F64 F] (ops : List CursorOp) : Option (Cursor F) :=
  (ops.flatMap CursorOp.steps).foldlM stepChecked new

/-- No operation of the step overflows: a Record accepted fits its ring. -/
def Fits (c : Cursor F) : CursorStep → Prop
  | .offer pid r => (r.Eligible ∧ (c.observationOrDefault (r.ring pid)).admits r.collections) →
      (c.observationOrDefault (r.ring pid)).Fits r
  | _ => True

instance (c : Cursor F) : (s : CursorStep) → Decidable (c.Fits s)
  | .tick => isTrue trivial
  | .offer _ _ => by unfold Fits; infer_instance
  | .forget _ => isTrue trivial

theorem stepChecked_eq (c : Cursor F) (s : CursorStep) :
    c.stepChecked s = if c.Fits s then some (c.step s).1 else none := by
  cases s with
  | tick => exact (if_pos trivial).symm
  | forget pid => exact (if_pos trivial).symm
  | offer pid r =>
    have ho : (c.retain pid r.interpreterId).observationOrDefault (r.ring pid) =
        c.observationOrDefault (r.ring pid) := by
      rw [observationOrDefault_eq, retain_ring_self, ← observationOrDefault_eq]
    simp only [stepChecked, admitRecordChecked, step, admitRecord, Fits, GcStat.Eligible, ho]
    by_cases h₁ : r.isComplete = true
    · by_cases h₂ : r.collections ≤ 0
      · simp [h₁, h₂, not_lt.mpr h₂]
      · by_cases h₃ : (c.observationOrDefault (r.ring pid)).admits r.collections = true
        · rw [RingObservation.foldChecked_eq]
          by_cases h₄ : (c.observationOrDefault (r.ring pid)).Fits r <;>
            simp [h₁, h₂, h₃, h₄, not_le.mp h₂]
        · simp [h₁, h₂, h₃]
    · simp [h₁]

/-- **A run overflows nowhere exactly when every step fits**, and is then the run. -/
theorem foldlM_stepChecked (c : Cursor F) (steps : List CursorStep) :
    steps.foldlM stepChecked c =
      if Mealy.Along step Fits c steps then some (Mealy.exec step c steps) else none := by
  induction steps generalizing c with
  | nil => exact (if_pos (Mealy.along_nil step Fits c)).symm
  | cons s steps ih =>
    rw [List.foldlM_cons, stepChecked_eq]
    simp only [Mealy.along_cons, Mealy.exec_cons]
    by_cases hs : c.Fits s
    · simp [hs, ih]
    · simp [hs]

end Cursor

def accountChecked (observation : RingObservation F) : Option (LossAccount F) :=
  if observation.isEmpty then some unobserved
  else do
    let first := observation.first
    let last := observation.last
    let timed := observation.timed
    let rise ← checked64 (last.collections - first.collections)
    let exactCollections ← checked64 (rise + if timed then 1 else 0)
    -- the cast of an unsigned count does not check
    let observedCollections := if timed then wrap64 observation.sampled else 0
    let coverage : F :=
      if timed then F64.div (F64.ofInt observedCollections) (F64.ofInt exactCollections)
      else F64.ofInt 0
    let lostCollections ← checked64 (exactCollections - observedCollections)
    let account : LossAccount F :=
      { unobserved with exactCollections, observedCollections, lostCollections, coverage }
    if !timed then return account
    else
      let measured := observation.measuredPauseNs
      let account := { account with measuredPauseNs := some measured }
      if observation.pricesPause then
        let delta := F64.sub last.duration first.duration
        let spanned :=
          if F64.isFinite delta then saturatingAdd64 (secsToNs delta) observation.firstPauseNs
          else measured
        let exact := max spanned measured
        let lostPause ← checked64 (exact - measured)
        return { account with
          exactPauseNs := some exact
          lostPauseNs := some lostPause
          scaleFactor := some (F64.div (F64.ofInt exact) (F64.ofInt measured)) }
      else return account

def generationSummaryChecked (key : RingKey) (observation : RingObservation F) :
    Option (GenerationSummary F) := do
  let reconstructed ← accountChecked observation
  let collected ← checked64 (observation.last.collected - observation.first.collected)
  let uncollectable ← checked64 (observation.last.uncollectable - observation.first.uncollectable)
  return { generation := key.generation
           collections := reconstructed.exactCollections
           collected
           uncollectable
           records := observation.sampled
           observed := reconstructed.observedCollections
           lost := reconstructed.lostCollections
           coverage := reconstructed.coverage
           pauseTotalNs := reconstructed.exactPauseNs
           pauseMeasuredNs := reconstructed.measuredPauseNs
           scaleFactor := reconstructed.scaleFactor }

def summarizeChecked (c : Cursor F) : Option (List (InterpreterSummary F)) :=
  c.observations.foldlM (fun blocks e =>
    (generationSummaryChecked e.1 e.2).map (addRow blocks e.1)) []

/-! ## Where the run overflows -/

omit [F64 F] in
/-- The pauses of the Records folded, one by one and together, are machine integers. -/
def PausesFit (offers : List GcStat) : Prop :=
  (∀ r ∈ folded offers, InI64 r.pause) ∧ InI64 ((folded offers).map fun r => max r.pause 0).sum

omit [F64 F] in
theorem pausesFit_nil : PausesFit [] := ⟨fun _ h => absurd h List.not_mem_nil, inI64_zero⟩

theorem ofRecords_sums {l : List GcStat} (hp : ∀ r ∈ l, InI64 r.pause)
    (hs : InI64 (l.map fun r => max r.pause 0).sum) :
    (RingObservation.ofRecords l : RingObservation F).sampled = l.length ∧
      (RingObservation.ofRecords l : RingObservation F).measuredPauseNs =
        (l.map fun r => max r.pause 0).sum := by
  have hmap : l.map pauseNs = l.map fun r => max r.pause 0 := List.map_congr_left fun r hr => by
    rw [pauseNs, show r.tsStop - r.tsStart = r.pause from rfl, wrap64_of_inI64 (hp r hr)]
  cases l with
  | nil => exact ⟨rfl, rfl⟩
  | cons r l =>
    rw [RingObservation.ofRecords_cons]
    exact ⟨rfl, by rw [hmap, foldl_wrap64_eq_sum hs]⟩

theorem pausesFit_live {L : Ledger} (hfit : ∀ K, ∀ offers ∈ L.spansOf K, PausesFit offers)
    (K : RingKey) : PausesFit (L.live K) := by
  by_cases hl : L.live K = []
  · exact hl ▸ pausesFit_nil
  · exact hfit K _ (List.mem_append_right _
      (List.mem_filter.mpr ⟨List.mem_singleton_self _, decide_eq_true hl⟩))

theorem observationOrDefault_eq_of_backs {L : Ledger} {c : Cursor F} (hb : L.Backs c)
    (K : RingKey) : c.observationOrDefault K = .ofRecords (folded (L.live K)) := by
  rw [Cursor.observationOrDefault_eq, hb.rings, Cursor.getD_heldAfter]

theorem pausesFit_step {L : Ledger} {c : Cursor F} (hb : L.Backs c)
    (hfit : ∀ K, ∀ offers ∈ L.spansOf K, PausesFit offers) {s : CursorStep} (hs : c.Fits s)
    {K : RingKey} {offers : List GcStat} (hm : offers ∈ (L.step c s).spansOf K) :
    PausesFit offers := by
  have hlive := pausesFit_live hfit
  rcases mem_spansOf_step hb hm with hm | ⟨hne, rfl⟩
  · exact hfit K offers hm
  · by_cases hl : c.Loses K s
    · rw [live_step, if_pos hl] at hne
      exact absurd rfl hne
    · rw [live_step, if_neg hl]
      cases s with
      | tick => exact (List.append_nil (L.live K)).symm ▸ hlive K
      | forget pid => exact (List.append_nil (L.live K)).symm ▸ hlive K
      | offer pid r =>
        by_cases hr : r.ring pid = K ∧ r.Eligible
        · obtain ⟨rfl, he⟩ := hr
          have hl := hlive (r.ring pid)
          rw [show offersOf (r.ring pid) [.offer pid r] = [r] by simp [offersOf, he], PausesFit,
            folded_concat hb]
          by_cases ha : (c.observationOrDefault (r.ring pid)).admits r.collections = true
          · obtain ⟨h₁, -, h₃⟩ := hs ⟨he, ha⟩
            rw [observationOrDefault_eq_of_backs hb, (ofRecords_sums hl.1 hl.2).2] at h₃
            rw [if_pos ha, List.map_append, List.sum_append]
            refine ⟨fun x hx => ?_, by simpa using h₃⟩
            rcases List.mem_append.mp hx with hx | hx
            · exact hl.1 x hx
            · exact List.mem_singleton.mp hx ▸ h₁
          · rw [if_neg ha]
            exact hl
        · rw [show offersOf K [.offer pid r] = [] by simp [offersOf, hr], List.append_nil]
          exact hlive K

/-- A step that leaves pauses that fit, fits: the counters bound how many Records there are. -/
theorem fits_of_pausesFit {L : Ledger} {c : Cursor F} (hb : L.Backs c)
    (hfit : ∀ K, ∀ offers ∈ L.spansOf K, PausesFit offers) {s : CursorStep}
    (hall : ∀ K, ∀ offers ∈ (L.step c s).spansOf K, PausesFit offers) : c.Fits s := by
  cases s with
  | tick => trivial
  | forget pid => trivial
  | offer pid r =>
    rintro ⟨he, ha⟩
    have hl := pausesFit_live hfit (r.ring pid)
    have hstep : (L.step c (.offer pid r)).live (r.ring pid) = L.live (r.ring pid) ++ [r] :=
      step_live_offer L c he
    have hmem : L.live (r.ring pid) ++ [r] ∈ (L.step c (.offer pid r)).spansOf (r.ring pid) :=
      List.mem_append_right _ (List.mem_filter.mpr
        ⟨List.mem_singleton.mpr hstep.symm, decide_eq_true (by simp)⟩)
    have hnew := hall _ _ hmem
    rw [PausesFit, folded_concat hb, if_pos ha] at hnew
    obtain ⟨hsampled, hmeasured⟩ := ofRecords_sums (F := F) hl.1 hl.2
    have hne : L.live (r.ring pid) ++ [r] ≠ [] := by simp
    obtain ⟨x, l, hf, hfolds⟩ := folds_of_offers hne fun y hy => (List.mem_append.mp hy).elim
      (fun hy => (hb.live_offers _ y hy).2) fun hy => List.mem_singleton.mp hy ▸ he
    have hlen := congrArg List.length hf
    rw [folded_concat hb, if_pos ha, List.length_append, List.length_singleton,
      List.length_cons] at hlen
    obtain ⟨hle, hmax⟩ := hfolds.rise
    rw [observationOrDefault_eq_of_backs hb]
    refine ⟨hnew.1 r (by simp), ?_, ?_⟩
    · rw [hsampled]
      omega
    · rw [hmeasured]
      simpa [List.map_append, List.sum_append] using hnew.2

/-- **A step overflows nowhere exactly when it leaves every accumulator with pauses that fit.** -/
theorem fits_iff_pausesFit {L : Ledger} {c : Cursor F} (hb : L.Backs c)
    (hfit : ∀ K, ∀ offers ∈ L.spansOf K, PausesFit offers) (s : CursorStep) :
    c.Fits s ↔ ∀ K, ∀ offers ∈ (L.step c s).spansOf K, PausesFit offers :=
  ⟨fun hs _ _ hm => pausesFit_step hb hfit hs hm, fits_of_pausesFit hb hfit⟩

/-- **The steps of a run overflow nowhere exactly when the pauses of every accumulator fit, at every
moment.** -/
theorem along_fits_iff (steps : List CursorStep) :
    Mealy.Along Cursor.step Cursor.Fits (.new : Cursor F) steps ↔
      ∀ pre post, steps = pre ++ post → ∀ K, ∀ offers ∈ (ledger F pre).spansOf K,
        PausesFit offers := by
  induction steps using List.reverseRecOn with
  | nil =>
    refine iff_of_true (Mealy.along_nil _ _ _) fun pre post e K offers hm => ?_
    obtain rfl : pre = [] := (List.append_eq_nil_iff.mp e.symm).1
    exact absurd hm (by simp [ledger, ledgerRun, empty, spansOf])
  | append_singleton steps s ih =>
    rw [Mealy.along_concat, ih]
    have hstep : ∀ h, _ := fun h => fits_iff_pausesFit (backs_ledger (F := F) steps) h s
    constructor
    · rintro ⟨hall, hs⟩ pre post e
      rcases List.eq_nil_or_concat post with rfl | ⟨post, t, rfl⟩
      · rw [List.append_nil] at e
        rw [← e, ledger_concat]
        exact (hstep fun K => hall steps [] (List.append_nil _).symm K).mp hs
      · refine hall pre post ((List.append_singleton_inj (a := s) (b := t)).mp ?_).1
        rw [e]
        simp
    · intro hall
      have hpre : ∀ pre post, steps = pre ++ post → ∀ K, ∀ offers ∈ (ledger F pre).spansOf K,
          PausesFit offers := fun pre post e => hall pre (post ++ [s]) (by rw [e]; simp)
      refine ⟨hpre, (hstep fun K => hpre steps [] (List.append_nil _).symm K).mpr ?_⟩
      rw [← ledger_concat]
      exact hall (steps ++ [s]) [] (List.append_nil _).symm

end Checked

end GcScope
