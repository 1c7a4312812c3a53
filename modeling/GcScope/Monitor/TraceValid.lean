import GcScope.Monitor.ChromeTrace

/-!
# When a trace is JSON

Records are converted and handed to the exporter in batches, split anywhere. The file of a run is the
array of the events kept, unless a `duration` is not a number, or the write of an element fails where
the flag and the sets do not learn of it.

* `Conversion`: a Record, its process, and the clock of the poll.
* `TraceValid`, **`traceValid_iff`**: where every write goes through, the file is the array exactly
  when the durations of the timed Records are finite, and no JSON otherwise.
* `Uncorrupted`, **`uncorrupted_iff`**: where writes fail, the file and the metadata stand exactly when
  the first element is written and no lost metadata comes again.
* `WholeF64`: doubles by their whole part, to run the exporter on.
-/

set_option autoImplicit false

namespace GcScope

open Json Firsts ChromeTraceExporter

/-- One call of the conversion. -/
structure Conversion where
  pid : ℕ
  record : GcStat
  observedAtNs : ℤ
  deriving DecidableEq

def Conversion.events {F : Type} [F64 F] (c : Conversion) : List (TraceEvent F) :=
  convertRecord c.pid c.record c.observedAtNs

section Valid

variable {F : Type} [F64 F] [StdDisplayF64 F]

/-- The document the file of a run parses to. -/
def traceJson (ok : ℕ → Bool) (x : ChromeTraceExporter) (batches : List (List (TraceEvent F))) :
    Option Json :=
  (x.traceText ok batches).bind fun text => parse text.toList

theorem traceJson_eq (ok : ℕ → Bool) (x : ChromeTraceExporter)
    (batches : List (List (TraceEvent F))) :
    traceJson ok x batches = parse (fileText ok (kept batches.flatten)).toList := by
  rw [traceJson, traceText_eq]; rfl

/-! ## Where every write goes through -/

/-- The file of a run is the array of the events kept. -/
def TraceValid (x : ChromeTraceExporter) (batches : List (List (TraceEvent F))) : Prop :=
  traceJson (fun _ => true) x batches =
    some (.array ((kept batches.flatten).map TraceEvent.json))

omit [F64 F] [StdDisplayF64 F] in
theorem succeeded_outcomes_true (i : ℕ) (es : List (TraceEvent F)) :
    succeeded (outcomes (fun _ => true) i es) = es := by
  induction es generalizing i with
  | nil => rfl
  | cons e es ih => rw [succeeded_outcomes_cons, ih]; rfl

omit [StdDisplayF64 F] in
/-- The figures kept are finite exactly when the durations are. -/
theorem finite_kept_iff (cs : List Conversion) :
    (∀ e ∈ kept (cs.flatMap Conversion.events : List (TraceEvent F)), e.Finite) ↔
      ∀ c ∈ cs, c.record.hasTiming = true → F64.isFinite (c.record.duration : F) = true := by
  have hall : (∀ e ∈ kept (cs.flatMap Conversion.events : List (TraceEvent F)), e.Finite) ↔
      ∀ e ∈ (cs.flatMap Conversion.events : List (TraceEvent F)), e.Finite := by
    refine ⟨fun h e he => ?_, fun h e he => h e (mem_of_mem_firsts he)⟩
    -- metadata has no figures, and nothing else is dropped
    cases e with
    | processMeta pid name => exact fun a ha => absurd ha List.not_mem_nil
    | threadMeta pid tid name => exact fun a ha => absurd ha List.not_mem_nil
    | _ => exact h _ (mem_firsts_of_none he rfl)
  rw [hall]
  simp only [List.mem_flatMap, forall_exists_index, and_imp]
  constructor
  · intro h c hc
    exact (finite_convertRecord_iff c.pid c.record c.observedAtNs).mp fun e he => h e c hc he
  · intro h e c hc he
    exact (finite_convertRecord_iff c.pid c.record c.observedAtNs).mpr (h c hc) e he

omit [StdDisplayF64 F] in
theorem plain_kept (cs : List Conversion) :
    ∀ e ∈ kept (cs.flatMap Conversion.events : List (TraceEvent F)), e.Plain := fun e he => by
  obtain ⟨c, -, he⟩ := List.mem_flatMap.mp (mem_of_mem_firsts he)
  exact plain_convertRecord c.pid c.record c.observedAtNs e he

theorem traceValid_iff_kept (x : ChromeTraceExporter) {cs : List Conversion}
    {batches : List (List (TraceEvent F))} (h : batches.flatten = cs.flatMap Conversion.events) :
    TraceValid x batches ↔ ∀ e ∈ kept batches.flatten, e.Finite := by
  have := parse_fileText_iff (fun _ => true) (kept batches.flatten)
  rw [succeeded_outcomes_true] at this
  rw [TraceValid, traceJson_eq, this, h, and_iff_right (Or.inr rfl)]
  exact forall₂_congr fun e he => and_iff_right (plain_kept cs e he)

theorem traceJson_eq_none (x : ChromeTraceExporter) {cs : List Conversion}
    {batches : List (List (TraceEvent F))} (h : batches.flatten = cs.flatMap Conversion.events)
    (hn : ¬∀ e ∈ kept batches.flatten, e.Finite) : traceJson (fun _ => true) x batches = none := by
  rw [traceJson_eq]
  refine parse_fileText_eq_none_of_not_finite _ rfl ?_ ?_ <;> rw [succeeded_outcomes_true]
  · rw [h]; exact plain_kept cs
  · exact hn

/-- **The file is the array of the events kept exactly when the duration of every timed Record is
finite; otherwise it is no JSON.** -/
theorem traceValid_iff (x : ChromeTraceExporter) (cs : List Conversion)
    (batches : List (List (TraceEvent F))) (h : batches.flatten = cs.flatMap Conversion.events) :
    (TraceValid x batches ↔
      ∀ c ∈ cs, c.record.hasTiming = true → F64.isFinite (c.record.duration : F) = true) ∧
    (¬TraceValid x batches → traceJson (fun _ => true) x batches = none) := by
  have hkept := traceValid_iff_kept x h
  refine ⟨?_, fun hn => traceJson_eq_none x h (mt hkept.mpr hn)⟩
  rw [hkept, h, finite_kept_iff]

/-! ## Where writes fail -/

/-- A metadata element whose write failed is tried again in the next batch that has it. -/
def Retried (ok : ℕ → Bool) (x : ChromeTraceExporter) (batches : List (List (TraceEvent F))) :
    Prop :=
  ∀ pre b mid c post, batches = pre ++ b :: (mid ++ c :: post) → ∀ e k,
    (e, false) ∈ (addEvents ok (Mealy.exec (addEvents ok) x.openFile pre) b).2 →
    e.metaKey = some k → (∀ d ∈ mid, ∀ e' ∈ d, e'.metaKey ≠ some k) →
    (∃ e' ∈ c, e'.metaKey = some k) →
    ∃ w ∈ (addEvents ok (Mealy.exec (addEvents ok) x.openFile (pre ++ b :: mid)) c).2,
      w.1.metaKey = some k

/-- The file is the array of the elements whose write succeeded, and lost metadata is written again
with the next batch that has it. -/
def Uncorrupted (ok : ℕ → Bool) (x : ChromeTraceExporter)
    (batches : List (List (TraceEvent F))) : Prop :=
  traceJson ok x batches =
      some (.array ((succeeded (x.tried ok batches)).map TraceEvent.json)) ∧
    Retried ok x batches

/-- **Lost metadata is never tried again, so it is well exactly where it never comes again.** -/
theorem retried_iff (ok : ℕ → Bool) (x : ChromeTraceExporter)
    (batches : List (List (TraceEvent F))) : Retried ok x batches ↔
      ∀ pre post, batches = pre ++ post → ∀ e k, (e, false) ∈ outcomes ok 0 (kept pre.flatten) →
        e.metaKey = some k → ∀ c ∈ post, ∀ e' ∈ c, e'.metaKey ≠ some k := by
  constructor
  · intro h pre post hsplit e k hlost hk c hc e' he' hk'
    rw [← tried_eq ok x pre] at hlost
    obtain ⟨pre, b, mid, rfl, he⟩ := (Mealy.mem_outs _).mp hlost
    -- the first batch after `b` that has the key
    obtain ⟨mid', c, post', hlater, hmid, hc⟩ := ListFacts.exists_first
      (P := fun d : List (TraceEvent F) => ∃ e' ∈ d, e'.metaKey = some k)
      ⟨c, List.mem_append_right mid hc, e', he', hk'⟩
    obtain ⟨w, hw, hwk⟩ := h pre b mid' c post'
      (by rw [hsplit, List.append_assoc, List.cons_append, hlater]) e k he hk
      (fun d hd e' he' hk' => hmid d hd ⟨e', he', hk'⟩) hc
    have hb := at_exec ok x pre
    have hcs := at_exec ok x (pre ++ b :: mid')
    rw [(at_addEvents hcs c).2] at hw
    rw [(at_addEvents hb b).2] at he
    obtain ⟨j, hj, -⟩ := (mem_outcomes ok).mp hw
    obtain ⟨i, hi, -⟩ := (mem_outcomes ok).mp he
    refine not_mem_seen_of_mem_after (List.mem_of_getElem? hj) hwk (mem_seen.mpr ⟨e, ?_, hk⟩)
    have hmem : e ∈ kept (pre.flatten ++ b) := by
      rw [kept, firsts_append]
      exact List.mem_append_right _ (List.mem_of_getElem? hi)
    rw [List.flatten_append, List.flatten_cons, ← List.append_assoc]
    exact List.mem_append_left _ (mem_of_mem_firsts hmem)
  · intro h pre b mid c post hsplit e k he hk _ hc
    obtain ⟨e', he', hk'⟩ := hc
    have htried : (e, false) ∈ x.tried ok (pre ++ [b]) := by
      rw [tried, Mealy.outs_concat]
      exact List.mem_append_right _ he
    rw [tried_eq] at htried
    exact absurd hk' (h (pre ++ [b]) (mid ++ c :: post) (by rw [hsplit]; simp) e k htried hk c
      (by simp) e' he')

/-- **A run with failing writes is uncorrupted exactly when its first element is written, what is
written needs no escaping, and no metadata whose write failed comes again in a later batch.** -/
theorem uncorrupted_iff (ok : ℕ → Bool) (x : ChromeTraceExporter)
    (batches : List (List (TraceEvent F))) (hfinite : ∀ b ∈ batches, ∀ e ∈ b, e.Finite) :
    Uncorrupted ok x batches ↔
      (batches.flatten = [] ∨ ok 0 = true) ∧
      (∀ e ∈ succeeded (outcomes ok 0 (kept batches.flatten)), e.Plain) ∧
      ∀ pre post, batches = pre ++ post → ∀ e k, (e, false) ∈ outcomes ok 0 (kept pre.flatten) →
        e.metaKey = some k → ∀ c ∈ post, ∀ e' ∈ c, e'.metaKey ≠ some k := by
  have hfin : ∀ e ∈ succeeded (outcomes ok 0 (kept batches.flatten)), e.Finite := fun e he => by
    obtain ⟨w, hw, rfl⟩ := List.mem_map.mp he
    obtain ⟨j, hj, -⟩ := (mem_outcomes ok).mp (List.mem_of_mem_filter hw)
    obtain ⟨b, hb, he⟩ := List.mem_flatten.mp (mem_of_mem_firsts (List.mem_of_getElem? hj))
    exact hfinite b hb _ he
  rw [Uncorrupted, retried_iff, traceJson_eq, tried_eq, parse_fileText_iff, and_assoc]
  refine and_congr (or_congr_left firsts_eq_nil_iff) (and_congr_left' ?_)
  exact forall₂_congr fun e he => and_iff_left (hfin e he)

end Valid

/-! ## Runs -/

/-- A double by its whole part. -/
inductive WholeF64 where
  | whole (n : ℤ)
  | inf (negative : Bool)
  | nan
  deriving DecidableEq

namespace WholeF64

/-- The double a word is: sign, eleven bits of exponent, and fifty-two of fraction. -/
def ofBits (w : BitVec 64) : WholeF64 :=
  let exponent := w.toNat / 2 ^ 52 % 2 ^ 11
  let fraction := w.toNat % 2 ^ 52
  if exponent = 2047 then (if fraction = 0 then .inf w.msb else .nan)
  else
    let magnitude : ℕ := if exponent = 0 then 0 else (2 ^ 52 + fraction) * 2 ^ exponent / 2 ^ 1075
    .whole (if w.msb then -magnitude else magnitude)

def lift (f : ℤ → ℤ → WholeF64) : WholeF64 → WholeF64 → WholeF64
  | .whole a, .whole b => f a b
  | _, _ => .nan

instance : F64 WholeF64 where
  ofBits := ofBits
  ofInt := .whole
  sub := lift fun a b => .whole (a - b)
  mul := lift fun a b => .whole (a * b)
  div := lift fun a b => if b = 0 then .nan else .whole (a.tdiv b)
  round x := x
  isFinite
    | .whole _ => true
    | _ => false
  toI64
    | .whole n => MachineInt.clamp64 n
    | .inf negative => if negative then -2 ^ 63 else 2 ^ 63 - 1
    | .nan => 0

instance : StdDisplayF64 WholeF64 where
  display
    | .whole n => toString n
    | .inf negative => if negative then "-inf" else "inf"
    | .nan => "NaN"
  decimal
    | .whole n => n
    | _ => 0
  number?_display
    | .whole n, _ => number?_intRepr n
    | .inf _, h => nomatch h
    | .nan, h => nomatch h
  display_eq_of_not_isFinite
    | .whole _, h => nomatch h
    | .inf negative, _ => by cases negative <;> simp
    | .nan, _ => Or.inl rfl

end WholeF64

namespace ChromeTraceExporter

/-- An exporter without a file. -/
def new : ChromeTraceExporter := ⟨none, false, ∅, ∅, 0⟩

end ChromeTraceExporter

/-- A pause from 1000 ns to 2000 ns, with these bytes for its duration. -/
def pauseOf (duration : List UInt8) : Conversion :=
  ⟨7, ⟨0, 0, 0, [0xe8, 3, 0, 0, 0, 0, 0, 0] ++ [0xd0, 7, 0, 0, 0, 0, 0, 0] ++ duration,
    ⟨24, [("ts_start", 0), ("ts_stop", 8), ("duration", 16)]⟩⟩, 0⟩

/-- A duration of 2, with the events split after the metadata. -/
theorem traceValid_pauseOf : TraceValid (F := WholeF64) .new
    [(pauseOf [0, 0, 0, 0, 0, 0, 0, 0x40]).events.take 2, [],
      (pauseOf [0, 0, 0, 0, 0, 0, 0, 0x40]).events.drop 2] :=
  (traceValid_iff .new [pauseOf [0, 0, 0, 0, 0, 0, 0, 0x40]] _ (by simp)).1.mpr (by decide +kernel)

/-- A duration that is no number. -/
theorem not_traceValid_pauseOf : ¬TraceValid (F := WholeF64) .new
    [(pauseOf [0, 0, 0, 0, 0, 0, 0xf8, 0x7f]).events] := fun h => by
  have hflat : [(pauseOf [0, 0, 0, 0, 0, 0, 0xf8, 0x7f]).events].flatten =
      [pauseOf [0, 0, 0, 0, 0, 0, 0xf8, 0x7f]].flatMap (Conversion.events (F := WholeF64)) := by
    rw [List.flatten_singleton, List.flatMap_singleton]
  have hdur : ¬∀ c ∈ [pauseOf [0, 0, 0, 0, 0, 0, 0xf8, 0x7f]], c.record.hasTiming = true →
      F64.isFinite (c.record.duration : WholeF64) = true := by decide +kernel
  have hkept := (traceValid_iff_kept .new hflat).mp h
  rw [hflat] at hkept
  exact hdur ((finite_kept_iff _).mp hkept)

/-- The second of two markers is lost, and the file is the first. -/
theorem uncorrupted_secondLost : Uncorrupted (F := WholeF64) (fun n => decide (n = 0)) .new
    [[.instant 7 5000 "start"], [.instant 7 6000 "stop"]] := by
  refine (uncorrupted_iff _ _ _ ?_).mpr ⟨Or.inr rfl, by decide +kernel, ?_⟩
  · simp [TraceEvent.Finite, TraceEvent.args]
  · intro pre post hsplit e k he hk
    obtain ⟨j, hj, -⟩ := (mem_outcomes _).mp he
    have hmem : e ∈ [[TraceEvent.instant 7 5000 "start"], [.instant 7 6000 "stop"]].flatten := by
      rw [hsplit, List.flatten_append]
      exact List.mem_append_left _ (mem_of_mem_firsts (List.mem_of_getElem? hj))
    have hnone : e.metaKey = none := by
      simp only [List.flatten_cons, List.flatten_nil, List.append_nil, List.singleton_append,
        List.mem_cons, List.not_mem_nil, or_false] at hmem
      rcases hmem with rfl | rfl <;> rfl
    rw [hnone] at hk
    cases hk

/-- The first element of a trace is lost. -/
theorem not_uncorrupted_firstLost :
    (∀ e ∈ (pauseOf [0, 0, 0, 0, 0, 0, 0, 0x40]).events, e.Finite (F := WholeF64)) ∧
      ¬Uncorrupted (F := WholeF64) (fun n => decide (n ≠ 0)) .new
        [(pauseOf [0, 0, 0, 0, 0, 0, 0, 0x40]).events] := by
  constructor
  · exact (finite_convertRecord_iff _ _ _).mpr fun _ => by decide +kernel
  · rintro ⟨h, -⟩
    rw [traceJson_eq, parse_fileText_eq_none _ _ rfl] at h
    · cases h
    · rw [List.flatten_singleton]
      refine mt firsts_eq_nil_iff.mp ?_
      exact List.ne_nil_of_mem (a := .processMeta 7 "python 7") (by decide +kernel)

end GcScope
