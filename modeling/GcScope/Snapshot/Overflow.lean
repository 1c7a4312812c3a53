import Mathlib.Data.List.FinRange
import GcScope.Lib.Guarded
import GcScope.Snapshot.Averages

/-!
# Averages and rates, with every integer operation checked

The spans a snapshot divides by are differences between the extreme Entries of a ring, and the Entries
are whatever the memory of the process decodes to. The same computation in a build that stops where
a difference does not fit or a divisor is zero.

* `avgCollectionTimePerGenChecked`, `collectionsRateFromEntriesChecked`: nothing where an operation
  fails.
* `CountersFit`, `TimesFit`: the spans of one generation fit a signed word.
* `guarded_generationAverage`, `guarded_generationRate`: what makes a generation fail.
* **`spans_fit_iff`**: which snapshots come through.
* `counters_wrap`: two Entries that do not.
-/

set_option autoImplicit false

namespace GcScope

open MachineInt LittleEndian

variable {F : Type} [F64 F]

/-! ## The checked build -/

/-- A division that stops at a zero divisor. -/
def divChecked (x : F) (divisor : ℤ) (d : F) : Option F :=
  if divisor = 0 then none else some (F64.div x d)

def generationAverageChecked (gentries : List (GcEntry F)) : Option F :=
  if gentries.length < 2 then some (F64.ofInt 0)
  else
    match minByKey GcEntry.collections gentries, maxByKey GcEntry.collections gentries with
    | some minColl, some maxColl => do
      let collDelta ← checked64 (maxColl.collections - minColl.collections)
      let durDelta := F64.sub maxColl.duration minColl.duration
      if 0 < collDelta then divChecked durDelta collDelta (F64.ofInt collDelta)
      else some (F64.ofInt 0)
    | _, _ => none

def generationRateChecked (gentries : List (GcEntry F)) : Option F :=
  if gentries.length < 2 then some (F64.ofInt 0)
  else
    match minByKey GcEntry.collections gentries, maxByKey GcEntry.collections gentries,
      minByKey GcEntry.startTs gentries, maxByKey GcEntry.stopTs gentries with
    | some minColl, some maxColl, some minTs, some maxTs => do
      let collDelta ← checked64 (maxColl.collections - minColl.collections)
      let tsDeltaNs ← checked64 (maxTs.stopTs - minTs.startTs)
      if 0 < tsDeltaNs ∧ 0 < collDelta then
        divChecked (F64.ofInt collDelta) tsDeltaNs
          (F64.div (F64.ofInt tsDeltaNs) (F64.ofInt 1000000000))
      else some (F64.ofInt 0)
    | _, _, _, _ => none

/-- One figure a generation, or nothing where one of them fails. -/
def perGenChecked (figure : List (GcEntry F) → Option F) (entries : List (GcEntry F)) :
    Option (Fin 3 → Option F) := do
  let figures ← (List.finRange 3).mapM fun g => figure (entriesByGeneration entries g)
  return fun g => figures[g.val]?

def avgCollectionTimePerGenChecked (entries : List (GcEntry F)) (hasDuration : Bool) :
    Option (Fin 3 → Option F) :=
  if !hasDuration then some fun _ => none else perGenChecked generationAverageChecked entries

def collectionsRateFromEntriesChecked (entries : List (GcEntry F)) (hasTimestamps : Bool) :
    Option (Fin 3 → Option F) :=
  if !hasTimestamps then some fun _ => none else perGenChecked generationRateChecked entries

/-! ## One generation -/

section Generation

variable {gentries : List (GcEntry F)}

/-- Where a generation has two written Entries, no two of them count `2 ^ 63` Collections apart. -/
def CountersFit (gentries : List (GcEntry F)) : Prop :=
  2 ≤ gentries.length → ∀ a ∈ gentries, ∀ b ∈ gentries, b.collections - a.collections < 2 ^ 63

/-- Nor does one stop `2 ^ 63` nanoseconds after another starts. -/
def TimesFit (gentries : List (GcEntry F)) : Prop :=
  2 ≤ gentries.length → ∀ a ∈ gentries, ∀ b ∈ gentries, b.stopTs - a.startTs < 2 ^ 63

omit [F64 F] in
/-- The greatest difference of two keys is the one between the extremes. -/
theorem span_lt_iff {low high : GcEntry F → ℤ} {lo hi : GcEntry F}
    (hlo : minByKey low gentries = some lo) (hhi : maxByKey high gentries = some hi) (n : ℤ) :
    high hi - low lo < n ↔ ∀ a ∈ gentries, ∀ b ∈ gentries, high b - low a < n := by
  obtain ⟨hlomem, hlole⟩ := minByKey_spec hlo
  obtain ⟨himem, hhile⟩ := maxByKey_spec hhi
  constructor
  · intro h a ha b hb
    have := hlole a ha
    have := hhile b hb
    omega
  · exact fun h => h lo hlomem hi himem

omit [F64 F] in
theorem span_nonneg {low high : GcEntry F → ℤ} {lo hi : GcEntry F}
    (hlo : minByKey low gentries = some lo) (hhi : maxByKey high gentries = some hi)
    (h : ∀ e ∈ gentries, low e ≤ high e) : 0 ≤ high hi - low lo := by
  obtain ⟨hlomem, -⟩ := minByKey_spec hlo
  have hle := (maxByKey_spec hhi).2 lo hlomem
  exact Int.sub_nonneg.mpr ((h lo hlomem).trans hle)

theorem guarded_checked64 {x : ℤ} (h : 0 ≤ x) : Guarded (checked64 x) (x < 2 ^ 63) x := by
  have hin : InI64 x ↔ x < 2 ^ 63 := by
    rw [inI64_iff]
    omega
  intro r
  unfold checked64
  split_ifs with hx
  · rw [Option.some.injEq, eq_comm, and_iff_right (hin.mp hx)]
  · exact ⟨fun hr => (nomatch hr), fun hr => absurd (hin.mpr hr.1) hx⟩

theorem guarded_divChecked (x d : F) {n : ℤ} (P : Prop) [Decidable P] (hP : P → 0 < n) (z : F) :
    Guarded (if P then divChecked x n d else some z) True (if P then F64.div x d else z) := by
  by_cases h : P
  · have hn : n ≠ 0 := (hP h).ne'
    rw [if_pos h, if_pos h, divChecked, if_neg hn]
    exact .pure _
  · rw [if_neg h, if_neg h]
    exact .pure _

theorem guarded_generationAverage (gentries : List (GcEntry F)) :
    Guarded (generationAverageChecked gentries) (CountersFit gentries)
      (generationAverage gentries) := by
  unfold generationAverageChecked generationAverage CountersFit
  by_cases hlen : gentries.length < 2
  · rw [if_pos hlen, if_pos hlen]
    exact (Guarded.pure _).congr ⟨fun _ h => absurd h (Nat.not_le.mpr hlen), fun _ => trivial⟩
  have hne : gentries ≠ [] := fun h => hlen (by rw [h]; exact Nat.zero_lt_two)
  obtain ⟨lo, hlo⟩ := exists_minByKey GcEntry.collections hne
  obtain ⟨hi, hhi⟩ := exists_maxByKey GcEntry.collections hne
  have hle := span_nonneg hlo hhi fun _ _ => Int.le_refl _
  rw [if_neg hlen, if_neg hlen, hlo, hhi]
  refine ((guarded_checked64 hle).bind (guarded_divChecked _ _ _ id _)).congr ?_
  rw [and_true, span_lt_iff hlo hhi, forall_prop_of_true (Nat.not_lt.mp hlen)]

theorem guarded_generationRate (gentries : List (GcEntry F))
    (hcomplete : ∀ e ∈ gentries, e.startTs < e.stopTs) :
    Guarded (generationRateChecked gentries) (CountersFit gentries ∧ TimesFit gentries)
      (generationRate gentries) := by
  unfold generationRateChecked generationRate CountersFit TimesFit
  by_cases hlen : gentries.length < 2
  · have hshort {P : Prop} : 2 ≤ gentries.length → P := fun h => absurd h (Nat.not_le.mpr hlen)
    rw [if_pos hlen, if_pos hlen]
    exact (Guarded.pure _).congr ⟨fun _ => ⟨hshort, hshort⟩, fun _ => trivial⟩
  have hne : gentries ≠ [] := fun h => hlen (by rw [h]; exact Nat.zero_lt_two)
  obtain ⟨lo, hlo⟩ := exists_minByKey GcEntry.collections hne
  obtain ⟨hi, hhi⟩ := exists_maxByKey GcEntry.collections hne
  obtain ⟨first, hfirst⟩ := exists_minByKey GcEntry.startTs hne
  obtain ⟨last, hlast⟩ := exists_maxByKey GcEntry.stopTs hne
  have hcoll := span_nonneg hlo hhi fun _ _ => Int.le_refl _
  have hts := span_nonneg hfirst hlast fun e he => Int.le_of_lt (hcomplete e he)
  rw [if_neg hlen, if_neg hlen, hlo, hhi, hfirst, hlast]
  refine ((guarded_checked64 hcoll).bind ((guarded_checked64 hts).bind
    (guarded_divChecked _ _ _ And.left _))).congr ?_
  rw [and_true, span_lt_iff hlo hhi, span_lt_iff hfirst hlast,
    forall_prop_of_true (Nat.not_lt.mp hlen), forall_prop_of_true (Nat.not_lt.mp hlen)]

end Generation

/-! ## One snapshot -/

/-- The layout of the table defines the field. -/
def OffsetTable.defines (table : OffsetTable) (name : String) : Bool :=
  match table.gcLayout with
  | some l => l.hasField name
  | none => false

/-- The flags a snapshot of the table is collected with. -/
def OffsetTable.hasTimestamps (table : OffsetTable) : Bool :=
  table.defines "ts_start" && table.defines "ts_stop"

def OffsetTable.hasDuration (table : OffsetTable) : Bool := table.defines "duration"

theorem layout_of_mem_decodeGcStats {table : OffsetTable} {raw : List UInt8} {iid : ℤ} {s : GcStat}
    (h : s ∈ table.decodeGcStats raw iid) : table.gcLayout = some s.layout := by
  cases hlen : table.statsBufferLen with
  | none =>
    rw [OffsetTable.decodeGcStats_of_none hlen] at h
    exact absurd h List.not_mem_nil
  | some total =>
    obtain ⟨item, entries, bases, layout, hd, rfl⟩ := OffsetTable.statsBufferLen_eq_some hlen
    by_cases hl : wrapU64 (bases 2 + entries 2 * item) ≤ raw.length
    · obtain ⟨g, i, -, -, rfl⟩ := (hd.mem_decodeGcStats hl).mp h
      exact hd.layout
    · rw [OffsetTable.decodeGcStats_of_short hlen (Nat.not_le.mp hl)] at h
      exact absurd h List.not_mem_nil

/-- A parsed Entry with timestamps stops after it starts. -/
theorem startTs_lt_stopTs {table : OffsetTable} {raw : List UInt8} {e : GcEntry F}
    (ht : table.hasTimestamps = true) (he : e ∈ (parseGcEntries raw table : List (GcEntry F))) :
    e.startTs < e.stopTs := by
  obtain ⟨s, hs, rfl⟩ := List.mem_map.mp he
  obtain ⟨hmem, hcomplete⟩ := List.mem_filter.mp hs
  have htiming : s.hasTiming = true := by
    rw [OffsetTable.hasTimestamps, OffsetTable.defines, OffsetTable.defines,
      layout_of_mem_decodeGcStats hmem] at ht
    exact ht
  rw [s.isComplete_of_hasTiming htiming, decide_eq_true_eq] at hcomplete
  exact hcomplete

/-- Every generation of the snapshot comes through what is computed for it. -/
def SpansFit (table : OffsetTable) (entries : List (GcEntry F)) : Prop :=
  ∀ g : Fin 3,
    (table.hasDuration = true ∨ table.hasTimestamps = true →
      CountersFit (entriesByGeneration entries g)) ∧
    (table.hasTimestamps = true → TimesFit (entriesByGeneration entries g))

omit [F64 F] in
theorem guarded_perGenChecked {figure : List (GcEntry F) → Option F} {P : List (GcEntry F) → Prop}
    {value : List (GcEntry F) → F} (entries : List (GcEntry F))
    (h : ∀ g, Guarded (figure (entriesByGeneration entries g)) (P (entriesByGeneration entries g))
      (value (entriesByGeneration entries g))) :
    Guarded (perGenChecked figure entries) (∀ g, P (entriesByGeneration entries g))
      fun g => some (value (entriesByGeneration entries g)) := by
  have hall : (∀ g ∈ List.finRange 3, P (entriesByGeneration entries g)) ↔
      ∀ g, P (entriesByGeneration entries g) :=
    ⟨fun hg g => hg g (List.mem_finRange g), fun hg g _ => hg g⟩
  have hvalue : (fun g : Fin 3 => ((List.finRange 3).map fun g =>
      value (entriesByGeneration entries g))[g.val]?) =
      fun g => some (value (entriesByGeneration entries g)) := by
    funext g
    rw [List.getElem?_map, List.getElem?_eq_getElem (by simp), List.getElem_finRange]
    rfl
  rw [← hvalue]
  have hfigures := Guarded.mapM (List.finRange 3) fun g _ => h g
  refine (hfigures.bind (f := fun figures => some fun g : Fin 3 => figures[g.val]?) (.pure _)).congr ?_
  rw [and_true, hall]

theorem guarded_avg (table : OffsetTable) (entries : List (GcEntry F)) :
    Guarded (avgCollectionTimePerGenChecked entries table.hasDuration)
      (table.hasDuration = true → ∀ g, CountersFit (entriesByGeneration entries g))
      (avgCollectionTimePerGen entries table.hasDuration) := by
  unfold avgCollectionTimePerGenChecked avgCollectionTimePerGen
  cases table.hasDuration with
  | false => exact (Guarded.pure _).congr (by simp)
  | true =>
    exact (guarded_perGenChecked entries fun g => guarded_generationAverage _).congr (by simp)

theorem guarded_rate (table : OffsetTable) (raw : List UInt8) :
    Guarded (collectionsRateFromEntriesChecked (parseGcEntries raw table : List (GcEntry F))
        table.hasTimestamps)
      (table.hasTimestamps = true →
        ∀ g, CountersFit (entriesByGeneration (parseGcEntries raw table : List (GcEntry F)) g) ∧
          TimesFit (entriesByGeneration (parseGcEntries raw table : List (GcEntry F)) g))
      (collectionsRateFromEntries (parseGcEntries raw table) table.hasTimestamps) := by
  unfold collectionsRateFromEntriesChecked collectionsRateFromEntries
  cases ht : table.hasTimestamps with
  | false => exact (Guarded.pure _).congr (by simp)
  | true =>
    refine (guarded_perGenChecked (P := fun l => CountersFit l ∧ TimesFit l) _ fun g =>
      guarded_generationRate _ fun e he => ?_).congr (by simp)
    exact startTs_lt_stopTs ht (List.mem_of_mem_filter he)

/-- **Which snapshots come through.** Averages and rates are computed without a failing operation
exactly where the spans of every generation with two written Entries fit a signed word. -/
theorem spans_fit_iff (F : Type) [F64 F] (raw : List UInt8) (table : OffsetTable) :
    (avgCollectionTimePerGenChecked (parseGcEntries raw table : List (GcEntry F)) table.hasDuration =
        some (avgCollectionTimePerGen (parseGcEntries raw table) table.hasDuration) ∧
      collectionsRateFromEntriesChecked (parseGcEntries raw table : List (GcEntry F))
          table.hasTimestamps =
        some (collectionsRateFromEntries (parseGcEntries raw table) table.hasTimestamps)) ↔
      SpansFit table (parseGcEntries raw table : List (GcEntry F)) := by
  rw [guarded_avg table _ _, guarded_rate table raw _, and_iff_left rfl, and_iff_left rfl]
  constructor
  · rintro ⟨havg, hrate⟩ g
    refine ⟨fun h => ?_, fun h => (hrate h g).2⟩
    exact h.elim (fun hd => havg hd g) fun ht => (hrate ht g).1
  · intro h
    exact ⟨fun hd g => (h g).1 (.inl hd), fun ht g => ⟨(h g).1 (.inr ht), (h g).2 ht⟩⟩

/-! ## Two counters far apart -/

/-- A ring whose first two Entries carry the counters `-1` and `2 ^ 63 - 1`. -/
def farApart : List UInt8 :=
  wordsBytes ([1, 2, -1, 0, 0, 0, 0, 0] ++ [3, 4, 0x7FFFFFFFFFFFFFFF, 0, 0, 0, 0, 0] ++
    List.replicate 122 0)

/-- **The counters of a torn ring can lie too far apart.** -/
theorem counters_wrap :
    avgCollectionTimePerGenChecked
      (parseGcEntries farApart (OffsetTable.blank.setRing 64 ringLayout 0) :
        List (GcEntry (Secs fun w => w.toInt))) true = none := by
  decide +kernel

end GcScope
