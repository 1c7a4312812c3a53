import GcScope.Lib.JsonText
import GcScope.RemoteDebugging.GcStat

/-!
# Records as trace events

A Record is converted once, for every output format: a build with timestamps gives a span with a
pair of events for each sub-phase it carries, and counters; one without them gives a counter sample.

* `DisplayF64`: how a double is formatted.
* `ArgValue`, `TraceEvent`: the model of a trace, in nanoseconds; `tsUs` is the unit of a format.
* `PHASES`, `pauseEvents`, `countEvents`, `convertRecord`: the conversion.
* `TraceEvent.Plain`: names and keys that need no escaping, as **`plain_convertRecord`** has them.
* **`finite_convertRecord_iff`**: the one figure that can fail to be finite is a `duration`.
-/

set_option autoImplicit false

namespace GcScope

open Json

/-- How a double is formatted: a finite one as the numeral of its decimal form. -/
class DisplayF64 (F : Type) [F64 F] where
  display : F → String
  decimal : F → ℚ
  number?_display (x : F) : F64.isFinite x = true →
    number? (display x).toList = some (decimal x)

/-- The standard formatting, which spells the doubles that are not finite too. -/
class StdDisplayF64 (F : Type) [F64 F] extends DisplayF64 F where
  display_eq_of_not_isFinite (x : F) : F64.isFinite x = false →
    display x = "NaN" ∨ display x = "inf" ∨ display x = "-inf"

/-- The value of an event argument. -/
inductive ArgValue (F : Type) where
  | int (v : ℤ)
  | float (v : F)
  deriving DecidableEq

/-- An event argument, with its key. -/
abbrev Arg (F : Type) : Type := String × ArgValue F

/-- One event of a trace. -/
inductive TraceEvent (F : Type) where
  | processMeta (pid : ℕ) (name : String)
  | threadMeta (pid : ℕ) (tid : ℤ) (name : String)
  /-- Opens a span on `(pid, tid)`. -/
  | spanBegin (pid : ℕ) (tid tsNs : ℤ) (name cat : String) (args : List (Arg F))
  /-- Closes the innermost open span on `(pid, tid)`. -/
  | spanEnd (pid : ℕ) (tid tsNs : ℤ) (name cat : String)
  | instant (pid : ℕ) (tsNs : ℤ) (name : String)
  /-- One sample of a numeric series on `(pid, tid)`. -/
  | counter (pid : ℕ) (tid tsNs : ℤ) (name : String) (args : List (Arg F))
  deriving DecidableEq

/-- The microseconds of a Chrome trace, truncated toward zero. -/
def tsUs (tsNs : ℤ) : ℤ := tsNs.tdiv 1000

theorem tsUs_mono {a b : ℤ} (h : a ≤ b) : tsUs a ≤ tsUs b := Int.tdiv_le_tdiv (by decide) h

/-! ## The sub-phases of a pause -/

/-- How the start of a sub-step is found. -/
inductive Start where
  | explicit (field : String)
  /-- The first of these fields the build has, else the start of the pause. -/
  | chained (candidates : List String)

/-- One sub-step of a pause, by the names of its fields. -/
structure Phase where
  label : String
  cat : String
  start : Start
  stop : String
  args : List (String × String)

/-- The sub-steps in emission order. -/
def PHASES : List Phase :=
  [{ label := "Mark Alive"
     cat := "gc.mark.alive"
     start := .explicit "ts_mark_alive_start"
     stop := "ts_mark_alive_stop"
     args := [("alive_size", "alive_size")] },
   { label := "Fill increment"
     cat := "gc.increment"
     start := .explicit "ts_fill_increment_start"
     stop := "ts_fill_increment_stop"
     args := [("increment_size", "increment_size")] },
   { label := "Deduce Unreachable"
     cat := "gc.deduce"
     start := .explicit "ts_deduce_unreachable_start"
     stop := "ts_deduce_unreachable_stop"
     args := [("candidates", "candidates")] },
   { label := "Handle Weakrefs Callbacks"
     cat := "gc.weakrefs"
     start := .explicit "ts_handle_weakref_callbacks_start"
     stop := "ts_handle_weakref_callbacks_stop"
     args := [] },
   { label := "Finalize Garbage"
     cat := "gc.finalize"
     start := .chained ["ts_handle_weakref_callbacks_stop", "ts_deduce_unreachable_stop"]
     stop := "ts_finalize_garbage_stop"
     args := [("finalized_garbage_count", "finalized_garbage_count")] },
   { label := "Handle Resurrected"
     cat := "gc.resurrect"
     start := .chained ["ts_finalize_garbage_stop"]
     stop := "ts_handle_resurrected_stop"
     args := [] },
   { label := "Clear Weakrefs"
     cat := "gc.clear_weakrefs"
     start := .chained ["ts_handle_resurrected_stop"]
     stop := "ts_clear_weakrefs_stop"
     args := [("clear_weakrefs_count", "clear_weakrefs_count")] },
   { label := "Delete Garbage"
     cat := "gc.delete"
     start := .explicit "ts_delete_garbage_start"
     stop := "ts_delete_garbage_stop"
     args := [("deleted_garbage_count", "deleted_garbage_count")] }]

/-! ## The conversion -/

section Conversion

variable {F : Type}

/-- The arguments every event of a pause carries. -/
def identity (record : GcStat) : List (Arg F) :=
  [("generation", .int record.generation), ("iid", .int record.interpreterId)]

def Start.resolve (start : Start) (record : GcStat) : Option ℤ :=
  match start with
  | .explicit field => record.get field
  | .chained candidates => some ((candidates.findSome? record.get).getD record.tsStart)

/-- The pair of events of one sub-step, where the build has it and it has a width. -/
def phaseEvents (pid : ℕ) (record : GcStat) (phase : Phase) : List (TraceEvent F) :=
  match record.get phase.stop, phase.start.resolve record with
  | some stop, some start =>
    if stop ≤ start then []
    else
      let name := phase.label ++ " (gen=" ++ toString record.generation ++ ")"
      let cat := phase.cat ++ "(gen=" ++ toString record.generation ++ ")"
      let args := identity record ++
        phase.args.map fun a => (a.1, .int ((record.get a.2).getD 0))
      [.spanBegin pid record.interpreterId start name cat args,
        .spanEnd pid record.interpreterId stop name cat]
  | _, _ => []

/-- The per-generation series of a pause. -/
def metrics [F64 F] (record : GcStat) : List (Arg F) :=
  [("collected", .int record.collected), ("candidates", .int record.candidates),
    ("duration", .float record.duration)] ++
    if 0 < record.uncollectable then [("uncollectable", .int record.uncollectable)] else []

/-- The begin of the pause, its sub-steps, and its end. -/
def spanEvents (pid : ℕ) (record : GcStat) : List (TraceEvent F) :=
  let name := "GC Pause (gen=" ++ toString record.generation ++ ")"
  let cat := "gc.pause(gen=" ++ toString record.generation ++ ")"
  .spanBegin pid record.interpreterId record.tsStart name cat
      (identity record ++
        [("collections", .int record.collections), ("heap_size", .int record.heapSize),
          ("collected", .int record.collected), ("uncollectable", .int record.uncollectable),
          ("candidates", .int record.candidates)]) ::
    (PHASES.flatMap (phaseEvents pid record) ++
      [.spanEnd pid record.interpreterId record.tsStop name cat])

/-- The events of a Record from a build that publishes the pause timestamps. -/
def pauseEvents [F64 F] (pid : ℕ) (record : GcStat) : List (TraceEvent F) :=
  spanEvents pid record ++
    [.counter pid record.interpreterId record.tsStart ("G" ++ toString record.generation)
        (metrics record),
      .counter pid record.interpreterId record.tsStart "" [("heap_size", .int record.heapSize)]]

/-- The counts a Record has. -/
def counts (record : GcStat) : List (Arg F) :=
  (["collections", "collected"].filterMap fun name =>
      (record.get name).map fun value => (name, .int value)) ++
    if 0 < record.uncollectable then [("uncollectable", .int record.uncollectable)] else []

/-- The events of a Record from a build that publishes no timestamps. -/
def countEvents (pid : ℕ) (record : GcStat) (observedAtNs : ℤ) : List (TraceEvent F) :=
  if (counts record : List (Arg F)).isEmpty then []
  else [.counter pid record.interpreterId observedAtNs ("G" ++ toString record.generation)
    (counts record)]

/-- The events that describe a Record, without the metadata. -/
def bodyEvents [F64 F] (pid : ℕ) (record : GcStat) (observedAtNs : ℤ) : List (TraceEvent F) :=
  if record.hasTiming then pauseEvents pid record else countEvents pid record observedAtNs

/-- The events of a Record, led by the metadata of its process and its track. -/
def convertRecord [F64 F] (pid : ℕ) (record : GcStat) (observedAtNs : ℤ) : List (TraceEvent F) :=
  if (bodyEvents pid record observedAtNs : List (TraceEvent F)).isEmpty then []
  else
    .processMeta pid ("python " ++ toString pid) ::
      .threadMeta pid record.interpreterId (toString pid ++ ":" ++ toString record.interpreterId) ::
        bodyEvents pid record observedAtNs

end Conversion

/-! ## What the events carry -/

namespace TraceEvent

variable {F : Type}

def args : TraceEvent F → List (Arg F)
  | .spanBegin _ _ _ _ _ args | .counter _ _ _ _ args => args
  | _ => []

/-- The names and keys that are written between quotes. -/
def strings : TraceEvent F → List String
  | .processMeta _ name | .threadMeta _ _ name | .instant _ _ name => [name]
  | .spanBegin _ _ _ name cat args => name :: cat :: args.map Prod.fst
  | .spanEnd _ _ _ name cat => [name, cat]
  | .counter _ _ _ name args => name :: args.map Prod.fst

/-- No name and no key needs escaping. -/
def Plain (e : TraceEvent F) : Prop := ∀ s ∈ e.strings, Json.Plain s

instance (e : TraceEvent F) : Decidable e.Plain := by unfold Plain; infer_instance

/-- Every figure of the event is a number. -/
def Finite [F64 F] (e : TraceEvent F) : Prop :=
  ∀ a ∈ e.args, ∀ v, a.2 = ArgValue.float v → F64.isFinite v = true

end TraceEvent

namespace TraceEvent

variable {F : Type} {pid : ℕ} {tid tsNs : ℤ} {name cat : String} {args : List (Arg F)}

@[simp] theorem plain_processMeta : (processMeta pid name : TraceEvent F).Plain ↔ Json.Plain name := by
  simp [Plain, strings]

@[simp] theorem plain_threadMeta :
    (threadMeta pid tid name : TraceEvent F).Plain ↔ Json.Plain name := by
  simp [Plain, strings]

@[simp] theorem plain_spanBegin : (spanBegin pid tid tsNs name cat args).Plain ↔
    Json.Plain name ∧ Json.Plain cat ∧ ∀ a ∈ args, Json.Plain a.1 := by
  simp [Plain, strings]

@[simp] theorem plain_spanEnd : (spanEnd pid tid tsNs name cat : TraceEvent F).Plain ↔
    Json.Plain name ∧ Json.Plain cat := by
  simp [Plain, strings]

@[simp] theorem plain_instant : (instant pid tsNs name : TraceEvent F).Plain ↔ Json.Plain name := by
  simp [Plain, strings]

@[simp] theorem plain_counter : (counter pid tid tsNs name args).Plain ↔
    Json.Plain name ∧ ∀ a ∈ args, Json.Plain a.1 := by
  simp [Plain, strings]

/-- An event whose figures are integers. -/
def Integral (e : TraceEvent F) : Prop := ∀ a ∈ e.args, ∃ v, a.2 = ArgValue.int v

theorem Integral.finite [F64 F] {e : TraceEvent F} (h : e.Integral) : e.Finite := fun a ha v hv => by
  obtain ⟨w, hw⟩ := h a ha
  rw [hw] at hv
  cases hv

end TraceEvent

section Keys

variable {F : Type} (record : GcStat)

theorem identity_keys : (identity record : List (Arg F)).map Prod.fst = ["generation", "iid"] := rfl

theorem plain_of_map_fst {l : List (Arg F)} {k : List String} (h : l.map Prod.fst = k)
    (hk : ∀ s ∈ k, Json.Plain s) : ∀ a ∈ l, Json.Plain a.1 := fun _ ha =>
  hk _ (h ▸ List.mem_map_of_mem ha)

theorem plain_gen {label : String} (h : Json.Plain label) (sep : String) (hs : Json.Plain sep) :
    Json.Plain (label ++ sep ++ toString record.generation ++ ")") :=
  plain_append (plain_append (plain_append h hs) (plain_natRepr _)) (by decide)

theorem plain_phaseEvents {pid : ℕ} {phase : Phase} (hphase : phase ∈ PHASES) :
    ∀ e ∈ (phaseEvents pid record phase : List (TraceEvent F)), e.Plain := by
  have hall : ∀ phase ∈ PHASES, Json.Plain phase.label ∧ Json.Plain phase.cat ∧
      ∀ a ∈ phase.args, Json.Plain a.1 := by decide
  obtain ⟨hl, hc, ha⟩ := hall phase hphase
  have hname := plain_gen record hl " (gen=" (by decide)
  have hcat := plain_gen record hc "(gen=" (by decide)
  intro e he
  unfold phaseEvents at he
  split at he
  · split_ifs at he
    · cases he
    · simp only [List.mem_cons, List.not_mem_nil, or_false] at he
      rcases he with rfl | rfl
      · refine TraceEvent.plain_spanBegin.mpr ⟨hname, hcat, fun a hmem => ?_⟩
        rcases List.mem_append.mp hmem with h | h
        · exact plain_of_map_fst (identity_keys record) (by decide) a h
        · obtain ⟨b, hb, rfl⟩ := List.mem_map.mp h
          exact ha b hb
      · exact TraceEvent.plain_spanEnd.mpr ⟨hname, hcat⟩
  · cases he

theorem plain_spanEvents (pid : ℕ) : ∀ e ∈ (spanEvents pid record : List (TraceEvent F)), e.Plain := by
  have hname : Json.Plain ("GC Pause (gen=" ++ toString record.generation ++ ")") :=
    plain_append (plain_append (by decide) (plain_natRepr _)) (by decide)
  have hcat : Json.Plain ("gc.pause(gen=" ++ toString record.generation ++ ")") :=
    plain_append (plain_append (by decide) (plain_natRepr _)) (by decide)
  intro e he
  rcases List.mem_cons.mp he with rfl | he
  · exact TraceEvent.plain_spanBegin.mpr ⟨hname, hcat, plain_of_map_fst
      (k := ["generation", "iid", "collections", "heap_size", "collected", "uncollectable",
        "candidates"]) rfl (by decide)⟩
  · rcases List.mem_append.mp he with he | he
    · obtain ⟨phase, hphase, he⟩ := List.mem_flatMap.mp he
      exact plain_phaseEvents record hphase e he
    · rw [List.mem_singleton.mp he]
      exact TraceEvent.plain_spanEnd.mpr ⟨hname, hcat⟩

theorem plain_counterName : Json.Plain ("G" ++ toString record.generation) :=
  plain_append (by decide) (plain_natRepr _)

theorem plain_countEvents (pid : ℕ) (observedAtNs : ℤ) :
    ∀ e ∈ (countEvents pid record observedAtNs : List (TraceEvent F)), e.Plain := by
  intro e he
  unfold countEvents at he
  split_ifs at he
  · cases he
  · rw [List.mem_singleton.mp he]
    refine TraceEvent.plain_counter.mpr ⟨plain_counterName record, fun a ha => ?_⟩
    rcases List.mem_append.mp ha with h | h
    · obtain ⟨name, hname, h⟩ := List.mem_filterMap.mp h
      obtain ⟨v, -, rfl⟩ := Option.map_eq_some_iff.mp h
      exact (by decide : ∀ name ∈ ["collections", "collected"], Json.Plain name) name hname
    · split_ifs at h
      · rw [List.mem_singleton.mp h]; exact (by decide : Json.Plain "uncollectable")
      · cases h

theorem integral_phaseEvents (pid : ℕ) (phase : Phase) :
    ∀ e ∈ (phaseEvents pid record phase : List (TraceEvent F)), e.Integral := by
  intro e he
  unfold phaseEvents at he
  split at he
  · split_ifs at he
    · cases he
    · simp only [List.mem_cons, List.not_mem_nil, or_false] at he
      rcases he with rfl | rfl
      · intro a ha
        simp only [TraceEvent.args, identity, List.mem_append, List.mem_cons, List.not_mem_nil,
          or_false, List.mem_map] at ha
        rcases ha with (rfl | rfl) | ⟨b, -, rfl⟩ <;> exact ⟨_, rfl⟩
      · exact fun a ha => absurd ha List.not_mem_nil
  · cases he

theorem integral_spanEvents (pid : ℕ) :
    ∀ e ∈ (spanEvents pid record : List (TraceEvent F)), e.Integral := by
  intro e he
  rcases List.mem_cons.mp he with rfl | he
  · intro a ha
    simp only [TraceEvent.args, identity, List.mem_append, List.mem_cons, List.not_mem_nil,
      or_false] at ha
    rcases ha with (rfl | rfl) | rfl | rfl | rfl | rfl | rfl <;> exact ⟨_, rfl⟩
  · rcases List.mem_append.mp he with he | he
    · obtain ⟨phase, -, he⟩ := List.mem_flatMap.mp he
      exact integral_phaseEvents record pid phase e he
    · rw [List.mem_singleton.mp he]
      exact fun a ha => absurd ha List.not_mem_nil

theorem integral_countEvents (pid : ℕ) (observedAtNs : ℤ) :
    ∀ e ∈ (countEvents pid record observedAtNs : List (TraceEvent F)), e.Integral := by
  intro e he
  unfold countEvents at he
  split_ifs at he
  · cases he
  · rw [List.mem_singleton.mp he]
    intro a ha
    rcases List.mem_append.mp ha with h | h
    · obtain ⟨name, -, h⟩ := List.mem_filterMap.mp h
      obtain ⟨v, -, rfl⟩ := Option.map_eq_some_iff.mp h
      exact ⟨v, rfl⟩
    · split_ifs at h
      · rw [List.mem_singleton.mp h]; exact ⟨_, rfl⟩
      · cases h

end Keys

section Converted

variable {F : Type} [F64 F] (pid : ℕ) (record : GcStat) (observedAtNs : ℤ)

theorem mem_convertRecord {e : TraceEvent F} (he : e ∈ convertRecord pid record observedAtNs) :
    e = .processMeta pid ("python " ++ toString pid) ∨
      e = .threadMeta pid record.interpreterId
        (toString pid ++ ":" ++ toString record.interpreterId) ∨
      e ∈ (bodyEvents pid record observedAtNs : List (TraceEvent F)) := by
  unfold convertRecord at he
  split_ifs at he
  · cases he
  · simpa using he

theorem mem_convertRecord_of_mem_body {e : TraceEvent F}
    (he : e ∈ (bodyEvents pid record observedAtNs : List (TraceEvent F))) :
    e ∈ convertRecord pid record observedAtNs := by
  rw [convertRecord, if_neg]
  · exact List.mem_cons_of_mem _ (List.mem_cons_of_mem _ he)
  · rw [List.isEmpty_iff]
    exact List.ne_nil_of_mem he

/-- **What the conversion names needs no escaping.** -/
theorem plain_convertRecord : ∀ e ∈ (convertRecord pid record observedAtNs : List (TraceEvent F)),
    e.Plain := by
  intro e he
  rcases mem_convertRecord pid record observedAtNs he with rfl | rfl | he
  · exact TraceEvent.plain_processMeta.mpr (plain_append (by decide) (plain_natRepr _))
  · exact TraceEvent.plain_threadMeta.mpr
      (plain_append (plain_append (plain_natRepr _) (by decide)) (plain_intRepr _))
  · unfold bodyEvents at he
    split_ifs at he
    · rcases List.mem_append.mp he with he | he
      · exact plain_spanEvents record pid e he
      · simp only [List.mem_cons, List.not_mem_nil, or_false] at he
        rcases he with rfl | rfl
        · refine TraceEvent.plain_counter.mpr ⟨plain_counterName record, fun a ha => ?_⟩
          rcases List.mem_append.mp ha with h | h
          · exact plain_of_map_fst (k := ["collected", "candidates", "duration"]) rfl
              (by decide) a h
          · split_ifs at h
            · rw [List.mem_singleton.mp h]; exact (by decide : Json.Plain "uncollectable")
            · cases h
        · exact TraceEvent.plain_counter.mpr ⟨by decide,
            plain_of_map_fst (k := ["heap_size"]) rfl (by decide)⟩
    · exact plain_countEvents record pid observedAtNs e he

/-- **The figures of a Record's events are all finite exactly when its duration is, where it has
one.** -/
theorem finite_convertRecord_iff :
    (∀ e ∈ (convertRecord pid record observedAtNs : List (TraceEvent F)), e.Finite) ↔
      (record.hasTiming = true → F64.isFinite (record.duration : F) = true) := by
  constructor
  · intro h ht
    have hmem : TraceEvent.counter pid record.interpreterId record.tsStart
        ("G" ++ toString record.generation) (metrics record) ∈
          (bodyEvents pid record observedAtNs : List (TraceEvent F)) := by
      rw [bodyEvents, if_pos ht]
      exact List.mem_append_right _ List.mem_cons_self
    exact h _ (mem_convertRecord_of_mem_body pid record observedAtNs hmem) ("duration", _)
      (by simp [TraceEvent.args, metrics]) _ rfl
  · intro h e he
    rcases mem_convertRecord pid record observedAtNs he with rfl | rfl | he
    · exact fun a ha => absurd ha List.not_mem_nil
    · exact fun a ha => absurd ha List.not_mem_nil
    · unfold bodyEvents at he
      split_ifs at he with ht
      · rcases List.mem_append.mp he with he | he
        · exact (integral_spanEvents record pid e he).finite
        · simp only [List.mem_cons, List.not_mem_nil, or_false] at he
          rcases he with rfl | rfl
          · intro a ha v hv
            rcases List.mem_append.mp ha with ha | ha
            · simp only [List.mem_cons, List.not_mem_nil, or_false] at ha
              rcases ha with rfl | rfl | rfl
              · cases hv
              · cases hv
              · rw [← ArgValue.float.inj hv]
                exact h ht
            · split_ifs at ha
              · rw [List.mem_singleton.mp ha] at hv
                cases hv
              · cases ha
          · intro a ha v hv
            rw [List.mem_singleton.mp ha] at hv
            cases hv
      · exact (integral_countEvents record pid observedAtNs e he).finite

end Converted

end GcScope
