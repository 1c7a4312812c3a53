import GcScope.Monitor.TraceValid

/-!
# What a viewer makes of a trace

A viewer of the Chrome format goes through the array once, keeps the spans still open on each track,
and closes the innermost one at an end. Its view of a file the exporter wrote is what the Records say.

* `viewStep`, `spansIn`, `samplesIn`: the viewer, over the elements of the parsed array.
* `spansOf`, `samplesOf`: what one Record should show.
* **`view_events`**: of the events of a Record the viewer makes just that, whatever is open around it.
* **`trace_reads_back`**: so does the parsed file of a run, for all its Records in order.
-/

set_option autoImplicit false

namespace GcScope

open Json Firsts ChromeTraceExporter

/-! ## The viewer -/

/-- A span that has begun. -/
structure Opened where
  name : String
  cat : String
  args : List (String × ℚ)
  startUs : ℤ
  deriving DecidableEq

/-- A span with both its ends, on the track it was drawn on. -/
structure ViewSpan where
  pid : ℤ
  tid : ℤ
  name : String
  cat : String
  args : List (String × ℚ)
  startUs : ℤ
  stopUs : ℤ
  deriving DecidableEq

/-- A point of the series of a track. -/
structure Sample where
  pid : ℤ
  tid : ℤ
  name : String
  tsUs : ℤ
  args : List (String × ℚ)
  deriving DecidableEq

/-- The text under a key. -/
def textOf (j : Json) (key : String) : Option String := (j.get? key).bind Json.string?

/-- The whole number under a key. -/
def intOf (j : Json) (key : String) : Option ℤ := (j.get? key).bind Json.int?

/-- The figures under `args`. -/
def argsOf (j : Json) : List (String × ℚ) := ((j.get? "args").map Json.figures).getD []

/-- One element: a begin opens a span on its track, an end closes the innermost one. -/
def viewStep (opens : ℤ × ℤ → List Opened) (j : Json) : (ℤ × ℤ → List Opened) × List ViewSpan :=
  match intOf j "pid", intOf j "tid", intOf j "ts" with
  | some pid, some tid, some ts =>
    if textOf j "ph" = some "B" then
      (Function.update opens (pid, tid)
        (⟨(textOf j "name").getD "", (textOf j "cat").getD "", argsOf j, ts⟩ :: opens (pid, tid)), [])
    else if textOf j "ph" = some "E" then
      match opens (pid, tid) with
      | [] => (opens, [])
      | o :: rest => (Function.update opens (pid, tid) rest,
        [⟨pid, tid, o.name, o.cat, o.args, o.startUs, ts⟩])
    else (opens, [])
  | _, _, _ => (opens, [])

/-- The point an element adds to a series. -/
def sample? (j : Json) : Option Sample :=
  match intOf j "pid", intOf j "tid", intOf j "ts" with
  | some pid, some tid, some ts =>
    if textOf j "ph" = some "C" then some ⟨pid, tid, (textOf j "name").getD "", ts, argsOf j⟩ else none
  | _, _, _ => none

/-- The spans a viewer draws, in the order they are closed. -/
def spansIn (elements : List Json) : List ViewSpan := Mealy.outs viewStep (fun _ => []) elements

/-- The points it draws. -/
def samplesIn (elements : List Json) : List Sample := elements.filterMap sample?

/-! ## One event -/

section Event

variable {F : Type} [F64 F] [DisplayF64 F]

/-- The number an argument stands for. -/
def ArgValue.figure : ArgValue F → ℚ
  | .int v => v
  | .float v => DisplayF64.decimal v

/-- The arguments of an event, as numbers. -/
def figuresOf (args : List (Arg F)) : List (String × ℚ) := args.map fun a => (a.1, a.2.figure)

theorem figures_argsObject (args : List (Arg F)) : (argsObject args).figures = figuresOf args := by
  rw [argsObject, Json.figures, List.filterMap_map, figuresOf, ← List.filterMap_eq_map]
  refine List.filterMap_congr fun a _ => ?_
  obtain ⟨key, v | v⟩ := a <;> rfl

variable (opens : ℤ × ℤ → List Opened) {pid : ℕ} {tid tsNs : ℤ} {name cat : String}
  {args : List (Arg F)}

theorem viewStep_spanBegin : viewStep opens (TraceEvent.spanBegin pid tid tsNs name cat args).json =
    (Function.update opens (pid, tid)
      (⟨name, cat, figuresOf args, tsUs tsNs⟩ :: opens (pid, tid)), []) := by
  rw [← figures_argsObject]
  rfl

theorem viewStep_spanEnd {o : Opened} {rest : List Opened} (h : opens (pid, tid) = o :: rest) :
    viewStep opens (TraceEvent.spanEnd pid tid tsNs name cat : TraceEvent F).json =
      (Function.update opens (pid, tid) rest,
        [⟨pid, tid, o.name, o.cat, o.args, o.startUs, tsUs tsNs⟩]) := by
  have hstep : viewStep opens (TraceEvent.spanEnd pid tid tsNs name cat : TraceEvent F).json =
      match opens (pid, tid) with
      | [] => (opens, [])
      | o :: rest => (Function.update opens (pid, tid) rest,
        [⟨pid, tid, o.name, o.cat, o.args, o.startUs, tsUs tsNs⟩]) := rfl
  rw [hstep, h]

/-- Only begins and ends matter to the spans. -/
def TraceEvent.isSpan : TraceEvent F → Bool
  | .spanBegin .. | .spanEnd .. => true
  | _ => false

theorem viewStep_of_not_span {e : TraceEvent F} (h : ¬e.isSpan) : viewStep opens e.json = (opens, []) := by
  cases e with
  | spanBegin pid tid tsNs name cat args => exact absurd rfl h
  | spanEnd pid tid tsNs name cat => exact absurd rfl h
  | processMeta pid name => rfl
  | threadMeta pid tid name => rfl
  | instant pid tsNs name => rfl
  | counter pid tid tsNs name args => rfl

theorem view_of_not_span {es : List (TraceEvent F)} (h : ∀ e ∈ es, ¬e.isSpan) :
    Mealy.exec viewStep opens (es.map TraceEvent.json) = opens ∧
      Mealy.outs viewStep opens (es.map TraceEvent.json) = [] := by
  induction es with
  | nil => exact ⟨rfl, rfl⟩
  | cons e es ih =>
    rw [List.map_cons, Mealy.exec_cons, Mealy.outs_cons,
      viewStep_of_not_span opens (h e List.mem_cons_self)]
    exact ih fun e' he' => h e' (List.mem_cons_of_mem e he')

/-- **A begin and an end with a block between them that closes what it opens draw one span**, after
those of the block. -/
theorem view_bracket (es : List (TraceEvent F)) (inner : List ViewSpan) {stopNs : ℤ}
    (h : ∀ s, Mealy.exec viewStep s (es.map TraceEvent.json) = s ∧
      Mealy.outs viewStep s (es.map TraceEvent.json) = inner) :
    Mealy.exec viewStep opens ((.spanBegin pid tid tsNs name cat args :: (es ++
        [.spanEnd pid tid stopNs name cat])).map TraceEvent.json) = opens ∧
      Mealy.outs viewStep opens ((.spanBegin pid tid tsNs name cat args :: (es ++
        [.spanEnd pid tid stopNs name cat])).map TraceEvent.json) =
          inner ++ [⟨pid, tid, name, cat, figuresOf args, tsUs tsNs, tsUs stopNs⟩] := by
  have hend : viewStep _ (TraceEvent.spanEnd pid tid stopNs name cat : TraceEvent F).json = _ :=
    viewStep_spanEnd (Function.update opens ((pid : ℤ), tid)
      (⟨name, cat, figuresOf args, tsUs tsNs⟩ :: opens (pid, tid))) (Function.update_self _ _ _)
  rw [List.map_cons, List.map_append, List.map_singleton, Mealy.exec_cons, Mealy.outs_cons,
    viewStep_spanBegin, Mealy.exec_concat, Mealy.outs_concat, (h _).1, (h _).2, hend,
    Function.update_idem, Function.update_eq_self]
  exact ⟨rfl, rfl⟩

end Event

/-! ## One Record -/

section Record

variable {F : Type} [F64 F] [DisplayF64 F] (pid : ℕ) (record : GcStat)

/-- The span of a sub-step, where the build has it and it has a width. -/
def phaseSpans (phase : Phase) : List ViewSpan :=
  match record.get phase.stop, phase.start.resolve record with
  | some stop, some start =>
    if stop ≤ start then []
    else [⟨pid, record.interpreterId, phase.label ++ " (gen=" ++ toString record.generation ++ ")",
      phase.cat ++ "(gen=" ++ toString record.generation ++ ")",
      [("generation", ((record.generation : ℤ) : ℚ)), ("iid", (record.interpreterId : ℚ))] ++
        phase.args.map fun a => (a.1, (((record.get a.2).getD 0 : ℤ) : ℚ)),
      tsUs start, tsUs stop⟩]
  | _, _ => []

/-- The span of the pause. -/
def pauseSpan : ViewSpan :=
  ⟨pid, record.interpreterId, "GC Pause (gen=" ++ toString record.generation ++ ")",
    "gc.pause(gen=" ++ toString record.generation ++ ")",
    [("generation", (record.generation : ℤ)), ("iid", record.interpreterId),
      ("collections", record.collections), ("heap_size", record.heapSize),
      ("collected", record.collected), ("uncollectable", record.uncollectable),
      ("candidates", record.candidates)],
    tsUs record.tsStart, tsUs record.tsStop⟩

/-- The spans of a timed Record: its sub-steps, inside its pause. -/
def spansOf : List ViewSpan :=
  if record.hasTiming then PHASES.flatMap (phaseSpans pid record) ++ [pauseSpan pid record] else []

theorem view_phaseEvents (phase : Phase) (s : ℤ × ℤ → List Opened) :
    Mealy.exec viewStep s ((phaseEvents pid record phase : List (TraceEvent F)).map
        TraceEvent.json) = s ∧
      Mealy.outs viewStep s ((phaseEvents pid record phase : List (TraceEvent F)).map
        TraceEvent.json) = phaseSpans pid record phase := by
  unfold phaseEvents phaseSpans
  cases record.get phase.stop with
  | none => exact ⟨rfl, rfl⟩
  | some stop =>
    cases phase.start.resolve record with
    | none => exact ⟨rfl, rfl⟩
    | some start =>
      simp only
      split_ifs
      · exact ⟨rfl, rfl⟩
      · refine (view_bracket s [] [] fun _ => ⟨rfl, rfl⟩).imp id fun h => h.trans ?_
        rw [figuresOf, List.map_append, List.map_map]
        rfl

theorem view_spanEvents (s : ℤ × ℤ → List Opened) :
    Mealy.exec viewStep s ((spanEvents pid record : List (TraceEvent F)).map TraceEvent.json) = s ∧
      Mealy.outs viewStep s ((spanEvents pid record : List (TraceEvent F)).map TraceEvent.json) =
        PHASES.flatMap (phaseSpans pid record) ++ [pauseSpan pid record] := by
  refine view_bracket s _ _ fun s => ?_
  rw [List.map_flatMap]
  exact Mealy.outs_flatMap_of_neutral viewStep (fun phase _ s => view_phaseEvents pid record phase s) s

/-- **The viewer draws the spans of a Record, whatever is open around it.** -/
theorem view_events (c : Conversion) (s : ℤ × ℤ → List Opened) :
    Mealy.exec viewStep s ((c.events : List (TraceEvent F)).map TraceEvent.json) = s ∧
      Mealy.outs viewStep s ((c.events : List (TraceEvent F)).map TraceEvent.json) =
        spansOf c.pid c.record := by
  rw [Conversion.events, convertRecord]
  split_ifs with hempty
  · -- a timed Record always has its pause
    have ht : ¬c.record.hasTiming := fun ht => by
      rw [bodyEvents, if_pos ht] at hempty
      cases hempty
    rw [spansOf, if_neg ht]
    exact ⟨rfl, rfl⟩
  · rw [bodyEvents, spansOf]
    split_ifs with ht
    · obtain ⟨hexec, houts⟩ := view_spanEvents (F := F) c.pid c.record s
      rw [pauseEvents, List.map_cons, List.map_cons, List.map_append, Mealy.exec_cons, Mealy.exec_cons,
        Mealy.outs_cons, Mealy.outs_cons, viewStep_of_not_span s (by exact Bool.false_ne_true),
        viewStep_of_not_span s (by exact Bool.false_ne_true), Mealy.exec_append, Mealy.outs_append,
        hexec, houts]
      exact ⟨rfl, List.append_nil _⟩
    · refine view_of_not_span s fun e he => ?_
      rcases List.mem_cons.mp he with rfl | he
      · exact Bool.false_ne_true
      · rcases List.mem_cons.mp he with rfl | he
        · exact Bool.false_ne_true
        · unfold countEvents at he
          split_ifs at he
          · cases he
          · rw [List.mem_singleton.mp he]
            exact Bool.false_ne_true

variable (F) in
/-- The points a Record adds: to the series of its generation and of the heap where it is timed, else
one with its counts, at the clock of the poll. -/
def samplesOf (c : Conversion) : List Sample :=
  if c.record.hasTiming then
    [⟨c.pid, c.record.interpreterId, "G" ++ toString c.record.generation, tsUs c.record.tsStart,
        figuresOf (metrics c.record : List (Arg F))⟩,
      ⟨c.pid, c.record.interpreterId, "", tsUs c.record.tsStart, [("heap_size", c.record.heapSize)]⟩]
  else if (counts c.record : List (Arg F)).isEmpty then []
  else [⟨c.pid, c.record.interpreterId, "G" ++ toString c.record.generation, tsUs c.observedAtNs,
    figuresOf (counts c.record : List (Arg F))⟩]

theorem sample?_counter (pid : ℕ) (tid tsNs : ℤ) (name : String) (args : List (Arg F)) :
    sample? (TraceEvent.counter pid tid tsNs name args).json =
      some ⟨pid, tid, name, tsUs tsNs, figuresOf args⟩ := by
  rw [← figures_argsObject]
  rfl

theorem sample?_of_isSpan {e : TraceEvent F} (h : e.isSpan) : sample? e.json = none := by
  cases e with
  | spanBegin pid tid tsNs name cat args => rfl
  | spanEnd pid tid tsNs name cat => rfl
  | processMeta pid name => cases h
  | threadMeta pid tid name => cases h
  | instant pid tsNs name => cases h
  | counter pid tid tsNs name args => cases h

omit [F64 F] [DisplayF64 F] in
theorem isSpan_spanEvents {e : TraceEvent F} (he : e ∈ (spanEvents pid record : List (TraceEvent F))) :
    e.isSpan := by
  rcases List.mem_cons.mp he with rfl | he
  · rfl
  · rcases List.mem_append.mp he with he | he
    · obtain ⟨phase, -, he⟩ := List.mem_flatMap.mp he
      unfold phaseEvents at he
      split at he
      · split_ifs at he
        · cases he
        · simp only [List.mem_cons, List.not_mem_nil, or_false] at he
          rcases he with rfl | rfl <;> rfl
      · cases he
    · rw [List.mem_singleton.mp he]
      rfl

theorem samples_events (c : Conversion) :
    ((c.events : List (TraceEvent F)).map TraceEvent.json).filterMap sample? = samplesOf F c := by
  rw [Conversion.events, convertRecord]
  split_ifs with hempty
  · rw [bodyEvents] at hempty
    split_ifs at hempty with ht
    · cases hempty
    · rw [samplesOf, if_neg ht]
      unfold countEvents at hempty
      split_ifs at hempty with hcounts
      · rw [if_pos hcounts]
        rfl
      · cases hempty
  · have hmeta : ∀ es : List (TraceEvent F), ((TraceEvent.processMeta c.pid
        ("python " ++ toString c.pid) :: .threadMeta c.pid c.record.interpreterId
          (toString c.pid ++ ":" ++ toString c.record.interpreterId) :: es).map
            TraceEvent.json).filterMap sample? = (es.map TraceEvent.json).filterMap sample? :=
      fun _ => rfl
    rw [hmeta, bodyEvents, samplesOf]
    split_ifs with ht hcounts
    · have hspans : ((spanEvents c.pid c.record : List (TraceEvent F)).map
          TraceEvent.json).filterMap sample? = [] := by
        rw [List.filterMap_map, List.filterMap_eq_nil_iff]
        exact fun e he => sample?_of_isSpan (isSpan_spanEvents c.pid c.record he)
      rw [pauseEvents, List.map_append, List.filterMap_append, hspans, List.map_cons,
        List.map_singleton, List.filterMap_cons_some (sample?_counter ..),
        List.filterMap_cons_some (sample?_counter ..)]
      rfl
    · rw [countEvents, if_pos hcounts]
      rfl
    · rw [countEvents, if_neg hcounts, List.map_singleton,
        List.filterMap_cons_some (sample?_counter ..)]
      rfl

end Record

/-! ## Whole files -/

section Kept

variable {F : Type} [F64 F] [DisplayF64 F] (es : List (TraceEvent F))

theorem spansIn_kept : spansIn ((kept es).map TraceEvent.json) = spansIn (es.map TraceEvent.json) := by
  have hidle : ∀ e : TraceEvent F, ¬e.metaKey.isNone → ∀ s, viewStep s e.json = (s, []) := by
    intro e he s
    refine viewStep_of_not_span s fun hspan => he ?_
    cases e <;> first | rfl | cases hspan
  have hfilter := fun l : List (TraceEvent F) => (Mealy.outs_filter_of_idle
    (fun s (e : TraceEvent F) => viewStep s e.json) hidle (fun _ => []) l).2
  rw [spansIn, spansIn, (Mealy.run_map viewStep TraceEvent.json _ _).2,
    (Mealy.run_map viewStep TraceEvent.json _ _).2, ← hfilter (kept es), ← hfilter es, kept,
    filter_isNone_firsts]

theorem samplesIn_kept :
    samplesIn ((kept es).map TraceEvent.json) = samplesIn (es.map TraceEvent.json) := by
  have hfilter : ∀ l : List (TraceEvent F), samplesIn (l.map TraceEvent.json) =
      (l.filter fun e => e.metaKey.isNone).filterMap fun e => sample? e.json := by
    intro l
    rw [samplesIn, List.filterMap_map, List.filterMap_filter]
    refine List.filterMap_congr fun e _ => ?_
    cases e <;> rfl
  rw [hfilter, hfilter, kept, filter_isNone_firsts]

/-- The spans of a run's events, each Record's apart from the others'. -/
theorem spansIn_run (cs : List Conversion) :
    spansIn ((kept (cs.flatMap Conversion.events : List (TraceEvent F))).map TraceEvent.json) =
      cs.flatMap fun c => spansOf c.pid c.record := by
  rw [spansIn_kept, List.map_flatMap]
  exact (Mealy.outs_flatMap_of_neutral viewStep (fun c _ s => view_events c s) _).2

theorem samplesIn_run (cs : List Conversion) :
    samplesIn ((kept (cs.flatMap Conversion.events : List (TraceEvent F))).map TraceEvent.json) =
      cs.flatMap (samplesOf F) := by
  rw [samplesIn_kept, List.map_flatMap, samplesIn, List.filterMap_flatMap]
  exact List.flatMap_congr fun c _ => samples_events c

end Kept

section File

variable {F : Type} [F64 F] [StdDisplayF64 F]

/-- **A trace reads back.** Where the durations are finite, the file of a run, its events split into
batches anywhere, parses to an array of which a viewer draws the spans and the points of each Record
converted, in order, and nothing else. -/
theorem trace_reads_back (x : ChromeTraceExporter) (cs : List Conversion)
    (batches : List (List (TraceEvent F))) (h : batches.flatten = cs.flatMap Conversion.events)
    (hfinite : ∀ c ∈ cs, c.record.hasTiming = true → F64.isFinite (c.record.duration : F) = true) :
    ∃ elements, traceJson (fun _ => true) x batches = some (.array elements) ∧
      spansIn elements = cs.flatMap (fun c => spansOf c.pid c.record) ∧
      samplesIn elements = cs.flatMap (samplesOf F) := by
  have hvalid : TraceValid x batches :=
    (traceValid_iff_kept x h).mpr (h ▸ (finite_kept_iff cs).mpr hfinite)
  rw [TraceValid, h] at hvalid
  exact ⟨_, hvalid, spansIn_run cs, samplesIn_run cs⟩

end File

/-- A pause with its events split after the metadata. -/
theorem trace_reads_back_pauseOf : ∃ elements, traceJson (F := WholeF64) (fun _ => true) .new
    [(pauseOf [0, 0, 0, 0, 0, 0, 0, 0x40]).events.take 2, [],
      (pauseOf [0, 0, 0, 0, 0, 0, 0, 0x40]).events.drop 2] = some (.array elements) ∧
    spansIn elements = [pauseSpan 7 (pauseOf [0, 0, 0, 0, 0, 0, 0, 0x40]).record] := by
  obtain ⟨elements, hparse, hspans, -⟩ := trace_reads_back (F := WholeF64) .new
    [pauseOf [0, 0, 0, 0, 0, 0, 0, 0x40]] [(pauseOf [0, 0, 0, 0, 0, 0, 0, 0x40]).events.take 2, [],
      (pauseOf [0, 0, 0, 0, 0, 0, 0, 0x40]).events.drop 2] (by simp) (by decide +kernel)
  exact ⟨elements, hparse, hspans.trans (by decide +kernel)⟩

end GcScope
