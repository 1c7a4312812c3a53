import GcScope.Monitor.Export
import GcScope.Monitor.Reconcile
import GcScope.Monitor.SummaryJson
import GcScope.Monitor.TraceView

/-!
# The two files of a run

A run of the monitor leaves a trace, made of what the exporter was handed, and a summary, made of
what the cursor folded. Both are about the same Records.

* `batchesOf`, `MonitorContext.outputs`: what goes to the trace, poll by poll, and the two texts;
  `runMonitoringLoop`: the command.
* `cursoring`: what an operation of the context does to its cursor, with **`cursor_run`** and
  **`recordsOf_run`** for whole runs.
* `pausesIn`, `recordsIn`: the pauses a viewer draws for a ring, and the Records a consumer of the
  summary counts for it.
* **`outputs_agree`**: both files parse, and both show the Records handed over, ring by ring.
-/

set_option autoImplicit false

namespace GcScope

open Json Ledger

/-! ## What a run writes -/

/-- The batch a call makes, converted at the Observer's clock; the exporter ignores a lifecycle. -/
def ExporterCall.batch? (observedAtNs : ℤ) : ExporterCall → Option (List Conversion)
  | .lifecycle _ _ => none
  | .events pid _ records => some (records.map fun r => ⟨pid, r, observedAtNs⟩)

/-- The batches of a run; the clock is read at each call. -/
def batchesOf (clock : ℕ → ℤ) (log : List ExporterCall) : List (List Conversion) :=
  log.zipIdx.filterMap fun e => e.1.batch? (clock e.2)

/-- The Records of a ring handed to the exporter. -/
def recordsOf (K : RingKey) (log : List ExporterCall) : List GcStat :=
  log.flatMap fun
    | .events pid _ records => records.filter fun r => r.ring pid = K
    | .lifecycle _ _ => []

/-- The texts a run leaves, where every write goes through. -/
structure Outputs where
  trace : Option String
  summary : Option String
  deriving DecidableEq

def MonitorContext.outputs {F : Type} [F64 F] [DisplayF64 F] (clock : ℕ → ℤ)
    (ctx : MonitorContext F) : Outputs where
  trace := ChromeTraceExporter.new.traceText (fun _ => true)
    ((batchesOf clock ctx.exporter).map fun cs =>
      (cs.flatMap Conversion.events : List (TraceEvent F)))
  summary := SummaryJson.encode (summarize ctx.cursor)

/-- A process gets two seconds to answer first, on a clock in nanoseconds. -/
def commandPolicy : WaitPolicy := startupTimeoutPolicy (2 * 10 ^ 9)

/-- The command. It writes once the loop is left. -/
def runMonitoringLoop (F : Type) [F64 F] [DisplayF64 F] (clock : ℕ → ℤ) (mainPid : ℕ)
    (envs : List IterEnv) : Option Outputs :=
  let s := (runLoop F commandPolicy mainPid envs).1
  if s.left then some (s.ctx.outputs clock) else none

theorem filter_batchesOf (K : RingKey) (clock : ℕ → ℤ) (log : List ExporterCall) :
    ((batchesOf clock log).flatten.filter fun c => c.record.ring c.pid = K).map
      Conversion.record = recordsOf K log := by
  have h : ∀ k, (((log.zipIdx k).filterMap fun e => e.1.batch? (clock e.2)).flatten.filter
      fun c => c.record.ring c.pid = K).map Conversion.record = recordsOf K log := by
    induction log with
    | nil => exact fun _ => rfl
    | cons call log ih =>
      intro k
      rw [recordsOf, List.flatMap_cons, ← recordsOf, ← ih (k + 1), List.zipIdx_cons,
        List.filterMap_cons]
      cases call with
      | lifecycle pid status => rfl
      | events pid occupant records =>
        simp only [ExporterCall.batch?, List.flatten_cons, List.filter_append, List.map_append,
          List.filter_map, List.map_map]
        refine congrArg (· ++ _) ?_
        exact List.map_id _
  exact h 0

/-! ## The cursor under a run -/

namespace Cursor

variable {F : Type} [F64 F]

theorem along_offers {c : Cursor F} {pid : ℕ} {records : List GcStat}
    (h : Mealy.outs (evicting pid) c records = []) :
    Mealy.Along step Spares c (records.map (CursorStep.offer pid)) := by
  induction records generalizing c with
  | nil => exact Mealy.along_nil _ _ _
  | cons r rs ih =>
    obtain ⟨hr, hrs⟩ := List.append_eq_nil_iff.mp h
    exact (Mealy.along_cons _).mpr ⟨Option.toList_eq_nil_iff.mp hr, ih hrs⟩

end Cursor

namespace MonitorContext

section Run

variable {F : Type} [F64 F]

/-- An operation, showing what it does to the cursor. -/
def cursoring (ctx : MonitorContext F) (op : ContextOp) : MonitorContext F × List CursorOp :=
  (ctx.apply op, match op with
    | .poll pid env =>
      match readThrough (ctx.sessions pid) env with
      | .read _ stats => [.admitRecords pid stats]
      | .changed => [.forget pid]
      | _ => []
    | .markDied pid => [.forget pid])

variable (F) in
/-- What a run does to the cursor. -/
def cursorOps (ops : List ContextOp) : List CursorOp :=
  Mealy.outs cursoring (new : MonitorContext F) ops

theorem cursorOps_concat (ops : List ContextOp) (op : ContextOp) :
    cursorOps F (ops ++ [op]) = cursorOps F ops ++ (cursoring (run F ops) op).2 :=
  Mealy.outs_concat _ _ _ _

theorem apply_cursoring (ctx : MonitorContext F) (op : ContextOp) :
    (ctx.apply op).cursor = Mealy.exec Cursor.apply ctx.cursor (ctx.cursoring op).2 := by
  cases op with
  | markDied pid => exact reportDeath_cursor (ctx.evict pid) pid
  | poll pid env =>
    simp only [apply, poll_eq, cursoring]
    cases readThrough (ctx.sessions pid) env with
    | unattached => rfl
    | read session stats => exact report_cursor (ctx.hold pid session) pid env.occupant stats
    | changed => exact reportDeath_cursor (ctx.evict pid) pid
    | failed session => exact reportDeath_cursor (ctx.hold pid session) pid

/-- **An operation hands over the Records of a ring that the cursor returns.** -/
theorem recordsOf_apply (K : RingKey) (ctx : MonitorContext F) (op : ContextOp) :
    recordsOf K (ctx.apply op).exporter = recordsOf K ctx.exporter ++
      Cursor.returnedOf K ctx.cursor (ctx.cursoring op).2 := by
  have hdeath : ∀ (ctx : MonitorContext F) (pid : ℕ),
      recordsOf K (ctx.reportDeath pid).exporter = recordsOf K ctx.exporter ++ [] := fun ctx pid =>
    (flatMap_reportDeath (fun _ _ => rfl) ctx pid).trans (List.append_nil _).symm
  cases op with
  | markDied pid => exact hdeath (ctx.evict pid) pid
  | poll pid env =>
    simp only [apply, poll_eq, cursoring]
    cases readThrough (ctx.sessions pid) env with
    | unattached => exact (List.append_nil _).symm
    | read session stats =>
      refine (flatMap_report ?_ (ctx.hold pid session) pid env.occupant stats).trans ?_
      · exact fun _ _ => rfl
      · exact congrArg _ (List.append_nil _).symm
    | changed => exact hdeath (ctx.evict pid) pid
    | failed session => exact hdeath (ctx.hold pid session) pid

/-- **The cursor after a run of the context is that of a run of its own.** -/
theorem cursor_run (ops : List ContextOp) :
    (run F ops).cursor = Mealy.exec Cursor.apply (Cursor.new : Cursor F) (cursorOps F ops) := by
  induction ops using List.reverseRecOn with
  | nil => rfl
  | append_singleton ops op ih =>
    rw [run_concat, apply_cursoring, ih, cursorOps_concat, Mealy.exec_append]

/-- **The exporter is handed what that run returns.** -/
theorem recordsOf_run (K : RingKey) (ops : List ContextOp) :
    recordsOf K (run F ops).exporter =
      Cursor.returnedOf K (Cursor.new : Cursor F) (cursorOps F ops) := by
  induction ops using List.reverseRecOn with
  | nil => rfl
  | append_singleton ops op ih =>
    have hexec : Mealy.exec (Cursor.applyOf K) (Cursor.new : Cursor F) (cursorOps F ops) =
        (run F ops).cursor := (cursor_run ops).symm
    rw [run_concat, recordsOf_apply, ih, cursorOps_concat, Cursor.returnedOf, Cursor.returnedOf,
      Cursor.returnedOf, Mealy.outs_append, hexec]

theorem along_cursoring {ctx : MonitorContext F} {op : ContextOp} (h : (ctx.evicting op).2 = []) :
    Mealy.Along Cursor.step Cursor.Spares ctx.cursor
      ((ctx.cursoring op).2.flatMap CursorOp.steps) := by
  have hforget : ∀ pid, Mealy.Along Cursor.step Cursor.Spares ctx.cursor [.forget pid] := fun pid =>
    (Mealy.along_cons _).mpr ⟨trivial, Mealy.along_nil _ _ _⟩
  cases op with
  | markDied pid => exact hforget pid
  | poll pid env =>
    simp only [evicting, cursoring] at h ⊢
    cases ho : readThrough (ctx.sessions pid) env with
    | unattached => exact Mealy.along_nil _ _ _
    | read session stats =>
      rw [ho] at h
      rw [List.flatMap_singleton]
      exact (Mealy.along_cons _).mpr ⟨trivial, Cursor.along_offers h⟩
    | changed => exact hforget pid
    | failed session => exact Mealy.along_nil _ _ _

theorem NoEviction.neverEvicts {ops : List ContextOp} (h : NoEviction F ops) :
    NeverEvicts F ((cursorOps F ops).flatMap CursorOp.steps) := by
  induction ops using List.reverseRecOn with
  | nil => exact Mealy.along_nil _ _ _
  | append_singleton ops op ih =>
    have hstep : (evicting (run F ops) op).2 = [] := by
      rw [NoEviction, Mealy.outs_concat] at h
      exact (List.append_eq_nil_iff.mp h).2
    have hcursor : Mealy.exec Cursor.step (Cursor.new : Cursor F)
        ((cursorOps F ops).flatMap CursorOp.steps) = (run F ops).cursor := by
      rw [Cursor.exec_flatMap_steps, cursor_run]
    rw [cursorOps_concat, List.flatMap_append, NeverEvicts, Mealy.along_append, hcursor]
    exact ⟨ih h.of_append, along_cursoring hstep⟩

/-- **The rows of a ring count the Records handed over.** -/
theorem sum_records_run (K : RingKey) {ops : List ContextOp} (h : NoEviction F ops) :
    ((rowsOf K (summarize (run F ops).cursor)).map fun g => g.records).sum =
      (recordsOf K (run F ops).exporter).length := by
  rw [cursor_run, sum_records_eq K h.neverEvicts, recordsOf_run]

end Run

end MonitorContext

/-! ## What the files show of a ring -/

/-- The pauses of a ring among the spans drawn. -/
def pausesIn (K : RingKey) (spans : List ViewSpan) : List ViewSpan :=
  spans.filter fun s => s.pid = K.pid ∧ s.tid = K.interpreter ∧
    s.name = "GC Pause (gen=" ++ toString K.generation ++ ")"

/-- The elements of the array under a key. -/
def elementsOf (j : Json) (key : String) : List Json :=
  match j.get? key with
  | some (.array vs) => vs
  | _ => []

/-- The Records a document of the summary counts for a ring, over all its blocks. -/
def recordsIn (K : RingKey) (document : Json) : ℤ :=
  (((elementsOf document "interpreters").flatMap fun b =>
    if intOf b "pid" = some (K.pid : ℤ) ∧ intOf b "interpreter" = some K.interpreter then
      (elementsOf b "generations").filter fun g => intOf g "generation" = some (K.generation : ℤ)
    else []).map fun g => (intOf g "records").getD 0).sum

theorem repr_injective {m n : ℕ} (h : m.repr = n.repr) : m = n := by
  have hm := number?_natRepr m
  rw [h, number?_natRepr] at hm
  exact_mod_cast (Option.some.inj hm).symm

theorem pauseName_inj {m n : ℕ} :
    "GC Pause (gen=" ++ toString m ++ ")" = "GC Pause (gen=" ++ toString n ++ ")" ↔ m = n := by
  refine ⟨fun h => repr_injective ?_, fun h => h ▸ rfl⟩
  have hlist := congrArg String.toList h
  simp only [String.toList_append] at hlist
  exact String.toList_injective (List.append_cancel_left (List.append_cancel_right hlist))

theorem phaseName_ne {phase : Phase} (h : phase ∈ PHASES) (s t : String) :
    phase.label ++ " (gen=" ++ s ++ ")" ≠ "GC Pause (gen=" ++ t ++ ")" := by
  have hhead : ∀ phase ∈ PHASES, ∃ c cs, phase.label.toList = c :: cs ∧ c ≠ 'G' := by
    simp [PHASES]
  obtain ⟨c, cs, hc, hne⟩ := hhead phase h
  intro he
  have hfirst := congrArg (fun name => name.toList.head?) he
  simp only [String.toList_append, hc, List.cons_append, List.head?_cons] at hfirst
  exact hne (Option.some.inj hfirst)

theorem pausesIn_spansOf (K : RingKey) (c : Conversion) : pausesIn K (spansOf c.pid c.record) =
    if c.record.ring c.pid = K ∧ c.record.hasTiming = true then [pauseSpan c.pid c.record]
    else [] := by
  have hphases : pausesIn K (PHASES.flatMap (phaseSpans c.pid c.record)) = [] := by
    refine List.filter_eq_nil_iff.mpr fun s hs hp => ?_
    obtain ⟨phase, hphase, hs⟩ := List.mem_flatMap.mp hs
    unfold phaseSpans at hs
    split at hs
    · split_ifs at hs
      · cases hs
      · obtain rfl := List.mem_singleton.mp hs
        exact phaseName_ne hphase _ _ (of_decide_eq_true hp).2.2
    · cases hs
  have hring : (pauseSpan c.pid c.record).pid = K.pid ∧
      (pauseSpan c.pid c.record).tid = K.interpreter ∧
      (pauseSpan c.pid c.record).name = "GC Pause (gen=" ++ toString K.generation ++ ")" ↔
        c.record.ring c.pid = K := by
    simp only [pauseSpan, pauseName_inj, GcStat.ring, Nat.cast_inj]
    cases K
    simp
  unfold spansOf
  by_cases ht : c.record.hasTiming = true
  · rw [if_pos ht, pausesIn, List.filter_append, ← pausesIn, hphases, List.nil_append]
    by_cases hK : c.record.ring c.pid = K
    · rw [if_pos ⟨hK, ht⟩, List.filter_cons_of_pos (by simpa using hring.mpr hK), List.filter_nil]
    · rw [if_neg fun h => hK h.1, List.filter_cons_of_neg (by simpa using mt hring.mp hK),
        List.filter_nil]
  · rw [if_neg ht, if_neg fun h => ht h.2]
    rfl

/-- **The pauses drawn for a ring are those of its timed Records.** -/
theorem pausesIn_flatMap (K : RingKey) (cs : List Conversion) :
    pausesIn K (cs.flatMap fun c => spansOf c.pid c.record) =
      (((cs.filter fun c => c.record.ring c.pid = K).map Conversion.record).filter
        GcStat.hasTiming).map (pauseSpan K.pid) := by
  induction cs with
  | nil => rfl
  | cons c cs ih =>
    rw [List.flatMap_cons, pausesIn, List.filter_append, ← pausesIn, ← pausesIn, ih,
      pausesIn_spansOf]
    by_cases hK : c.record.ring c.pid = K
    · obtain rfl := hK
      by_cases ht : c.record.hasTiming = true
      · simp [ht, GcStat.ring]
      · simp [ht]
    · simp [hK]

/-- **The document counts for a ring what the rows of the summary do.** -/
theorem recordsIn_document {F : Type} [F64 F] [DisplayF64 F] (K : RingKey)
    (summary : List (InterpreterSummary F)) :
    recordsIn K (SummaryJson.document summary) =
      ((rowsOf K summary).map fun g => (g.records : ℤ)).sum := by
  have hgeneration : ∀ g : GenerationSummary F,
      intOf (SummaryJson.generationJson g) "generation" = some (g.generation : ℤ) := fun g => by
    rw [intOf, (SummaryJson.shows_generationJson g).generation]
    rfl
  have hrecords : ∀ g : GenerationSummary F,
      intOf (SummaryJson.generationJson g) "records" = some (g.records : ℤ) := fun g => by
    rw [intOf, (SummaryJson.shows_generationJson g).records]
    rfl
  have hblock : ∀ b : InterpreterSummary F,
      intOf (SummaryJson.interpreterJson b) "pid" = some (b.pid : ℤ) ∧
        intOf (SummaryJson.interpreterJson b) "interpreter" = some b.interpreter ∧
        elementsOf (SummaryJson.interpreterJson b) "generations" =
          b.generations.map SummaryJson.generationJson := fun b => ⟨rfl, rfl, rfl⟩
  have hlist : elementsOf (SummaryJson.document summary) "interpreters" =
      summary.map SummaryJson.interpreterJson := rfl
  rw [recordsIn, hlist, List.flatMap_map, rowsOf, List.map_flatMap, List.map_flatMap]
  refine congrArg List.sum (List.flatMap_congr fun b _ => ?_)
  obtain ⟨hpid, hinterpreter, hgenerations⟩ := hblock b
  rw [hpid, hinterpreter, hgenerations]
  simp only [Option.some.injEq, Nat.cast_inj]
  split_ifs with h
  · simp [List.filter_map, Function.comp_def, hgeneration, hrecords]
  · rfl

/-! ## The files of a run -/

section Files

variable {F : Type} [F64 F] [StdDisplayF64 F] {clock : ℕ → ℤ} {ctx : MonitorContext F}

/-- Where durations are finite, the trace is the array of the events kept. -/
theorem parse_trace (hfinite : ∀ c ∈ (batchesOf clock ctx.exporter).flatten,
      c.record.hasTiming = true → F64.isFinite (c.record.duration : F) = true) :
    ((ctx.outputs clock).trace.bind fun text => parse text.toList) =
      some (.array ((kept ((batchesOf clock ctx.exporter).flatten.flatMap Conversion.events :
        List (TraceEvent F))).map TraceEvent.json)) := by
  have hflat : ((batchesOf clock ctx.exporter).map fun cs =>
      (cs.flatMap Conversion.events : List (TraceEvent F))).flatten =
        (batchesOf clock ctx.exporter).flatten.flatMap Conversion.events := by
    rw [List.flatMap_def, List.map_flatten, List.flatten_flatten, List.map_map]
    rfl
  have htrace := (traceValid_iff_kept .new hflat).mpr (hflat ▸ (finite_kept_iff _).mpr hfinite)
  rwa [TraceValid, hflat] at htrace

/-- The summary is the document of the rows. -/
theorem parse_summary : ((ctx.outputs clock).summary.bind fun text => parse text.toList) =
    some (SummaryJson.document (summarize ctx.cursor)) := by
  obtain ⟨text, htext, hspells⟩ := SummaryJson.spells_encode (summarize ctx.cursor)
  rw [show (ctx.outputs clock).summary = some text from htext, Option.bind_some]
  exact hspells.parse_iff.mpr trivial

/-- **The files of a run agree.** Where the cursor evicts nothing and the durations of timed Records
are finite, the trace and the summary of a run that ends parse, and for every ring the pauses a
viewer draws are those of the timed Records handed over, in order, while the summary counts all that
were: where they are timed, as many as there are pauses. -/
theorem outputs_agree {mainPid : ℕ} {envs : List IterEnv} {files : Outputs}
    (hfiles : runMonitoringLoop F clock mainPid envs = some files)
    (he : MonitorContext.NoEviction F (runLoop F commandPolicy mainPid envs).2)
    (hfinite : ∀ c ∈
        (batchesOf clock (runLoop F commandPolicy mainPid envs).1.ctx.exporter).flatten,
      c.record.hasTiming = true → F64.isFinite (c.record.duration : F) = true) :
    let log := (runLoop F commandPolicy mainPid envs).1.ctx.exporter
    ∃ elements document, (files.trace.bind fun text => parse text.toList) = some (.array elements) ∧
      (files.summary.bind fun text => parse text.toList) = some document ∧
      ∀ K, pausesIn K (spansIn elements) =
          ((recordsOf K log).filter GcStat.hasTiming).map (pauseSpan K.pid) ∧
        recordsIn K document = (recordsOf K log).length ∧
        ((∀ r ∈ recordsOf K log, r.hasTiming = true) →
          ((pausesIn K (spansIn elements)).length : ℤ) = recordsIn K document) := by
  intro log
  have hctx := LoopState.runLoop_ctx (F := F) (W := commandPolicy) mainPid envs
  unfold runMonitoringLoop at hfiles
  simp only at hfiles
  split_ifs at hfiles
  obtain rfl := Option.some.inj hfiles
  refine ⟨_, _, parse_trace hfinite, parse_summary, fun K => ?_⟩
  have hpauses := pausesIn_flatMap K (batchesOf clock log).flatten
  rw [filter_batchesOf, ← spansIn_run (F := F)] at hpauses
  have hrecords : recordsIn K (SummaryJson.document
      (summarize (runLoop F commandPolicy mainPid envs).1.ctx.cursor)) =
        (recordsOf K log).length := by
    unfold log
    rw [recordsIn_document, hctx, ← MonitorContext.sum_records_run K he, Nat.cast_list_sum,
      List.map_map]
    rfl
  refine ⟨hpauses, hrecords, fun ht => ?_⟩
  rw [hpauses, hrecords, List.length_map, List.filter_eq_self.mpr ht]

end Files

/-- A build with one GC state in its runtime, as 3.8 has, whose Entries bear timestamps. -/
def timingSession : PySession :=
  { MonitorContext.countingSession with
    resolved := .legacy { OffsetTable.blank.setInline 48
      ⟨48, [("collections", 0), ("collected", 8), ("uncollectable", 16), ("ts_start", 24),
        ("ts_stop", 32), ("duration", 40)]⟩ 0x80 with
      runtimeInterpretersHead := 0x20
      interpId := 0x10
      runtimeGc := some 0x158 } }

/-- Its memory after `n` young Collections, the last of 500 ns. -/
def timingMemory (n : ℕ) : ProcessMemory :=
  .padded fun addr =>
    if addr = 0x101d8 then
      LittleEndian.wordsBytes [BitVec.ofNat 64 n, 3, 0, BitVec.ofNat 64 (1000 * n),
        BitVec.ofNat 64 (1000 * n + 500), 0x4000000000000000]
    else []

/-- Process 1 publishes no timestamps, its child does. -/
def mixed (n : ℕ) : IterEnv :=
  { LoopState.answering [2] with
    poll := fun pid =>
      if pid = 2 then ⟨2, some timingSession, timingMemory n, none, none, .unreadable⟩
      else MonitorContext.attaching pid 5 }

/-- Two polls, and the flag cleared. -/
def stopped : List IterEnv := [mixed 5, mixed 7, { mixed 7 with running := false }]

/-- Two Records of the child are two pauses of the trace and two Records of the summary; the Record
of its parent is no pause. -/
theorem outputs_agree_stopped : ∃ files elements document,
    runMonitoringLoop WholeF64 (fun n => 10 * n) 1 stopped = some files ∧
    (files.trace.bind fun text => parse text.toList) = some (.array elements) ∧
    (files.summary.bind fun text => parse text.toList) = some document ∧
    (pausesIn ⟨2, 0, 0⟩ (spansIn elements)).length = 2 ∧ recordsIn ⟨2, 0, 0⟩ document = 2 ∧
    pausesIn ⟨1, 0, 0⟩ (spansIn elements) = [] ∧ recordsIn ⟨1, 0, 0⟩ document = 1 := by
  obtain ⟨files, hfiles⟩ : ∃ files,
      runMonitoringLoop WholeF64 (fun n => 10 * n) 1 stopped = some files := by
    unfold runMonitoringLoop
    simp only
    rw [if_pos (by decide +kernel)]
    exact ⟨_, rfl⟩
  obtain ⟨elements, document, htrace, hsummary, hrings⟩ := outputs_agree hfiles
    (by decide +kernel) (by decide +kernel)
  refine ⟨files, elements, document, hfiles, htrace, hsummary, ?_⟩
  obtain ⟨hchild, hchildRecords, -⟩ := hrings ⟨2, 0, 0⟩
  obtain ⟨hparent, hparentRecords, -⟩ := hrings ⟨1, 0, 0⟩
  rw [hchild, hchildRecords, hparent, hparentRecords]
  decide +kernel

end GcScope
