import Mathlib.Data.Finset.Insert
import GcScope.Lib.Firsts
import GcScope.Monitor.Chrome

/-!
# The file the Chrome exporter writes

An array is put together across batches of events: a flag says whether anything has been written, and
two sets say whose metadata has. A write of an element can fail, which nobody looks at.

* `ChromeTraceExporter`, `openFile`, `addEvents`, `closeFile`: the exporter over a file, with the
  outcome of each element's write as a parameter.
* `kept`: the events without the process and thread metadata that repeats.
* `Stream.At`, **`at_exec`**: what the exporter has in hand after a list of events.
* **`traceText_eq`**, **`tried_eq`**: the file and the writes of a run, from the events kept.
* **`parse_fileText_iff`**: with its first element written, the file is the array of those whose
  write succeeded exactly where they are plain and finite.
-/

set_option autoImplicit false

namespace GcScope

open Json Firsts

/-- The exporter. `attempts` counts the elements it has tried to write to the open file. -/
structure ChromeTraceExporter where
  file : Option String
  hasWritten : Bool
  pidMetaDone : Finset ℕ
  tidMetaDone : Finset (ℕ × ℤ)
  attempts : ℕ

/-- What a batch works on: the open file, and whether nothing has been written yet. -/
structure Stream where
  file : String
  first : Bool
  hasWritten : Bool
  pidMetaDone : Finset ℕ
  tidMetaDone : Finset (ℕ × ℤ)
  attempts : ℕ

/-- One element, with the separator before it. A write that fails leaves no byte. -/
def writeEvent (ok : Bool) (file : String) (first : Bool) (json : String) : String × Bool :=
  if first then (if ok then file ++ "[\n" ++ json else file, false)
  else (if ok then file ++ ",\n" ++ json else file, false)

section Exporter

variable {F : Type} [F64 F] [DisplayF64 F] (ok : ℕ → Bool)

/-- An element is written, and its outcome dropped. -/
def Stream.write (s : Stream) (event : TraceEvent F) : Stream × List (TraceEvent F × Bool) :=
  let w := writeEvent (ok s.attempts) s.file s.first (encode event)
  ({ s with file := w.1, first := w.2, hasWritten := true, attempts := s.attempts + 1 },
    [(event, ok s.attempts)])

/-- One event of a batch, and the write it led to: repeated metadata is dropped. -/
def Stream.addEvent (s : Stream) (event : TraceEvent F) : Stream × List (TraceEvent F × Bool) :=
  match event with
  | .processMeta pid _ =>
    if pid ∈ s.pidMetaDone then (s, [])
    else { s with pidMetaDone := insert pid s.pidMetaDone }.write ok event
  | .threadMeta pid tid _ =>
    if (pid, tid) ∈ s.tidMetaDone then (s, [])
    else { s with tidMetaDone := insert (pid, tid) s.tidMetaDone }.write ok event
  | _ => s.write ok event

namespace ChromeTraceExporter

/-- A file is opened empty, and needs its metadata again. -/
def openFile (_ : ChromeTraceExporter) : ChromeTraceExporter := ⟨some "", false, ∅, ∅, 0⟩

def stream (x : ChromeTraceExporter) (file : String) : Stream :=
  ⟨file, !x.hasWritten, x.hasWritten, x.pidMetaDone, x.tidMetaDone, x.attempts⟩

/-- A batch of events, and the writes it led to. -/
def addEvents (x : ChromeTraceExporter) (events : List (TraceEvent F)) :
    ChromeTraceExporter × List (TraceEvent F × Bool) :=
  match x.file with
  | none => (x, [])
  | some file =>
    let s := Mealy.exec (Stream.addEvent ok) (x.stream file) events
    (⟨some s.file, s.hasWritten, s.pidMetaDone, s.tidMetaDone, s.attempts⟩,
      Mealy.outs (Stream.addEvent ok) (x.stream file) events)

/-- The file is closed, and left as this text. -/
def closeFile (x : ChromeTraceExporter) : ChromeTraceExporter × Option String :=
  match x.file with
  | none => (x, none)
  | some file =>
    ({ x with file := none }, some (if x.hasWritten then file ++ "\n]" else file ++ "[]\n"))

/-- The text of a file opened, given these batches and closed. -/
def traceText (x : ChromeTraceExporter) (batches : List (List (TraceEvent F))) : Option String :=
  (Mealy.exec (addEvents ok) x.openFile batches).closeFile.2

/-- The elements it was tried to write to that file, with what came of each. -/
def tried (x : ChromeTraceExporter) (batches : List (List (TraceEvent F))) :
    List (TraceEvent F × Bool) :=
  Mealy.outs (addEvents ok) x.openFile batches

end ChromeTraceExporter

end Exporter

/-! ## The events kept -/

namespace TraceEvent

variable {F : Type}

/-- The process or the track an event names. -/
def metaKey : TraceEvent F → Option (ℕ × Option ℤ)
  | processMeta pid _ => some (pid, none)
  | threadMeta pid tid _ => some (pid, some tid)
  | _ => none

end TraceEvent

/-- The events without the repeated process and thread metadata. -/
def kept {F : Type} (events : List (TraceEvent F)) : List (TraceEvent F) :=
  firsts TraceEvent.metaKey events

/-- Elements with the outcomes of their writes, counted from `i`. -/
def outcomes {F : Type} (ok : ℕ → Bool) : ℕ → List (TraceEvent F) → List (TraceEvent F × Bool)
  | _, [] => []
  | i, e :: es => (e, ok i) :: outcomes ok (i + 1) es

/-- The elements whose write succeeded. -/
def succeeded {F : Type} (writes : List (TraceEvent F × Bool)) : List (TraceEvent F) :=
  (writes.filter Prod.snd).map Prod.fst

section Outcomes

variable {F : Type} (ok : ℕ → Bool)

theorem outcomes_append (i : ℕ) (es es' : List (TraceEvent F)) :
    outcomes ok i (es ++ es') = outcomes ok i es ++ outcomes ok (i + es.length) es' := by
  induction es generalizing i with
  | nil => rfl
  | cons e es ih =>
    rw [List.cons_append, outcomes, outcomes, ih, List.length_cons, Nat.add_right_comm,
      Nat.add_assoc]
    rfl

@[simp] theorem map_fst_outcomes (i : ℕ) (es : List (TraceEvent F)) :
    (outcomes ok i es).map Prod.fst = es := by
  induction es generalizing i with
  | nil => rfl
  | cons e es ih => rw [outcomes, List.map_cons, ih]

theorem mem_outcomes {i : ℕ} {es : List (TraceEvent F)} {w : TraceEvent F × Bool} :
    w ∈ outcomes ok i es ↔ ∃ j, es[j]? = some w.1 ∧ ok (i + j) = w.2 := by
  induction es generalizing i with
  | nil => simp [outcomes]
  | cons e es ih =>
    rw [outcomes, List.mem_cons, ih]
    constructor
    · rintro (rfl | ⟨j, hj, hok⟩)
      · exact ⟨0, rfl, rfl⟩
      · exact ⟨j + 1, hj, by rw [← hok]; congr 1; omega⟩
    · rintro ⟨j, hj, hok⟩
      cases j with
      | zero => exact Or.inl (Prod.ext (Option.some.inj hj).symm hok.symm)
      | succ j => exact Or.inr ⟨j, hj, by rw [← hok]; congr 1; omega⟩

theorem succeeded_outcomes_cons (i : ℕ) (e : TraceEvent F) (es : List (TraceEvent F)) :
    succeeded (outcomes ok i (e :: es)) =
      (if ok i then [e] else []) ++ succeeded (outcomes ok (i + 1) es) := by
  rw [outcomes, succeeded, List.filter_cons]
  split_ifs <;> rfl

end Outcomes

section Text

variable {F : Type} [F64 F] [DisplayF64 F] (ok : ℕ → Bool)

/-- What the writes of these elements leave in the file, counted from `i`. -/
def bodyText : ℕ → List (TraceEvent F) → String
  | _, [] => ""
  | i, e :: es =>
    (if ok i then (if i = 0 then "[\n" else ",\n") ++ encode e else "") ++ bodyText (i + 1) es

theorem bodyText_append (i : ℕ) (es es' : List (TraceEvent F)) :
    bodyText ok i (es ++ es') = bodyText ok i es ++ bodyText ok (i + es.length) es' := by
  induction es generalizing i with
  | nil => simp [bodyText]
  | cons e es ih =>
    rw [List.cons_append, bodyText, bodyText, ih, List.length_cons, String.append_assoc,
      show i + 1 + es.length = i + (es.length + 1) by omega]

/-- What a file is left as, when these elements have been written to it. -/
def fileText (es : List (TraceEvent F)) : String :=
  if es = [] then "[]\n" else bodyText ok 0 es ++ "\n]"

/-! ## What the exporter has in hand -/

/-- Where a stream is, after these events. -/
structure Stream.At (s : Stream) (events : List (TraceEvent F)) : Prop where
  file : s.file = bodyText ok 0 (kept events)
  first : s.first = (kept events).isEmpty
  hasWritten : s.hasWritten = !(kept events).isEmpty
  pids : ∀ pid, pid ∈ s.pidMetaDone ↔ (pid, none) ∈ seen TraceEvent.metaKey events
  tids : ∀ pid tid, (pid, tid) ∈ s.tidMetaDone ↔ (pid, some tid) ∈ seen TraceEvent.metaKey events
  attempts : s.attempts = (kept events).length

variable {ok}

namespace Stream

omit [F64 F] [DisplayF64 F] in
theorem writeEvent_eq (b : Bool) (file : String) (es : List (TraceEvent F)) (json : String) :
    writeEvent b file es.isEmpty json =
      (file ++ (if b then (if es.length = 0 then "[\n" else ",\n") ++ json else ""), false) := by
  cases es <;> cases b <;> simp [writeEvent, String.append_assoc]

theorem At.write {s : Stream} {events : List (TraceEvent F)} (h : s.At ok events)
    {e : TraceEvent F} {pids : Finset ℕ} {tids : Finset (ℕ × ℤ)} {seen' : List (ℕ × Option ℤ)}
    (hpass : pass TraceEvent.metaKey (seen TraceEvent.metaKey events) e = (seen', [e]))
    (hpids : ∀ pid, pid ∈ pids ↔ (pid, none) ∈ seen')
    (htids : ∀ pid tid, (pid, tid) ∈ tids ↔ (pid, some tid) ∈ seen') :
    (Stream.write ok { s with pidMetaDone := pids, tidMetaDone := tids } e).1.At ok
        (events ++ [e]) ∧
      (Stream.write ok { s with pidMetaDone := pids, tidMetaDone := tids } e).2 =
        outcomes ok (kept events).length [e] := by
  have hkept : kept (events ++ [e]) = kept events ++ [e] := by rw [kept, firsts_concat, hpass]; rfl
  have hseen : seen TraceEvent.metaKey (events ++ [e]) = seen' := by rw [seen_concat, hpass]
  have hw : writeEvent (ok (kept events).length) (bodyText ok 0 (kept events))
      (kept events).isEmpty (encode e) = (bodyText ok 0 (kept events ++ [e]), false) := by
    rw [writeEvent_eq, bodyText_append]
    simp [bodyText]
  refine ⟨⟨?_, ?_, ?_, ?_, ?_, ?_⟩, ?_⟩
  · simp only [Stream.write, h.attempts, h.file, h.first, hw, hkept]
  · simp only [Stream.write, h.attempts, h.file, h.first, hw, hkept]
    simp
  · simp [Stream.write, hkept]
  · rw [hseen]; exact hpids
  · rw [hseen]; exact htids
  · simp [Stream.write, hkept, h.attempts]
  · simp [Stream.write, outcomes, h.attempts]

theorem At.drop {s : Stream} {events : List (TraceEvent F)} (h : s.At ok events)
    {e : TraceEvent F} {k : ℕ × Option ℤ} (hk : e.metaKey = some k)
    (hm : k ∈ seen TraceEvent.metaKey events) :
    s.At ok (events ++ [e]) ∧ [] = outcomes ok (kept events).length
      (pass TraceEvent.metaKey (seen TraceEvent.metaKey events) e).2 := by
  have hp := pass_seen hk hm
  have hkept : kept (events ++ [e]) = kept events := by
    rw [kept, firsts_concat, hp]; exact List.append_nil _
  have hseen : seen TraceEvent.metaKey (events ++ [e]) = seen TraceEvent.metaKey events := by
    rw [seen_concat, hp]
  refine ⟨⟨?_, ?_, ?_, ?_, ?_, ?_⟩, by rw [hp]; rfl⟩
  · rw [hkept]; exact h.file
  · rw [hkept]; exact h.first
  · rw [hkept]; exact h.hasWritten
  · rw [hseen]; exact h.pids
  · rw [hseen]; exact h.tids
  · rw [hkept]; exact h.attempts

/-- **One event of a batch.** -/
theorem at_addEvent {s : Stream} {events : List (TraceEvent F)} (h : s.At ok events)
    (e : TraceEvent F) : (s.addEvent ok e).1.At ok (events ++ [e]) ∧
      (s.addEvent ok e).2 = outcomes ok (kept events).length
        (pass TraceEvent.metaKey (seen TraceEvent.metaKey events) e).2 := by
  have hplain : e.metaKey = none → (s.write ok e).1.At ok (events ++ [e]) ∧
      (s.write ok e).2 = outcomes ok (kept events).length
        (pass TraceEvent.metaKey (seen TraceEvent.metaKey events) e).2 := fun hk => by
    have hp := pass_none (s := seen TraceEvent.metaKey events) hk
    rw [hp]
    exact h.write hp h.pids h.tids
  cases e with
  | processMeta pid name =>
    rw [Stream.addEvent]
    by_cases hm : pid ∈ s.pidMetaDone
    · rw [if_pos hm]
      exact h.drop rfl ((h.pids pid).mp hm)
    · have hp := pass_new
        (show (TraceEvent.processMeta pid name : TraceEvent F).metaKey = some (pid, none) from rfl)
        (fun hs => hm ((h.pids pid).mpr hs))
      rw [if_neg hm, hp]
      refine h.write hp (fun p => ?_) fun p t => ?_
      · rw [Finset.mem_insert, List.mem_cons, h.pids, Prod.mk.injEq, and_iff_left rfl]
      · rw [List.mem_cons, h.tids, Prod.mk.injEq]
        simp
  | threadMeta pid tid name =>
    rw [Stream.addEvent]
    by_cases hm : (pid, tid) ∈ s.tidMetaDone
    · rw [if_pos hm]
      exact h.drop rfl ((h.tids pid tid).mp hm)
    · have hp := pass_new
        (show (TraceEvent.threadMeta pid tid name : TraceEvent F).metaKey = some (pid, some tid) from rfl)
        (fun hs => hm ((h.tids pid tid).mpr hs))
      rw [if_neg hm, hp]
      refine h.write hp (fun p => ?_) fun p t => ?_
      · rw [List.mem_cons, h.pids, Prod.mk.injEq]
        simp
      · rw [Finset.mem_insert, List.mem_cons, h.tids, Prod.mk.injEq, Prod.mk.injEq,
          Option.some.injEq]
  | spanBegin pid tid tsNs name cat args => exact hplain rfl
  | spanEnd pid tid tsNs name cat => exact hplain rfl
  | instant pid tsNs name => exact hplain rfl
  | counter pid tid tsNs name args => exact hplain rfl

/-- **A list of events.** -/
theorem at_exec {s : Stream} {events : List (TraceEvent F)} (h : s.At ok events)
    (es : List (TraceEvent F)) : (Mealy.exec (Stream.addEvent ok) s es).At ok (events ++ es) ∧
      Mealy.outs (Stream.addEvent ok) s es =
        outcomes ok (kept events).length (after TraceEvent.metaKey events es) := by
  induction es using List.reverseRecOn with
  | nil => exact ⟨by rwa [List.append_nil], rfl⟩
  | append_singleton es e ih =>
    obtain ⟨hat, houts⟩ := ih
    have hstep := at_addEvent hat e
    rw [Mealy.exec_concat, Mealy.outs_concat, houts, ← List.append_assoc, hstep.2]
    refine ⟨hstep.1, ?_⟩
    have hafter : after TraceEvent.metaKey events (es ++ [e]) = after TraceEvent.metaKey events es ++
        (pass TraceEvent.metaKey (seen TraceEvent.metaKey (events ++ es)) e).2 := by
      rw [after, Mealy.outs_concat]
      exact congrArg _ (congrArg (fun s => (pass TraceEvent.metaKey s e).2)
        (Mealy.exec_append _ [] events es).symm)
    rw [hafter, outcomes_append, kept, kept, firsts_append, List.length_append]

end Stream

namespace ChromeTraceExporter

/-- Where an exporter is, after these events since it opened a file. -/
def At (ok : ℕ → Bool) (x : ChromeTraceExporter) (events : List (TraceEvent F)) : Prop :=
  ∃ file, x.file = some file ∧ (x.stream file).At ok events

theorem at_openFile (x : ChromeTraceExporter) : At ok x.openFile ([] : List (TraceEvent F)) :=
  ⟨"", rfl, ⟨rfl, rfl, rfl, by simp [openFile, stream, seen], by simp [openFile, stream, seen], rfl⟩⟩

/-- **A batch of events.** -/
theorem at_addEvents {x : ChromeTraceExporter} {events : List (TraceEvent F)} (h : At ok x events)
    (batch : List (TraceEvent F)) : At ok (x.addEvents ok batch).1 (events ++ batch) ∧
      (x.addEvents ok batch).2 =
        outcomes ok (kept events).length (after TraceEvent.metaKey events batch) := by
  obtain ⟨file, hfile, hat⟩ := h
  obtain ⟨hexec, houts⟩ := Stream.at_exec hat batch
  simp only [addEvents, hfile]
  refine ⟨⟨_, rfl, ?_⟩, houts⟩
  exact ⟨hexec.file, (congrArg Bool.not hexec.hasWritten).trans (Bool.not_not _), hexec.hasWritten,
    hexec.pids, hexec.tids, hexec.attempts⟩

variable (ok)

/-- **A run of batches.** -/
theorem at_exec (x : ChromeTraceExporter) (batches : List (List (TraceEvent F))) :
    At ok (Mealy.exec (addEvents ok) x.openFile batches) batches.flatten := by
  induction batches using List.reverseRecOn with
  | nil => exact at_openFile x
  | append_singleton batches batch ih =>
    rw [Mealy.exec_concat, List.flatten_append, List.flatten_singleton]
    exact (at_addEvents ih batch).1

/-- **The file of a run.** -/
theorem traceText_eq (x : ChromeTraceExporter) (batches : List (List (TraceEvent F))) :
    x.traceText ok batches = some (fileText ok (kept batches.flatten)) := by
  obtain ⟨file, hfile, hat⟩ := at_exec ok x batches
  have hw := hat.hasWritten
  have htext := hat.file
  simp only [stream] at hw htext
  rw [traceText, closeFile, hfile, hw, htext]
  cases hk : kept batches.flatten <;> simp [fileText, bodyText]

/-- **The writes of a run.** -/
theorem tried_eq (x : ChromeTraceExporter) (batches : List (List (TraceEvent F))) :
    x.tried ok batches = outcomes ok 0 (kept batches.flatten) := by
  induction batches using List.reverseRecOn with
  | nil => rfl
  | append_singleton batches batch ih =>
    rw [tried, Mealy.outs_concat, (at_addEvents (at_exec ok x batches) batch).2, List.flatten_append,
      List.flatten_singleton, kept, kept, firsts_append, outcomes_append, Nat.zero_add]
    exact congrArg (· ++ _) ih

end ChromeTraceExporter

end Text

/-! ## What the file is -/

section File

variable {F : Type} [F64 F] [StdDisplayF64 F] (ok : ℕ → Bool)

theorem spells_bodyText {i : ℕ} (hi : i ≠ 0) (es : List (TraceEvent F)) :
    Spells (∀ e ∈ succeeded (outcomes ok i es), e.Plain ∧ e.Finite) (bodyText ok i es).toList
      (moreItems ((succeeded (outcomes ok i es)).map TraceEvent.json)) := by
  induction es generalizing i with
  | nil => exact Spells.nil.congr (by simp [outcomes, succeeded])
  | cons e es ih =>
    have ih := ih (Nat.succ_ne_zero i)
    have hsep : Spells True (",\n" : String).toList [.comma] := Spells.of_run rfl
    rw [succeeded_outcomes_cons, bodyText, if_neg hi]
    by_cases hok : ok i = true
    · rw [if_pos hok, if_pos hok, String.toList_append, String.toList_append, List.singleton_append,
        List.map_cons, moreItems]
      exact ((hsep.true_append (spells_encode e)).append ih).congr
        (List.forall_mem_cons (p := fun e : TraceEvent F => e.Plain ∧ e.Finite)).symm
    · rw [if_neg hok, if_neg hok]
      simpa using ih

omit [StdDisplayF64 F] in
theorem toList_fileText_cons [DisplayF64 F] (e : TraceEvent F) (es : List (TraceEvent F))
    (hok : ok 0 = true) : (fileText ok (e :: es)).toList = ("[\n" : String).toList ++
      ((encode e).toList ++ ((bodyText ok 1 es).toList ++ ("\n]" : String).toList)) := by
  simp [fileText, bodyText, hok]

/-- **With its first element written, the file is the array of those whose write succeeded.** -/
theorem spells_fileText {es : List (TraceEvent F)} (h : es = [] ∨ ok 0 = true) :
    Spells (∀ e ∈ succeeded (outcomes ok 0 es), e.Plain ∧ e.Finite) (fileText ok es).toList
      (tokens (.array ((succeeded (outcomes ok 0 es)).map TraceEvent.json))) := by
  cases es with
  | nil =>
    have hempty : Spells True ("[]\n" : String).toList [.openArray, .closeArray] :=
      Spells.of_run rfl
    rw [outcomes, succeeded, List.filter_nil, List.map_nil, List.map_nil, tokens]
    exact hempty.congr (by simp)
  | cons e es =>
    have hok : ok 0 = true := h.resolve_left (List.cons_ne_nil e es)
    have hopen : Spells True ("[\n" : String).toList [.openArray] := Spells.of_run rfl
    have hclose : Spells True ("\n]" : String).toList [.closeArray] := Spells.of_run rfl
    have hs := hopen.true_append ((spells_encode e).append
      ((spells_bodyText ok one_ne_zero es).append_true hclose))
    rw [toList_fileText_cons ok e es hok, succeeded_outcomes_cons, if_pos hok,
      List.singleton_append, List.map_cons, tokens, List.append_assoc]
    exact hs.congr (List.forall_mem_cons (p := fun e : TraceEvent F => e.Plain ∧ e.Finite)).symm

theorem parse_comma (text : List Char) : parse (',' :: text) = none := by
  have hlex : lex (',' :: text) = (lex text).map fun ts => [Token.comma] ++ ts :=
    Lexer.lexFrom_cons rfl text
  rw [parse, hlex]
  cases lex text <;> rfl

omit [StdDisplayF64 F] in
/-- What is written after a first place left empty starts with a separator. -/
theorem bodyText_succ [DisplayF64 F] (i : ℕ) (es : List (TraceEvent F)) :
    bodyText ok (i + 1) es = "" ∨ ∃ t, (bodyText ok (i + 1) es).toList = ',' :: t := by
  induction es generalizing i with
  | nil => exact Or.inl rfl
  | cons e es ih =>
    rw [bodyText, if_neg (Nat.succ_ne_zero i)]
    by_cases hok : ok (i + 1) = true
    · rw [if_pos hok]
      exact Or.inr ⟨'\n' :: ((encode e).toList ++ (bodyText ok (i + 2) es).toList), by simp⟩
    · rw [if_neg hok]
      simpa using ih (i + 1)

/-- **With its first element lost, the file is no JSON.** -/
theorem parse_fileText_eq_none {es : List (TraceEvent F)} (hne : es ≠ []) (h : ok 0 = false) :
    parse (fileText ok es).toList = none := by
  obtain ⟨e, es, rfl⟩ := List.exists_cons_of_ne_nil hne
  have htext : (fileText ok (e :: es)).toList =
      (bodyText ok 1 es).toList ++ ("\n]" : String).toList := by
    simp [fileText, bodyText, h]
  rw [htext]
  rcases bodyText_succ ok 0 es with hb | ⟨t, hb⟩
  · rw [hb]; rfl
  · rw [hb]; exact parse_comma _

theorem stops_bodyText {i : ℕ} (hi : i ≠ 0) {es : List (TraceEvent F)}
    (hp : ∀ e ∈ succeeded (outcomes ok i es), e.Plain)
    (hn : ¬∀ e ∈ succeeded (outcomes ok i es), e.Finite) : Stops (bodyText ok i es).toList := by
  induction es generalizing i with
  | nil => exact absurd (by simp [outcomes, succeeded]) hn
  | cons e es ih =>
    have hsep : Spells True (",\n" : String).toList [.comma] := Spells.of_run rfl
    rw [succeeded_outcomes_cons] at hp hn
    rw [bodyText, if_neg hi]
    by_cases hok : ok i = true
    · rw [if_pos hok, List.singleton_append, List.forall_mem_cons] at hp hn
      rw [if_pos hok, String.toList_append, String.toList_append, List.append_assoc]
      refine hsep.stops_append ?_
      by_cases he : e.Finite
      · exact ((spells_encode e).congr (iff_true_intro ⟨hp.1, he⟩)).stops_append
          (ih (Nat.succ_ne_zero i) hp.2 fun h => hn ⟨he, h⟩)
      · exact (stops_encode hp.1 he).append _
    · rw [if_neg hok, List.nil_append] at hp hn
      rw [if_neg hok, String.empty_append]
      exact ih (Nat.succ_ne_zero i) hp hn

/-- **With a figure that is not finite written under plain names, the file is no JSON.** -/
theorem parse_fileText_eq_none_of_not_finite {es : List (TraceEvent F)} (hok : ok 0 = true)
    (hp : ∀ e ∈ succeeded (outcomes ok 0 es), e.Plain)
    (hn : ¬∀ e ∈ succeeded (outcomes ok 0 es), e.Finite) : parse (fileText ok es).toList = none := by
  cases es with
  | nil => exact absurd (by simp [outcomes, succeeded]) hn
  | cons e es =>
    have hopen : Spells True ("[\n" : String).toList [.openArray] := Spells.of_run rfl
    rw [succeeded_outcomes_cons, if_pos hok, List.singleton_append, List.forall_mem_cons] at hp hn
    rw [toList_fileText_cons ok e es hok]
    refine (hopen.stops_append ?_).parse_eq_none
    by_cases he : e.Finite
    · exact ((spells_encode e).congr (iff_true_intro ⟨hp.1, he⟩)).stops_append
        ((stops_bodyText ok one_ne_zero hp.2 fun h => hn ⟨he, h⟩).append _)
    · exact (stops_encode hp.1 he).append _

/-- **The file is the array of the elements whose write succeeded exactly where the first did and
they are plain and finite.** -/
theorem parse_fileText_iff (es : List (TraceEvent F)) : parse (fileText ok es).toList =
      some (.array ((succeeded (outcomes ok 0 es)).map TraceEvent.json)) ↔
    (es = [] ∨ ok 0 = true) ∧ ∀ e ∈ succeeded (outcomes ok 0 es), e.Plain ∧ e.Finite := by
  by_cases h : es = [] ∨ ok 0 = true
  · rw [(spells_fileText ok h).parse_iff, and_iff_right h]
  · obtain ⟨hne, hok⟩ := not_or.mp h
    rw [parse_fileText_eq_none ok hne (Bool.eq_false_iff.mpr hok)]
    exact iff_of_false (Option.some_ne_none _).symm fun hc => h hc.1

end File

end GcScope
