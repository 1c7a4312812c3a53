import GcScope.Cli.StatsTable
import GcScope.Monitor.Statistics

/-!
# The summary as a table

The summary of a run is printed as one table an interpreter, a blank line between two. A table has the
columns of its build: one without timing shows no pause, and no count of the Records.

* `columns`, `formatRow`, `renderBlock`, `render`: the lines.
* `readSummary`: a reader of the lines, who finds the tables by the blank lines, the columns by the
  header and the figures by the columns.
* `RowFits`: the figures of a row are as short as their columns are wide.
* **`summary_table_reads_back`**: the reader finds every figure exactly where all rows fit.
-/

set_option autoImplicit false

namespace GcScope

open Columns

/-- Whether the build of this interpreter bounds its Collections with timestamps. -/
def InterpreterSummary.hasTiming {F : Type} (block : InterpreterSummary F) : Bool :=
  block.generations.any fun g => g.pauseMeasuredNs.isSome

namespace SummaryTable

variable {F : Type} [F64 F] [FixedF64 F]

/-! ## The lines -/

/-- The columns a tier shows, with their widths. -/
def columns (timed : Bool) : List (String × ℕ) :=
  [("gen", 3), ("collections", 12), ("collected", 12), ("uncollectable", 14)] ++
    (if timed then [("records", 8)] else []) ++ [("coverage", 9)] ++
    if timed then [("pause total", 14), ("pause mean", 14)] else []

/-- A nanosecond figure at a readable scale. -/
def duration (ns : F) : String :=
  let scaled (unit : String) (divisor : ℤ) : String :=
    FixedF64.fixed 3 (F64.div ns (F64.ofInt divisor)) ++ " " ++ unit
  if FixedF64.absAtLeast ns 1000000000 then scaled "s" 1000000000
  else if FixedF64.absAtLeast ns 1000000 then scaled "ms" 1000000
  else if FixedF64.absAtLeast ns 1000 then scaled "us" 1000
  else scaled "ns" 1

/-- Right-align each cell under its column. -/
def layOut (cells : List String) (timed : Bool) : String :=
  textLine ((columns timed).map Prod.snd) cells

def formatHeader (timed : Bool) : String := layOut ((columns timed).map Prod.fst) timed

/-- The cells of a row. A figure the build cannot supply leaves its cell empty. -/
def cells (g : GenerationSummary F) (timed : Bool) : List String :=
  [toString g.generation, toString g.collections, toString g.collected, toString g.uncollectable] ++
    (if timed then [toString g.records] else []) ++ [FixedF64.fixed 3 g.coverage] ++
    if timed then
      [(g.pauseTotalNs.map fun ns => duration (F64.ofInt ns : F)).getD "",
        (g.pauseMeanNs.map duration).getD ""]
    else []

def formatRow (g : GenerationSummary F) (timed : Bool) : String := layOut (cells g timed) timed

/-- The process and the interpreter a table is about. -/
def heading (block : InterpreterSummary F) : String :=
  "python " ++ toString block.pid ++ ", interpreter " ++ toString block.interpreter

/-- The lines of one interpreter. -/
def renderBlock (block : InterpreterSummary F) : List String :=
  let timed := block.hasTiming
  let header := formatHeader timed
  let rule := String.ofList (List.replicate header.length '-')
  heading block :: rule :: header :: rule :: block.generations.map fun g => formatRow g timed

/-- The summary as lines. -/
def render (summary : List (InterpreterSummary F)) : List String :=
  if summary.isEmpty then ["No GC collections were observed."]
  else
    summary.foldl (fun lines block =>
      (if lines.isEmpty then lines else lines ++ [""]) ++ renderBlock block) []

/-! ## A reader -/

/-- A table as it is read: its heading, and the cells of its rows by the columns of its header. -/
def readBlock : List String → String × List (List String)
  | heading :: _ :: header :: _ :: rows =>
    let timed := header == formatHeader true
    (heading, rows.map (cellsOf ((columns timed).map Prod.snd)))
  | _ => ("", [])

def readSummary (lines : List String) : List (String × List (List String)) :=
  if lines = ["No GC collections were observed."] then [] else (lines.splitOn "").map readBlock

/-- What is to be read of an interpreter. -/
def shown (block : InterpreterSummary F) : String × List (List String) :=
  (heading block, block.generations.map fun g => cells g block.hasTiming)

/-- The figures of a row are as short as their columns are wide. -/
structure RowFits (g : GenerationSummary F) (timed : Bool) : Prop where
  generation : g.generation < 1000
  collections : -100000000000 < g.collections ∧ g.collections < 1000000000000
  collected : -100000000000 < g.collected ∧ g.collected < 1000000000000
  uncollectable : -10000000000000 < g.uncollectable ∧ g.uncollectable < 100000000000000
  coverage : (FixedF64.fixed 3 g.coverage).length ≤ 9
  records : timed = true → g.records < 100000000
  pauseTotal : timed = true → ∀ ns ∈ g.pauseTotalNs, (duration (F64.ofInt ns : F)).length ≤ 14
  pauseMean : timed = true → ∀ ns ∈ g.pauseMeanNs, (duration ns).length ≤ 14

variable {g : GenerationSummary F} {timed : Bool} {block : InterpreterSummary F}

theorem length_cells (g : GenerationSummary F) (timed : Bool) :
    ((columns timed).map Prod.snd).length = (cells g timed).length := by
  cases timed <;> rfl

/-- **A row fits exactly where its cells do.** -/
theorem cells_fit_iff : (∀ c ∈ ((columns timed).map Prod.snd).zip (cells g timed), c.2.length ≤ c.1) ↔
    RowFits g timed := by
  have hgeneration : (toString g.generation).length ≤ 3 ↔ g.generation < 1000 :=
    Nat.length_repr_le_iff (by decide)
  have hrecords : (toString g.records).length ≤ 8 ↔ g.records < 100000000 :=
    Nat.length_repr_le_iff (by decide)
  have hcount : ∀ z : ℤ, (toString z).length ≤ 12 ↔ -100000000000 < z ∧ z < 1000000000000 := by
    intro z
    have hplaces := length_intRepr_le_iff z (show 0 < 11 by decide)
    norm_num at hplaces
    exact hplaces
  have hcount' : (toString g.uncollectable).length ≤ 14 ↔
      -10000000000000 < g.uncollectable ∧ g.uncollectable < 100000000000000 := by
    have hplaces := length_intRepr_le_iff g.uncollectable (show 0 < 13 by decide)
    norm_num at hplaces
    exact hplaces
  have hcell : ∀ {α : Type} (x : Option α) (text : α → String),
      ((x.map text).getD "").length ≤ 14 ↔ ∀ a ∈ x, (text a).length ≤ 14 := by
    intro α x text
    cases x <;> simp
  cases timed with
  | false =>
    simp only [columns, cells, Bool.false_eq_true, if_false, List.append_nil, List.cons_append,
      List.nil_append, List.map_cons, List.map_nil, List.zip_cons_cons, List.zip_nil_right,
      List.forall_mem_cons, List.not_mem_nil, false_implies, implies_true, and_true, hgeneration, hcount,
      hcount']
    constructor
    · rintro ⟨h₁, h₂, h₃, h₄, h₅⟩
      exact ⟨h₁, h₂, h₃, h₄, h₅, fun h => (nomatch h), fun h => (nomatch h), fun h => (nomatch h)⟩
    · exact fun h => ⟨h.generation, h.collections, h.collected, h.uncollectable, h.coverage⟩
  | true =>
    simp only [columns, cells, if_true, List.cons_append, List.nil_append, List.map_cons, List.map_nil,
      List.zip_cons_cons, List.zip_nil_right, List.forall_mem_cons, List.not_mem_nil, false_implies,
      implies_true, and_true, hgeneration, hcount, hcount', hrecords, hcell]
    constructor
    · rintro ⟨h₁, h₂, h₃, h₄, h₅, h₆, h₇, h₈⟩
      exact ⟨h₁, h₂, h₃, h₄, h₆, fun _ => h₅, fun _ => h₇, fun _ => h₈⟩
    · exact fun h => ⟨h.generation, h.collections, h.collected, h.uncollectable, h.records rfl,
        h.coverage, h.pauseTotal rfl, h.pauseMean rfl⟩

theorem head?_cells (g : GenerationSummary F) (timed : Bool) :
    ∀ cell ∈ cells g timed, cell.toList.head? ≠ some ' ' := by
  have hnat : ∀ n : ℕ, (toString n).toList.head? ≠ some ' ' := fun n => (isWord_natRepr n).head?_ne
  have hint : ∀ z : ℤ, (toString z).toList.head? ≠ some ' ' := fun z => (isWord_intRepr z).head?_ne
  have hfixed : ∀ (x : F) (rest : String), (FixedF64.fixed 3 x ++ rest).toList.head? ≠ some ' ' := by
    intro x rest
    have hword : IsWord (FixedF64.fixed 3 x) :=
      ⟨FixedF64.fixed_ne_nil _ _, FixedF64.blank_notMem_fixed _ _⟩
    rw [String.toList_append, List.head?_append_of_ne_nil _ hword.1]
    exact hword.head?_ne
  have hduration : ∀ ns : F, (duration ns).toList.head? ≠ some ' ' := by
    intro ns
    unfold duration
    dsimp only
    simp only [String.append_assoc]
    split_ifs <;> exact hfixed _ _
  have hsupplied : ∀ {α : Type} (x : Option α) (ns : α → F),
      ((x.map fun a => duration (ns a)).getD "").toList.head? ≠ some ' ' := by
    intro α x ns
    cases x with
    | none => exact show "".toList.head? ≠ some ' ' by decide
    | some a => exact hduration (ns a)
  have hcoverage : (FixedF64.fixed 3 g.coverage).toList.head? ≠ some ' ' := by
    simpa using hfixed g.coverage ""
  cases timed with
  | false =>
    simp only [cells, Bool.false_eq_true, if_false, List.append_nil, List.cons_append, List.nil_append,
      List.forall_mem_cons, List.not_mem_nil, false_implies, implies_true, and_true]
    exact ⟨hnat _, hint _, hint _, hint _, hcoverage⟩
  | true =>
    simp only [cells, if_true, List.cons_append, List.nil_append, List.forall_mem_cons,
      List.not_mem_nil, false_implies, implies_true, and_true]
    exact ⟨hnat _, hint _, hint _, hint _, hnat _, hcoverage, hsupplied _ _, hsupplied _ _⟩

theorem cellsOf_formatRow_iff :
    cellsOf ((columns timed).map Prod.snd) (formatRow g timed) = cells g timed ↔ RowFits g timed := by
  rw [formatRow, layOut, cellsOf_textLine_iff (length_cells g timed) (head?_cells g timed),
    cells_fit_iff]

theorem formatHeader_beq (timed : Bool) : (formatHeader timed == formatHeader true) = timed := by
  cases timed <;> decide +kernel

/-- A block is read back exactly where its rows fit. -/
theorem readBlock_renderBlock_iff : readBlock (renderBlock block) = shown block ↔
    ∀ g ∈ block.generations, RowFits g block.hasTiming := by
  rw [renderBlock, readBlock, shown, Prod.mk.injEq, and_iff_right rfl, formatHeader_beq, List.map_map]
  simp only [List.map_inj_left, Function.comp_apply, cellsOf_formatRow_iff]

theorem blank_notMem_renderBlock (block : InterpreterSummary F) : "" ∉ renderBlock block := by
  have hline : ∀ cells : List String, ((columns block.hasTiming).map Prod.snd).length = cells.length →
      layOut cells block.hasTiming ≠ "" := by
    intro cells hlen hblank
    have hle := le_length_textLine hlen
    rw [← layOut, hblank] at hle
    revert hle
    cases block.hasTiming <;> decide
  have hheading : heading block ≠ "" := by
    intro hblank
    have hlength := congrArg String.length hblank
    simp [heading] at hlength
  have hheader : formatHeader block.hasTiming ≠ "" := hline _ (by simp)
  have hrule : String.ofList (List.replicate (formatHeader block.hasTiming).length '-') ≠ "" := by
    intro hblank
    have hlength := congrArg String.length hblank
    rw [String.length_ofList, List.length_replicate] at hlength
    exact hheader (String.length_eq_zero_iff.mp hlength)
  simp only [renderBlock, List.mem_cons, List.mem_map, not_or, not_exists, not_and]
  exact ⟨hheading.symm, hrule.symm, hheader.symm, hrule.symm, fun g _ => hline _ (length_cells g _)⟩

theorem render_eq {summary : List (InterpreterSummary F)} (h : summary ≠ []) :
    render summary = [""].intercalate (summary.map renderBlock) := by
  have happend : ∀ (l m : List String) (rest : List (List String)),
      [""].intercalate ((l ++ m) :: rest) = l ++ [""].intercalate (m :: rest) := by
    intro l m rest
    cases rest with
    | nil => simp
    | cons r rest => simp [List.intercalate_cons_cons]
  have hfold : ∀ (summary : List (InterpreterSummary F)) (lines : List String), lines ≠ [] →
      summary.foldl (fun lines block =>
        (if lines.isEmpty then lines else lines ++ [""]) ++ renderBlock block) lines =
        [""].intercalate (lines :: summary.map renderBlock) := by
    intro summary
    induction summary with
    | nil => exact fun lines _ => List.intercalate_singleton.symm
    | cons block rest ih =>
      intro lines hlines
      rw [List.foldl_cons, if_neg (by simpa using hlines), ih _ (by simp), List.map_cons, happend,
        List.intercalate_cons_cons]
  obtain ⟨block, rest, rfl⟩ := List.exists_cons_of_ne_nil h
  rw [render, List.isEmpty_cons, if_neg Bool.false_ne_true, List.foldl_cons]
  exact hfold rest (renderBlock block) (List.cons_ne_nil _ _)

/-- **The summary reads back exactly where all its rows fit.** -/
theorem summary_table_reads_back (summary : List (InterpreterSummary F)) :
    readSummary (render summary) = summary.map shown ↔
      ∀ block ∈ summary, ∀ g ∈ block.generations, RowFits g block.hasTiming := by
  rcases eq_or_ne summary [] with rfl | hne
  · exact iff_of_true rfl fun block h => nomatch h
  · have hsplit : (render summary).splitOn "" = summary.map renderBlock := by
      rw [render_eq hne]
      refine List.splitOn_intercalate "" (fun lines hlines => ?_) (by simpa using hne)
      obtain ⟨block, -, rfl⟩ := List.mem_map.mp hlines
      exact blank_notMem_renderBlock block
    have hmessage : render summary ≠ ["No GC collections were observed."] := by
      intro hrender
      obtain ⟨block, rest, rfl⟩ := List.exists_cons_of_ne_nil hne
      rw [hrender, List.map_cons] at hsplit
      have hfirst := congrArg (fun l => l.head?.map List.length) hsplit
      simp [renderBlock, List.splitOn, List.splitOnP_eq_singleton] at hfirst
    rw [readSummary, if_neg hmessage, hsplit, List.map_map]
    simp only [List.map_inj_left, Function.comp_apply, readBlock_renderBlock_iff]

end SummaryTable

end GcScope
