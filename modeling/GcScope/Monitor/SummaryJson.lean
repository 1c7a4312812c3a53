import GcScope.Lib.JsonWriter
import GcScope.Monitor.Statistics
import GcScope.Monitor.TraceEvent

/-!
# The summary as JSON

The summary of a run is laid out by hand, one generation a line. A figure the build cannot supply,
or that is not finite, has no key.

* `generation`, `list`, `interpreter`, `encode`: the lines of the document.
* `document`: the tree they are meant to be.
* `Shows`: what a consumer finds under the keys of a generation.
* `spells_generation`, `spells_list`, `spells_interpreter`: each piece is the tokens of its tree.
* **`encode_roundTrips`**: the document parses to its tree.
-/

set_option autoImplicit false

namespace GcScope

open Json

namespace SummaryJson

variable {F : Type} [F64 F] [DisplayF64 F]

/-- The name and version of the document. -/
def SCHEMA : String := "gcscope.gc-summary/1"

/-! ## The lines -/

/-- A float as JSON, or nothing where JSON has no spelling for it. -/
def number (value : F) : Option String :=
  if F64.isFinite value then some (DisplayF64.display value) else none

/-- The field of a figure that is supplied. -/
def supplied (key : String) (value : Option String) : List (String × String) :=
  (value.map fun text => (key, text)).toList

/-- The fields of a generation, with the texts of their values. -/
def fields (g : GenerationSummary F) : List (String × String) :=
  [("generation", toString g.generation), ("collections", toString g.collections),
      ("collected", toString g.collected), ("uncollectable", toString g.uncollectable),
      ("records", toString g.records), ("observed", toString g.observed),
      ("lost", toString g.lost)] ++
    supplied "coverage" (number g.coverage) ++
    supplied "pause_total_ns" (g.pauseTotalNs.map toString) ++
    supplied "pause_measured_ns" (g.pauseMeasuredNs.map toString) ++
    supplied "pause_mean_ns" (g.pauseMeanNs.bind number) ++
    supplied "scale_factor" (g.scaleFactor.bind number)

/-- The figures of one generation, on one line. -/
def generation (g : GenerationSummary F) : String :=
  r#"{"# ++ ", ".intercalate ((fields g).map fun f => "\"" ++ f.1 ++ "\": " ++ f.2) ++ r#"}"#

def indent (lines : List String) : List String := lines.map fun line => "  " ++ line

/-- A comma after the last line, where there is one. -/
def pushComma (item : List String) : Option (List String) :=
  item.getLast?.map fun line => item.dropLast ++ [line ++ ","]

/-- The lines of the items from a position on, with a comma after each but the last. -/
def listItems (last : ℕ) : ℕ → List (List String) → Option (List String)
  | _, [] => some []
  | position, item :: items => do
    let item ← if position ≠ last then pushComma (indent item) else some (indent item)
    let lines ← listItems last (position + 1) items
    return item ++ lines

/-- A member with one item per line, as lines of the enclosing object; none where it would panic. -/
def list (name : String) (items : List (List String)) : Option (List String) :=
  if items.isEmpty then some ["\"" ++ name ++ "\": []"]
  else do
    let lines ← listItems (items.length - 1) 0 items
    return ["\"" ++ name ++ "\": ["] ++ lines ++ ["]"]

/-- One interpreter of one process, as the lines of its object. -/
def interpreter (block : InterpreterSummary F) : Option (List String) := do
  let generations ← list "generations" (block.generations.map fun g => [generation g])
  return [r#"{"#, r#"  "pid": "# ++ toString block.pid ++ ",",
    r#"  "interpreter": "# ++ toString block.interpreter ++ ","] ++ indent generations ++ [r#"}"#]

/-- The whole summary as one document, ended by a newline. -/
def encode (summary : List (InterpreterSummary F)) : Option String := do
  let blocks ← summary.mapM interpreter
  let interpreters ← list "interpreters" blocks
  return "\n".intercalate ([r#"{"#, r#"  "schema": ""# ++ SCHEMA ++ r#"","#] ++ indent interpreters ++
    [r#"}"#]) ++ "\n"

/-! ## The tree they are meant to be -/

/-- A figure, where it is finite. -/
def figure (x : F) : Option ℚ := if F64.isFinite x then some (DisplayF64.decimal x) else none

/-- The object of a generation, with a key for each figure there is. -/
def generationJson (g : GenerationSummary F) : Json :=
  objectOf [("generation", some (.number g.generation)),
    ("collections", some (.number g.collections)), ("collected", some (.number g.collected)),
    ("uncollectable", some (.number g.uncollectable)), ("records", some (.number g.records)),
    ("observed", some (.number g.observed)), ("lost", some (.number g.lost)),
    ("coverage", (figure g.coverage).map .number),
    ("pause_total_ns", g.pauseTotalNs.map fun (ns : ℤ) => .number ns),
    ("pause_measured_ns", g.pauseMeasuredNs.map fun (ns : ℤ) => .number ns),
    ("pause_mean_ns", (g.pauseMeanNs.bind figure).map .number),
    ("scale_factor", (g.scaleFactor.bind figure).map .number)]

def interpreterJson (block : InterpreterSummary F) : Json :=
  .object [("pid", .number block.pid), ("interpreter", .number block.interpreter),
    ("generations", .array (block.generations.map generationJson))]

def document (summary : List (InterpreterSummary F)) : Json :=
  .object [("schema", .string SCHEMA), ("interpreters", .array (summary.map interpreterJson))]

/-- What a consumer finds in the object of a generation: the counts, and a figure under its key exactly
where it is supplied and, for a float, finite. -/
structure Shows (g : GenerationSummary F) (v : Json) : Prop where
  generation : v.get? "generation" = some (.number g.generation)
  collections : v.get? "collections" = some (.number g.collections)
  collected : v.get? "collected" = some (.number g.collected)
  uncollectable : v.get? "uncollectable" = some (.number g.uncollectable)
  records : v.get? "records" = some (.number g.records)
  observed : v.get? "observed" = some (.number g.observed)
  lost : v.get? "lost" = some (.number g.lost)
  coverage : v.get? "coverage" = if F64.isFinite g.coverage then
    some (.number (DisplayF64.decimal g.coverage)) else none
  pauseTotalNs : v.get? "pause_total_ns" = g.pauseTotalNs.map fun (ns : ℤ) => .number ns
  pauseMeasuredNs : v.get? "pause_measured_ns" = g.pauseMeasuredNs.map fun (ns : ℤ) => .number ns
  pauseMeanNs : v.get? "pause_mean_ns" = (g.pauseMeanNs.filter fun x => F64.isFinite x).map
    fun x => .number (DisplayF64.decimal x)
  scaleFactor : v.get? "scale_factor" = (g.scaleFactor.filter fun x => F64.isFinite x).map
    fun x => .number (DisplayF64.decimal x)

theorem map_bind_figure (x : Option F) : (x.bind figure).map Json.number =
    (x.filter fun x => F64.isFinite x).map fun x => .number (DisplayF64.decimal x) := by
  cases x with
  | none => rfl
  | some x => cases h : F64.isFinite x <;> simp [figure, h, Option.filter]

theorem map_figure (x : F) : (figure x).map Json.number =
    if F64.isFinite x then some (.number (DisplayF64.decimal x)) else none := by
  cases h : F64.isFinite x <;> simp [figure, h]

theorem shows_generationJson (g : GenerationSummary F) : Shows g (generationJson g) := by
  have hget : ∀ {key : String} {v : Option Json}, _ → (generationJson g).get? key = v :=
    fun hm => get?_objectOf (by simp) hm
  exact
    { generation := hget (by simp)
      collections := hget (by simp)
      collected := hget (by simp)
      uncollectable := hget (by simp)
      records := hget (by simp)
      observed := hget (by simp)
      lost := hget (by simp)
      coverage := map_figure g.coverage ▸ hget (by simp)
      pauseTotalNs := hget (by simp)
      pauseMeasuredNs := hget (by simp)
      pauseMeanNs := map_bind_figure g.pauseMeanNs ▸ hget (by simp)
      scaleFactor := map_bind_figure g.scaleFactor ▸ hget (by simp) }

/-! ## Written member by member -/

/-- The member of a float that is supplied and finite. -/
def floatMembers (key : String) (x : Option F) : List Member :=
  match x with
  | some x =>
    if h : F64.isFinite x = true then
      [⟨key, DisplayF64.display x, .number (DisplayF64.decimal x), True,
        writes_number (DisplayF64.number?_display x h)⟩]
    else []
  | none => []

/-- The member of an integer that is supplied. -/
def intMembers (key : String) (z : Option ℤ) : List Member := (z.map (intMember key)).toList

/-- The members of a generation. -/
def members (g : GenerationSummary F) : List Member :=
  [natMember "generation" g.generation, intMember "collections" g.collections,
      intMember "collected" g.collected, intMember "uncollectable" g.uncollectable,
      natMember "records" g.records, intMember "observed" g.observed, intMember "lost" g.lost] ++
    floatMembers "coverage" (some g.coverage) ++
    intMembers "pause_total_ns" g.pauseTotalNs ++
    intMembers "pause_measured_ns" g.pauseMeasuredNs ++
    floatMembers "pause_mean_ns" g.pauseMeanNs ++
    floatMembers "scale_factor" g.scaleFactor

theorem supplied_number (key : String) (x : Option F) :
    supplied key (x.bind number) = (floatMembers key x).map fun m => (m.key, m.text) := by
  rcases x with _ | x
  · rfl
  · cases h : F64.isFinite x <;> simp [supplied, number, floatMembers, h]

omit [F64 F] [DisplayF64 F] in
theorem supplied_toString (key : String) (z : Option ℤ) :
    supplied key (z.map toString) = (intMembers key z).map fun m => (m.key, m.text) := by
  cases z <;> rfl

theorem pair_floatMembers (key : String) (x : Option F) : (floatMembers key x).map Member.pair =
    (((x.bind figure).map Json.number).map fun v => (key, v)).toList := by
  rcases x with _ | x
  · rfl
  · cases h : F64.isFinite x <;> simp [figure, floatMembers, Member.pair, h]

omit [F64 F] [DisplayF64 F] in
theorem pair_intMembers (key : String) (z : Option ℤ) : (intMembers key z).map Member.pair =
    ((z.map fun (n : ℤ) => Json.number n).map fun v => (key, v)).toList := by
  cases z <;> rfl

theorem fields_eq (g : GenerationSummary F) :
    fields g = (members g).map fun m => (m.key, m.text) := by
  have hcoverage : supplied "coverage" (number g.coverage) = _ :=
    supplied_number "coverage" (some g.coverage)
  simp only [fields, members, List.map_append, hcoverage, supplied_number, supplied_toString]
  rfl

theorem generation_eq (g : GenerationSummary F) :
    generation g = r#"{"# ++ membersText " " (members g) ++ r#"}"# := by
  have hrender : ∀ m : Member, m.render " " = "\"" ++ m.key ++ "\": " ++ m.text := fun m => by
    have hcolon : "\": " = "\":" ++ " " := rfl
    rw [Member.render, hcolon, ← String.append_assoc]
  rw [generation, fields_eq, membersText, List.map_map, funext hrender]
  rfl

theorem generationJson_eq (g : GenerationSummary F) :
    generationJson g = .object ((members g).map Member.pair) := by
  have hcoverage := pair_floatMembers "coverage" (some g.coverage)
  simp only [generationJson, objectOf, members, List.map_append, hcoverage, pair_floatMembers,
    pair_intMembers]
  simp [Member.pair, natMember, intMember]

theorem sound_members (g : GenerationSummary F) : ∀ m ∈ members g, m.Sound := by
  have hfloat : ∀ {key : String} {x : Option F}, Json.Plain key →
      ∀ m ∈ floatMembers key x, m.Sound := fun {key x} hk m hm => by
    rcases x with _ | x
    · cases hm
    · cases h : F64.isFinite x
      · simp [floatMembers, h] at hm
      · simp only [floatMembers, h, dif_pos, List.mem_singleton] at hm
        rw [hm]
        exact ⟨hk, trivial⟩
  have hint : ∀ {key : String} {z : Option ℤ}, Json.Plain key →
      ∀ m ∈ intMembers key z, m.Sound := fun {key z} hk m hm => by
    obtain ⟨n, -, rfl⟩ := Option.map_eq_some_iff.mp (Option.mem_toList.mp hm)
    exact sound_intMember.mpr hk
  have hkeys : ∀ s ∈ ["generation", "collections", "collected", "uncollectable", "records",
      "observed", "lost"], Json.Plain s := by decide
  simp only [List.forall_mem_cons] at hkeys
  simp only [members, List.forall_mem_append, List.forall_mem_cons]
  refine ⟨⟨⟨⟨⟨?_, hfloat (by decide)⟩, hint (by decide)⟩, hint (by decide)⟩, hfloat (by decide)⟩,
    hfloat (by decide)⟩
  simp [hkeys]

theorem spells_blank : Spells True (" " : String).toList [] := Spells.of_run rfl

/-- **The line of a generation is the tokens of its object.** -/
theorem spells_generation (g : GenerationSummary F) :
    Spells True (generation g).toList (tokens (generationJson g)) := by
  rw [generation_eq, generationJson_eq]
  exact (spells_object spells_blank (members g)).congr (iff_true_intro (sound_members g))

/-! ## Laid out in lines -/

omit [F64 F] [DisplayF64 F] in
theorem spells_indent {lines : List String} {ts : List Token} (h : SpellsLines lines ts) :
    SpellsLines (indent lines) ts :=
  h.indent (Spells.of_run rfl)

theorem exists_pushComma {item : List String} {ts : List Token} (h : SpellsLines item ts)
    (hts : ts ≠ []) : ∃ lines, pushComma item = some lines ∧ SpellsLines lines (ts ++ [.comma]) := by
  have hne := h.ne_nil hts
  refine ⟨_, by rw [pushComma, List.getLast?_eq_some_getLast hne]; rfl, h.push hne ?_⟩
  exact Spells.of_run rfl

theorem exists_listItems {item : List String} {items : List (List String)} {v : Json}
    {vs : List Json} (h : SpellsLines item (tokens v))
    (hs : List.Forall₂ (fun item v => SpellsLines item (tokens v)) items vs) (position : ℕ) :
    ∃ lines, listItems (position + items.length) position (item :: items) = some lines ∧
      SpellsLines lines (tokens v ++ moreItems vs) := by
  induction hs generalizing item v position with
  | nil =>
    refine ⟨indent item ++ [], by simp [listItems], ?_⟩
    rw [moreItems]
    exact (spells_indent h).append SpellsLines.nil
  | @cons item' v' items vs h' _ ih =>
    obtain ⟨first, hfirst, hfs⟩ := exists_pushComma (spells_indent h) (tokens_ne_nil v)
    obtain ⟨rest, hrest, hrs⟩ := ih h' (position + 1)
    have hlast : position + (item' :: items).length = position + 1 + items.length := by
      rw [List.length_cons]; omega
    refine ⟨first ++ rest, ?_, ?_⟩
    · rw [hlast, listItems, if_pos (by omega), hfirst, hrest]
      rfl
    · rw [moreItems]
      simpa using hfs.append hrs

/-- **A list is a key and the tokens of its array.** -/
theorem spells_list {name : String} (hname : Json.Plain name) {items : List (List String)}
    {vs : List Json} (h : List.Forall₂ (fun item v => SpellsLines item (tokens v)) items vs) :
    ∃ lines, list name items = some lines ∧
      SpellsLines lines (.string name :: .colon :: tokens (.array vs)) := by
  have hkey : Spells True ('"' :: (name.toList ++ ['"'])) [.string name] :=
    (spells_quoted name).congr (iff_true_intro hname)
  have hopen : Spells True [':', ' ', '['] [.colon, .openArray] := Spells.of_run rfl
  cases h with
  | nil =>
    have hclose : Spells True [']'] [.closeArray] := Spells.of_run rfl
    refine ⟨_, rfl, SpellsLines.singleton ?_⟩
    simpa [tokens] using (hkey.append_true hopen).append_true hclose
  | @cons item v items vs h hs =>
    obtain ⟨lines, hl, hls⟩ := exists_listItems h hs 0
    rw [Nat.zero_add] at hl
    refine ⟨["\"" ++ name ++ "\": ["] ++ lines ++ ["]"], by simp [list, hl], ?_⟩
    have hhead : SpellsLines ["\"" ++ name ++ "\": ["] [.string name, .colon, .openArray] :=
      SpellsLines.singleton (by simpa using hkey.append_true hopen)
    have hclose : SpellsLines ["]"] [.closeArray] := SpellsLines.singleton (Spells.of_run rfl)
    simpa [tokens] using (hhead.append hls).append hclose

theorem spells_memberLine {m : Member} (hm : m.Sound) {line : String}
    (h : line = "  " ++ m.render " " ++ ",") :
    SpellsLines [line] (.string m.key :: .colon :: (tokens m.value ++ [.comma])) := by
  refine SpellsLines.singleton ?_
  have hblanks : Spells True ("  " : String).toList [] := Spells.of_run rfl
  rw [h, String.toList_append, String.toList_append, List.append_assoc]
  exact hblanks.true_append
    ((spells_member spells_blank m delim_comma).congr (iff_true_intro hm))

/-- **The lines of an interpreter are the tokens of its object.** -/
theorem spells_interpreter (block : InterpreterSummary F) : ∃ lines,
    interpreter block = some lines ∧ SpellsLines lines (tokens (interpreterJson block)) := by
  have hitems : List.Forall₂ (fun item v => SpellsLines item (tokens v))
      (block.generations.map fun g => [generation g]) (block.generations.map generationJson) := by
    rw [List.forall₂_map_left_iff, List.forall₂_map_right_iff, List.forall₂_same]
    exact fun g _ => SpellsLines.singleton (spells_generation g)
  obtain ⟨generations, hg, hgs⟩ := spells_list (by decide : Json.Plain "generations") hitems
  have hopen : SpellsLines [r#"{"#] [.openObject] := SpellsLines.singleton (Spells.of_run rfl)
  have hpid : SpellsLines [r#"  "pid": "# ++ toString block.pid ++ ","] _ :=
    spells_memberLine (m := natMember "pid" block.pid) (sound_natMember.mpr (by decide))
      (by simp [Member.render, natMember, ← String.append_assoc])
  have hinterpreter : SpellsLines [r#"  "interpreter": "# ++ toString block.interpreter ++ ","] _ :=
    spells_memberLine (m := intMember "interpreter" block.interpreter)
      (sound_intMember.mpr (by decide)) (by simp [Member.render, intMember, ← String.append_assoc])
  have hclose : SpellsLines [r#"}"#] [.closeObject] := SpellsLines.singleton (Spells.of_run rfl)
  refine ⟨_, by rw [interpreter, hg]; rfl, ?_⟩
  have hlines := (((hopen.append hpid).append hinterpreter).append (spells_indent hgs)).append hclose
  simpa [interpreterJson, tokens, moreMembers, natMember, intMember] using hlines

/-- **The document, whole.** -/
theorem spells_encode (summary : List (InterpreterSummary F)) : ∃ text,
    encode summary = some text ∧ Spells True text.toList (tokens (document summary)) := by
  obtain ⟨blocks, hb, hbs⟩ := ListFacts.exists_mapM_eq fun block (_ : block ∈ summary) =>
    spells_interpreter block
  obtain ⟨interpreters, hi, his⟩ := spells_list (by decide : Json.Plain "interpreters")
    (List.forall₂_map_right_iff.mpr hbs.flip)
  have hopen : SpellsLines [r#"{"#] [.openObject] := SpellsLines.singleton (Spells.of_run rfl)
  have hschema : SpellsLines [r#"  "schema": ""# ++ SCHEMA ++ r#"","#] _ :=
    spells_memberLine (m := strMember "schema" SCHEMA) (sound_strMember.mpr (by decide)) rfl
  have hclose : SpellsLines [r#"}"#] [.closeObject] := SpellsLines.singleton (Spells.of_run rfl)
  have hlines := ((hopen.append hschema).append (spells_indent his)).append hclose
  have hnewline : Spells True ("\n" : String).toList [] := Spells.of_run rfl
  refine ⟨_, by rw [encode, hb, Option.bind_eq_bind, Option.bind_some, hi]; rfl, ?_⟩
  rw [String.toList_append]
  have htext := hlines.spells.append_true hnewline
  simpa [document, tokens, moreMembers, strMember] using htext

/-- **The document parses to its tree, and a generation shows the figures it has.** -/
theorem encode_roundTrips (summary : List (InterpreterSummary F)) :
    (∃ text, encode summary = some text ∧ parse text.toList = some (document summary)) ∧
      ∀ block ∈ summary, ∀ g ∈ block.generations, Shows g (generationJson g) := by
  obtain ⟨text, htext, hspells⟩ := spells_encode summary
  exact ⟨⟨text, htext, hspells.parse_iff.mpr trivial⟩, fun _ _ g _ => shows_generationJson g⟩

end SummaryJson

end GcScope
