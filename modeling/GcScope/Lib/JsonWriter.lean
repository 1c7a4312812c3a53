import GcScope.Lib.JsonText

/-!
# JSON written by hand

A writer that puts a document together from pieces of text is right when each piece is the tokens it
should be wherever it stands.

* `Spells p text ts`: whatever comes after it, the text is the tokens `ts`, provided `p`.
* **`Spells.parse_iff`**: a text that spells a document parses to it exactly under its proviso.
* **`spells_quoted`**: a quoted string spells its token exactly where it is plain.
* `Writes`: a text that is a value once the next character shows its end.
* **`spells_object`**: an object written member by member.
* `SpellsLines`: a document laid out in lines, which indenting does not change.
-/

set_option autoImplicit false

namespace Json

/-! ## Texts that spell tokens -/

/-- The text is the tokens, wherever it stands, provided `p`; and `p` is what it takes. -/
structure Spells (p : Prop) (text : List Char) (ts : List Token) : Prop where
  run_eq : p → Lexer.run .start text = some (ts, .start)
  of_lex : ∀ {rest : List Char} {us : List Token}, lex (text ++ rest) = some (ts ++ us) → p

/-- The lexer stops in the text, wherever it stands. -/
def Stops (text : List Char) : Prop := Lexer.run .start text = none

namespace Spells

variable {p q : Prop} {text text' : List Char} {ts ts' : List Token}

theorem lex_append (h : Spells p text ts) (hp : p) (rest : List Char) :
    lex (text ++ rest) = (lex rest).map fun us => ts ++ us :=
  Lexer.lexFrom_append (h.run_eq hp) rest

theorem congr (h : Spells p text ts) (hpq : p ↔ q) : Spells q text ts :=
  ⟨fun hq => h.run_eq (hpq.mpr hq), fun hl => hpq.mp (h.of_lex hl)⟩

theorem append (h : Spells p text ts) (h' : Spells q text' ts') :
    Spells (p ∧ q) (text ++ text') (ts ++ ts') where
  run_eq hpq := by
    rw [Lexer.run_append (h.run_eq hpq.1), h'.run_eq hpq.2]
    rfl
  of_lex {rest us} hl := by
    rw [List.append_assoc, List.append_assoc] at hl
    have hp := h.of_lex hl
    rw [h.lex_append hp] at hl
    obtain ⟨vs, hvs, he⟩ := Option.map_eq_some_iff.mp hl
    rw [List.append_cancel_left he] at hvs
    exact ⟨hp, h'.of_lex hvs⟩

theorem append_true (h : Spells p text ts) (h' : Spells True text' ts') :
    Spells p (text ++ text') (ts ++ ts') := (h.append h').congr (iff_of_eq (and_true p))

theorem true_append (h : Spells True text ts) (h' : Spells p text' ts') :
    Spells p (text ++ text') (ts ++ ts') := (h.append h').congr (iff_of_eq (true_and p))

/-- A text that ends between tokens, read by running the lexer over it. -/
theorem of_run (h : Lexer.run .start text = some (ts, .start)) : Spells True text ts :=
  ⟨fun _ => h, fun _ => trivial⟩

theorem nil : Spells True [] [] := of_run rfl

/-- **A text that spells a document parses to it exactly under its proviso.** -/
theorem parse_iff {v : Json} (h : Spells p text (tokens v)) : parse text = some v ↔ p := by
  rw [parse_eq_some_iff]
  constructor
  · intro hl
    rw [← List.append_nil text, ← List.append_nil (tokens v)] at hl
    exact h.of_lex hl
  · intro hp
    have := h.lex_append hp []
    rwa [List.append_nil, show lex [] = some [] from rfl, Option.map_some, List.append_nil] at this

end Spells

namespace Stops

variable {text text' : List Char} {ts : List Token}

theorem spells (h : Stops text) : Spells False text ts :=
  ⟨False.elim, fun {rest us} hl => by
    have hnone : lex (text ++ rest) = none := Lexer.lexFrom_append_of_none h rest
    rw [hnone] at hl
    cases hl⟩

theorem append (h : Stops text) (rest : List Char) : Stops (text ++ rest) :=
  Lexer.run_append_of_none h rest

theorem parse_eq_none (h : Stops text) : parse text = none := by
  have hlex : lex (text ++ []) = none := Lexer.lexFrom_append_of_none h []
  rw [List.append_nil] at hlex
  rw [parse, hlex]
  rfl

end Stops

theorem Spells.stops_append {text text' : List Char} {ts : List Token} (h : Spells True text ts)
    (h' : Stops text') : Stops (text ++ text') := by
  rw [Stops, Lexer.run_append (h.run_eq trivial), h']
  rfl

/-- **A quoted string spells its token exactly where it is plain.** -/
theorem spells_quoted (s : String) : Spells (Plain s) ('"' :: (s.toList ++ ['"'])) [.string s] := by
  have hopen : Lexer.step .start '"' = some ([], .string []) := rfl
  have hclose : ∀ us, Lexer.step (.string us) '"' =
      some ([.string (String.ofList (ofUnits us))], .start) := fun _ => rfl
  constructor
  · intro hs
    rw [Lexer.run_cons hopen, Lexer.run_append (Lexer.run_plain hs []), Lexer.run_cons (hclose _),
      List.nil_append, ← List.append_nil (s.toList.map _), ofUnits_map_toNat_append]
    simp [Lexer.run, ofUnits]
  · intro rest us hl
    by_contra hs
    rw [List.cons_append, List.append_assoc, List.singleton_append, lex,
      Lexer.lexFrom_cons hopen] at hl
    obtain ⟨ts, hts, he⟩ := Option.map_eq_some_iff.mp hl
    exact Lexer.lexFrom_ne_of_not_plain hs rest us (hts.trans (congrArg some he))

/-! ## Values -/

/-- A character that ends a numeral and a word, and is these tokens. -/
def Delim (c : Char) (ts : List Token) : Prop :=
  Numeral.Ends c ∧ c.isAlpha = false ∧ Lexer.stepStart c = some (ts, .start)

theorem delim_comma : Delim ',' [.comma] := ⟨by decide, by decide, rfl⟩

theorem delim_closeObject : Delim '\x7d' [.closeObject] := ⟨by decide, by decide, rfl⟩

/-- Up to the next delimiter the text is the value, provided `p`. -/
def Writes (p : Prop) (text : String) (v : Json) : Prop :=
  ∀ c ts, Delim c ts → Spells p (text.toList ++ [c]) (tokens v ++ ts)

/-- A text that shows its own end. -/
theorem Spells.writes {p : Prop} {text : String} {v : Json} (h : Spells p text.toList (tokens v)) :
    Writes p text v := fun c ts hc =>
  h.append_true (Spells.of_run (by
    have hstep : Lexer.step .start c = some (ts, .start) := hc.2.2
    rw [Lexer.run, hstep, Option.bind_some, Lexer.run, Option.map_some, List.append_nil]))

theorem Writes.congr {p q : Prop} {text : String} {v : Json} (h : Writes p text v) (hpq : p ↔ q) :
    Writes q text v := fun c ts hc => (h c ts hc).congr hpq

theorem writes_number {text : String} {q : ℚ} (h : number? text.toList = some q) :
    Writes True text (.number q) := fun c ts hc => Spells.of_run (by
  generalize text.toList = cs at h
  cases cs with
  | nil => cases h
  | cons d ds =>
    obtain ⟨n, hn, h⟩ := Option.bind_eq_some_iff.mp h
    have hd : Lexer.step .start d = some ([], .numeral n) := Lexer.stepStart_of_first hn
    rw [List.cons_append, Lexer.run_cons hd, Lexer.run_numeral h hc.1 hc.2.2, tokens]
    rfl)

theorem writes_natRepr (n : ℕ) : Writes True n.repr (.number n) :=
  writes_number (number?_natRepr n)

theorem writes_intRepr (z : ℤ) : Writes True z.repr (.number z) :=
  writes_number (number?_intRepr z)

theorem writes_quoted (s : String) : Writes (Plain s) ("\"" ++ s ++ "\"") (.string s) := by
  refine Spells.writes ?_
  rw [String.toList_append, String.toList_append, List.append_assoc]
  exact spells_quoted s

/-- Up to the next delimiter the text is no value. -/
def Bad (text : String) : Prop := ∀ c ts, Delim c ts → Stops (text.toList ++ [c])

theorem Bad.writes {text : String} (h : Bad text) (v : Json) : Writes False text v :=
  fun c ts hc => (h c ts hc).spells

theorem Stops.bad {text : String} (h : Stops text.toList) : Bad text := fun c _ _ => h.append [c]

/-- A word that is none of JSON's. -/
theorem bad_word {text : String} {ls : List Char}
    (h : Lexer.run .start text.toList = some ([], .word ls)) (hw : Lexer.word? ls = none) :
    Bad text := fun c ts hc => by
  have hstep : Lexer.step (.word ls) c = none := by rw [Lexer.step, hc.2.1, hw]; rfl
  rw [Stops, Lexer.run_append h, Lexer.run, hstep]
  rfl

/-! ## Objects -/

/-- A member as it is written: its key, and a text that is its value under a proviso. -/
structure Member where
  key : String
  text : String
  value : Json
  proviso : Prop
  writes : Writes proviso text value

namespace Member

/-- The key and the value, with `ws` between them. -/
def render (ws : String) (m : Member) : String := "\"" ++ m.key ++ "\":" ++ ws ++ m.text

/-- The key stands as it is, and the value is written. -/
def Sound (m : Member) : Prop := Plain m.key ∧ m.proviso

/-- The key stands as it is, and a value that is not written is none. -/
def Decided (m : Member) : Prop := Plain m.key ∧ (¬m.proviso → Bad m.text)

def pair (m : Member) : String × Json := (m.key, m.value)

end Member

/-- The members of an object with `ws` after every comma and colon. -/
def membersText (ws : String) (ms : List Member) : String :=
  ("," ++ ws).intercalate (ms.map (Member.render ws))

theorem toList_render (ws : String) (m : Member) (c : Char) : (m.render ws).toList ++ [c] =
    ('"' :: (m.key.toList ++ ['"'])) ++ ([':'] ++ ws.toList ++ (m.text.toList ++ [c])) := by
  simp [Member.render]

theorem toList_membersText (ws : String) (m m' : Member) (ms : List Member) :
    (membersText ws (m :: m' :: ms)).toList ++ ['\x7d'] =
      (m.render ws).toList ++ [','] ++
        (ws.toList ++ ((membersText ws (m' :: ms)).toList ++ ['\x7d'])) := by
  simp [membersText, String.intercalate_cons_cons]

section Objects

variable {ws : String} (hws : Spells True ws.toList [])

include hws

theorem spells_member (m : Member) {c : Char} {ts : List Token} (hc : Delim c ts) :
    Spells m.Sound ((m.render ws).toList ++ [c])
      (.string m.key :: .colon :: (tokens m.value ++ ts)) := by
  have hcolon : Spells True [':'] [.colon] := Spells.of_run rfl
  rw [toList_render]
  exact (spells_quoted m.key).append ((hcolon.append_true hws).true_append (m.writes c ts hc))

theorem stops_member {m : Member} (hm : m.Decided) (hn : ¬m.proviso) {c : Char} {ts : List Token}
    (hc : Delim c ts) : Stops ((m.render ws).toList ++ [c]) := by
  have hcolon : Spells True [':'] [.colon] := Spells.of_run rfl
  rw [toList_render]
  exact ((spells_quoted m.key).congr (iff_true_intro hm.1)).stops_append
    ((hcolon.append_true hws).stops_append (hm.2 hn c ts hc))

theorem spells_members (m : Member) (ms : List Member) :
    Spells (∀ m' ∈ m :: ms, m'.Sound) ((membersText ws (m :: ms)).toList ++ ['\x7d'])
      (.string m.key :: .colon ::
        (tokens m.value ++ moreMembers (ms.map Member.pair) ++ [.closeObject])) := by
  induction ms generalizing m with
  | nil =>
    have := spells_member hws m delim_closeObject
    simpa [membersText, moreMembers] using this
  | cons m' ms ih =>
    have := (spells_member hws m delim_comma).append (hws.true_append (ih m'))
    rw [toList_membersText]
    refine Spells.congr ?_ (List.forall_mem_cons (p := Member.Sound)).symm
    simpa [moreMembers, Member.pair] using this

/-- **An object written member by member.** -/
theorem spells_object (ms : List Member) :
    Spells (∀ m ∈ ms, m.Sound) (r#"{"# ++ membersText ws ms ++ r#"}"#).toList
      (tokens (.object (ms.map Member.pair))) := by
  have hopen : Spells True ['\x7b'] [.openObject] := Spells.of_run rfl
  have hclose : Spells True ['\x7d'] [.closeObject] := Spells.of_run rfl
  rw [String.toList_append, String.toList_append, List.append_assoc]
  cases ms with
  | nil =>
    rw [List.map_nil, tokens]
    exact (hopen.append_true hclose).congr (by simp)
  | cons m ms =>
    rw [List.map_cons, Member.pair, tokens]
    exact hopen.true_append (spells_members hws m ms)

theorem stops_members (m : Member) (ms : List Member) (hms : ∀ m' ∈ m :: ms, m'.Decided)
    (hn : ¬∀ m' ∈ m :: ms, m'.proviso) : Stops ((membersText ws (m :: ms)).toList ++ ['\x7d']) := by
  induction ms generalizing m with
  | nil =>
    have := stops_member hws (hms m List.mem_cons_self) (by simpa using hn) delim_closeObject
    simpa [membersText] using this
  | cons m' ms ih =>
    rw [toList_membersText]
    by_cases hm : m.proviso
    · refine ((spells_member hws m delim_comma).congr
        (iff_true_intro ⟨(hms m List.mem_cons_self).1, hm⟩)).stops_append (hws.stops_append ?_)
      exact ih m' (fun x hx => hms x (List.mem_cons_of_mem m hx))
        fun h => hn (List.forall_mem_cons.mpr ⟨hm, h⟩)
    · exact (stops_member hws (hms m List.mem_cons_self) hm delim_comma).append _

/-- **An object with a member whose value is none.** -/
theorem stops_object {ms : List Member} (hms : ∀ m ∈ ms, m.Decided) (hn : ¬∀ m ∈ ms, m.proviso) :
    Stops (r#"{"# ++ membersText ws ms ++ r#"}"#).toList := by
  have hopen : Spells True ['\x7b'] [.openObject] := Spells.of_run rfl
  cases ms with
  | nil => exact absurd (fun _ h => absurd h List.not_mem_nil) hn
  | cons m ms =>
    rw [String.toList_append, String.toList_append, List.append_assoc]
    exact hopen.stops_append (stops_members hws m ms hms hn)

end Objects

theorem spells_empty : Spells True ("" : String).toList [] := Spells.nil

/-- The members of a document by the kind of their value. -/
def strMember (key s : String) : Member :=
  ⟨key, "\"" ++ s ++ "\"", .string s, Plain s, writes_quoted s⟩

def natMember (key : String) (n : ℕ) : Member := ⟨key, n.repr, .number n, True, writes_natRepr n⟩

def intMember (key : String) (z : ℤ) : Member := ⟨key, z.repr, .number z, True, writes_intRepr z⟩

def objectMember (key : String) (ms : List Member) : Member :=
  ⟨key, r#"{"# ++ membersText "" ms ++ r#"}"#, .object (ms.map Member.pair), ∀ m ∈ ms, m.Sound,
    (spells_object spells_empty ms).writes⟩

@[simp] theorem sound_strMember {key s : String} :
    (strMember key s).Sound ↔ Plain key ∧ Plain s := Iff.rfl

@[simp] theorem sound_natMember {key : String} {n : ℕ} :
    (natMember key n).Sound ↔ Plain key := and_iff_left trivial

@[simp] theorem sound_intMember {key : String} {z : ℤ} :
    (intMember key z).Sound ↔ Plain key := and_iff_left trivial

@[simp] theorem sound_objectMember {key : String} {ms : List Member} :
    (objectMember key ms).Sound ↔ Plain key ∧ ∀ m ∈ ms, m.Sound := Iff.rfl

/-! ## Lines -/

/-- Lines that are each so many whole tokens. -/
inductive SpellsLines : List String → List Token → Prop where
  | nil : SpellsLines [] []
  | cons {line : String} {lines : List String} {ts us : List Token} :
      Spells True line.toList ts → SpellsLines lines us → SpellsLines (line :: lines) (ts ++ us)

namespace SpellsLines

variable {lines lines' : List String} {ts ts' : List Token}

theorem append (h : SpellsLines lines ts) (h' : SpellsLines lines' ts') :
    SpellsLines (lines ++ lines') (ts ++ ts') := by
  induction h with
  | nil => exact h'
  | cons hl _ ih => rw [List.cons_append, List.append_assoc]; exact cons hl ih

theorem singleton {line : String} (h : Spells True line.toList ts) : SpellsLines [line] ts := by
  simpa using cons h nil

theorem ne_nil (h : SpellsLines lines ts) (hts : ts ≠ []) : lines ≠ [] := by
  rintro rfl
  cases h
  exact hts rfl

theorem push {text : String} (h : SpellsLines lines ts) (hne : lines ≠ [])
    (ht : Spells True text.toList ts') :
    SpellsLines (lines.dropLast ++ [lines.getLast hne ++ text]) (ts ++ ts') := by
  induction h with
  | nil => exact absurd rfl hne
  | @cons line lines ts us hl h ih =>
    cases lines with
    | nil =>
      cases h
      refine singleton ?_
      rw [List.getLast_singleton, String.toList_append, List.append_nil]
      exact hl.append_true ht
    | cons line' lines =>
      rw [List.dropLast_cons_cons, List.getLast_cons (List.cons_ne_nil _ _), List.cons_append,
        List.append_assoc]
      exact cons hl (ih _)

theorem indent {ws : String} (hws : Spells True ws.toList []) (h : SpellsLines lines ts) :
    SpellsLines (lines.map fun line => ws ++ line) ts := by
  induction h with
  | nil => exact nil
  | cons hl _ ih =>
    refine cons ?_ ih
    rw [String.toList_append]
    exact hws.true_append hl

theorem spells (h : SpellsLines lines ts) : Spells True ("\n".intercalate lines).toList ts := by
  induction h with
  | nil => exact Spells.nil
  | @cons line lines ts us hl h ih =>
    have hnl : Spells True ['\n'] [] := Spells.of_run rfl
    cases lines with
    | nil => cases h; simpa using hl
    | cons line' lines =>
      rw [String.intercalate_cons_cons, String.toList_append, String.toList_append,
        List.append_assoc]
      exact hl.append_true (hnl.true_append ih)

end SpellsLines

end Json
