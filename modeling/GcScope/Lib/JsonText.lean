import Mathlib.Data.Rat.Defs
import Mathlib.Tactic.IntervalCases
import GcScope.Lib.Json
import GcScope.Lib.ListFacts

/-!
# JSON documents as text

A machine takes the text one character at a time and puts out tokens. A numeral and a word end
where the next character does not carry on with them.

* `Json.number?`: the numerals of JSON and the numbers they denote.
* `Lexer.step`, `lex`, `parse`: the machine, the tokens of a text, and its document.
* **`number?_intRepr`**: an integer is written as a numeral that denotes it.
* `Plain`: the strings that stand between quotes as they are.
* **`Lexer.lexFrom_ne_of_not_plain`**: any other is read as something else, or not at all.
-/

set_option autoImplicit false

namespace Json

/-! ## Numerals -/

/-- A numeral read so far: its digits, how many stand after the point, and its exponent. -/
structure Numeral where
  negative : Bool
  digits : ℕ
  scale : ℕ
  expNegative : Bool
  exponent : ℕ

namespace Numeral

inductive Phase where
  | sign
  | zero
  | int
  | point
  | frac
  | exp
  | expSign
  | expDigits

def push (n : Numeral) (c : Char) : Numeral :=
  { n with digits := 10 * n.digits + (c.toNat - '0'.toNat) }

def pushFrac (n : Numeral) (c : Char) : Numeral := { n.push c with scale := n.scale + 1 }

def pushExp (n : Numeral) (c : Char) : Numeral :=
  { n with exponent := 10 * n.exponent + (c.toNat - '0'.toNat) }

/-- One more character. A leading zero takes no digit after it. -/
def step : Phase × Numeral → Char → Option (Phase × Numeral)
  | (.sign, n), c =>
    if c = '0' then some (.zero, n) else if c.isDigit then some (.int, n.push c) else none
  | (.zero, n), c =>
    if c = '.' then some (.point, n) else if c = 'e' ∨ c = 'E' then some (.exp, n) else none
  | (.int, n), c =>
    if c.isDigit then some (.int, n.push c) else if c = '.' then some (.point, n)
    else if c = 'e' ∨ c = 'E' then some (.exp, n) else none
  | (.point, n), c => if c.isDigit then some (.frac, n.pushFrac c) else none
  | (.frac, n), c =>
    if c.isDigit then some (.frac, n.pushFrac c)
    else if c = 'e' ∨ c = 'E' then some (.exp, n) else none
  | (.exp, n), c =>
    if c = '+' then some (.expSign, n)
    else if c = '-' then some (.expSign, { n with expNegative := true })
    else if c.isDigit then some (.expDigits, n.pushExp c) else none
  | (.expSign, n), c | (.expDigits, n), c =>
    if c.isDigit then some (.expDigits, n.pushExp c) else none

/-- The first character. -/
def first (c : Char) : Option (Phase × Numeral) :=
  if c = '-' then some (.sign, ⟨true, 0, 0, false, 0⟩) else step (.sign, ⟨false, 0, 0, false, 0⟩) c

def value (n : Numeral) : ℚ :=
  let m := (n.digits : ℚ) / 10 ^ n.scale
  let m := if n.expNegative then m / 10 ^ n.exponent else m * 10 ^ n.exponent
  if n.negative then -m else m

/-- The number, where the numeral may end here. -/
def close : Phase × Numeral → Option ℚ
  | (.zero, n) | (.int, n) | (.frac, n) | (.expDigits, n) => some n.value
  | _ => none

/-- The characters that carry on no numeral that may end. -/
def Ends (c : Char) : Prop := c.isDigit = false ∧ c ≠ '.' ∧ c ≠ 'e' ∧ c ≠ 'E'

instance (c : Char) : Decidable (Ends c) := by unfold Ends; infer_instance

theorem step_eq_none {s : Phase × Numeral} {q : ℚ} (hs : close s = some q) {c : Char}
    (hc : Ends c) : step s c = none := by
  obtain ⟨phase, n⟩ := s
  obtain ⟨hd, hp, he, hE⟩ := hc
  cases phase <;> simp [close, step, hd, hp, he, hE] at hs ⊢

end Numeral

/-- The number a numeral of JSON denotes. -/
def number? : List Char → Option ℚ
  | [] => none
  | c :: cs => (Numeral.first c).bind fun s => (cs.foldlM Numeral.step s).bind Numeral.close

namespace Numeral

theorem foldlM_step_digits {ds : List Char} (h : ∀ c ∈ ds, c.isDigit = true) (n : Numeral) :
    ds.foldlM step (Phase.int, n) =
      some (Phase.int, { n with digits := Nat.ofDigitChars 10 ds n.digits }) := by
  induction ds generalizing n with
  | nil => rfl
  | cons d ds ih =>
    have hd : step (.int, n) d = some (.int, n.push d) := by
      rw [step, if_pos (h d List.mem_cons_self)]
    rw [List.foldlM_cons, hd]
    refine (ih (fun c hc => h c (List.mem_cons_of_mem d hc)) (n.push d)).trans ?_
    rw [Nat.ofDigitChars_cons]
    rfl

theorem exists_toDigits_eq_cons {n : ℕ} (hn : 0 < n) :
    ∃ d ds, Nat.toDigits 10 n = d :: ds ∧ d ≠ '0' := by
  induction n using Nat.strong_induction_on with
  | _ n ih =>
    rcases Nat.lt_or_ge n 10 with h | h
    · refine ⟨n.digitChar, [], Nat.toDigits_of_lt_base h, ?_⟩
      interval_cases n <;> decide
    · obtain ⟨d, ds, he, hd⟩ := ih (n / 10) (by omega) (by omega)
      exact ⟨d, ds ++ [(n % 10).digitChar], by rw [Nat.toDigits_of_base_le (by omega) h, he]; rfl, hd⟩

theorem close_digits (negative : Bool) (n : ℕ) :
    (((Nat.toDigits 10 n).foldlM step (Phase.sign, ⟨negative, 0, 0, false, 0⟩)).bind close) =
      some (if negative then -(n : ℚ) else n) := by
  rcases Nat.eq_zero_or_pos n with rfl | hn
  · rw [Nat.toDigits_zero]
    cases negative <;> simp [step, close, value]
  · obtain ⟨d, ds, he, hd⟩ := exists_toDigits_eq_cons hn
    have hdig : ∀ c ∈ d :: ds, c.isDigit = true := fun c hc =>
      Nat.isDigit_of_mem_toDigits (by decide) (by decide) (he ▸ hc)
    have hfirst : step (Phase.sign, ⟨negative, 0, 0, false, 0⟩) d =
        some (.int, Numeral.push ⟨negative, 0, 0, false, 0⟩ d) := by
      rw [step, if_neg hd, if_pos (hdig d List.mem_cons_self)]
    have hn : Nat.ofDigitChars 10 ds (Numeral.push ⟨negative, 0, 0, false, 0⟩ d).digits = n := by
      have := Nat.ofDigitChars_ten_toDigits (n := n)
      rwa [he, Nat.ofDigitChars_cons] at this
    rw [he, List.foldlM_cons, hfirst]
    refine (congrArg (fun s => Option.bind s close)
      (foldlM_step_digits (fun c hc => hdig c (List.mem_cons_of_mem d hc)) _)).trans ?_
    rw [hn]
    simp [close, value, push]

end Numeral

/-- **A natural number is written as a numeral that denotes it.** -/
theorem number?_natRepr (n : ℕ) : number? n.repr.toList = some (n : ℚ) := by
  have hdigits := Numeral.close_digits false n
  rw [Nat.toList_repr]
  cases hd : Nat.toDigits 10 n with
  | nil => exact absurd hd Nat.toDigits_ne_nil
  | cons d ds =>
    have hne : d ≠ '-' := fun h => by
      have := Nat.isDigit_of_mem_toDigits (b := 10) (n := n) (c := d) (by decide) (by decide)
        (hd ▸ List.mem_cons_self)
      rw [h] at this
      exact absurd this (by decide)
    rw [hd, List.foldlM_cons] at hdigits
    rw [number?, Numeral.first, if_neg hne]
    exact (Option.bind_assoc _ _ _).symm.trans hdigits

/-- **An integer is written as a numeral that denotes it.** -/
theorem number?_intRepr (z : ℤ) : number? z.repr.toList = some (z : ℚ) := by
  cases z with
  | ofNat n => exact number?_natRepr n
  | negSucc n =>
    have hdigits := Numeral.close_digits true (n + 1)
    rw [Int.repr, Nat.succ_eq_add_one, String.toList_append, Nat.toList_repr]
    refine Eq.trans ?_ (hdigits.trans ?_)
    · rfl
    · simp [Int.negSucc_eq]

/-! ## Strings -/

def isHigh (u : ℕ) : Bool := decide (0xD800 ≤ u ∧ u < 0xDC00)

def isLow (u : ℕ) : Bool := decide (0xDC00 ≤ u ∧ u < 0xE000)

/-- One code point. A surrogate without its other half reads as the replacement character. -/
def ofUnit (u : ℕ) : Char := if u.isValidChar then Char.ofNat u else '\uFFFD'

/-- The characters of the code points between two quotes: two halves of a surrogate pair are one. -/
def ofUnits : List ℕ → List Char
  | [] => []
  | [u] => [ofUnit u]
  | u :: v :: us =>
    if isHigh u && isLow v then
      ofUnit (0x10000 + (u - 0xD800) * 0x400 + (v - 0xDC00)) :: ofUnits us
    else ofUnit u :: ofUnits (v :: us)

theorem ofUnits_cons {u : ℕ} (h : isHigh u = false) (us : List ℕ) :
    ofUnits (u :: us) = ofUnit u :: ofUnits us := by
  cases us with
  | nil => rfl
  | cons v us => rw [ofUnits, h]; rfl

theorem isHigh_toNat (c : Char) : isHigh c.toNat = false := by
  have := c.valid
  simp only [isHigh, UInt32.isValidChar, Nat.isValidChar] at *
  have : c.toNat = c.val.toNat := rfl
  grind

theorem isLow_toNat (c : Char) : isLow c.toNat = false := by
  have := c.valid
  simp only [isLow, UInt32.isValidChar, Nat.isValidChar] at *
  have : c.toNat = c.val.toNat := rfl
  grind

theorem ofUnit_toNat (c : Char) : ofUnit c.toNat = c := by
  rw [ofUnit, if_pos (show c.toNat.isValidChar from c.valid), Char.ofNat_toNat]

@[simp] theorem ofUnits_map_toNat_append (cs : List Char) (us : List ℕ) :
    ofUnits (cs.map Char.toNat ++ us) = cs ++ ofUnits us := by
  induction cs with
  | nil => rfl
  | cons c cs ih =>
    rw [List.map_cons, List.cons_append, ofUnits_cons (isHigh_toNat c), ih, ofUnit_toNat]; rfl

theorem length_ofUnits_le (us : List ℕ) : (ofUnits us).length ≤ us.length := by
  fun_induction ofUnits us with
  | case1 => rfl
  | case2 u => rfl
  | case3 u v us h ih => simp; omega
  | case4 u v us h ih => simpa using ih

/-- A character that is no half of a pair stands for itself wherever it stands. -/
theorem ofUnits_append_toNat (us vs : List ℕ) (c : Char) :
    ofUnits (us ++ c.toNat :: vs) = ofUnits us ++ c :: ofUnits vs := by
  fun_induction ofUnits us with
  | case1 => rw [List.nil_append, ofUnits_cons (isHigh_toNat c), ofUnit_toNat]; rfl
  | case2 u =>
    rw [List.singleton_append, ofUnits, isLow_toNat, Bool.and_false, ofUnits_cons (isHigh_toNat c),
      ofUnit_toNat]
    rfl
  | case3 u v us h ih => rw [List.cons_append, List.cons_append, ofUnits, if_pos h, ih]; rfl
  | case4 u v us h ih =>
    rw [List.cons_append, List.cons_append, ofUnits, if_neg h, ← List.cons_append, ih]; rfl

/-! ## The lexer -/

namespace Lexer

inductive State where
  | start
  /-- Between quotes, with the code points so far. -/
  | string (units : List ℕ)
  | escape (units : List ℕ)
  /-- In a `\u` escape, with its value so far and how many digits are left. -/
  | hex (units : List ℕ) (value left : ℕ)
  | numeral (n : Numeral.Phase × Numeral)
  | word (letters : List Char)

def hexDigit? (c : Char) : Option ℕ :=
  if c.isDigit then some (c.toNat - '0'.toNat)
  else if 'a' ≤ c ∧ c ≤ 'f' then some (10 + (c.toNat - 'a'.toNat))
  else if 'A' ≤ c ∧ c ≤ 'F' then some (10 + (c.toNat - 'A'.toNat))
  else none

/-- The character a backslash and one more stand for. -/
def unescape : Char → Option Char
  | '"' => some '"'
  | '\\' => some '\\'
  | '/' => some '/'
  | 'b' => some '\x08'
  | 'f' => some '\x0c'
  | 'n' => some '\n'
  | 'r' => some '\r'
  | 't' => some '\t'
  | _ => none

def word? : List Char → Option Token
  | ['t', 'r', 'u', 'e'] => some (.bool true)
  | ['f', 'a', 'l', 's', 'e'] => some (.bool false)
  | ['n', 'u', 'l', 'l'] => some .null
  | _ => none

/-- A character between two tokens. -/
def stepStart (c : Char) : Option (List Token × State) :=
  match c with
  | ' ' | '\t' | '\n' | '\r' => some ([], .start)
  | '\x7b' => some ([.openObject], .start)
  | '\x7d' => some ([.closeObject], .start)
  | '[' => some ([.openArray], .start)
  | ']' => some ([.closeArray], .start)
  | ',' => some ([.comma], .start)
  | ':' => some ([.colon], .start)
  | '"' => some ([], .string [])
  | c => if c.isAlpha then some ([], .word [c]) else (Numeral.first c).map fun n => ([], .numeral n)

/-- One character. -/
def step : State → Char → Option (List Token × State)
  | .start, c => stepStart c
  | .string us, c =>
    if c = '"' then some ([.string (String.ofList (ofUnits us))], .start)
    else if c = '\\' then some ([], .escape us)
    else if c < ' ' then none
    else some ([], .string (us ++ [c.toNat]))
  | .escape us, c =>
    if c = 'u' then some ([], .hex us 0 4)
    else (unescape c).map fun c => ([], .string (us ++ [c.toNat]))
  | .hex us value left, c =>
    (hexDigit? c).map fun d =>
      if left ≤ 1 then ([], .string (us ++ [16 * value + d]))
      else ([], .hex us (16 * value + d) (left - 1))
  | .numeral n, c =>
    match Numeral.step n c with
    | some n => some ([], .numeral n)
    | none => (Numeral.close n).bind fun q => (stepStart c).map fun r => (.number q :: r.1, r.2)
  | .word ls, c =>
    if c.isAlpha then some ([], .word (ls ++ [c]))
    else (word? ls).bind fun t => (stepStart c).map fun r => (t :: r.1, r.2)

/-- The token still open at the end of the text. -/
def finish : State → Option (List Token)
  | .start => some []
  | .numeral n => (Numeral.close n).map fun q => [.number q]
  | .word ls => (word? ls).map fun t => [t]
  | _ => none

/-- The tokens of the rest of a text. -/
def lexFrom : State → List Char → Option (List Token)
  | s, [] => finish s
  | s, c :: cs => (step s c).bind fun r => (lexFrom r.2 cs).map fun ts => r.1 ++ ts

/-- The tokens of a piece of text, and the state it leaves. -/
def run : State → List Char → Option (List Token × State)
  | s, [] => some ([], s)
  | s, c :: cs => (step s c).bind fun r => (run r.2 cs).map fun r' => (r.1 ++ r'.1, r'.2)

theorem lexFrom_cons {s s' : State} {c : Char} {ts : List Token} (h : step s c = some (ts, s'))
    (cs : List Char) : lexFrom s (c :: cs) = (lexFrom s' cs).map fun us => ts ++ us := by
  rw [lexFrom, h]; rfl

theorem lexFrom_cons_of_none {s : State} {c : Char} (h : step s c = none) (cs : List Char) :
    lexFrom s (c :: cs) = none := by
  rw [lexFrom, h]; rfl

theorem run_cons {s s' : State} {c : Char} {ts : List Token} (h : step s c = some (ts, s'))
    (cs : List Char) : run s (c :: cs) = (run s' cs).map fun r => (ts ++ r.1, r.2) := by
  rw [run, h]; rfl

theorem run_append {s s' : State} {cs : List Char} {ts : List Token}
    (h : run s cs = some (ts, s')) (rest : List Char) :
    run s (cs ++ rest) = (run s' rest).map fun r => (ts ++ r.1, r.2) := by
  induction cs generalizing s ts with
  | nil =>
    cases h
    simp
  | cons c cs ih =>
    obtain ⟨⟨ts₁, s₁⟩, h₁, h⟩ := Option.bind_eq_some_iff.mp h
    obtain ⟨⟨ts₂, s₂⟩, h₂, h⟩ := Option.map_eq_some_iff.mp h
    cases h
    rw [List.cons_append, run_cons h₁, ih h₂, Option.map_map]
    congr 1
    funext r
    exact congrArg (fun ts => (ts, r.2)) (List.append_assoc ts₁ ts₂ r.1).symm

theorem run_append_of_none {s : State} {cs : List Char} (h : run s cs = none)
    (rest : List Char) : run s (cs ++ rest) = none := by
  induction cs generalizing s with
  | nil => cases h
  | cons c cs ih =>
    rw [List.cons_append, run]
    cases hs : step s c with
    | none => rfl
    | some r =>
      rw [run, hs] at h
      rw [Option.bind_some, ih (Option.map_eq_none_iff.mp h)]
      rfl

theorem lexFrom_append {s s' : State} {cs : List Char} {ts : List Token}
    (h : run s cs = some (ts, s')) (rest : List Char) :
    lexFrom s (cs ++ rest) = (lexFrom s' rest).map fun us => ts ++ us := by
  induction cs generalizing s ts with
  | nil =>
    cases h
    simp
  | cons c cs ih =>
    obtain ⟨⟨ts₁, s₁⟩, h₁, h⟩ := Option.bind_eq_some_iff.mp h
    obtain ⟨⟨ts₂, s₂⟩, h₂, h⟩ := Option.map_eq_some_iff.mp h
    cases h
    rw [List.cons_append, lexFrom_cons h₁, ih h₂, Option.map_map]
    congr 1
    funext us
    exact (List.append_assoc ts₁ ts₂ us).symm

theorem lexFrom_append_of_none {s : State} {cs : List Char} (h : run s cs = none)
    (rest : List Char) : lexFrom s (cs ++ rest) = none := by
  induction cs generalizing s with
  | nil => cases h
  | cons c cs ih =>
    rw [List.cons_append, lexFrom]
    cases hs : step s c with
    | none => rfl
    | some r =>
      rw [run, hs] at h
      rw [Option.bind_some, ih (Option.map_eq_none_iff.mp h)]
      rfl

end Lexer

/-- The tokens of a text. -/
def lex (text : List Char) : Option (List Token) := Lexer.lexFrom .start text

/-- The document of a text. -/
def parse (text : List Char) : Option Json := (lex text).bind read

theorem parse_eq_some_iff {text : List Char} {v : Json} :
    parse text = some v ↔ lex text = some (tokens v) := by
  rw [parse, Option.bind_eq_some_iff]
  constructor
  · rintro ⟨ts, hts, h⟩
    rw [hts, read_eq_some_iff.mp h]
  · exact fun h => ⟨_, h, read_tokens v⟩

/-! ## How a numeral is read -/

namespace Lexer

theorem stepStart_of_first {c : Char} {s : Numeral.Phase × Numeral}
    (h : Numeral.first c = some s) : stepStart c = some ([], .numeral s) := by
  have halpha : c.isAlpha = false := by
    by_cases hm : c = '-'
    · rw [hm]; rfl
    · have hd : c.isDigit = true := by
        rw [Numeral.first, if_neg hm, Numeral.step] at h
        by_cases hz : c = '0'
        · rw [hz]; rfl
        · by_contra hd
          rw [if_neg hz, if_neg hd] at h
          cases h
      delta Char.isDigit at hd
      delta Char.isAlpha Char.isUpper Char.isLower
      grind
  unfold stepStart
  split
  case h_12 => rw [halpha, h]; rfl
  all_goals cases (show none = some s from h)

/-- A numeral goes on to the first character that ends it. -/
theorem run_numeral {n : Numeral.Phase × Numeral} {ds : List Char} {q : ℚ}
    (h : (ds.foldlM Numeral.step n).bind Numeral.close = some q) {c : Char} (hc : Numeral.Ends c)
    {ts : List Token} (ht : stepStart c = some (ts, .start)) :
    run (.numeral n) (ds ++ [c]) = some (.number q :: ts, .start) := by
  induction ds generalizing n with
  | nil =>
    have hq : Numeral.close n = some q := h
    have hstep : step (.numeral n) c = some (.number q :: ts, .start) := by
      rw [step, Numeral.step_eq_none hq hc, hq, ht]
      rfl
    rw [List.nil_append, run_cons hstep, run, Option.map_some, List.append_nil]
  | cons d ds ih =>
    rw [List.foldlM_cons] at h
    cases hd : Numeral.step n d with
    | none => rw [hd] at h; cases h
    | some n' =>
      rw [hd] at h
      have hstep : step (.numeral n) d = some ([], .numeral n') := by rw [step, hd]
      rw [List.cons_append, run_cons hstep, ih h]
      rfl

end Lexer

/-! ## How a string is read -/

/-- A character that stands for itself between quotes. -/
def PlainChar (c : Char) : Prop := c ≠ '"' ∧ c ≠ '\\' ∧ ¬c < ' '

instance (c : Char) : Decidable (PlainChar c) := by unfold PlainChar; infer_instance

/-- A string that stands between quotes as it is. -/
def Plain (s : String) : Prop := ∀ c ∈ s.toList, PlainChar c

instance (s : String) : Decidable (Plain s) :=
  -- goes through the string, not through every character there is
  List.decidableBAll PlainChar s.toList

theorem plain_append {s t : String} (hs : Plain s) (ht : Plain t) : Plain (s ++ t) := fun c hc =>
  (List.mem_append.mp (String.toList_append ▸ hc)).elim (hs c) (ht c)

theorem plain_natRepr (n : ℕ) : Plain n.repr := fun c hc => by
  rw [Nat.toList_repr] at hc
  have hd := Nat.isDigit_of_mem_toDigits (by decide) (by decide) hc
  have hle : '0' ≤ c := (by simpa [Char.isDigit] using hd : 48 ≤ c.val ∧ c.val ≤ 57).1
  exact ⟨fun h => absurd (h ▸ hd) (by decide), fun h => absurd (h ▸ hd) (by decide),
    Char.not_lt.mpr (Char.le_trans (show ' ' ≤ '0' by decide) hle)⟩

theorem plain_intRepr (z : ℤ) : Plain z.repr := by
  cases z with
  | ofNat n => exact plain_natRepr n
  | negSucc n => exact plain_append (s := "-") (by decide) (plain_natRepr _)

namespace Lexer

/-- The code points since the opening quote. -/
def State.units? : State → Option (List ℕ)
  | .string us | .escape us | .hex us _ _ => some us
  | _ => none

theorem run_plain {cs : List Char} (h : ∀ c ∈ cs, PlainChar c) (us : List ℕ) :
    run (.string us) cs = some ([], .string (us ++ cs.map Char.toNat)) := by
  induction cs generalizing us with
  | nil => rw [List.map_nil, List.append_nil, run]
  | cons c cs ih =>
    obtain ⟨hq, hb, hc⟩ := h c List.mem_cons_self
    have hstep : step (.string us) c = some ([], .string (us ++ [c.toNat])) := by
      rw [step, if_neg hq, if_neg hb, if_neg hc]
    rw [run_cons hstep, ih fun c hc => h c (List.mem_cons_of_mem _ hc)]
    simp

theorem lexFrom_quote (us : List ℕ) (rest : List Char) : lexFrom (.string us) ('"' :: rest) =
    (lexFrom .start rest).map fun ts => .string (String.ofList (ofUnits us)) :: ts :=
  lexFrom_cons (show step (.string us) '"' = some ([_], .start) from rfl) rest

/-- How far it is to the first quote. -/
def toQuote (cs : List Char) : ℕ := (cs.takeWhile (· ≠ '"')).length

theorem toQuote_cons_of_ne {c : Char} (h : c ≠ '"') (cs : List Char) :
    toQuote (c :: cs) = toQuote cs + 1 := by
  simp [toQuote, h]

theorem toQuote_append_le (cs rest : List Char) : toQuote (cs ++ '"' :: rest) ≤ cs.length := by
  induction cs with
  | nil => simp [toQuote]
  | cons c cs ih =>
    by_cases h : c = '"'
    · simp [toQuote, h]
    · rw [List.cons_append, toQuote_cons_of_ne h, List.length_cons]
      omega

/-- The code points end by `n`, or have a quote by then. -/
def EndsBy (n : ℕ) (us : List ℕ) : Prop := us.length ≤ n ∨ '"'.toNat ∈ us.take (n + 1)

theorem EndsBy.succ {n : ℕ} {us : List ℕ} (h : EndsBy n us) : EndsBy (n + 1) us :=
  h.imp Nat.le_succ_of_le fun h => List.take_subset_take_left us (Nat.le_succ _) h

theorem EndsBy.cons {n : ℕ} {us : List ℕ} (h : EndsBy n us) (u : ℕ) : EndsBy (n + 1) (u :: us) :=
  h.imp Nat.succ_le_succ fun h => List.mem_cons_of_mem u h

/-- A string that is put out has ended by the first quote, or has it as a character. -/
theorem lexFrom_units {s : State} {us : List ℕ} (hs : s.units? = some us) {cs : List Char}
    {ts : List Token} (h : lexFrom s cs = some ts) :
    ∃ vs ts', ts = .string (String.ofList (ofUnits (us ++ vs))) :: ts' ∧ EndsBy (toQuote cs) vs := by
  induction cs generalizing s us ts with
  | nil => cases s <;> first | cases hs; done | cases (show none = some ts from h)
  | cons c cs ih =>
    obtain ⟨⟨ts₁, s₁⟩, hstep, hmap⟩ := Option.bind_eq_some_iff.mp h
    obtain ⟨ts₂, hrest, rfl⟩ := Option.map_eq_some_iff.mp hmap
    clear h hmap
    cases s with
    | start | numeral | word => cases hs
    | string us' =>
      obtain rfl := Option.some.inj hs
      by_cases hq : c = '"'
      · rw [step, if_pos hq] at hstep
        cases hstep
        exact ⟨[], ts₂, by rw [List.append_nil]; rfl, Or.inl (Nat.zero_le _)⟩
      · rw [toQuote_cons_of_ne hq]
        rw [step, if_neg hq] at hstep
        split_ifs at hstep
        · cases hstep
          obtain ⟨vs, ts', rfl, h⟩ := ih rfl hrest
          exact ⟨vs, ts', rfl, h.succ⟩
        · cases hstep
          obtain ⟨vs, ts', rfl, h⟩ := ih rfl hrest
          exact ⟨c.toNat :: vs, ts', by simp, h.cons _⟩
    | escape us' =>
      obtain rfl := Option.some.inj hs
      rw [step] at hstep
      split_ifs at hstep with hu
      · cases hstep
        obtain ⟨vs, ts', rfl, h⟩ := ih rfl hrest
        rw [toQuote_cons_of_ne (by rw [hu]; decide)]
        exact ⟨vs, ts', rfl, h.succ⟩
      · obtain ⟨d, hd, hstep⟩ := Option.map_eq_some_iff.mp hstep
        cases hstep
        obtain ⟨vs, ts', rfl, h⟩ := ih rfl hrest
        refine ⟨d.toNat :: vs, ts', by simp, ?_⟩
        by_cases hq : c = '"'
        -- an escaped quote is a character of the string, and the first quote of the text
        · rw [hq] at hd
          cases hd
          exact Or.inr List.mem_cons_self
        · rw [toQuote_cons_of_ne hq]
          exact h.cons _
    | hex us' value left =>
      obtain rfl := Option.some.inj hs
      obtain ⟨d, hd, hstep⟩ := Option.map_eq_some_iff.mp hstep
      rw [toQuote_cons_of_ne (by rintro rfl; cases hd)]
      split_ifs at hstep
      · cases hstep
        obtain ⟨vs, ts', rfl, h⟩ := ih rfl hrest
        exact ⟨(16 * value + d) :: vs, ts', by simp, h.cons _⟩
      · cases hstep
        obtain ⟨vs, ts', rfl, h⟩ := ih rfl hrest
        exact ⟨vs, ts', rfl, h.succ⟩

/-- A string read from a backslash on does not start with that backslash and go on as the text. -/
theorem ofUnits_ne_of_endsBy {cs rest : List Char} {us : List ℕ}
    (h : EndsBy (toQuote (cs ++ '"' :: rest)) us) : ofUnits us ≠ '\\' :: cs := by
  intro he
  rcases h with h | h
  · have h₁ := length_ofUnits_le us
    have h₂ := toQuote_append_le cs rest
    rw [he, List.length_cons] at h₁
    omega
  · obtain ⟨before, after, hu⟩ := List.append_of_mem h
    have hlen : before.length ≤ toQuote (cs ++ '"' :: rest) := by
      have := congrArg List.length hu
      rw [List.length_append, List.length_cons] at this
      have := List.length_take_le (toQuote (cs ++ '"' :: rest) + 1) us
      omega
    rw [← List.take_append_drop (toQuote (cs ++ '"' :: rest) + 1) us, hu, List.append_assoc,
      List.cons_append, ofUnits_append_toNat] at he
    have hle := length_ofUnits_le before
    cases hb : ofUnits before with
    | nil => rw [hb] at he; cases he
    | cons b bs =>
      rw [hb, List.cons_append] at he
      obtain ⟨-, hcs⟩ := List.cons.inj he
      have := toQuote_append_le bs (ofUnits (after ++ us.drop (toQuote (cs ++ '"' :: rest) + 1)) ++
        '"' :: rest)
      rw [hb, List.length_cons] at hle
      rw [← List.cons_append, ← List.append_assoc, hcs] at this
      omega

end Lexer

theorem Lexer.lexFrom_ne_of_not_plain {s : String} (hs : ¬Plain s) (rest : List Char)
    (ts : List Token) : lexFrom (.string []) (s.toList ++ '"' :: rest) ≠ some (.string s :: ts) := by
  obtain ⟨before, c, after, hsplit, hb, hc⟩ := ListFacts.exists_first (P := (¬PlainChar ·))
    (by simpa [Plain] using hs)
  have hb : ∀ d ∈ before, PlainChar d := fun d hd => not_not.mp (hb d hd)
  have hread : ∀ {us : List ℕ} {ts' : List Token},
      Token.string (String.ofList (ofUnits (before.map Char.toNat ++ us))) :: ts' = .string s :: ts →
        ofUnits us = c :: after := fun he => by
    have := congrArg String.toList (Token.string.inj (List.cons.inj he).1)
    rw [String.toList_ofList, ofUnits_map_toNat_append, hsplit] at this
    exact List.append_cancel_left this
  have hplain : lexFrom (.string []) (s.toList ++ '"' :: rest) =
      lexFrom (.string (before.map Char.toNat)) (c :: (after ++ '"' :: rest)) := by
    rw [hsplit, List.append_assoc, lexFrom_append (run_plain hb [])]
    exact Option.map_id'
  rw [hplain]
  intro h
  by_cases hq : c = '"'
  · rw [hq, lexFrom_quote, ← List.append_nil (before.map _)] at h
    obtain ⟨ts', -, he⟩ := Option.map_eq_some_iff.mp h
    cases hread he
  by_cases hbs : c = '\\'
  · have hstep : step (.string (before.map Char.toNat)) c =
        some ([], .escape (before.map Char.toNat)) := by rw [step, if_neg hq, if_pos hbs]
    rw [lexFrom_cons hstep] at h
    obtain ⟨ts', hrest, he⟩ := Option.map_eq_some_iff.mp h
    obtain ⟨us, ts'', rfl, hends⟩ := lexFrom_units (s := .escape (before.map Char.toNat)) rfl hrest
    exact ofUnits_ne_of_endsBy hends (hbs ▸ hread he)
  · have hstep : step (.string (before.map Char.toNat)) c = none := by
      rw [step, if_neg hq, if_neg hbs, if_pos (by_contra fun hlt => hc ⟨hq, hbs, hlt⟩)]
    rw [lexFrom_cons_of_none hstep] at h
    cases h

end Json
