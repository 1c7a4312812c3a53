import GcScope.RemoteDebugging.Registry

/-!
# Versions as text

A version is written `major.minor.micro`, followed for a pre-release by its level and serial. The
parser goes over the characters once and keeps every number in a byte.

* `parseDigits`, `parseExact`: the parser.
* `Numeral`, `Suffix`, `Denotes`: the grammar it is to accept.
* `parseDigits_eq_some_iff`: a number is read to its last digit or not at all.
* **`parseExact_eq_some_iff`**: the parser reads exactly the texts of the grammar.
* `PythonVersion.display`, **`PythonVersion.denotes_display`**: what is written can be read.
-/

set_option autoImplicit false

namespace GcScope

/-! ## The parser -/

/-- A number kept in a byte. -/
def checkedU8 (n : ℕ) : Option ℕ := if n < 256 then some n else none

/-- Read digits on from a number, as far as they go; `started` says whether there was one. -/
def parseDigitsFrom : ℕ → Bool → List Char → Option (ℕ × List Char)
  | n, started, [] => if started then some (n, []) else none
  | n, started, c :: cs =>
    if !c.isDigit then if started then some (n, c :: cs) else none
    else
      match (checkedU8 (n * 10)).bind fun m => checkedU8 (m + (c.toNat - '0'.toNat)) with
      | none => none
      | some m => parseDigitsFrom m true cs

def parseDigits (cs : List Char) : Option (ℕ × List Char) := parseDigitsFrom 0 false cs

/-- The next character has to be `c`. -/
def expect (c : Char) : List Char → Option (List Char)
  | [] => none
  | d :: cs => if d = c then some cs else none

/-- The level and serial that follow the numbers. -/
def parseSuffix : List Char → Option ((BitVec 8 × ℕ) × List Char)
  | 'a' :: cs => (parseDigits cs).map fun r => ((0xA, r.1), r.2)
  | 'b' :: cs => (parseDigits cs).map fun r => ((0xB, r.1), r.2)
  | 'r' :: cs => (expect 'c' cs).bind fun cs => (parseDigits cs).map fun r => ((0xC, r.1), r.2)
  | cs => some ((0xF, 0), cs)

/-- Read a version that is the whole text. -/
def parseExact (s : List Char) : Option PythonVersion := do
  let (major, s) ← parseDigits s
  let s ← expect '.' s
  let (minor, s) ← parseDigits s
  let s ← expect '.' s
  let (micro, s) ← parseDigits s
  let ((releaseLevel, serial), s) ← parseSuffix s
  if s ≠ [] ∨ 0xF < serial then none
  else some {
    major := BitVec.ofNat 8 major
    minor := BitVec.ofNat 8 minor
    micro := BitVec.ofNat 8 micro
    releaseLevel
    serial := BitVec.ofNat 8 serial }

/-- A version as it is shown. -/
def PythonVersion.display (v : PythonVersion) : String :=
  toString v.major.toNat ++ "." ++ toString v.minor.toNat ++ "." ++ toString v.micro.toNat ++
    if v.releaseLevel = 0xF then ""
    else if v.releaseLevel = 0xA then "a" ++ toString v.serial.toNat
    else if v.releaseLevel = 0xB then "b" ++ toString v.serial.toNat
    else if v.releaseLevel = 0xC then "rc" ++ toString v.serial.toNat
    else "-" ++ String.ofList (Nat.toDigits 16 v.releaseLevel.toNat) ++ toString v.serial.toNat

/-! ## The grammar -/

/-- A text of digits that denotes `n`. -/
structure Numeral (ds : List Char) (n : ℕ) : Prop where
  nonempty : ds ≠ []
  digits : ∀ c ∈ ds, c.isDigit = true
  value : Nat.ofDigitChars 10 ds 0 = n

/-- What may follow the numbers: a level and a serial. -/
inductive Suffix : List Char → BitVec 8 → ℕ → Prop where
  | final : Suffix [] 0xF 0
  | alpha {ds : List Char} {n : ℕ} (h : Numeral ds n) : Suffix ('a' :: ds) 0xA n
  | beta {ds : List Char} {n : ℕ} (h : Numeral ds n) : Suffix ('b' :: ds) 0xB n
  | candidate {ds : List Char} {n : ℕ} (h : Numeral ds n) : Suffix ('r' :: 'c' :: ds) 0xC n

/-- The text is `major.minor.micro` and a suffix, and denotes the version. -/
structure Denotes (text : List Char) (v : PythonVersion) : Prop where
  parts : ∃ major minor micro suffix, text = major ++ '.' :: (minor ++ '.' :: (micro ++ suffix)) ∧
    Numeral major v.major.toNat ∧ Numeral minor v.minor.toNat ∧ Numeral micro v.micro.toNat ∧
    Suffix suffix v.releaseLevel v.serial.toNat
  serial : v.serial.toNat ≤ 0xF

/-- The text does not go on with a digit. -/
def NoDigit (cs : List Char) : Prop := ∀ c ∈ cs.head?, c.isDigit = false

theorem Suffix.noDigit {cs : List Char} {level : BitVec 8} {n : ℕ} (h : Suffix cs level n) :
    NoDigit cs := by
  intro c hc
  cases h with
  | final => cases hc
  | alpha | beta | candidate =>
    obtain rfl := Option.some.inj hc
    rfl

/-! ## Numbers -/

theorem le_ofDigitChars (ds : List Char) (n : ℕ) : n ≤ Nat.ofDigitChars 10 ds n := by
  induction ds generalizing n with
  | nil => rw [Nat.ofDigitChars_nil]
  | cons c ds ih =>
    rw [Nat.ofDigitChars_cons]
    exact le_trans (by omega) (ih _)

theorem push_eq (n d : ℕ) : ((checkedU8 (n * 10)).bind fun m => checkedU8 (m + d)) =
    checkedU8 (10 * n + d) := by
  unfold checkedU8
  rw [mul_comm n 10]
  split_ifs with h h'
  · exact if_pos h'
  · exact if_neg h'
  · omega
  · rfl

theorem NoDigit.eq_nil {cs ds rest : List Char} (h : NoDigit cs)
    (hds : ∀ c ∈ ds, c.isDigit = true) (he : cs = ds ++ rest) : ds = [] := by
  cases ds with
  | nil => rfl
  | cons d ds =>
    have hd := h d (he ▸ rfl)
    rw [hds d List.mem_cons_self] at hd
    cases hd

/-- Digits before something else take the first character, where it is one. -/
theorem NoDigit.eq_cons {c : Char} {cs ds rest : List Char} (hc : c.isDigit = true)
    (hrest : NoDigit rest) (h : c :: cs = ds ++ rest) : ∃ ds', ds = c :: ds' ∧ cs = ds' ++ rest := by
  cases ds with
  | nil =>
    have := hrest c (by rw [← List.nil_append rest, ← h]; rfl)
    rw [hc] at this
    cases this
  | cons d ds =>
    obtain ⟨rfl, h'⟩ := List.cons.inj h
    exact ⟨ds, rfl, h'⟩

theorem parseDigitsFrom_of_noDigit {cs : List Char} (h : NoDigit cs) (n : ℕ) (started : Bool) :
    parseDigitsFrom n started cs = if started then some (n, cs) else none := by
  cases cs with
  | nil => rfl
  | cons c cs => rw [parseDigitsFrom, h c rfl, Bool.not_false, if_pos rfl]

theorem parseDigitsFrom_of_digit {c : Char} (hc : c.isDigit = true) (cs : List Char) (n : ℕ)
    (started : Bool) : parseDigitsFrom n started (c :: cs) =
      if 10 * n + (c.toNat - '0'.toNat) < 256 then
        parseDigitsFrom (10 * n + (c.toNat - '0'.toNat)) true cs
      else none := by
  rw [parseDigitsFrom, push_eq, hc, Bool.not_true, if_neg Bool.false_ne_true, checkedU8]
  split_ifs with hfit
  · rfl
  · rfl

theorem parseDigitsFrom_noDigit_iff {cs rest : List Char} {n m : ℕ} {started : Bool} (h : NoDigit cs)
    (hn : n < 256) : parseDigitsFrom n started cs = some (m, rest) ↔
      ∃ ds, cs = ds ++ rest ∧ (∀ c ∈ ds, c.isDigit = true) ∧ (started = true ∨ ds ≠ []) ∧
        Nat.ofDigitChars 10 ds n = m ∧ m < 256 ∧ NoDigit rest := by
  rw [parseDigitsFrom_of_noDigit h]
  constructor
  · intro hsome
    split_ifs at hsome with hs
    obtain ⟨rfl, rfl⟩ := Prod.mk.inj (Option.some.inj hsome)
    exact ⟨[], rfl, fun _ hc => (nomatch hc), .inl hs, rfl, hn, h⟩
  · rintro ⟨ds, he, hds, hs, hval, -, -⟩
    obtain rfl := h.eq_nil hds he
    rw [if_pos (hs.resolve_right fun h => h rfl), ← hval, Nat.ofDigitChars_nil, he, List.nil_append]

theorem parseDigitsFrom_eq_some_iff {cs rest : List Char} {n m : ℕ} {started : Bool} (hn : n < 256) :
    parseDigitsFrom n started cs = some (m, rest) ↔
      ∃ ds, cs = ds ++ rest ∧ (∀ c ∈ ds, c.isDigit = true) ∧ (started = true ∨ ds ≠ []) ∧
        Nat.ofDigitChars 10 ds n = m ∧ m < 256 ∧ NoDigit rest := by
  induction cs generalizing n started with
  | nil => exact parseDigitsFrom_noDigit_iff (fun _ hc => nomatch hc) hn
  | cons c cs ih =>
    cases hc : c.isDigit with
    | false =>
      refine parseDigitsFrom_noDigit_iff (fun d hd => ?_) hn
      obtain rfl := Option.some.inj hd
      exact hc
    | true =>
      rw [parseDigitsFrom_of_digit hc]
      split_ifs with hfit
      · simp only [ih hfit, true_or, true_and]
        constructor
        · rintro ⟨ds, rfl, hds, hval, hlt, hrest⟩
          refine ⟨c :: ds, rfl, List.forall_mem_cons.mpr ⟨hc, hds⟩, .inr (List.cons_ne_nil _ _), ?_,
            hlt, hrest⟩
          rw [Nat.ofDigitChars_cons, hval]
        · rintro ⟨ds, he, hds, -, hval, hlt, hrest⟩
          obtain ⟨ds', rfl, he'⟩ := hrest.eq_cons hc he
          rw [Nat.ofDigitChars_cons] at hval
          exact ⟨ds', he', fun d hd => hds d (List.mem_cons_of_mem c hd), hval, hlt, hrest⟩
      · refine ⟨fun h => (nomatch h), ?_⟩
        rintro ⟨ds, he, hds, -, hval, hlt, hrest⟩
        obtain ⟨ds', rfl, he'⟩ := hrest.eq_cons hc he
        rw [Nat.ofDigitChars_cons] at hval
        -- the number only grows
        have := le_ofDigitChars ds' (10 * n + (c.toNat - '0'.toNat))
        omega

/-- **A number is read to its last digit, or not at all.** -/
theorem parseDigits_eq_some_iff {cs rest : List Char} {n : ℕ} :
    parseDigits cs = some (n, rest) ↔
      ∃ ds, cs = ds ++ rest ∧ Numeral ds n ∧ n < 256 ∧ NoDigit rest := by
  rw [parseDigits, parseDigitsFrom_eq_some_iff (by decide)]
  constructor
  · rintro ⟨ds, hcs, hdig, hne, hval, hlt, hrest⟩
    exact ⟨ds, hcs, ⟨by simpa using hne, hdig, hval⟩, hlt, hrest⟩
  · rintro ⟨ds, hcs, ⟨hne, hdig, hval⟩, hlt, hrest⟩
    exact ⟨ds, hcs, hdig, .inr hne, hval, hlt, hrest⟩

theorem expect_eq_some_iff {c : Char} {cs rest : List Char} :
    expect c cs = some rest ↔ cs = c :: rest := by
  cases cs with
  | nil => simp [expect]
  | cons d cs =>
    rw [expect]
    split_ifs with h
    · simp [h]
    · simp [h]

theorem parseDigits_nil_iff {ds : List Char} {n : ℕ} :
    parseDigits ds = some (n, []) ↔ Numeral ds n ∧ n < 256 := by
  rw [parseDigits_eq_some_iff]
  constructor
  · rintro ⟨ds', rfl, hnum, hlt, -⟩
    rw [List.append_nil]
    exact ⟨hnum, hlt⟩
  · rintro ⟨hnum, hlt⟩
    exact ⟨ds, (List.append_nil ds).symm, hnum, hlt, fun _ hc => nomatch hc⟩

theorem parseSerial_iff {ds : List Char} {k level : BitVec 8} {n : ℕ} :
    ((parseDigits ds).map fun r => ((k, r.1), r.2)) = some ((level, n), []) ↔
      k = level ∧ Numeral ds n ∧ n < 256 := by
  rw [Option.map_eq_some_iff, ← parseDigits_nil_iff]
  constructor
  · rintro ⟨⟨m, rest⟩, hp, he⟩
    obtain ⟨hk, rfl⟩ := Prod.mk.inj he
    obtain ⟨rfl, rfl⟩ := Prod.mk.inj hk
    exact ⟨rfl, hp⟩
  · rintro ⟨rfl, hp⟩
    exact ⟨(n, []), hp, rfl⟩

/-- The suffix is read exactly where it is all that is left. -/
theorem parseSuffix_eq_some_iff {cs : List Char} {level : BitVec 8} {n : ℕ} :
    parseSuffix cs = some ((level, n), []) ↔ Suffix cs level n ∧ n < 256 := by
  unfold parseSuffix
  split
  · rw [parseSerial_iff]
    constructor
    · rintro ⟨rfl, hnum, hlt⟩
      exact ⟨.alpha hnum, hlt⟩
    · rintro ⟨hs, hlt⟩
      cases hs with
      | alpha hnum => exact ⟨rfl, hnum, hlt⟩
  · rw [parseSerial_iff]
    constructor
    · rintro ⟨rfl, hnum, hlt⟩
      exact ⟨.beta hnum, hlt⟩
    · rintro ⟨hs, hlt⟩
      cases hs with
      | beta hnum => exact ⟨rfl, hnum, hlt⟩
  · rw [Option.bind_eq_some_iff]
    simp only [expect_eq_some_iff, parseSerial_iff]
    constructor
    · rintro ⟨ds, rfl, rfl, hnum, hlt⟩
      exact ⟨.candidate hnum, hlt⟩
    · rintro ⟨hs, hlt⟩
      cases hs with
      | candidate hnum => exact ⟨_, rfl, rfl, hnum, hlt⟩
  · rename_i hna hnb hnr
    constructor
    · intro h
      obtain ⟨hk, rfl⟩ := Prod.mk.inj (Option.some.inj h)
      obtain ⟨rfl, rfl⟩ := Prod.mk.inj hk
      exact ⟨.final, by decide⟩
    · rintro ⟨hs, -⟩
      cases hs with
      | final => rfl
      | alpha => exact absurd rfl (hna _)
      | beta => exact absurd rfl (hnb _)
      | candidate => exact absurd rfl (hnr _)

theorem toNat_ofNat8 {n : ℕ} (h : n < 256) : (BitVec.ofNat 8 n).toNat = n := by
  rw [BitVec.toNat_ofNat]
  exact Nat.mod_eq_of_lt h

/-- **The parser reads exactly the texts of the grammar.** -/
theorem parseExact_eq_some_iff {s : List Char} {v : PythonVersion} :
    parseExact s = some v ↔ Denotes s v := by
  simp only [parseExact, Option.bind_eq_bind, Option.bind_eq_some_iff, Prod.exists,
    parseDigits_eq_some_iff, expect_eq_some_iff]
  constructor
  · rintro ⟨major, s₁, ⟨dmajor, rfl, hmajor, hmajor', -⟩, s₂, rfl, minor, s₃,
      ⟨dminor, rfl, hminor, hminor', -⟩, s₄, rfl, micro, s₅, ⟨dmicro, rfl, hmicro, hmicro', -⟩,
      level, serial, s₆, hsuffix, hv⟩
    split_ifs at hv with hend
    rw [not_or, not_not, Nat.not_lt] at hend
    obtain ⟨rfl, hserial⟩ := hend
    obtain rfl := Option.some.inj hv
    obtain ⟨hsuf, hlt⟩ := parseSuffix_eq_some_iff.mp hsuffix
    refine ⟨⟨dmajor, dminor, dmicro, s₅, rfl, ?_, ?_, ?_, ?_⟩, ?_⟩
    · rwa [toNat_ofNat8 hmajor']
    · rwa [toNat_ofNat8 hminor']
    · rwa [toNat_ofNat8 hmicro']
    · rwa [toNat_ofNat8 hlt]
    · rwa [toNat_ofNat8 hlt]
  · rintro ⟨⟨dmajor, dminor, dmicro, suffix, rfl, hmajor, hminor, hmicro, hsuf⟩, hserial⟩
    have hdot : ∀ cs, NoDigit ('.' :: cs) := fun cs c hc => by
      obtain rfl := Option.some.inj hc
      rfl
    refine ⟨v.major.toNat, _, ⟨dmajor, rfl, hmajor, v.major.isLt, hdot _⟩, _, rfl,
      v.minor.toNat, _, ⟨dminor, rfl, hminor, v.minor.isLt, hdot _⟩, _, rfl,
      v.micro.toNat, _, ⟨dmicro, rfl, hmicro, v.micro.isLt, hsuf.noDigit⟩,
      v.releaseLevel, v.serial.toNat, [],
      parseSuffix_eq_some_iff.mpr ⟨hsuf, v.serial.isLt⟩, ?_⟩
    rw [if_neg (by simpa using hserial)]
    simp

/-! ## What is shown can be read -/

/-- A version that has a text: a known level, and a serial that a word has room for. -/
structure PythonVersion.Released (v : PythonVersion) : Prop where
  level : v.releaseLevel ∈ [0xF, 0xA, 0xB, 0xC]
  serial : v.serial.toNat ≤ 0xF
  final : v.releaseLevel = 0xF → v.serial = 0

theorem numeral_toString (n : ℕ) : Numeral (toString n).toList n := by
  rw [Nat.toString_eq_repr, Nat.toList_repr]
  exact ⟨Nat.toDigits_ne_nil, fun c hc => Nat.isDigit_of_mem_toDigits (by decide) (by decide) hc,
    Nat.ofDigitChars_ten_toDigits⟩

/-- **What is shown of a version denotes it.** -/
theorem PythonVersion.Released.denotes_display {v : PythonVersion} (h : v.Released) :
    Denotes v.display.toList v := by
  have hsuffix : Suffix (if v.releaseLevel = 0xF then ""
      else if v.releaseLevel = 0xA then "a" ++ toString v.serial.toNat
      else if v.releaseLevel = 0xB then "b" ++ toString v.serial.toNat
      else if v.releaseLevel = 0xC then "rc" ++ toString v.serial.toNat
      else "-" ++ String.ofList (Nat.toDigits 16 v.releaseLevel.toNat) ++
        toString v.serial.toNat).toList v.releaseLevel v.serial.toNat := by
    have hlevel := h.level
    simp only [List.mem_cons, List.not_mem_nil, or_false] at hlevel
    rcases hlevel with hl | hl | hl | hl
    · rw [hl, if_pos rfl, h.final hl]
      exact .final
    · rw [hl, if_neg (by decide), if_pos rfl, String.toList_append]
      exact .alpha (numeral_toString _)
    · rw [hl, if_neg (by decide), if_neg (by decide), if_pos rfl, String.toList_append]
      exact .beta (numeral_toString _)
    · rw [hl, if_neg (by decide), if_neg (by decide), if_neg (by decide), if_pos rfl,
        String.toList_append]
      exact .candidate (numeral_toString _)
  refine ⟨⟨_, _, _, _, ?_, numeral_toString _, numeral_toString _, numeral_toString _, hsuffix⟩,
    h.serial⟩
  unfold display
  simp only [String.toList_append, List.append_assoc]
  rfl

end GcScope
