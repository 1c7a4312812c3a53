import GcScope.Lib.Runs
import GcScope.RemoteDebugging.VersionText

/-!
# Finding a version in a binary image

Before 3.11 the only source of a version is the literal embedded in the image. The scan looks for the
start of one, takes the bytes a version could extend over and accepts them where all of them parse and
the literal ends there.

* `scanForVersionString`: the scan, with `isVersionChar` and `isTerminator`.
* `Accepted`: a run of version characters the scan is to accept.
* `acceptAt_eq_some_iff`: what the scan does at one place.
* **`scanForVersionString_exact`**: the scan answers with the leftmost accepted run.
* **`scan_display`**: a version that is shown in an image is found.
* `PythonVersion.toHex`, **`PythonVersion.fromHex_toHex`**, **`PythonVersion.toHex_of_fromHex`**: versions
  as words.
-/

set_option autoImplicit false

namespace GcScope

open Runs

/-- Digits, the point and the letters of a suffix. -/
def isVersionChar (b : UInt8) : Bool :=
  decide (0x30 ≤ b.toNat ∧ b.toNat ≤ 0x39) || b == 0x2E || b == 0x61 || b == 0x62 || b == 0x63 || b == 0x72

/-- The bytes that may follow a literal: NUL, blank, `(`, line feed, carriage return, tab, a quote and
`+`. -/
def isTerminator (b : UInt8) : Bool :=
  b == 0 || b == 0x20 || b == 0x28 || b == 0x0A || b == 0x0D || b == 0x09 || b == 0x22 || b == 0x2B

/-- The text of bytes that are ASCII. -/
def asciiText (bytes : List UInt8) : List Char := bytes.map fun b => Char.ofNat b.toNat

/-- The bytes of a text that is ASCII. -/
def asciiBytes (s : List Char) : List UInt8 := s.map Char.toUInt8

/-- The version that starts the bytes, where it ends with its run. -/
def candidateAt (bytes : List UInt8) : Option PythonVersion :=
  match parseExact (asciiText (bytes.takeWhile isVersionChar)) with
  | none => none
  | some v => if isTerminator ((bytes.dropWhile isVersionChar).headD 0) then some v else none

/-- A version may start here: `3.` that no version character precedes. -/
def isAnchor (prev : Option UInt8) (bytes : List UInt8) : Bool :=
  bytes.head? == some 0x33 && bytes.tail.head? == some 0x2E && !prev.any isVersionChar

/-- The scan from a place on, behind the byte `prev`. A rejected candidate moves it on by one byte. -/
def scanFrom : Option UInt8 → List UInt8 → Option PythonVersion
  | _, [] => none
  | prev, b :: rest =>
    if !isAnchor prev (b :: rest) then scanFrom (some b) rest
    else
      match candidateAt (b :: rest) with
      | some v => some v
      | none => scanFrom (some b) rest

def scanForVersionString (bytes : List UInt8) : Option PythonVersion := scanFrom none bytes

/-! ## What the scan accepts -/

/-- `run` is a maximal run of version characters that starts with `3.`, denotes `v` and ends where a
literal may end. -/
structure Accepted (bytes pre run post : List UInt8) (v : PythonVersion) : Prop where
  cut : bytes = pre ++ (run ++ post)
  maximal : MaximalRun isVersionChar pre run post
  anchored : [0x33, 0x2E] <+: run
  denotes : Denotes (asciiText run) v
  closed : ∀ b ∈ post.head?, isTerminator b = true

/-- What the scan answers with at one place. -/
def acceptAt (pre bytes : List UInt8) : Option PythonVersion :=
  if isAnchor pre.getLast? bytes then candidateAt bytes else none

theorem scanFrom_eq (pre bytes : List UInt8) :
    scanFrom pre.getLast? bytes = firstAt acceptAt pre bytes := by
  induction bytes generalizing pre with
  | nil => rfl
  | cons b rest ih =>
    have hlast : (pre ++ [b]).getLast? = some b := List.getLast?_concat
    rw [scanFrom, firstAt, ← ih, hlast, acceptAt]
    cases isAnchor pre.getLast? (b :: rest) with
    | false => rfl
    | true => cases candidateAt (b :: rest) <;> rfl

theorem headD_terminator {post : List UInt8} :
    isTerminator (post.headD 0) = true ↔ ∀ b ∈ post.head?, isTerminator b = true := by
  cases post with
  | nil => simp [isTerminator]
  | cons b post => simp

theorem isAnchor_iff {prev : Option UInt8} {bytes : List UInt8} :
    isAnchor prev bytes = true ↔
      [0x33, 0x2E] <+: bytes ∧ ∀ b ∈ prev, isVersionChar b = false := by
  have hprev : (!prev.any isVersionChar) = true ↔ ∀ b ∈ prev, isVersionChar b = false := by
    cases prev <;> simp
  rw [isAnchor, Bool.and_eq_true, hprev]
  refine and_congr_left fun _ => ?_
  match bytes with
  | [] => simp
  | [b] => simp
  | b :: c :: rest =>
    simp only [List.head?_cons, List.tail_cons, Bool.and_eq_true, beq_iff_eq, Option.some.injEq,
      List.cons_prefix_cons, List.nil_prefix, and_true, eq_comm (a := b), eq_comm (a := c)]

theorem candidateAt_eq_some_iff {bytes : List UInt8} {v : PythonVersion} :
    candidateAt bytes = some v ↔ Denotes (asciiText (bytes.takeWhile isVersionChar)) v ∧
      ∀ b ∈ (bytes.dropWhile isVersionChar).head?, isTerminator b = true := by
  rw [← headD_terminator, ← parseExact_eq_some_iff, candidateAt]
  cases parseExact (asciiText (bytes.takeWhile isVersionChar)) with
  | none => simp
  | some w => simp [and_comm]

theorem isVersionChar_anchor : ∀ b ∈ [0x33, 0x2E], isVersionChar b = true :=
  List.forall_mem_cons.mpr ⟨by decide, List.forall_mem_singleton.mpr (by decide)⟩

/-- **The scan accepts at a place exactly the run that starts there.** -/
theorem acceptAt_eq_some_iff {pre bytes : List UInt8} {v : PythonVersion} :
    acceptAt pre bytes = some v ↔
      ∃ run post, bytes = run ++ post ∧ Accepted (pre ++ bytes) pre run post v := by
  unfold acceptAt
  constructor
  · intro h
    split_ifs at h with hanchor
    obtain ⟨hstart, hleft⟩ := isAnchor_iff.mp hanchor
    obtain ⟨hv, hclosed⟩ := candidateAt_eq_some_iff.mp h
    have htake : [0x33, 0x2E] <+: bytes.takeWhile isVersionChar := by
      obtain ⟨rest, rfl⟩ := hstart
      rw [List.takeWhile_append_of_pos isVersionChar_anchor]
      exact List.prefix_append _ _
    have hne : bytes.takeWhile isVersionChar ≠ [] := fun he => by
      rw [he, List.prefix_nil] at htake
      cases htake
    exact ⟨_, _, (List.takeWhile_append_dropWhile).symm,
      ⟨by rw [List.takeWhile_append_dropWhile], maximalRun_takeWhile hleft hne, htake, hv, hclosed⟩⟩
  · rintro ⟨run, post, rfl, h⟩
    have hanchor : isAnchor pre.getLast? (run ++ post) = true :=
      isAnchor_iff.mpr ⟨h.anchored.trans (List.prefix_append _ _), h.maximal.left⟩
    obtain ⟨htake, hdrop⟩ := h.maximal.eq_takeWhile
    rw [if_pos hanchor, candidateAt_eq_some_iff, htake, hdrop]
    exact ⟨h.denotes, h.closed⟩

theorem Accepted.acceptAt_eq {bytes pre run post : List UInt8} {v : PythonVersion}
    (h : Accepted bytes pre run post v) : acceptAt pre (run ++ post) = some v :=
  acceptAt_eq_some_iff.mpr ⟨run, post, rfl, h.cut ▸ h⟩

theorem scan_eq_firstAt (bytes : List UInt8) :
    scanForVersionString bytes = firstAt acceptAt [] bytes := scanFrom_eq [] bytes

/-- The scan answers with the leftmost accepted run. -/
theorem scan_eq_some_iff {bytes : List UInt8} {v : PythonVersion} :
    scanForVersionString bytes = some v ↔ ∃ pre run post, Accepted bytes pre run post v ∧
      ∀ pre' run' post' v', Accepted bytes pre' run' post' v' → pre.length ≤ pre'.length := by
  rw [scan_eq_firstAt, firstAt_eq_some_iff]
  constructor
  · rintro ⟨pre, after, rfl, haccept, hfirst⟩
    rw [List.nil_append] at haccept
    obtain ⟨run, post, rfl, h⟩ := acceptAt_eq_some_iff.mp haccept
    refine ⟨pre, run, post, h, fun pre' run' post' v' h' => ?_⟩
    by_contra hlt
    have hnone := hfirst pre' (run' ++ post') h'.cut (Nat.not_le.mp hlt)
    rw [List.nil_append, h'.acceptAt_eq] at hnone
    cases hnone
  · rintro ⟨pre, run, post, h, hfirst⟩
    refine ⟨pre, run ++ post, h.cut, by rw [List.nil_append, h.acceptAt_eq], ?_⟩
    intro before' after' hcut hlt
    rw [List.nil_append]
    cases ha : acceptAt before' after' with
    | none => rfl
    | some v' =>
      obtain ⟨run', post', rfl, h'⟩ := acceptAt_eq_some_iff.mp ha
      exact absurd (hfirst before' run' post' v' (hcut ▸ h')) (Nat.not_le.mpr hlt)

theorem scan_eq_none_iff {bytes : List UInt8} :
    scanForVersionString bytes = none ↔ ¬ ∃ pre run post v, Accepted bytes pre run post v := by
  rw [scan_eq_firstAt, firstAt_eq_none_iff]
  constructor
  · rintro hnone ⟨pre, run, post, v, h⟩
    have := hnone pre (run ++ post) h.cut
    rw [List.nil_append, h.acceptAt_eq] at this
    cases this
  · intro hno before after hcut
    rw [List.nil_append]
    cases ha : acceptAt before after with
    | none => rfl
    | some v =>
      obtain ⟨run, post, rfl, h⟩ := acceptAt_eq_some_iff.mp ha
      exact absurd ⟨before, run, post, v, hcut ▸ h⟩ hno

/-- **The scan is exact.** It answers with the version of the leftmost accepted run, and with nothing
exactly where there is none. -/
theorem scanForVersionString_exact (bytes : List UInt8) :
    (∀ v, scanForVersionString bytes = some v ↔ ∃ pre run post, Accepted bytes pre run post v ∧
      ∀ pre' run' post' v', Accepted bytes pre' run' post' v' → pre.length ≤ pre'.length) ∧
    (scanForVersionString bytes = none ↔ ¬ ∃ pre run post v, Accepted bytes pre run post v) :=
  ⟨fun _ => scan_eq_some_iff, scan_eq_none_iff⟩

-- a version inside a longer run is not one
example : scanForVersionString (asciiBytes "lib13.12.1 3.12.1.4 3.12.0z 3.10.16+".toList) =
    some ⟨3, 10, 16, 0xF, 0⟩ := by decide

/-! ## A version in an image -/

/-- A character of the grammar. -/
def IsVersionText (c : Char) : Prop := c.isDigit = true ∨ c ∈ ['.', 'a', 'b', 'c', 'r']

theorem Numeral.isVersionText {ds : List Char} {n : ℕ} (h : Numeral ds n) :
    ∀ c ∈ ds, IsVersionText c := fun c hc => .inl (h.digits c hc)

theorem Suffix.isVersionText {cs : List Char} {level : BitVec 8} {n : ℕ} (h : Suffix cs level n) :
    ∀ c ∈ cs, IsVersionText c := by
  cases h with
  | final => exact fun c hc => nomatch hc
  | alpha h | beta h =>
    exact List.forall_mem_cons.mpr ⟨.inr (by decide), h.isVersionText⟩
  | candidate h =>
    exact List.forall_mem_cons.mpr ⟨.inr (by decide),
      List.forall_mem_cons.mpr ⟨.inr (by decide), h.isVersionText⟩⟩

theorem Denotes.isVersionText {text : List Char} {v : PythonVersion} (h : Denotes text v) :
    ∀ c ∈ text, IsVersionText c := by
  obtain ⟨⟨major, minor, micro, suffix, rfl, hmajor, hminor, hmicro, hsuffix⟩, -⟩ := h
  simp only [List.forall_mem_append, List.forall_mem_cons]
  have hdot : IsVersionText '.' := .inr (by decide)
  exact ⟨hmajor.isVersionText, hdot, hminor.isVersionText, hdot, hmicro.isVersionText,
    hsuffix.isVersionText⟩

theorem IsVersionText.byte {c : Char} (h : IsVersionText c) :
    Char.ofNat c.toUInt8.toNat = c ∧ isVersionChar c.toUInt8 = true := by
  rcases h with h | h
  · have hrange : 48 ≤ c.toNat ∧ c.toNat ≤ 57 := Char.isDigit_iff_toNat.mp h
    have hbyte : c.toUInt8.toNat = c.toNat := by
      change c.toNat % 256 = c.toNat
      omega
    refine ⟨by rw [hbyte, Char.ofNat_toNat], ?_⟩
    have hdigit : 0x30 ≤ c.toUInt8.toNat ∧ c.toUInt8.toNat ≤ 0x39 := by
      rw [hbyte]
      exact hrange
    simp only [isVersionChar, decide_eq_true hdigit, Bool.true_or]
  · simp only [List.mem_cons, List.not_mem_nil, or_false] at h
    rcases h with rfl | rfl | rfl | rfl | rfl <;> decide

theorem asciiText_asciiBytes {s : List Char} (h : ∀ c ∈ s, IsVersionText c) :
    asciiText (asciiBytes s) = s := by
  rw [asciiText, asciiBytes, List.map_map]
  exact (List.map_congr_left fun c hc => (h c hc).byte.1).trans (List.map_id s)

theorem isVersionChar_of_isTerminator {b : UInt8} (h : isTerminator b = true) :
    isVersionChar b = false := by
  simp only [isTerminator, Bool.or_eq_true, beq_iff_eq] at h
  rcases h with (((((((rfl | rfl) | rfl) | rfl) | rfl) | rfl) | rfl) | rfl) <;> decide

/-- The bytes a version is shown as. -/
def PythonVersion.displayBytes (v : PythonVersion) : List UInt8 := asciiBytes v.display.toList

/-- **A version shown in an image is found**, where nothing before it is taken for one. -/
theorem scan_display {v : PythonVersion} (hmajor : v.major = 3) (hv : v.Released)
    {pre suf : List UInt8} (hpre : scanForVersionString pre = none)
    (hlast : ∀ b ∈ pre.getLast?, isVersionChar b = false)
    (hsuf : ∀ b ∈ suf.head?, isTerminator b = true) :
    scanForVersionString (pre ++ v.displayBytes ++ suf) = some v := by
  have hden := hv.denotes_display
  have htext := asciiText_asciiBytes hden.isVersionText
  have hanchor : [0x33, 0x2E] <+: v.displayBytes := by
    unfold PythonVersion.displayBytes PythonVersion.display
    simp only [hmajor, String.toList_append, List.append_assoc]
    exact List.prefix_append [0x33, 0x2E] _
  have hacc : Accepted (pre ++ v.displayBytes ++ suf) pre v.displayBytes suf v :=
    { cut := List.append_assoc _ _ _
      maximal :=
        { nonempty := fun h => by
            rw [h, List.prefix_nil] at hanchor
            cases hanchor
          all := fun b hb => by
            obtain ⟨c, hc, rfl⟩ := List.mem_map.mp hb
            exact (hden.isVersionText c hc).byte.2
          left := hlast
          right := fun b hb => isVersionChar_of_isTerminator (hsuf b hb) }
      anchored := hanchor
      denotes := by rwa [PythonVersion.displayBytes, htext]
      closed := hsuf }
  refine scan_eq_some_iff.mpr ⟨pre, _, suf, hacc, ?_⟩
  intro pre' run' post' v' h'
  by_contra hlt
  -- a run that starts in the prefix ends in it, and would have been found there
  have hcut := h'.cut
  rw [List.append_assoc] at hcut
  rcases List.append_eq_append_iff.mp hcut with ⟨mid, rfl, hmid⟩ | ⟨mid, rfl, hmid⟩
  · exact hlt (by rw [List.length_append]; omega)
  · have hne : mid ≠ [] := fun h => hlt (by rw [h, List.append_nil])
    have hmlast : ∀ b ∈ mid.getLast?, isVersionChar b = false := fun b hb =>
      hlast b (by rw [List.getLast?_append_of_ne_nil _ hne]; exact hb)
    obtain ⟨post'', hpost, hhead, hrun⟩ := h'.maximal.of_append hmid hne hmlast
    refine scan_eq_none_iff.mp hpre ⟨pre', run', post'', v', ?_⟩
    exact ⟨by rw [hpost], hrun, h'.anchored, h'.denotes, fun b hb => h'.closed b (hhead ▸ hb)⟩

/-! ## Versions as words -/

namespace PythonVersion

/-- The word that encodes a version. -/
def toHex (v : PythonVersion) : BitVec 64 :=
  v.major.setWidth 64 <<< 24 ||| v.minor.setWidth 64 <<< 16 ||| v.micro.setWidth 64 <<< 8 |||
    v.releaseLevel.setWidth 64 <<< 4 ||| v.serial.setWidth 64

/-- The level and the serial fit the four bits a word has for each. -/
structure FitsHex (v : PythonVersion) : Prop where
  level : v.releaseLevel.toNat < 16
  serial : v.serial.toNat < 16

theorem toNat_field8 (b : BitVec 8) : (b.setWidth 64).toNat = b.toNat := by
  have := b.isLt
  rw [BitVec.toNat_setWidth]
  omega

theorem toNat_shiftedField (b : BitVec 8) {k : ℕ} (hk : k ≤ 24) :
    (b.setWidth 64 <<< k).toNat = 2 ^ k * b.toNat := by
  have hpow : 2 ^ k ≤ 2 ^ 24 := Nat.pow_le_pow_right (by decide) hk
  have hlt : b.toNat * 2 ^ k < 2 ^ 64 := by
    calc b.toNat * 2 ^ k ≤ 2 ^ 8 * 2 ^ 24 := Nat.mul_le_mul b.isLt.le hpow
      _ < 2 ^ 64 := by decide
  rw [BitVec.toNat_shiftLeft, toNat_field8, Nat.shiftLeft_eq, Nat.mod_eq_of_lt hlt, mul_comm]

theorem FitsHex.toNat_toHex {v : PythonVersion} (h : v.FitsHex) :
    v.toHex.toNat = 2 ^ 24 * v.major.toNat + 2 ^ 16 * v.minor.toNat + 2 ^ 8 * v.micro.toNat +
      2 ^ 4 * v.releaseLevel.toNat + v.serial.toNat := by
  have hminor := v.minor.isLt
  have hmicro := v.micro.isLt
  have hlevel := h.level
  have hserial := h.serial
  have h₁ : 2 ^ 24 * v.major.toNat ||| 2 ^ 16 * v.minor.toNat =
      2 ^ 16 * (2 ^ 8 * v.major.toNat + v.minor.toNat) := by
    rw [← Nat.two_pow_add_eq_or_of_lt (by omega)]
    ring
  have h₂ : 2 ^ 16 * (2 ^ 8 * v.major.toNat + v.minor.toNat) ||| 2 ^ 8 * v.micro.toNat =
      2 ^ 8 * (2 ^ 8 * (2 ^ 8 * v.major.toNat + v.minor.toNat) + v.micro.toNat) := by
    rw [← Nat.two_pow_add_eq_or_of_lt (by omega)]
    ring
  have h₃ : 2 ^ 8 * (2 ^ 8 * (2 ^ 8 * v.major.toNat + v.minor.toNat) + v.micro.toNat) |||
      2 ^ 4 * v.releaseLevel.toNat = 2 ^ 4 * (2 ^ 4 * (2 ^ 8 * (2 ^ 8 * v.major.toNat +
        v.minor.toNat) + v.micro.toNat) + v.releaseLevel.toNat) := by
    rw [← Nat.two_pow_add_eq_or_of_lt (by omega)]
    ring
  unfold toHex
  simp only [BitVec.toNat_or, toNat_shiftedField _ (show 24 ≤ 24 by omega),
    toNat_shiftedField _ (show 16 ≤ 24 by omega), toNat_shiftedField _ (show 8 ≤ 24 by omega),
    toNat_shiftedField _ (show 4 ≤ 24 by omega), h₁, h₂, h₃, toNat_field8]
  rw [← Nat.two_pow_add_eq_or_of_lt (by omega)]
  ring

/-- **A version that fits a word is read back from it.** -/
theorem fromHex_toHex {v : PythonVersion} (h : v.FitsHex) (h0 : v.major ≠ 0 ∨ v.minor ≠ 0) :
    fromHex v.toHex = some v := by
  have hmajor := v.major.isLt
  have hminor := v.minor.isLt
  have hmicro := v.micro.isLt
  have hlevel := h.level
  have hserial := h.serial
  have h0' : v.major.toNat ≠ 0 ∨ v.minor.toNat ≠ 0 := by
    rw [ne_eq, ne_eq, ← BitVec.toNat_inj, ← BitVec.toNat_inj] at h0
    exact h0
  rw [fromHex_eq_some_iff, h.toNat_toHex]
  omega

/-- **A word that encodes a version is the word of that version.** -/
theorem toHex_of_fromHex {w : BitVec 64} {v : PythonVersion} (hw : w.toNat < 2 ^ 32)
    (h : fromHex w = some v) : v.toHex = w := by
  obtain ⟨-, hmajor, hminor, hmicro, hlevel, hserial⟩ := fromHex_eq_some_iff.mp h
  have hfits : v.FitsHex := ⟨by omega, by omega⟩
  rw [← BitVec.toNat_inj, hfits.toNat_toHex]
  omega

end PythonVersion

/-- **Versions round-trip** through text in an image, and through words in both directions. -/
theorem version_round_trips :
    (∀ (v : PythonVersion) (pre suf : List UInt8), v.major = 3 → v.Released →
      scanForVersionString pre = none → (∀ b ∈ pre.getLast?, isVersionChar b = false) →
      (∀ b ∈ suf.head?, isTerminator b = true) →
      scanForVersionString (pre ++ v.displayBytes ++ suf) = some v) ∧
    (∀ v : PythonVersion, v.FitsHex → v.major ≠ 0 ∨ v.minor ≠ 0 →
      PythonVersion.fromHex v.toHex = some v) ∧
    (∀ w : BitVec 32, w.toNat / 2 ^ 24 ≠ 0 ∨ w.toNat / 2 ^ 16 % 2 ^ 8 ≠ 0 →
      (PythonVersion.fromHex (w.setWidth 64)).map PythonVersion.toHex = some (w.setWidth 64)) := by
  refine ⟨fun v pre suf hm hv hp hl hs => scan_display hm hv hp hl hs,
    fun v h h0 => PythonVersion.fromHex_toHex h h0, fun w h0 => ?_⟩
  have hlt := w.isLt
  have hw : (w.setWidth 64).toNat = w.toNat := by
    rw [BitVec.toNat_setWidth]
    omega
  have hsome : Versioned (w.setWidth 64) := versioned_iff.mpr (by rw [hw]; omega)
  obtain ⟨v, hv⟩ := Option.isSome_iff_exists.mp hsome
  rw [hv, Option.map_some, PythonVersion.toHex_of_fromHex (by rw [hw]; exact hlt) hv]

/-- A beta behind a build tag, and as a word. -/
theorem beta_round_trips :
    scanForVersionString (asciiBytes "v3.14.0-dirty ".toList ++
      (⟨3, 15, 0, 0xB, 1⟩ : PythonVersion).displayBytes ++ [0]) = some ⟨3, 15, 0, 0xB, 1⟩ ∧
    PythonVersion.fromHex (⟨3, 15, 0, 0xB, 1⟩ : PythonVersion).toHex = some ⟨3, 15, 0, 0xB, 1⟩ ∧
    (PythonVersion.fromHex 0x030f00b1).map PythonVersion.toHex = some 0x030f00b1 := by
  have hblank : (asciiBytes "v3.14.0-dirty ".toList).getLast? = some 0x20 := by decide
  exact ⟨version_round_trips.1 _ _ _ rfl ⟨by decide, by decide, by decide⟩ (by decide)
      (fun b hb => Option.some.inj (hblank.symm.trans hb) ▸ by decide)
      (fun b hb => Option.some.inj hb ▸ by decide),
    version_round_trips.2.1 _ ⟨by decide, by decide⟩ (by decide),
    version_round_trips.2.2 0x030f00b1 (by decide)⟩

end GcScope
