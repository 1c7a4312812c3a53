import Mathlib.Algebra.GroupWithZero.Nat
import Mathlib.Data.Nat.Basic
import GcScope.Lib.HexText
import GcScope.Lib.ListFacts

/-!
# The hex view

Rows of sixteen bytes: the address, the bytes as digits in two groups of eight, and the bytes as text.
Bytes in a highlighted range are drawn on its colour.

* `hexDumpRows`, `hexColEmitted`: the view.
* `cellAt`, `readHexRow`, `readAddress`: reading a row back, by its columns.
* `take_hexCells`, `styledText_cell`: the columns of a byte.
* **`hex_view_faithful`**: the rows read back to the bytes, and each byte has the colour of its range.
-/

set_option autoImplicit false

namespace GcScope

open HexText ListFacts

variable {Color : Type}

/-- A piece of a line, and the colour it is drawn on. -/
structure Span (Color : Type) where
  content : List Char
  bg : Option Color

/-- A range of addresses to be drawn on a colour. -/
structure Highlight (Color : Type) where
  off : ℕ
  len : UInt8
  color : Color

/-- The address lies in the range. -/
def Highlight.Covers (h : Highlight Color) (off : ℕ) : Prop := h.off ≤ off ∧ off < h.off + h.len.toNat

instance (h : Highlight Color) (off : ℕ) : Decidable (h.Covers off) := by
  unfold Highlight.Covers; infer_instance

/-- The gap behind byte `i` of a row. -/
def interspace (i : ℕ) : List Char := if i < 15 then if i = 7 then [' ', ' '] else [' '] else []

/-- Rendered width of the hex column for `n` bytes. -/
def hexColEmitted (n : ℕ) : ℕ := ((List.range n).map fun i => 2 + (interspace i).length).sum

/-- Byte `i` of a row, at address `off`: its digits, and the gap behind it. -/
def byteSpans (highlights : List (Highlight Color)) (off i : ℕ) (b : UInt8) : List (Span Color) :=
  let hl := highlights.find? fun h => h.Covers off
  let hlColor := hl.map Highlight.color
  let nextInSame := hl.any fun h => off + 1 < h.off + h.len.toNat
  ⟨padded 2 b.toNat, hlColor⟩ ::
    if i < 15 then [⟨interspace i, if nextInSame then hlColor else none⟩] else []

/-- A byte as a character. -/
def asciiChar (b : UInt8) : Char :=
  if 0x20 ≤ b.toNat ∧ b.toNat ≤ 0x7E then Char.ofNat b.toNat else '.'

/-- The row of one chunk, at address `base`. -/
def hexDumpRow (highlights : List (Highlight Color)) (base : ℕ) (chunk : List UInt8) :
    List (Span Color) :=
  ⟨"  ".toList ++ padded 8 base ++ "  ".toList, none⟩ ::
    (chunk.mapIdx fun i b => byteSpans highlights (base + i) i b).flatten ++
    (if chunk.length < 16 then
      [⟨List.replicate (hexColEmitted 16 - hexColEmitted chunk.length) ' ', none⟩] else []) ++
    [⟨" |".toList ++ chunk.map asciiChar, none⟩]

/-- The rows of a view. -/
def hexDumpRows (bytes : List UInt8) (limit : ℕ) (highlights : List (Highlight Color))
    (baseOffset : ℕ) : List (List (Span Color)) :=
  (chunks 16 (bytes.take (min bytes.length limit))).mapIdx fun k chunk =>
    hexDumpRow highlights (16 * k + baseOffset) chunk

/-! ## Reading a row -/

/-- The characters of a row, each with the colour it is drawn on. -/
def styledText (row : List (Span Color)) : List (Char × Option Color) :=
  row.flatMap fun s => s.content.map fun c => (c, s.bg)

/-- The characters of a row. -/
def rowText (row : List (Span Color)) : List Char := row.flatMap Span.content

/-- The column of byte `i`. -/
def cellAt (i : ℕ) : ℕ := 12 + 3 * i + if 8 ≤ i then 1 else 0

/-- The byte in a cell, if there is one. -/
def readCell (cell : List Char) : Option UInt8 :=
  match cell with
  | [c, d] => (value? [c, d]).map UInt8.ofNat
  | _ => none

/-- The bytes of a row, cell by cell. -/
def readHexRow (text : List Char) : List UInt8 :=
  (List.range 16).filterMap fun i => readCell ((text.drop (cellAt i)).take 2)

/-- The address of a row. -/
def readAddress (text : List Char) : Option ℕ := value? ((text.drop 2).take 8)

/-! ## The columns -/

theorem rowText_eq_map (row : List (Span Color)) : rowText row = (styledText row).map Prod.fst := by
  simp [rowText, styledText, List.map_flatMap, Function.comp_def]

/-- The width of the bytes before byte `i`. -/
theorem hexColEmitted_eq {i : ℕ} (h : i ≤ 15) :
    hexColEmitted i = 3 * i + if 8 ≤ i then 1 else 0 :=
  (by decide : ∀ i ≤ 15, hexColEmitted i = 3 * i + if 8 ≤ i then 1 else 0) i h

theorem hexColEmitted_succ (n : ℕ) :
    hexColEmitted (n + 1) = hexColEmitted n + (2 + (interspace n).length) := by
  rw [hexColEmitted, List.range_succ, List.map_append, List.sum_append, ← hexColEmitted]
  simp

theorem length_styledText (row : List (Span Color)) :
    (styledText row).length = (row.map fun s => s.content.length).sum := by
  simp [styledText, List.length_flatMap]

theorem styledText_append (l m : List (Span Color)) :
    styledText (l ++ m) = styledText l ++ styledText m := List.flatMap_append

theorem length_digits (b : UInt8) : (padded 2 b.toNat).length = 2 := length_padded (by decide) b.toNat_lt

theorem readCell_padded (b : UInt8) : readCell (padded 2 b.toNat) = some b := by
  obtain ⟨c, d, hdigits⟩ := List.length_eq_two.mp (length_digits b)
  have hvalue := value?_padded 2 b.toNat
  rw [hdigits] at hvalue ⊢
  rw [readCell, hvalue, Option.map_some, UInt8.ofNat_toNat]

theorem length_byteSpans (highlights : List (Highlight Color)) (off i : ℕ) (b : UInt8) :
    (styledText (byteSpans highlights off i b)).length = 2 + (interspace i).length := by
  rw [length_styledText, byteSpans]
  by_cases hi : i < 15
  · simp [length_digits, hi]
  · simp [length_digits, interspace, hi]

/-- The hex column of a row, without the padding. -/
def hexColumn (highlights : List (Highlight Color)) (base : ℕ) (chunk : List UInt8) :
    List (Char × Option Color) :=
  styledText (chunk.mapIdx fun i b => byteSpans highlights (base + i) i b).flatten

section Columns

variable (highlights : List (Highlight Color)) (base : ℕ)

theorem hexColumn_append (l m : List UInt8) : hexColumn highlights base (l ++ m) =
    hexColumn highlights base l ++ styledText
      (m.mapIdx fun i b => byteSpans highlights (base + (i + l.length)) (i + l.length) b).flatten := by
  rw [hexColumn, List.mapIdx_append, List.flatten_append, styledText_append, hexColumn]

theorem length_hexColumn (chunk : List UInt8) :
    (hexColumn highlights base chunk).length = hexColEmitted chunk.length := by
  induction chunk using List.reverseRecOn with
  | nil => rfl
  | append_singleton chunk b ih =>
    have hlast := length_byteSpans highlights (base + (0 + chunk.length)) (0 + chunk.length) b
    rw [hexColumn_append, List.length_append, ih, List.length_append, List.length_singleton,
      hexColEmitted_succ]
    simpa using hlast

/-- The colour of the first range that covers an address. -/
def colorAt (off : ℕ) : Option Color := (highlights.find? fun h => h.Covers off).map Highlight.color

theorem byteSpans_split (off i : ℕ) (b : UInt8) : ∃ gap, styledText (byteSpans highlights off i b) =
    ((padded 2 b.toNat).map fun c => (c, colorAt highlights off)) ++ gap := ⟨_, List.flatMap_cons⟩

/-- **The digits of a byte stand behind those of the bytes before it**, on the colour of its range. -/
theorem hexColumn_split {chunk : List UInt8} {i : ℕ} {b : UInt8} (hb : chunk[i]? = some b) :
    ∃ before behind, hexColumn highlights base chunk =
        before ++ ((padded 2 b.toNat).map fun c => (c, colorAt highlights (base + i))) ++ behind ∧
      before.length = hexColEmitted i := by
  obtain ⟨hlt, hget⟩ := List.getElem?_eq_some_iff.mp hb
  have hcut : chunk = chunk.take i ++ b :: chunk.drop (i + 1) := by
    rw [← hget, ← List.drop_eq_getElem_cons hlt, List.take_append_drop]
  have hlen : (chunk.take i).length = i := List.length_take_of_le (Nat.le_of_lt hlt)
  rw [hcut, hexColumn_append, List.mapIdx_cons, List.flatten_cons, styledText_append, Nat.zero_add, hlen]
  obtain ⟨gap, hgap⟩ := byteSpans_split highlights (base + i) i b
  generalize styledText (List.flatten _) = rest
  refine ⟨hexColumn highlights base (chunk.take i), gap ++ rest, ?_, by rw [length_hexColumn, hlen]⟩
  rw [hgap, List.append_assoc, List.append_assoc]

end Columns

/-- Characters on no colour. -/
def plain (cs : List Char) : List (Char × Option Color) := cs.map fun c => (c, none)

@[simp] theorem length_plain (cs : List Char) : (plain cs : List (Char × Option Color)).length = cs.length :=
  List.length_map _

/-- The hex column of a row, padded to its full width. -/
def paddedColumn (highlights : List (Highlight Color)) (base : ℕ) (chunk : List UInt8) :
    List (Char × Option Color) :=
  hexColumn highlights base chunk ++ plain (List.replicate (48 - hexColEmitted chunk.length) ' ')

/-- A row: the address, the hex column, the text. -/
theorem styledText_hexDumpRow (highlights : List (Highlight Color)) (base : ℕ) {chunk : List UInt8}
    (hchunk : chunk.length ≤ 16) : styledText (hexDumpRow highlights base chunk) =
      plain ("  ".toList ++ padded 8 base ++ "  ".toList) ++ paddedColumn highlights base chunk ++
        plain (" |".toList ++ chunk.map asciiChar) := by
  have hpad : styledText (if chunk.length < 16 then
      [⟨List.replicate (hexColEmitted 16 - hexColEmitted chunk.length) ' ', none⟩] else []) =
      (plain (List.replicate (48 - hexColEmitted chunk.length) ' ') : List (Char × Option Color)) := by
    have hfull : hexColEmitted 16 = 48 := by decide
    by_cases hshort : chunk.length < 16
    · rw [if_pos hshort, hfull, styledText, List.flatMap_singleton]
      rfl
    · have hlen : chunk.length = 16 := by omega
      rw [if_neg hshort, hlen, hfull]
      rfl
  rw [hexDumpRow, styledText_append, styledText_append, hpad, styledText, List.flatMap_cons,
    ← styledText, ← hexColumn, List.append_assoc _ (hexColumn _ _ _), paddedColumn, styledText,
    List.flatMap_singleton]
  rfl

section Row

variable (highlights : List (Highlight Color)) {base : ℕ} (hbase : base < 2 ^ 32)
  {chunk : List UInt8} (hchunk : chunk.length ≤ 16)

include hbase in
theorem length_address : ("  ".toList ++ padded 8 base ++ "  ".toList).length = 12 := by
  have hdigits : (padded 8 base).length = 8 := length_padded (by decide) (by omega)
  rw [List.length_append, List.length_append, hdigits]
  rfl

include hbase in
theorem readAddress_row : readAddress (rowText (hexDumpRow highlights base chunk)) = some base := by
  have hdigits : (padded 8 base).length = 8 := length_padded (by decide) (by omega)
  obtain ⟨behind, hrow⟩ : ∃ behind, rowText (hexDumpRow highlights base chunk) =
      "  ".toList ++ (padded 8 base ++ behind) := by
    rw [rowText, hexDumpRow, List.append_assoc, List.cons_append, List.flatMap_cons, List.append_assoc,
      List.append_assoc]
    exact ⟨_, rfl⟩
  have hspaces : "  ".toList.length = 2 := rfl
  rw [readAddress, hrow, List.drop_left' hspaces, List.take_left' hdigits, value?_padded]

include hchunk in
theorem hexColEmitted_le {i : ℕ} (hi : i ≤ chunk.length) :
    hexColEmitted i ≤ hexColEmitted chunk.length ∧ hexColEmitted chunk.length ≤ 48 :=
  (by decide : ∀ n ≤ 16, ∀ i ≤ n, hexColEmitted i ≤ hexColEmitted n ∧ hexColEmitted n ≤ 48)
    chunk.length hchunk i hi

include hchunk in
theorem length_paddedColumn (base : ℕ) : (paddedColumn highlights base chunk).length = 48 := by
  have hle := (hexColEmitted_le hchunk le_rfl).2
  rw [paddedColumn, List.length_append, length_hexColumn, length_plain, List.length_replicate]
  omega

include hbase hchunk

/-- **Each cell of a row with a byte holds its digits**, on the colour of its range. -/
theorem take_cell {i : ℕ} {b : UInt8} (hb : chunk[i]? = some b) :
    ((styledText (hexDumpRow highlights base chunk)).drop (cellAt i)).take 2 =
      (padded 2 b.toNat).map fun c => (c, colorAt highlights (base + i)) := by
  have hi : i < chunk.length := (List.getElem?_eq_some_iff.mp hb).1
  obtain ⟨before, behind, hcol, hlen⟩ := hexColumn_split highlights base hb
  obtain ⟨rest, hrow⟩ : ∃ rest, styledText (hexDumpRow highlights base chunk) =
      (plain ("  ".toList ++ padded 8 base ++ "  ".toList) ++ before) ++
        (((padded 2 b.toNat).map fun c => (c, colorAt highlights (base + i))) ++ rest) := by
    rw [styledText_hexDumpRow highlights base hchunk, paddedColumn, hcol]
    simp only [List.append_assoc, List.append_cancel_left_eq]
    exact ⟨_, rfl⟩
  have hcell : cellAt i = (plain ("  ".toList ++ padded 8 base ++ "  ".toList) ++ before :
      List (Char × Option Color)).length := by
    rw [List.length_append, length_plain, length_address hbase, hlen, hexColEmitted_eq (by omega),
      cellAt, Nat.add_assoc]
  have hdigits : ((padded 2 b.toNat).map fun c => (c, colorAt highlights (base + i))).length = 2 := by
    rw [List.length_map, length_digits]
  rw [hrow, hcell, List.drop_left, List.take_left' hdigits]

theorem take_cell_blank {i : ℕ} (hi : chunk.length ≤ i) (hi16 : i < 16) :
    ((rowText (hexDumpRow highlights base chunk)).drop (cellAt i)).take 2 = [' ', ' '] := by
  -- the cell starts behind the bytes, and ends before column 60
  have hwidth := (by decide : ∀ i < 16, ∀ n ≤ i, hexColEmitted n ≤ hexColEmitted i ∧
    hexColEmitted i + 2 ≤ 48) i hi16 chunk.length hi
  have hcell : cellAt i = 12 + hexColEmitted i := by
    rw [hexColEmitted_eq (by omega), cellAt, Nat.add_assoc]
  obtain ⟨before, behind, hrow, hlen⟩ : ∃ before behind, rowText (hexDumpRow highlights base chunk) =
      before ++ (List.replicate (48 - hexColEmitted chunk.length) ' ' ++ behind) ∧
        before.length = 12 + hexColEmitted chunk.length := by
    refine ⟨"  ".toList ++ padded 8 base ++ "  ".toList ++
      (hexColumn highlights base chunk).map Prod.fst, " |".toList ++ chunk.map asciiChar, ?_, ?_⟩
    · rw [rowText_eq_map, styledText_hexDumpRow highlights base hchunk, paddedColumn]
      simp [plain, Function.comp_def]
    · rw [List.length_append, length_address hbase, List.length_map, length_hexColumn]
  rw [hrow, hcell, List.drop_append, hlen, List.drop_of_length_le (by omega), List.nil_append,
    List.drop_append_of_le_length (by rw [List.length_replicate]; omega), List.drop_replicate,
    List.take_append_of_le_length (by rw [List.length_replicate]; omega), List.take_replicate,
    Nat.min_eq_left (by omega)]
  rfl

theorem drop_text : (rowText (hexDumpRow highlights base chunk)).drop 60 =
    " |".toList ++ chunk.map asciiChar := by
  have hcolumns : (plain ("  ".toList ++ padded 8 base ++ "  ".toList) ++
      paddedColumn highlights base chunk).length = 60 := by
    rw [List.length_append, length_plain, length_address hbase, length_paddedColumn highlights hchunk]
  rw [rowText_eq_map, styledText_hexDumpRow highlights base hchunk, List.map_append, List.drop_left'
    (by rw [List.length_map, hcolumns])]
  simp [plain, Function.comp_def]

/-- **A row reads back to its bytes.** -/
theorem readHexRow_row : readHexRow (rowText (hexDumpRow highlights base chunk)) = chunk := by
  have hcells : ∀ i ∈ List.range 16, readCell (((rowText (hexDumpRow highlights base chunk)).drop
      (cellAt i)).take 2) = chunk[i]? := by
    intro i hi
    have hi16 := List.mem_range.mp hi
    cases hb : chunk[i]? with
    | none =>
      rw [take_cell_blank highlights hbase hchunk (List.getElem?_eq_none_iff.mp hb) hi16]
      rfl
    | some b =>
      have hcell := congrArg (List.map Prod.fst) (take_cell highlights hbase hchunk hb)
      rw [List.map_take, List.map_drop, ← rowText_eq_map, List.map_map] at hcell
      rw [hcell, Function.comp_def, List.map_id', readCell_padded]
  rw [readHexRow, List.filterMap_congr hcells, filterMap_range_getElem?, List.take_of_length_le hchunk]

end Row

/-! ## The view -/

section View

variable {bytes : List UInt8} {limit : ℕ} {highlights : List (Highlight Color)} {baseOffset : ℕ}

/-- A row shows one chunk of what is displayed. -/
theorem getElem?_hexDumpRows {k : ℕ} {row : List (Span Color)}
    (h : (hexDumpRows bytes limit highlights baseOffset)[k]? = some row) :
    ∃ chunk, chunk = ((bytes.take (min bytes.length limit)).drop (16 * k)).take 16 ∧
      chunk.length ≤ 16 ∧ row = hexDumpRow highlights (16 * k + baseOffset) chunk := by
  rw [hexDumpRows, List.getElem?_mapIdx] at h
  obtain ⟨chunk, hchunk, rfl⟩ := Option.map_eq_some_iff.mp h
  have hpiece := getElem?_chunks hchunk
  exact ⟨chunk, hpiece, hpiece ▸ List.length_take_le 16 _, rfl⟩

theorem exists_row {k i : ℕ} (hshown : 16 * k + i < min bytes.length limit) :
    ∃ row, (hexDumpRows bytes limit highlights baseOffset)[k]? = some row := by
  have hlen : (bytes.take (min bytes.length limit)).length = min bytes.length limit :=
    List.length_take_of_le (Nat.min_le_left _ _)
  refine ⟨_, List.getElem?_eq_getElem ?_⟩
  rw [hexDumpRows, List.length_mapIdx, chunks, List.length_map, List.length_range, hlen]
  omega

theorem map_readHexRow (hbase : ∀ k row, (hexDumpRows bytes limit highlights baseOffset)[k]? = some row →
    16 * k + baseOffset < 2 ^ 32) :
    ((hexDumpRows bytes limit highlights baseOffset).map fun row => readHexRow (rowText row)) =
      chunks 16 (bytes.take (min bytes.length limit)) := by
  refine List.ext_getElem? fun k => ?_
  rw [hexDumpRows, List.getElem?_map, List.getElem?_mapIdx, Option.map_map]
  cases hchunk : (chunks 16 (bytes.take (min bytes.length limit)))[k]? with
  | none => rfl
  | some chunk =>
    have hlen : chunk.length ≤ 16 := getElem?_chunks hchunk ▸ List.length_take_le 16 _
    have hrow : (hexDumpRows bytes limit highlights baseOffset)[k]? =
        some (hexDumpRow highlights (16 * k + baseOffset) chunk) := by
      rw [hexDumpRows, List.getElem?_mapIdx, hchunk, Option.map_some]
    exact congrArg some (readHexRow_row highlights (hbase k _ hrow) hlen)

/-- The colour of an address is that of the first range over it. -/
theorem colorAt_eq_some_iff {off : ℕ} {c : Color} : colorAt highlights off = some c ↔
    ∃ before h behind, highlights = before ++ h :: behind ∧ (∀ h' ∈ before, ¬h'.Covers off) ∧
      h.Covers off ∧ h.color = c := by
  constructor
  · intro hcolor
    obtain ⟨h, hfind, hc⟩ := Option.map_eq_some_iff.mp hcolor
    obtain ⟨hcovers, before, behind, hsplit, hbefore⟩ := List.find?_eq_some_iff_append.mp hfind
    exact ⟨before, h, behind, hsplit, fun h' hm => by simpa using hbefore h' hm,
      of_decide_eq_true hcovers, hc⟩
  · rintro ⟨before, h, behind, hsplit, hbefore, hcovers, rfl⟩
    have hfind : (highlights.find? fun h => h.Covers off) = some h :=
      List.find?_eq_some_iff_append.mpr ⟨decide_eq_true hcovers, before, behind, hsplit,
        fun h' hm => by simpa using hbefore h' hm⟩
    rw [colorAt, hfind, Option.map_some]

theorem isSome_colorAt_iff {off : ℕ} :
    (colorAt highlights off).isSome = true ↔ ∃ h ∈ highlights, h.Covers off := by
  rw [colorAt, Option.isSome_map, List.find?_isSome]
  simp

end View

/-- **The hex view is faithful**: its rows read back to the bytes on display, their addresses count up
in steps of 16 from the base offset, their texts start at column 60, and each byte is drawn on the
colour of the first range that covers it, if any does. -/
theorem hex_view_faithful (bytes : List UInt8) (limit : ℕ) (highlights : List (Highlight Color))
    (baseOffset : ℕ) (haddresses : ∀ k < (hexDumpRows bytes limit highlights baseOffset).length,
      16 * k + baseOffset < 2 ^ 32) :
    ((hexDumpRows bytes limit highlights baseOffset).flatMap fun row => readHexRow (rowText row)) =
      bytes.take (min bytes.length limit) ∧
    (∀ k row, (hexDumpRows bytes limit highlights baseOffset)[k]? = some row →
      readAddress (rowText row) = some (baseOffset + 16 * k) ∧
      (rowText row).drop 60 = " |".toList ++
        (((bytes.take (min bytes.length limit)).drop (16 * k)).take 16).map asciiChar) ∧
    ∀ k i, i < 16 → 16 * k + i < min bytes.length limit →
      ∃ row color, (hexDumpRows bytes limit highlights baseOffset)[k]? = some row ∧
        (((styledText row).drop (cellAt i)).take 2).map Prod.snd = [color, color] ∧
        (color.isSome = true ↔ ∃ h ∈ highlights, h.Covers (baseOffset + (16 * k + i))) ∧
        ∀ c, color = some c ↔ ∃ before h behind, highlights = before ++ h :: behind ∧
          (∀ h' ∈ before, ¬h'.Covers (baseOffset + (16 * k + i))) ∧
          h.Covers (baseOffset + (16 * k + i)) ∧ h.color = c := by
  have hbase : ∀ k row, (hexDumpRows bytes limit highlights baseOffset)[k]? = some row →
      16 * k + baseOffset < 2 ^ 32 := fun k row hrow =>
    haddresses k (List.getElem?_eq_some_iff.mp hrow).1
  refine ⟨?_, fun k row hrow => ?_, fun k i hi hshown => ?_⟩
  · rw [List.flatMap_def, map_readHexRow hbase, flatten_chunks (by decide)]
  · obtain ⟨chunk, hpiece, hlen, rfl⟩ := getElem?_hexDumpRows hrow
    rw [← hpiece, Nat.add_comm baseOffset]
    exact ⟨readAddress_row highlights (hbase k _ hrow), drop_text highlights (hbase k _ hrow) hlen⟩
  · have hexists : ∃ row, (hexDumpRows bytes limit highlights baseOffset)[k]? = some row :=
      exists_row hshown
    obtain ⟨row, hrow⟩ := hexists
    obtain ⟨chunk, hpiece, hlen, rfl⟩ := getElem?_hexDumpRows hrow
    have hb : chunk[i]? = some (bytes.get ⟨16 * k + i, by omega⟩) := by
      rw [hpiece, List.getElem?_take_of_lt hi, List.getElem?_drop, List.getElem?_take_of_lt hshown,
        List.getElem?_eq_getElem (by omega), List.get_eq_getElem]
    have hcell := take_cell highlights (hbase k _ hrow) hlen hb
    have haddress : 16 * k + baseOffset + i = baseOffset + (16 * k + i) := by omega
    refine ⟨_, colorAt highlights (baseOffset + (16 * k + i)), hrow, ?_, isSome_colorAt_iff,
      fun c => colorAt_eq_some_iff⟩
    obtain ⟨c, d, hdigits⟩ := List.length_eq_two.mp (length_digits (bytes.get ⟨16 * k + i, by omega⟩))
    rw [hcell, haddress, hdigits]
    rfl

/-- A short last row, with two ranges that overlap. -/
theorem hex_view_faithful_short_row :
    ((hexDumpRows [0x41, 0x00, 0xff] 2 [⟨5, 1, 'r'⟩, ⟨4, 8, 'g'⟩] 4).flatMap fun row =>
      readHexRow (rowText row)) = [0x41, 0x00] :=
  (hex_view_faithful [0x41, 0x00, 0xff] 2 [⟨5, 1, 'r'⟩, ⟨4, 8, 'g'⟩] 4 (by decide)).1

end GcScope
