import Mathlib.Algebra.Group.Int.Defs
import Mathlib.Algebra.Group.Nat.Defs
import Mathlib.Data.List.Basic
import Mathlib.Order.MinMax

/-!
# Cells in columns

A line shows cells beside one another, each padded in front to the width of its column, with one blank
between two columns. A cell wider than its column is shown whole, and what follows moves along.

* `padStart`, `layOut`: a cell, and a line.
* `words`, `cut`: the two ways to take a line apart, by blanks and by the columns.
* `textLine`, `wordsOf`, `cellsOf`: the same for lines of text.
* **`words_layOut`**: cells without a blank are the words of the line, whatever the columns.
* **`length_layOut_eq_iff`**: the line is as long as its columns exactly where every cell fits.
* **`cut_layOut_iff`**: cells are read back by the columns exactly where they fit.
-/

set_option autoImplicit false

namespace Columns

variable {α : Type*} (blank : α)

/-- A cell under its column. -/
def padStart (width : ℕ) (cell : List α) : List α := List.replicate (width - cell.length) blank ++ cell

/-- A line of cells, each with the width of its column. -/
def layOut (cells : List (ℕ × List α)) : List α :=
  [blank].intercalate (cells.map fun c => padStart blank c.1 c.2)

/-- How long a line is whose cells fit. -/
def lineLength : List ℕ → ℕ
  | [] => 0
  | [w] => w
  | w :: ws => w + 1 + lineLength ws

/-- Every cell fits under its column. -/
def Fits (cells : List (ℕ × List α)) : Prop := ∀ c ∈ cells, c.2.length ≤ c.1

variable {blank} {cells : List (ℕ × List α)} {c : ℕ × List α}

theorem length_padStart (w : ℕ) (cell : List α) :
    (padStart blank w cell).length = max w cell.length := by
  rw [padStart, List.length_append, List.length_replicate]
  omega

theorem layOut_singleton (c : ℕ × List α) : layOut blank [c] = padStart blank c.1 c.2 := by
  rw [layOut, List.map_singleton, List.intercalate_singleton]

theorem layOut_cons (c : ℕ × List α) (h : cells ≠ []) :
    layOut blank (c :: cells) = padStart blank c.1 c.2 ++ blank :: layOut blank cells := by
  obtain ⟨d, ds, rfl⟩ := List.exists_cons_of_ne_nil h
  rw [layOut, List.map_cons, List.map_cons, List.intercalate_cons_cons, List.append_assoc]
  rfl

/-! ## The length of a line -/

theorem lineLength_cons (w : ℕ) {ws : List ℕ} (h : ws ≠ []) :
    lineLength (w :: ws) = w + 1 + lineLength ws := by
  obtain ⟨v, vs, rfl⟩ := List.exists_cons_of_ne_nil h
  rfl

theorem lineLength_le : lineLength (cells.map Prod.fst) ≤ (layOut blank cells).length := by
  induction cells with
  | nil => exact Nat.zero_le _
  | cons c cells ih =>
    rcases eq_or_ne cells [] with rfl | hne
    · rw [layOut_singleton, length_padStart]
      exact le_max_left _ _
    · rw [layOut_cons c hne, List.map_cons, lineLength_cons _ (by simpa using hne), List.length_append,
        length_padStart, List.length_cons]
      omega

/-- **A line is as long as its columns exactly where every cell fits.** -/
theorem length_layOut_eq_iff :
    (layOut blank cells).length = lineLength (cells.map Prod.fst) ↔ Fits cells := by
  induction cells with
  | nil => exact iff_of_true rfl fun c hc => nomatch hc
  | cons c cells ih =>
    rw [Fits, List.forall_mem_cons]
    rcases eq_or_ne cells [] with rfl | hne
    · rw [layOut_singleton, length_padStart]
      simp only [List.map_cons, List.map_nil, lineLength, List.not_mem_nil, false_implies,
        implies_true, and_true]
      exact max_eq_left_iff
    · have hle : lineLength (cells.map Prod.fst) ≤ (layOut blank cells).length := lineLength_le
      rw [layOut_cons c hne, List.map_cons, lineLength_cons _ (by simpa using hne), List.length_append,
        length_padStart, List.length_cons, ← Fits, ← ih]
      omega

/-! ## Reading a line back -/

variable [DecidableEq α]

variable (blank) in
/-- The pieces of a line between blanks. -/
def words (line : List α) : List (List α) := (line.splitOn blank).filter fun w => w ≠ []

variable (blank) in
/-- What stands under each column, without the blanks in front. -/
def cut : List ℕ → List α → List (List α)
  | [], _ => []
  | w :: ws, line => (line.take w).dropWhile (fun a => a = blank) :: cut ws (line.drop (w + 1))

theorem words_append_blank (line rest : List α) :
    words blank (line ++ blank :: rest) = words blank line ++ words blank rest := by
  have hsplit := List.splitOnP_append_cons (p := fun x => x == blank) line rest (beq_self_eq_true blank)
  rw [words, List.splitOn, hsplit, List.filter_append]
  rfl

theorem words_cons_blank (line : List α) : words blank (blank :: line) = words blank line := by
  have hsplit : words blank ([] ++ blank :: line) = words blank [] ++ words blank line :=
    words_append_blank [] line
  rwa [List.nil_append, show words blank [] = [] from rfl, List.nil_append] at hsplit

theorem words_padStart {cell : List α} (hne : cell ≠ []) (h : blank ∉ cell) (w : ℕ) :
    words blank (padStart blank w cell) = [cell] := by
  rw [padStart]
  induction w - cell.length with
  | zero =>
    have hsplit : cell.splitOn blank = [cell] :=
      List.splitOnP_eq_singleton fun a ha => beq_eq_false_iff_ne.mpr fun heq => h (heq ▸ ha)
    rw [List.replicate_zero, List.nil_append, words, hsplit]
    simp [hne]
  | succ n ih => rw [List.replicate_succ, List.cons_append, words_cons_blank, ih]

/-- **Cells without a blank are the words of the line**, however wide they are. -/
theorem words_layOut (h : ∀ c ∈ cells, c.2 ≠ [] ∧ blank ∉ c.2) :
    words blank (layOut blank cells) = cells.map Prod.snd := by
  induction cells with
  | nil => rfl
  | cons c cells ih =>
    obtain ⟨hc, hcells⟩ := List.forall_mem_cons.mp h
    rcases eq_or_ne cells [] with rfl | hne
    · rw [layOut_singleton, words_padStart hc.1 hc.2]
      rfl
    · rw [layOut_cons c hne, words_append_blank, words_padStart hc.1 hc.2, ih hcells]
      rfl

/-- A cell without a blank in front is what is left of it when the padding goes. -/
theorem dropWhile_padStart {cell : List α} (h : cell.head? ≠ some blank) (w : ℕ) :
    (padStart blank w cell).dropWhile (fun a => a = blank) = cell := by
  rw [padStart]
  induction w - cell.length with
  | zero =>
    cases cell with
    | nil => rfl
    | cons a cell =>
      have ha : a ≠ blank := fun heq => h (by rw [heq]; rfl)
      rw [List.replicate_zero, List.nil_append, List.dropWhile_cons_of_neg (by simpa using ha)]
  | succ n ih => rw [List.replicate_succ, List.cons_append, List.dropWhile_cons_of_pos (by simp), ih]

/-- **Cells are read back by the columns exactly where they fit.** -/
theorem cut_layOut_iff (h : ∀ c ∈ cells, c.2.head? ≠ some blank) :
    cut blank (cells.map Prod.fst) (layOut blank cells) = cells.map Prod.snd ↔ Fits cells := by
  induction cells with
  | nil => exact iff_of_true rfl fun c hc => nomatch hc
  | cons c cells ih =>
    obtain ⟨hc, hcells⟩ := List.forall_mem_cons.mp h
    rw [Fits, List.forall_mem_cons, ← Fits, List.map_cons, List.map_cons, cut, List.cons.injEq]
    by_cases hfit : c.2.length ≤ c.1
    · have hlen : (padStart blank c.1 c.2).length = c.1 := by
        rw [length_padStart, max_eq_left hfit]
      rw [and_iff_right hfit]
      rcases eq_or_ne cells [] with rfl | hne
      · rw [layOut_singleton, List.take_of_length_le hlen.le, dropWhile_padStart hc]
        exact iff_of_true ⟨rfl, rfl⟩ fun c hc => nomatch hc
      · have htake : (layOut blank (c :: cells)).take c.1 = padStart blank c.1 c.2 := by
          rw [layOut_cons c hne, List.take_left' hlen]
        have hdrop : (layOut blank (c :: cells)).drop (c.1 + 1) = layOut blank cells := by
          rw [layOut_cons c hne, ← List.drop_drop, List.drop_left' hlen]
          rfl
        rw [htake, hdrop, dropWhile_padStart hc, ← ih hcells]
        exact and_iff_right rfl
    · -- no more is read than there is place for
      refine iff_of_false (fun hread => hfit ?_) fun hfits => hfit hfits.1
      have hle := (List.dropWhile_suffix (fun a => decide (a = blank))
        (l := (layOut blank (c :: cells)).take c.1)).length_le
      rw [hread.1] at hle
      exact hle.trans (List.length_take_le _ _)

/-! ## Text -/

/-- A cell under its column, to the right. -/
def rightAlign (width : ℕ) (cell : String) : String :=
  String.ofList (padStart ' ' width cell.toList)

/-- A line of text: the cells, each under its column. -/
def textLine (widths : List ℕ) (cells : List String) : String :=
  " ".intercalate ((widths.zip cells).map fun c => rightAlign c.1 c.2)

/-- A cell that is one word. -/
def IsWord (cell : String) : Prop := cell.toList ≠ [] ∧ ' ' ∉ cell.toList

instance (cell : String) : Decidable (IsWord cell) := by
  unfold IsWord
  infer_instance

/-- The words of a line of text. -/
def wordsOf (line : String) : List (List Char) := words ' ' line.toList

/-- What stands under each column of a line of text. -/
def cellsOf (widths : List ℕ) (line : String) : List String :=
  (cut ' ' widths line.toList).map String.ofList

section Text

variable {widths : List ℕ} {cells : List String}

theorem toList_textLine (widths : List ℕ) (cells : List String) : (textLine widths cells).toList =
    layOut ' ' (widths.zip (cells.map String.toList)) := by
  rw [textLine, String.toList_intercalate, layOut, List.zip_map_right, List.map_map, List.map_map]
  congr 1
  refine List.map_congr_left fun c _ => ?_
  simp only [Function.comp_apply, rightAlign, String.toList_ofList, Prod.map_fst, Prod.map_snd, id]

theorem wordsOf_textLine (hlen : widths.length = cells.length) (h : ∀ cell ∈ cells, IsWord cell) :
    wordsOf (textLine widths cells) = cells.map String.toList := by
  rw [wordsOf, toList_textLine, words_layOut, List.map_snd_zip (by simp [hlen])]
  intro c hc
  obtain ⟨cell, hcell, hc⟩ := List.mem_map.mp (List.of_mem_zip hc).2
  rw [← hc]
  exact h cell hcell

theorem le_length_textLine (hlen : widths.length = cells.length) :
    lineLength widths ≤ (textLine widths cells).length := by
  have hwidths : (widths.zip (cells.map String.toList)).map Prod.fst = widths :=
    List.map_fst_zip (by simp [hlen])
  rw [← String.length_toList, toList_textLine]
  conv_lhs => rw [← hwidths]
  exact lineLength_le

theorem length_textLine_eq_iff (hlen : widths.length = cells.length) :
    (textLine widths cells).length = lineLength widths ↔
      ∀ c ∈ widths.zip cells, c.2.length ≤ c.1 := by
  have hwidths : (widths.zip (cells.map String.toList)).map Prod.fst = widths :=
    List.map_fst_zip (by simp [hlen])
  have hline : (layOut ' ' (widths.zip (cells.map String.toList))).length =
      lineLength ((widths.zip (cells.map String.toList)).map Prod.fst) ↔ _ := length_layOut_eq_iff
  rw [hwidths] at hline
  rw [← String.length_toList, toList_textLine, hline, Fits, List.zip_map_right]
  simp only [List.forall_mem_map, Prod.map_fst, Prod.map_snd, id, String.length_toList]

theorem cellsOf_textLine_iff (hlen : widths.length = cells.length)
    (h : ∀ cell ∈ cells, cell.toList.head? ≠ some ' ') :
    cellsOf widths (textLine widths cells) = cells ↔ ∀ c ∈ widths.zip cells, c.2.length ≤ c.1 := by
  have hwidths : (widths.zip (cells.map String.toList)).map Prod.fst = widths :=
    List.map_fst_zip (by simp [hlen])
  have hcells : (widths.zip (cells.map String.toList)).map Prod.snd = cells.map String.toList :=
    List.map_snd_zip (by simp [hlen])
  have hcut : cut ' ' ((widths.zip (cells.map String.toList)).map Prod.fst)
      (layOut ' ' (widths.zip (cells.map String.toList))) = _ ↔ _ := cut_layOut_iff ?_
  · rw [hwidths, hcells, Fits, List.zip_map_right] at hcut
    simp only [List.forall_mem_map, Prod.map_fst, Prod.map_snd, id, String.length_toList] at hcut
    rw [cellsOf, toList_textLine, List.zip_map_right, ← hcut]
    have hback : (cells.map String.toList).map String.ofList = cells := by
      rw [List.map_map]
      exact List.map_id'' (fun _ => String.ofList_toList) cells
    have hforth : ∀ texts : List (List Char), (texts.map String.ofList).map String.toList = texts := by
      intro texts
      rw [List.map_map]
      exact List.map_id'' (fun _ => String.toList_ofList) texts
    constructor
    · intro hread
      rw [← hforth (cut _ _ _), hread]
    · intro hread
      rw [hread, hback]
  · intro c hc
    obtain ⟨cell, hcell, hc⟩ := List.mem_map.mp (List.of_mem_zip hc).2
    rw [← hc]
    exact h cell hcell

end Text

theorem isWord_natRepr (n : ℕ) : IsWord n.repr := by
  rw [IsWord, Nat.toList_repr]
  refine ⟨Nat.toDigits_ne_nil, fun h => ?_⟩
  exact absurd (Nat.isDigit_of_mem_toDigits (by decide) (by decide) h) (by decide)

theorem isWord_intRepr (z : ℤ) : IsWord z.repr := by
  cases z with
  | ofNat n => exact isWord_natRepr n
  | negSucc n =>
    obtain ⟨-, hn⟩ := isWord_natRepr (n + 1)
    rw [IsWord, Int.repr, Nat.succ_eq_add_one, String.toList_append]
    exact ⟨fun h => by simp at h, fun h => (List.mem_append.mp h).elim (by decide) hn⟩

theorem length_intRepr_le_iff (z : ℤ) {k : ℕ} (hk : 0 < k) :
    z.repr.length ≤ k + 1 ↔ -10 ^ k < z ∧ z < 10 ^ (k + 1) := by
  have hpow : ((10 ^ k : ℕ) : ℤ) = 10 ^ k := Int.natCast_pow 10 k
  have hpow' : ((10 ^ (k + 1) : ℕ) : ℤ) = 10 ^ (k + 1) := Int.natCast_pow 10 (k + 1)
  have hpos : 0 < 10 ^ k := Nat.pow_pos (by decide)
  rw [← hpow, ← hpow']
  cases z with
  | ofNat n =>
    have hrepr : (Int.ofNat n).repr.length ≤ k + 1 ↔ n < 10 ^ (k + 1) :=
      Nat.length_repr_le_iff (Nat.succ_pos k)
    rw [hrepr, Int.ofNat_eq_natCast]
    omega
  | negSucc n =>
    have hrepr : (Int.negSucc n).repr.length = 1 + (n + 1).repr.length := by
      rw [Int.repr, String.length_append]
      rfl
    have hdigits : (n + 1).repr.length ≤ k ↔ n + 1 < 10 ^ k := Nat.length_repr_le_iff hk
    rw [hrepr, Int.negSucc_eq]
    omega

theorem IsWord.head?_ne {cell : String} (h : IsWord cell) : cell.toList.head? ≠ some ' ' :=
  fun hhead => h.2 (List.mem_of_mem_head? hhead)

end Columns
