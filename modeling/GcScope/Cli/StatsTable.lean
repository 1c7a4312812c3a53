import GcScope.Lib.Columns
import GcScope.Lib.JsonText
import GcScope.RemoteDebugging.GcStat

/-!
# The table of the Records

The Records of a read are printed as a table, with more columns for the builds that publish more.

* `FixedF64`: how a double is formatted with a fixed number of decimals.
* `render`: the table.
* `figures`: what a row tells.
* **`stats_table_reads_back`**: the words of the table, whatever the figures, and how far the rows stand
  from their headings.
-/

set_option autoImplicit false

namespace GcScope

open Json Columns

/-- How a double is formatted with so many decimals: as one word, also where it is not finite. -/
class FixedF64 (F : Type) [F64 F] where
  fixed : ℕ → F → String
  fixed_ne_nil (decimals : ℕ) (x : F) : (fixed decimals x).toList ≠ []
  blank_notMem_fixed (decimals : ℕ) (x : F) : ' ' ∉ (fixed decimals x).toList
  /-- The magnitude is so much at least. -/
  absAtLeast : F → ℤ → Bool

/-- A rational to so many decimals, halves to even. -/
def fixedRat (decimals : ℕ) (q : ℚ) : String :=
  let units := Rat.mul (if q < 0 then -q else q) (10 ^ decimals : ℕ)
  let down := units.floor.toNat
  let twice := Rat.mul (units - down) 2
  let n := if twice < 1 ∨ twice = 1 ∧ down % 2 = 0 then down else down + 1
  (if q < 0 then "-" else "") ++ (n / 10 ^ decimals).repr ++ "." ++
    String.ofList (padStart '0' decimals (n % 10 ^ decimals).repr.toList)

theorem isWord_fixedRat (decimals : ℕ) (q : ℚ) : IsWord (fixedRat decimals q) := by
  have hsign : ' ' ∉ (if q < 0 then "-" else "").toList := by
    split_ifs <;> decide
  have hpad : ∀ n : ℕ, ' ' ∉ padStart '0' decimals n.repr.toList := by
    intro n h
    rcases List.mem_append.mp h with h | h
    · exact absurd (List.eq_of_mem_replicate h) (by decide)
    · exact (isWord_natRepr n).2 h
  simp only [fixedRat, IsWord, String.toList_append, String.toList_ofList, List.mem_append, not_or]
  exact ⟨by simp, ⟨⟨hsign, (isWord_natRepr _).2⟩, by decide⟩, hpad _⟩

instance (ofBits : BitVec 64 → ℚ) : FixedF64 (Secs ofBits) where
  fixed := fixedRat
  fixed_ne_nil decimals x := (isWord_fixedRat decimals x).1
  blank_notMem_fixed decimals x := (isWord_fixedRat decimals x).2
  absAtLeast (q : ℚ) n := decide ((n : ℚ) ≤ if q < 0 then -q else q)

namespace StatsTable

variable {F : Type} [F64 F] [FixedF64 F]

/-! ## The table -/

/-- The columns every build has, with their widths. -/
def coreColumns : List (String × ℕ) :=
  [("generation", 3), ("Entry", 4), ("IntID", 6), ("Collections", 14), ("Collected", 14),
    ("Uncollect.", 14), ("Candidates", 14), ("HeapSize", 14), ("Duration", 10)]

/-- The columns of an extended build, with the fields they show. -/
def extendedColumns : List ((String × ℕ) × String) :=
  [(("IncrSize", 14), "increment_size"), (("AliveSize", 14), "alive_size"),
    (("Finalized", 14), "finalized_garbage_count"), (("ClearWKRef", 14), "clear_weakrefs_count"),
    (("DeletedGC", 14), "deleted_garbage_count"), (("MarkAlive", 14), "ts_mark_alive_start")]

def columns (extended : Bool) : List (String × ℕ) :=
  coreColumns ++ if extended then extendedColumns.map Prod.fst else []

/-- Whether any Record comes from an extended build. -/
def hasExtended (stats : List GcStat) : Bool := stats.any fun s => s.has "increment_size"

def formatHeader (extended : Bool) : String :=
  textLine ((columns extended).map Prod.snd) ((columns extended).map Prod.fst)

variable (F) in
/-- The cells of a row; a field the Record lacks is shown as zero. -/
def cells (s : GcStat) (extended : Bool) : List String :=
  [toString s.generation, toString s.index, toString s.interpreterId, toString s.collections,
      toString s.collected, toString s.uncollectable, toString s.candidates, toString s.heapSize,
      FixedF64.fixed 6 (s.duration : F)] ++
    if extended then extendedColumns.map fun c => toString ((s.get c.2).getD 0) else []

variable (F) in
def formatRow (s : GcStat) (extended : Bool) : String :=
  textLine ((columns extended).map Prod.snd) (cells F s extended)

variable (F) in
/-- The lines of the table. -/
def render (stats : List GcStat) : List String :=
  if stats.isEmpty then ["No GC stats found."]
  else
    let extended := hasExtended stats
    let header := formatHeader extended
    header :: String.ofList (List.replicate header.length '-') ::
      stats.map fun s => formatRow F s extended

/-! ## Reading it back -/

variable (F) in
/-- What a row tells: the figures of a Record, with the seconds as they are spelt. -/
def figures (s : GcStat) (extended : Bool) : List (Option ℚ) :=
  [some (s.generation : ℚ), some (s.index : ℚ), some (s.interpreterId : ℚ), some (s.collections : ℚ),
      some (s.collected : ℚ), some (s.uncollectable : ℚ), some (s.candidates : ℚ),
      some (s.heapSize : ℚ), number? (FixedF64.fixed 6 (s.duration : F)).toList] ++
    if extended then extendedColumns.map fun c => some ((((s.get c.2).getD 0 : ℤ)) : ℚ) else []

theorem length_cells (s : GcStat) (extended : Bool) :
    ((columns extended).map Prod.snd).length = (cells F s extended).length := by
  cases extended <;> rfl

theorem isWord_cells (s : GcStat) (extended : Bool) :
    ∀ cell ∈ cells F s extended, IsWord cell := by
  have hfixed : IsWord (FixedF64.fixed 6 (s.duration : F)) :=
    ⟨FixedF64.fixed_ne_nil _ _, FixedF64.blank_notMem_fixed _ _⟩
  intro cell hcell
  rcases List.mem_append.mp hcell with hcell | hcell
  · simp only [List.mem_cons, List.not_mem_nil, or_false] at hcell
    rcases hcell with rfl | rfl | rfl | rfl | rfl | rfl | rfl | rfl | rfl
    · exact isWord_natRepr _
    · exact isWord_natRepr _
    all_goals first | exact isWord_intRepr _ | exact hfixed
  · cases extended with
    | false => cases hcell
    | true =>
      obtain ⟨c, -, rfl⟩ := List.mem_map.mp hcell
      exact isWord_intRepr _

theorem number?_cells (s : GcStat) (extended : Bool) :
    (cells F s extended).map (fun cell => number? cell.toList) = figures F s extended := by
  have hnat : ∀ n : ℕ, number? (toString n).toList = some (n : ℚ) := number?_natRepr
  have hint : ∀ z : ℤ, number? (toString z).toList = some (z : ℚ) := number?_intRepr
  rw [cells, figures, List.map_append]
  congr 1
  · simp only [List.map_cons, List.map_nil, hnat, hint]
  · cases extended with
    | false => rfl
    | true => simp only [if_true, List.map_map, Function.comp_def, hint]

theorem wordsOf_formatHeader (extended : Bool) :
    wordsOf (formatHeader extended) = (columns extended).map fun c => c.1.toList := by
  rw [formatHeader, wordsOf_textLine (by simp), List.map_map]
  · rfl
  · cases extended <;> decide

theorem length_formatHeader (extended : Bool) : (formatHeader extended).length =
    lineLength ((columns extended).map Prod.snd) + 8 := by
  rw [← String.length_toList, formatHeader, toList_textLine]
  cases extended <;> decide +kernel

/-- **The table reads back**, whatever its figures: the words of its lines are the headings and what the
Records hold. A row is eight places shorter than the header exactly where its figures fit. -/
theorem stats_table_reads_back (stats : List GcStat) :
    ((render F stats).drop 2).map (fun line => (wordsOf line).map number?) =
        stats.map (fun s => figures F s (hasExtended stats)) ∧
      (∀ extended, wordsOf (formatHeader extended) =
        (columns extended).map fun c => c.1.toList) ∧
      ∀ s extended, (formatRow F s extended).length + 8 = (formatHeader extended).length ↔
        ∀ c ∈ ((columns extended).map Prod.snd).zip (cells F s extended), c.2.length ≤ c.1 := by
  refine ⟨?_, wordsOf_formatHeader, fun s extended => ?_⟩
  · cases stats with
    | nil => rfl
    | cons s rest =>
      rw [render, List.isEmpty_cons, if_neg Bool.false_ne_true]
      simp only [List.drop_succ_cons, List.drop_zero, List.map_map]
      refine List.map_congr_left fun s _ => ?_
      rw [Function.comp_apply, formatRow, wordsOf_textLine (length_cells s _) (isWord_cells s _),
        List.map_map]
      exact number?_cells s _
  · rw [length_formatHeader, Nat.add_right_cancel_iff, formatRow,
      length_textLine_eq_iff (length_cells s extended)]

end StatsTable

end GcScope
