import Mathlib.Tactic.FinCases
import GcScope.RemoteDebugging.RingShape

/-!
# The rows of a configured table

A configured table lays its Entries out as rows, one a generation; a ring has a cursor word behind
each row.

* `OffsetTable.Configured`: the tables the two setters build; `regionBytes`: the size of their regions.
* **`Configured.exists_rows`**: their rows, which end below `2 ^ 64` when the region does.
* `slotEnd_le`: every slot ends inside what the decoder needs.
-/

set_option autoImplicit false

namespace GcScope.OffsetTable

open MachineInt

/-- The tables the two setters build. -/
inductive Configured (itemSize : ℕ) (layout : GcItemLayout) : OffsetTable → Prop where
  | inline (t : OffsetTable) (inlineOff : BitVec 64) :
    Configured itemSize layout (t.setInline itemSize layout inlineOff)
  | ring (t : OffsetTable) (freeThreaded : ℕ) :
    Configured itemSize layout (t.setRing itemSize layout freeThreaded)

variable {t : OffsetTable} {itemSize : ℕ} {layout : GcItemLayout}

/-- The gap behind a generation: a cursor word in a ring. -/
def indexGap (t : OffsetTable) : ℕ := if t.gcStatsKind = .ringBuffer then 8 else 0

/-- The bytes of the region, gaps included, as a sum that does not wrap around. -/
def regionBytes (t : OffsetTable) (itemSize : ℕ) : ℕ :=
  ((List.finRange 3).map fun g =>
    (t.gcEntriesPerGen.getD fun _ => 0) g * itemSize + t.indexGap).sum

theorem regionBytes_setInline (t : OffsetTable) (itemSize : ℕ) (layout : GcItemLayout)
    (inlineOff : BitVec 64) :
    (t.setInline itemSize layout inlineOff).regionBytes itemSize = 3 * itemSize := by
  simp [regionBytes, setInline, indexGap, List.finRange_succ]
  ring

theorem regionBytes_setRing (t : OffsetTable) (itemSize : ℕ) (layout : GcItemLayout)
    (freeThreaded : ℕ) : (t.setRing itemSize layout freeThreaded).regionBytes itemSize =
      ringDepth freeThreaded * itemSize + 24 := by
  unfold ringDepth
  simp [regionBytes, setRing, indexGap, List.finRange_succ, ringEntries]
  split_ifs <;> simp <;> ring

/-- Each generation of a configured table starts behind the one before and its gap, and the last
one ends where a word still reaches. -/
theorem Configured.exists_rows (h : Configured itemSize layout t) (hpos : itemSize ≠ 0)
    (hfit : t.regionBytes itemSize < 2 ^ 64) :
    ∃ R : Rows 3, R.item = itemSize ∧ R.gap = t.indexGap ∧ R.stop 2 < 2 ^ 64 ∧
      t.Decodes itemSize R.depth R.base layout := by
  cases h with
  | inline t off =>
    rw [regionBytes_setInline] at hfit
    have hd := t.setInline_decodes layout hpos off
    rw [wrapU64_of_lt (show 2 * itemSize < 2 ^ 64 by omega)] at hd
    refine ⟨⟨itemSize, ![1, 1, 1], ![0, itemSize, 2 * itemSize], 0, ?_⟩, rfl, rfl, ?_, hd⟩
    · intro r r' hr
      fin_cases r <;> fin_cases r' <;> simp at hr ⊢ <;> omega
    · simp [Rows.stop]
      omega
  | ring t ft =>
    rw [regionBytes_setRing] at hfit
    have hd := t.setRing_decodes layout hpos ft
    rw [computeRingBaseOffsets_of_fits hfit] at hd
    refine ⟨⟨itemSize, ringEntries ft, ![0, ringEntries ft 0 * itemSize + 8,
      ringEntries ft 0 * itemSize + 8 + ringEntries ft 1 * itemSize + 8], 8, ?_⟩, rfl, rfl, ?_, hd⟩
    · intro r r' hr
      fin_cases r <;> fin_cases r' <;> simp at hr ⊢
      omega
    · unfold ringDepth at hfit
      unfold Rows.stop ringEntries
      split_ifs at hfit ⊢ <;> simp <;> omega

section Rows

variable {R : Rows 3} (hd : t.Decodes R.item R.depth R.base layout) (hlt : R.stop 2 < 2 ^ 64)

include hd hlt

theorem Decodes.statsBufferLen_rows : t.statsBufferLen = some (R.stop 2) :=
  hd.statsBufferLen.trans (congrArg some (wrapU64_of_lt hlt))

theorem Decodes.entryByteOffset_rows {p : Fin 3 × ℕ} (hp : p ∈ R.slots) :
    t.entryByteOffset p.1 p.2 = some (R.start p.1 p.2) := by
  have hend := Rows.start_add_item_le hp (Fin.le_last p.1)
  have hw : R.base p.1 + p.2 * R.item < 2 ^ 64 :=
    ((Nat.le_add_right _ _).trans hend).trans_lt hlt
  rw [R.mem_slots] at hp
  simp [entryByteOffset, hd.item, hd.bases, hd.entries, Nat.not_le.mpr hp, Rows.start,
    wrapU64_of_lt hw]

omit hd hlt in
theorem slotEnd_le {p : Fin 3 × ℕ} (hp : p ∈ R.slots) : slotEnd R.item R.base p ≤ R.stop 2 :=
  Rows.start_add_item_le hp (Fin.le_last p.1)

end Rows

end GcScope.OffsetTable
