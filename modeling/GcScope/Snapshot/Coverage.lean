import GcScope.Snapshot.Collect

/-!
# The decoder covers the stats region

The decoder, the offsets drawn beside an Entry and the window an Entry is viewed through each compute
a place in the region on their own.

* `selectedEntryBytes`, `ringIndexOffsets`, `entryView`: what the viewer shows of a region.
* `Decodes.decodeGcStats_rows`: the decoder yields one Record a slot.
* **`Configured.coverage`**: the slots are decoded once each, do not overlap each other or a cursor
  word, and are viewed where they were read; `wrapped_not_covered` is an item size whose region wraps
  around.
-/

set_option autoImplicit false

namespace GcScope

open MachineInt

/-- The window of an Entry in the buffer, clamped to it. -/
def selectedEntryBytes (raw : List UInt8) (byteOffset itemSize : ℕ) : List UInt8 :=
  let start := min byteOffset raw.length
  let stop := min (wrapU64 (start + itemSize)) raw.length
  (raw.drop start).take (stop - start)

/-- The byte offset of each generation's cursor word, for rings. -/
def ringIndexOffsets (table : OffsetTable) (itemSize : ℕ) : List ℕ :=
  if table.gcStatsKind ≠ .ringBuffer ∨ itemSize = 0 then []
  else
    match table.gcGenBaseOffsets, table.gcEntriesPerGen with
    | some bases, some entries => (List.finRange 3).map fun g =>
        wrapU64 (bases g + entries g * itemSize)
    | _, _ => []

/-- The Entry the viewer decodes for a selected row. -/
def entryView {F : Type} (table : OffsetTable) (raw : List UInt8) (itemSize : ℕ) (e : GcEntry F) :
    Option GcStat :=
  table.gcLayout.map fun layout =>
    { generation := e.generation
      index := e.index
      interpreterId := 0
      bytes := selectedEntryBytes raw e.byteOffset itemSize
      layout }

theorem selectedEntryBytes_eq {raw : List UInt8} {off itemSize : ℕ}
    (h : off + itemSize ≤ raw.length) (hw : off + itemSize < 2 ^ 64) :
    selectedEntryBytes raw off itemSize = (raw.drop off).take itemSize := by
  simp only [selectedEntryBytes, Nat.min_eq_left (show off ≤ raw.length by omega),
    wrapU64_of_lt hw, Nat.min_eq_left h, Nat.add_sub_cancel_left]

namespace OffsetTable

/-- The Record the window of a slot holds. -/
def recordAt (t : OffsetTable) (layout : GcItemLayout) (raw : List UInt8) (iid : ℤ)
    (itemSize : ℕ) (p : Fin 3 × ℕ) : GcStat where
  generation := p.1
  index := p.2
  interpreterId := iid
  bytes := (raw.drop ((t.entryByteOffset p.1 p.2).getD 0)).take itemSize
  layout := layout

variable {t : OffsetTable} {itemSize : ℕ} {layout : GcItemLayout}

section Rows

variable {R : Rows 3} (hd : t.Decodes R.item R.depth R.base layout) (hlt : R.stop 2 < 2 ^ 64)

include hd hlt

/-- **One Record a slot**, generation by generation. -/
theorem Decodes.decodeGcStats_rows {raw : List UInt8} (hl : R.stop 2 ≤ raw.length) (iid : ℤ) :
    t.decodeGcStats raw iid = R.slots.map (t.recordAt layout raw iid R.item) := by
  have hall : (R.slots.filter fun p => slotEnd R.item R.base p ≤ raw.length) = R.slots :=
    List.filter_eq_self.mpr fun p hp => decide_eq_true ((slotEnd_le hp).trans hl)
  rw [hd.decodeGcStats_slots ((wrapU64_le _).trans hl)]
  refine (congrArg (List.map _) hall).trans (List.map_congr_left fun p hp => ?_)
  rw [recordAt, hd.entryByteOffset_rows hlt hp]
  rfl

/-- The cursor words of a ring start where the rows end. -/
theorem Decodes.mem_ringIndexOffsets {w : ℕ} (h : w ∈ ringIndexOffsets t R.item) :
    t.gcStatsKind = .ringBuffer ∧ ∃ r, w = R.stop r := by
  unfold ringIndexOffsets at h
  split_ifs at h with hk
  · simp at h
  · simp only [hd.bases, hd.entries, List.mem_map, List.mem_finRange, true_and] at h
    obtain ⟨r, rfl⟩ := h
    exact ⟨by tauto, r, wrapU64_of_lt ((Rows.stop_le_stop (Fin.le_last r)).trans_lt hlt)⟩

omit hlt in
theorem Decodes.length_ringIndexOffsets (hk : t.gcStatsKind = .ringBuffer) :
    (ringIndexOffsets t R.item).length = 3 := by
  have hpos := hd.pos
  simp [ringIndexOffsets, hk, hpos, hd.bases, hd.entries]

theorem Decodes.entryView_rows {F : Type} [F64 F] {raw : List UInt8} {e : GcEntry F}
    (he : e ∈ (parseGcEntries raw t : List (GcEntry F))) :
    ∃ v, entryView t raw R.item e = some v ∧ v ∈ t.decodeGcStats raw 0 ∧ GcEntry.of t v = e := by
  obtain ⟨s, hs, rfl⟩ := List.mem_map.mp he
  have hm := List.mem_of_mem_filter hs
  refine ⟨s, ?_, hm, rfl⟩
  by_cases hl : R.stop 2 ≤ raw.length
  · rw [hd.decodeGcStats_rows hlt hl] at hm
    obtain ⟨p, hp, rfl⟩ := List.mem_map.mp hm
    have hoff := hd.entryByteOffset_rows hlt hp
    have hend := Rows.start_add_item_le hp (Fin.le_last p.1)
    simp only [entryView, hd.layout, Option.map_some, GcEntry.of, recordAt, hoff,
      Option.getD_some, selectedEntryBytes_eq (hend.trans hl) (hend.trans_lt hlt)]
  · rw [decodeGcStats_of_short (hd.statsBufferLen_rows hlt) (Nat.not_le.mp hl)] at hm
    exact absurd hm List.not_mem_nil

end Rows

/-- **The decoder covers the region**, when its size does not wrap around. A buffer shorter than the region decodes to nothing. Any
other yields one Record a slot, each over the Entry's own window; the windows lie inside the region
and overlap neither each other nor a cursor word. An Entry is viewed in the window it was decoded
from. -/
theorem Configured.coverage (h : Configured itemSize layout t) (hpos : 0 < itemSize)
    (hfit : t.regionBytes itemSize < 2 ^ 64) :
    ∃ len depth, t.statsBufferLen = some len ∧ t.gcEntriesPerGen = some depth ∧
      (∀ raw iid, raw.length < len → t.decodeGcStats raw iid = []) ∧
      (∀ raw iid, len ≤ raw.length → t.decodeGcStats raw iid =
        (List.finRange 3).flatMap fun g => (List.range (depth g)).map fun i =>
          t.recordAt layout raw iid itemSize (g, i)) ∧
      (∀ (g : Fin 3) (i : ℕ), i < depth g →
        ∃ off, t.entryByteOffset g i = some off ∧ off + itemSize ≤ len ∧
          (∀ (g' : Fin 3) (i' : ℕ), i' < depth g' → (g', i') ≠ (g, i) →
            ∃ off', t.entryByteOffset g' i' = some off' ∧
              (off + itemSize ≤ off' ∨ off' + itemSize ≤ off)) ∧
          ∀ w ∈ ringIndexOffsets t itemSize, w + 8 ≤ off ∨ off + itemSize ≤ w) ∧
      (t.gcStatsKind = .ringBuffer → (ringIndexOffsets t itemSize).length = 3) ∧
      (∀ (F : Type) [F64 F] (raw : List UInt8) (e : GcEntry F), e ∈ parseGcEntries raw t →
        ∃ v, entryView t raw itemSize e = some v ∧ v ∈ t.decodeGcStats raw 0 ∧
          GcEntry.of t v = e) := by
  obtain ⟨R, rfl, hgap, hlt, hd⟩ := h.exists_rows hpos.ne' hfit
  refine ⟨R.stop 2, R.depth, hd.statsBufferLen_rows hlt, hd.entries, ?_, ?_, ?_,
    hd.length_ringIndexOffsets, ?_⟩
  · exact fun raw iid hs => decodeGcStats_of_short (hd.statsBufferLen_rows hlt) hs iid
  · intro raw iid hl
    rw [hd.decodeGcStats_rows hlt hl, Rows.slots, Rows.slotsOf, List.map_flatMap]
    simp only [List.map_map]
    rfl
  · intro g i hi
    have hp : (g, i) ∈ R.slots := R.mem_slots.mpr hi
    refine ⟨_, hd.entryByteOffset_rows hlt hp, Rows.start_add_item_le hp (Fin.le_last g), ?_, ?_⟩
    · intro g' i' hi' hne
      have hq : (g', i') ∈ R.slots := R.mem_slots.mpr hi'
      exact ⟨_, hd.entryByteOffset_rows hlt hq, R.start_disjoint hp hq hne.symm⟩
    · intro w hw
      obtain ⟨hk, r, rfl⟩ := hd.mem_ringIndexOffsets hlt hw
      have hdis : R.stop r + R.gap ≤ R.start g i ∨ R.start g i + R.item ≤ R.stop r :=
        R.stop_disjoint hi
      rwa [hgap, indexGap, if_pos hk] at hdis
  · exact fun F _ raw e he => hd.entryView_rows hlt he

/-- A full region of a 3.15 ring holds seventeen Entries. -/
theorem ring_coverage :
    ((blank.setRing 64 ringLayout 0).decodeGcStats (List.replicate 1104 0) 0).length = 17 := by
  obtain ⟨len, depth, hlen, hdepth, -, hdec, -⟩ :=
    Configured.coverage (.ring blank 0 : Configured 64 ringLayout _) (by decide) (by decide)
  obtain rfl : 1104 = len := Option.some.inj (Eq.trans (by decide) hlen)
  obtain rfl : ringEntries 0 = depth := Option.some.inj (Eq.trans rfl hdepth)
  have hl : 1104 ≤ (List.replicate 1104 (0 : UInt8)).length := List.length_replicate.ge
  generalize List.replicate 1104 (0 : UInt8) = raw at hl ⊢
  rw [hdec raw 0 hl]
  simp [List.finRange_succ, ringEntries]

/-- An inline table whose three Entries wrap around to two bytes. -/
def wrapped : OffsetTable := blank.setInline 6148914691236517206 ringLayout 0

/-- The windows of such a table leave the region. -/
theorem wrapped_not_covered :
    (Configured 6148914691236517206 ringLayout wrapped ∧ 6148914691236517206 < 2 ^ 64) ∧
    ¬ ∀ len, wrapped.statsBufferLen = some len → ∀ generation index off,
      wrapped.entryByteOffset generation index = some off → off + 6148914691236517206 ≤ len :=
  ⟨⟨.inline _ _, by decide⟩, fun h => absurd (h 2 rfl 0 0 0 rfl) (by decide)⟩

end OffsetTable

end GcScope
