import Mathlib.Tactic.Common
import Mathlib.Tactic.FinCases
import GcScope.Snapshot.Coverage

/-!
# The ring layout the tree view shows

The tree view works back from the size of the region to the size of an Entry, and lays the rows out
again from there.

* `genStatsLayout`: the figures of the view; `derivedVal` shows them.
* `GenStatsLayout.Shows`: what it takes for them to be those of a table.
* `genStatsLayout_eq`: the figures, none of which wraps around for a size that is a word.
* **`ring_shown_iff`**: the rings that are shown as they are decoded.
* `free_threaded_mislabelled`: one that is not.
-/

set_option autoImplicit false

namespace GcScope

open MachineInt OffsetTable

/-- The figures of the tree view: sizes in bytes, and offsets in the region. -/
structure GenStatsLayout where
  itemSize : ℕ
  youngBytes : ℕ
  oldBytes : ℕ
  index0Off : ℕ
  index1Off : ℕ
  index2Off : ℕ
  old0Off : ℕ

/-- The figures for a region of `genStatsSize` bytes. -/
def genStatsLayout (genStatsSize : ℕ) : GenStatsLayout :=
  let itemSize := if 24 ≤ genStatsSize then (genStatsSize - 24) / 17 else 0
  let youngBytes := wrapU64 (11 * itemSize)
  let oldBytes := wrapU64 (3 * itemSize)
  let index0Off := youngBytes
  let old0Off := wrapU64 (index0Off + 8)
  let index1Off := wrapU64 (old0Off + oldBytes)
  let old1Off := wrapU64 (index1Off + 8)
  let index2Off := wrapU64 (old1Off + oldBytes)
  { itemSize, youngBytes, oldBytes, index0Off, index1Off, index2Off, old0Off }

namespace GenStatsLayout

variable (L : GenStatsLayout)

/-- The text beside a label of the tree. -/
def derivedVal (label : String) : String :=
  match label with
  | "item_size" => toString L.itemSize
  | "young_entries (11)" => "11 x " ++ toString L.itemSize ++ " = " ++ toString L.youngBytes ++ " bytes"
  | "index0" => "+" ++ toString L.index0Off
  | "old0_entries (3)" => "3 x " ++ toString L.itemSize ++ " bytes"
  | "index1" => "+" ++ toString L.index1Off
  | "old1_entries (3)" => "3 x " ++ toString L.itemSize ++ " bytes"
  | "index2" => "+" ++ toString L.index2Off
  | _ => ""

/-- Where the rows start; the second old one follows its index word. -/
def base : Fin 3 → ℕ := ![0, L.old0Off, wrapU64 (L.index1Off + 8)]

def entryBytes : Fin 3 → ℕ := ![L.youngBytes, L.oldBytes, L.oldBytes]

def indexOff : Fin 3 → ℕ := ![L.index0Off, L.index1Off, L.index2Off]

/-- The byte at `p` is labelled as part of a slot of generation `g`. -/
def Labels (g : Fin 3) (p : ℕ) : Prop := L.base g ≤ p ∧ p < L.base g + L.entryBytes g

/-- The figures are those of a table, and what is labelled as a slot is decoded as one. -/
structure Shows (t : OffsetTable) (regionSize : ℕ) : Prop where
  item : t.gcItemSize = some L.itemSize
  bases : t.gcGenBaseOffsets = some L.base
  rows : t.gcEntriesPerGen.map (fun entries g => entries g * L.itemSize) = some L.entryBytes
  indices : ∀ g, L.indexOff g = L.base g + L.entryBytes g
  decoded : ∀ raw iid, regionSize ≤ raw.length → ∀ g p, L.Labels g p →
    ∃ r ∈ t.decodeGcStats raw iid, r.generation = (g : ℕ) ∧
      ∃ off, t.entryByteOffset g r.index = some off ∧ off ≤ p ∧ p < off + L.itemSize

end GenStatsLayout

theorem exists_slot {item depth p : ℕ} (h : p < depth * item) :
    ∃ i < depth, i * item ≤ p ∧ p < i * item + item := by
  have hitem : 0 < item := Nat.pos_of_ne_zero fun h0 => by simp [h0] at h
  refine ⟨p / item, Nat.div_lt_of_lt_mul (by rwa [Nat.mul_comm]), Nat.div_mul_le_self p item, ?_⟩
  exact Nat.lt_div_mul_add hitem

/-- **A byte of a generation's row is decoded** for that generation. -/
theorem OffsetTable.Decodes.exists_decoded {t : OffsetTable} {R : Rows 3} {layout : GcItemLayout}
    (hd : t.Decodes R.item R.depth R.base layout) (hlt : R.stop 2 < 2 ^ 64) {raw : List UInt8}
    (hraw : R.stop 2 ≤ raw.length) (iid : ℤ) {g : Fin 3} {p : ℕ}
    (hlo : R.base g ≤ p) (hhi : p < R.stop g) :
    ∃ r ∈ t.decodeGcStats raw iid, r.generation = (g : ℕ) ∧
      ∃ off, t.entryByteOffset g r.index = some off ∧ off ≤ p ∧ p < off + R.item := by
  have hrow : p - R.base g < R.depth g * R.item := by unfold Rows.stop at hhi; omega
  obtain ⟨i, hi, hslot, hend⟩ := exists_slot hrow
  have hmem : (g, i) ∈ R.slots := R.mem_slots.mpr hi
  refine ⟨t.recordAt layout raw iid R.item (g, i), ?_, rfl, R.start g i,
    hd.entryByteOffset_rows hlt hmem, ?_, ?_⟩
  · rw [hd.decodeGcStats_rows hlt hraw]
    exact List.mem_map_of_mem hmem
  · unfold Rows.start
    omega
  · unfold Rows.start
    omega

/-! ## Rings -/

theorem genStatsLayout_itemSize_le (size : ℕ) : (genStatsLayout size).itemSize = 0 ∨
    17 * (genStatsLayout size).itemSize + 24 ≤ size := by
  simp only [genStatsLayout]
  split_ifs with h
  · omega
  · exact Or.inl rfl

/-- The item size that is worked back from a region that fits. -/
theorem genStatsLayout_itemSize {itemSize freeThreaded : ℕ} (hfit : RingFits itemSize freeThreaded) :
    (genStatsLayout (expectedRingSize itemSize freeThreaded)).itemSize =
      ringDepth freeThreaded * itemSize / 17 := by
  have hsize : 24 ≤ ringDepth freeThreaded * itemSize + 24 := Nat.le_add_left _ _
  simp only [genStatsLayout, expectedRingSize_eq hfit, if_pos hsize, Nat.add_sub_cancel]

/-- **No figure wraps around**: the last of them, and with it every other, is as small as the size it
is computed from. -/
theorem genStatsLayout_eq {size : ℕ} (hsize : size < 2 ^ 64) {item : ℕ}
    (hitem : (genStatsLayout size).itemSize = item) :
    genStatsLayout size =
      { itemSize := item
        youngBytes := 11 * item
        oldBytes := 3 * item
        index0Off := 11 * item
        index1Off := 11 * item + 8 + 3 * item
        index2Off := 11 * item + 8 + 3 * item + 8 + 3 * item
        old0Off := 11 * item + 8 } := by
  have hle := genStatsLayout_itemSize_le size
  rw [hitem] at hle
  have h17 : 17 * item + 24 < 2 ^ 64 := by omega
  change (if 24 ≤ size then (size - 24) / 17 else 0) = item at hitem
  simp (disch := omega) only [genStatsLayout, hitem, wrapU64_of_lt]

section Right

variable {itemSize freeThreaded : ℕ}
  (hitem : (genStatsLayout (expectedRingSize itemSize freeThreaded)).itemSize = itemSize)
  (hrows : ∀ g, ringEntries 0 g * itemSize = ringEntries freeThreaded g * itemSize)

include hitem hrows

/-- The figures are those of the rows of a build with a GIL, which the table has too. -/
theorem base_genStatsLayout (hfit : RingFits itemSize freeThreaded) :
    (genStatsLayout (expectedRingSize itemSize freeThreaded)).base =
      computeRingBaseOffsets itemSize (ringEntries freeThreaded) := by
  have hlt : expectedRingSize itemSize freeThreaded < 2 ^ 64 := wrapU64_lt _
  have hle := genStatsLayout_itemSize_le (expectedRingSize itemSize freeThreaded)
  rw [hitem] at hle
  have h0 : 11 * itemSize = ringEntries freeThreaded 0 * itemSize := hrows 0
  have h1 : 3 * itemSize = ringEntries freeThreaded 1 * itemSize := hrows 1
  rw [computeRingBaseOffsets_of_fits hfit, genStatsLayout_eq hlt hitem, ← h0, ← h1]
  simp (disch := omega) only [GenStatsLayout.base, wrapU64_of_lt]

theorem entryBytes_genStatsLayout :
    (genStatsLayout (expectedRingSize itemSize freeThreaded)).entryBytes =
      fun g => ringEntries freeThreaded g * itemSize := by
  have hlt : expectedRingSize itemSize freeThreaded < 2 ^ 64 := wrapU64_lt _
  rw [genStatsLayout_eq hlt hitem]
  funext g
  fin_cases g
  · exact hrows 0
  · exact hrows 1
  · exact hrows 2

omit hrows in
theorem indexOff_genStatsLayout (g : Fin 3) :
    (genStatsLayout (expectedRingSize itemSize freeThreaded)).indexOff g =
      (genStatsLayout (expectedRingSize itemSize freeThreaded)).base g +
        (genStatsLayout (expectedRingSize itemSize freeThreaded)).entryBytes g := by
  have hlt : expectedRingSize itemSize freeThreaded < 2 ^ 64 := wrapU64_lt _
  have hle := genStatsLayout_itemSize_le (expectedRingSize itemSize freeThreaded)
  rw [hitem] at hle
  rw [genStatsLayout_eq hlt hitem]
  fin_cases g
  · exact (Nat.zero_add _).symm
  · rfl
  · simp (disch := omega) only [GenStatsLayout.indexOff, GenStatsLayout.base,
      GenStatsLayout.entryBytes, wrapU64_of_lt]
    rfl

/-- Figures that are right for a ring label what is decoded. -/
theorem shows_setRing (t : OffsetTable) (layout : GcItemLayout)
    (hfit : RingFits itemSize freeThreaded) :
    (genStatsLayout (expectedRingSize itemSize freeThreaded)).Shows
      (t.setRing itemSize layout freeThreaded) (expectedRingSize itemSize freeThreaded) := by
  have hbase := base_genStatsLayout hitem hrows hfit
  have hbytes := entryBytes_genStatsLayout hitem hrows
  refine ⟨congrArg some hitem.symm, congrArg some hbase.symm, ?_, indexOff_genStatsLayout hitem, ?_⟩
  · rw [hbytes, hitem]
    rfl
  · rintro raw iid hraw g p ⟨hlo, hhi⟩
    rw [hbase] at hlo hhi
    rw [hbytes] at hhi
    rw [hitem]
    have hpos : itemSize ≠ 0 := by
      rintro rfl
      dsimp only at hhi
      rw [Nat.mul_zero] at hhi
      omega
    obtain ⟨R, hR, -, hend, hd⟩ := Configured.exists_rows
      (.ring t freeThreaded : Configured itemSize layout _) hpos
      ((t.regionBytes_setRing itemSize layout freeThreaded).trans_lt hfit)
    obtain ⟨len, hlen, hsize⟩ := t.expectedRingSize_eq_statsBufferLen hfit layout hpos
    obtain rfl := hR
    have hbases : computeRingBaseOffsets R.item (ringEntries freeThreaded) = R.base :=
      Option.some.inj hd.bases
    have hdepths : ringEntries freeThreaded = R.depth := Option.some.inj hd.entries
    have hstop : len = R.stop 2 := Option.some.inj (hlen.symm.trans (hd.statsBufferLen_rows hend))
    rw [hbases] at hlo hhi
    rw [hdepths] at hhi
    exact hd.exists_decoded hend (by omega) iid hlo hhi

end Right

/-- **Which rings are shown as they are decoded.** Given the size of its region, a ring is shown with
the geometry of its table, and every byte labelled as a slot of a generation is decoded for that
generation, exactly where the build has a GIL and the size does not wrap around, or the Entries are
empty. -/
theorem ring_shown_iff (t : OffsetTable) (layout : GcItemLayout) (itemSize freeThreaded : ℕ) :
    (genStatsLayout (expectedRingSize itemSize freeThreaded)).Shows
        (t.setRing itemSize layout freeThreaded) (expectedRingSize itemSize freeThreaded) ↔
      freeThreaded = 0 ∧ 17 * itemSize + 24 < 2 ^ 64 ∨ itemSize = 0 := by
  constructor
  · intro h
    have hitem : itemSize = (genStatsLayout (expectedRingSize itemSize freeThreaded)).itemSize :=
      Option.some.inj h.item
    have hle := genStatsLayout_itemSize_le (expectedRingSize itemSize freeThreaded)
    rw [← hitem] at hle
    have hlt : expectedRingSize itemSize freeThreaded < 2 ^ 64 := wrapU64_lt _
    -- a free-threaded region has room for three Entries, not for seventeen
    have hsize : expectedRingSize itemSize freeThreaded ≤ ringDepth freeThreaded * itemSize + 24 :=
      (expectedRingSize_wraps itemSize freeThreaded).trans_le (wrapU64_le _)
    unfold ringDepth at hsize
    split_ifs at hsize with hft
    · omega
    · omega
  · rintro (⟨rfl, hfit⟩ | rfl)
    · refine shows_setRing ?_ (fun _ => rfl) t layout hfit
      rw [genStatsLayout_itemSize hfit]
      exact Nat.mul_div_cancel_left itemSize (by decide)
    · have hfit : RingFits 0 freeThreaded := by
        rw [RingFits, Nat.mul_zero]
        decide
      refine shows_setRing ?_ (fun _ => by rw [Nat.mul_zero, Nat.mul_zero]) t layout hfit
      rw [genStatsLayout_itemSize hfit, Nat.mul_zero, Nat.zero_div]

/-- The ring of a free-threaded 3.15: three Entries of 64 bytes are shown as seventeen of 11. -/
theorem free_threaded_mislabelled :
    (genStatsLayout (expectedRingSize 64 1)).itemSize = 11 ∧
      ¬(genStatsLayout (expectedRingSize 64 1)).Shows (blank.setRing 64 ringLayout 1)
        (expectedRingSize 64 1) := by
  refine ⟨by decide, fun h => ?_⟩
  have hitem : 64 = (genStatsLayout (expectedRingSize 64 1)).itemSize := Option.some.inj h.item
  exact absurd hitem (by decide)

end GcScope
