import Mathlib.Data.Fin.VecNotation
import Mathlib.Data.Fintype.Pi
import GcScope.Lib.Rows
import GcScope.RemoteDebugging.GcStat

/-!
# The offset table and the decoder

Where an interpreter's generation stats live, how large they are and how their bytes are cut into
Entries, as pure functions of the resolved table. Addresses are 64-bit words, and a size whose sum or
product does not fit one wraps around, as in an optimised build.

* `OffsetTable.gcStatsRegion`, `gcStateAddr`: where to read.
* `OffsetTable.gcStatsRegionSize`, `statsBufferLen`: how much the process publishes, and how much the
  decoder needs; **`gcStatsRegionSize_eq`** relates them.
* `OffsetTable.decodeGcStats`: the decoder, with **`Decodes.mem_decodeGcStats`** saying which Entries
  it yields, and `Decodes.decodeGcStats_slots` where each of them stands.
* `setInline`, `setRing`, `computeRingBaseOffsets`: the two shapes of region.
-/

set_option autoImplicit false

namespace GcScope

open MachineInt

/-- Shape of a version's generation-stats region. -/
inductive GcStatsKind where
  | none
  | inlineArray
  | ringBuffer
  deriving DecidableEq

/-- Where an interpreter's generation stats live. -/
inductive GcStatsRegion where
  | absent
  | direct (addr : BitVec 64)
  | deref (ptrAddr : BitVec 64)
  deriving DecidableEq

structure OffsetTable where
  versionHex : BitVec 64
  runtimeInterpretersHead : BitVec 64
  /-- 3.8 only, per interpreter otherwise. -/
  runtimeGc : Option (BitVec 64)
  interpNext : BitVec 64
  interpId : BitVec 64
  interpGc : Option (BitVec 64)
  gcStatsKind : GcStatsKind
  gcLayout : Option GcItemLayout
  gcStatsAddr : Option (BitVec 64)
  gcItemSize : Option ℕ
  gcEntriesPerGen : Option (Fin 3 → ℕ)
  gcGenBaseOffsets : Option (Fin 3 → ℕ)
  gcStatsInlineOff : BitVec 64
  gcStatsAddrIsPerInterp : Bool
  deriving DecidableEq

/-- Base offsets of the generations in a ring region: each ring is followed by a cursor word. -/
def computeRingBaseOffsets (itemSize : ℕ) (entries : Fin 3 → ℕ) : Fin 3 → ℕ :=
  ![0, wrapU64 (entries 0 * itemSize + 8),
    wrapU64 (entries 0 * itemSize + 8 + entries 1 * itemSize + 8)]

/-- Entries per generation of a ring build. -/
def ringEntries (freeThreaded : ℕ) : Fin 3 → ℕ :=
  if freeThreaded ≠ 0 then ![1, 1, 1] else ![11, 3, 3]

/-- The region size a ring of this item size should publish. -/
def expectedRingSize (itemSize freeThreaded : ℕ) : ℕ :=
  let entries := ringEntries freeThreaded
  wrapU64 (computeRingBaseOffsets itemSize entries 2 + entries 2 * itemSize + 8)

/-- The Entry layout of 3.15. -/
def ringLayout : GcItemLayout where
  itemSize := 64
  fields :=
    [("ts_start", 0), ("ts_stop", 8), ("collections", 16), ("collected", 24),
      ("uncollectable", 32), ("candidates", 40), ("duration", 48), ("heap_size", 56)]

namespace OffsetTable

/-- A table before its version is known. -/
def blank : OffsetTable := ⟨0, 0, none, 0, 0, none, .none, none, none, none, none, none, 0, false⟩

variable (t : OffsetTable)

/-- Configure the table for an inline layout: one Entry per generation. -/
def setInline (itemSize : ℕ) (layout : GcItemLayout) (inlineOff : BitVec 64) : OffsetTable :=
  { t with
    gcStatsKind := .inlineArray
    gcLayout := some layout
    gcItemSize := some itemSize
    gcEntriesPerGen := some ![1, 1, 1]
    gcGenBaseOffsets := some ![0, itemSize, wrapU64 (2 * itemSize)]
    gcStatsInlineOff := inlineOff
    gcStatsAddrIsPerInterp := true }

/-- Configure the table for a ring layout. -/
def setRing (itemSize : ℕ) (layout : GcItemLayout) (freeThreaded : ℕ) : OffsetTable :=
  { t with
    gcStatsKind := .ringBuffer
    gcLayout := some layout
    gcItemSize := some itemSize
    gcEntriesPerGen := some (ringEntries freeThreaded)
    gcGenBaseOffsets := some (computeRingBaseOffsets itemSize (ringEntries freeThreaded))
    gcStatsAddrIsPerInterp := true }

/-- The 3.8 layout: the GC state is in the runtime, not in each interpreter. -/
def hasGlobalGc : Bool := t.interpGc.isNone && t.runtimeGc.isSome

def gcStateAddr (runtimeAddr interpAddr : BitVec 64) : BitVec 64 :=
  if t.hasGlobalGc then runtimeAddr + t.runtimeGc.getD 0 else interpAddr + t.interpGc.getD 0

def gcStatsRegion (gcAddr genStatsPtrOff : BitVec 64) : GcStatsRegion :=
  match t.gcStatsKind with
  | .none => .absent
  | .inlineArray => .direct (gcAddr + t.gcStatsInlineOff)
  | .ringBuffer => if genStatsPtrOff = 0 then .absent else .deref (gcAddr + genStatsPtrOff)

/-- Byte offset of an Entry within the stats region. -/
def entryByteOffset (generation index : ℕ) : Option ℕ := do
  let item ← t.gcItemSize
  let bases ← t.gcGenBaseOffsets
  let entries ← t.gcEntriesPerGen
  if h : generation < 3 then
    if entries ⟨generation, h⟩ ≤ index then none
    else some (wrapU64 (bases ⟨generation, h⟩ + index * item))
  else none

/-- Size of the ring region as the process reports it, the last cursor word included. -/
def gcStatsRegionSize : ℕ :=
  if t.gcStatsKind ≠ .ringBuffer then 0
  else match t.gcItemSize, t.gcEntriesPerGen, t.gcGenBaseOffsets with
    | some item, some entries, some bases => wrapU64 (bases 2 + entries 2 * item + 8)
    | _, _, _ => 0

/-- Byte length of the stats region the decoder needs. -/
def statsBufferLen : Option ℕ := do
  let itemSize ← t.gcItemSize
  if itemSize = 0 then none
  else
    let entries ← t.gcEntriesPerGen
    let bases ← t.gcGenBaseOffsets
    let _ ← t.gcLayout
    some (wrapU64 (bases 2 + entries 2 * itemSize))

/-- The Entry `index` of a generation whose Entries start at `base`. -/
def entryAt (layout : GcItemLayout) (raw : List UInt8) (iid : ℤ)
    (itemSize base generation index : ℕ) : GcStat where
  generation := generation
  index := index
  interpreterId := iid
  bytes := (raw.drop (base + index * itemSize)).take itemSize
  layout := layout

/-- Walk one generation, stopping where the buffer ends. An Entry whose end wraps around is not inside
it either: the walk stops there, or its slice panics. -/
def decodeGeneration (layout : GcItemLayout) (raw : List UInt8) (iid : ℤ)
    (itemSize base entries generation : ℕ) : List GcStat :=
  ((List.range entries).takeWhile fun entry =>
    decide (base + entry * itemSize + itemSize ≤ raw.length)).map
      (entryAt layout raw iid itemSize base generation)

/-- Decode a stats buffer, generation by generation. -/
def decodeGcStats (raw : List UInt8) (iid : ℤ) : List GcStat :=
  match t.statsBufferLen with
  | none => []
  | some total =>
    if raw.length < total then []
    else
      let itemSize := t.gcItemSize.getD 0
      let entries := t.gcEntriesPerGen.getD fun _ => 0
      let bases := t.gcGenBaseOffsets.getD fun _ => 0
      match t.gcLayout with
      | none => []
      | some layout => (List.finRange 3).flatMap fun g =>
          decodeGeneration layout raw iid itemSize (bases g) (entries g) g

/-! ## What the sizes and the decoder say -/

/-- The shape facts a table decodes by. -/
structure Decodes (itemSize : ℕ) (entries bases : Fin 3 → ℕ) (layout : GcItemLayout) : Prop where
  item : t.gcItemSize = some itemSize
  pos : itemSize ≠ 0
  entries : t.gcEntriesPerGen = some entries
  bases : t.gcGenBaseOffsets = some bases
  layout : t.gcLayout = some layout

variable {t} {itemSize : ℕ} {entries bases : Fin 3 → ℕ} {layout : GcItemLayout}

theorem Decodes.unique {itemSize' : ℕ} {entries' bases' : Fin 3 → ℕ} {layout' : GcItemLayout}
    (h : t.Decodes itemSize entries bases layout) (h' : t.Decodes itemSize' entries' bases' layout') :
    itemSize' = itemSize ∧ entries' = entries ∧ bases' = bases ∧ layout' = layout :=
  ⟨Option.some.inj (h'.item.symm.trans h.item), Option.some.inj (h'.entries.symm.trans h.entries),
    Option.some.inj (h'.bases.symm.trans h.bases), Option.some.inj (h'.layout.symm.trans h.layout)⟩

theorem Decodes.statsBufferLen (h : t.Decodes itemSize entries bases layout) :
    t.statsBufferLen = some (wrapU64 (bases 2 + entries 2 * itemSize)) := by
  simp [OffsetTable.statsBufferLen, h.item, h.pos, h.entries, h.bases, h.layout]

theorem statsBufferLen_eq_some {total : ℕ} (h : t.statsBufferLen = some total) :
    ∃ itemSize entries bases layout, t.Decodes itemSize entries bases layout ∧
      total = wrapU64 (bases 2 + entries 2 * itemSize) := by
  unfold OffsetTable.statsBufferLen at h
  cases hi : t.gcItemSize with
  | none => simp [hi] at h
  | some item =>
    cases he : t.gcEntriesPerGen with
    | none => simp [hi, he] at h
    | some entries =>
      cases hb : t.gcGenBaseOffsets with
      | none => simp [hi, he, hb] at h
      | some bases =>
        cases hl : t.gcLayout with
        | none => simp [hi, he, hb, hl] at h
        | some layout =>
          simp only [hi, he, hb, hl, Option.bind_eq_bind, Option.bind_some] at h
          split_ifs at h with h0
          exact ⟨item, entries, bases, layout, ⟨hi, h0, he, hb, hl⟩, (Option.some.inj h).symm⟩

theorem statsBufferLen_lt {total : ℕ} (h : t.statsBufferLen = some total) : total < 2 ^ 64 := by
  obtain ⟨itemSize, entries, bases, layout, -, rfl⟩ := statsBufferLen_eq_some h
  exact wrapU64_lt _

/-- **The process publishes one cursor word more than the decoder needs.** -/
theorem gcStatsRegionSize_eq (hk : t.gcStatsKind = .ringBuffer) {total : ℕ}
    (h : t.statsBufferLen = some total) : t.gcStatsRegionSize = wrapU64 (total + 8) := by
  obtain ⟨item, entries, bases, layout, hd, rfl⟩ := statsBufferLen_eq_some h
  simp [gcStatsRegionSize, hk, hd.item, hd.entries, hd.bases, wrapU64_add_wrapU64]

theorem decodeGcStats_of_none (h : t.statsBufferLen = none) (raw : List UInt8) (iid : ℤ) :
    t.decodeGcStats raw iid = [] := by
  rw [decodeGcStats, h]

theorem decodeGcStats_of_short {total : ℕ} (h : t.statsBufferLen = some total) {raw : List UInt8}
    (hs : raw.length < total) (iid : ℤ) : t.decodeGcStats raw iid = [] := by
  rw [decodeGcStats, h]
  exact if_pos hs

theorem Decodes.decodeGcStats (h : t.Decodes itemSize entries bases layout) {raw : List UInt8}
    (hl : wrapU64 (bases 2 + entries 2 * itemSize) ≤ raw.length) (iid : ℤ) :
    t.decodeGcStats raw iid = (List.finRange 3).flatMap fun g =>
      decodeGeneration layout raw iid itemSize (bases g) (entries g) g := by
  simp [OffsetTable.decodeGcStats, h.statsBufferLen, h.item, h.entries, h.bases, h.layout, hl]

theorem takeWhile_eq_filter {α : Type} {p : α → Bool} {l : List α}
    (h : l.Pairwise fun a b => p b → p a) : l.takeWhile p = l.filter p := by
  induction l with
  | nil => rfl
  | cons a l ih =>
    obtain ⟨ha, hl⟩ := List.pairwise_cons.mp h
    by_cases hp : p a
    · rw [List.takeWhile_cons_of_pos hp, List.filter_cons_of_pos hp, ih hl]
    · rw [List.takeWhile_cons_of_neg hp, List.filter_cons_of_neg hp, eq_comm,
        List.filter_eq_nil_iff]
      exact fun b hb hpb => hp (ha b hb hpb)

/-- A generation is walked as far as its Entries fit the buffer. -/
theorem decodeGeneration_eq_filter (raw : List UInt8) (iid : ℤ) (base n generation : ℕ) :
    decodeGeneration layout raw iid itemSize base n generation =
      ((List.range n).filter fun i => base + i * itemSize + itemSize ≤ raw.length).map
        (entryAt layout raw iid itemSize base generation) := by
  rw [decodeGeneration, takeWhile_eq_filter]
  refine List.pairwise_lt_range.imp fun hij hj => ?_
  -- an earlier Entry ends before a later one
  rw [decide_eq_true_eq] at hj ⊢
  have := Nat.mul_le_mul_right itemSize hij.le
  omega

theorem mem_decodeGeneration {raw : List UInt8} {iid : ℤ} {base n generation : ℕ} {s : GcStat} :
    s ∈ decodeGeneration layout raw iid itemSize base n generation ↔
      ∃ i < n, base + i * itemSize + itemSize ≤ raw.length ∧
        entryAt layout raw iid itemSize base generation i = s := by
  simp only [decodeGeneration_eq_filter, List.mem_map, List.mem_filter, List.mem_range,
    decide_eq_true_eq, and_assoc]

/-- Where the Entry of a slot ends. -/
def slotEnd (itemSize : ℕ) (bases : Fin 3 → ℕ) (p : Fin 3 × ℕ) : ℕ :=
  bases p.1 + p.2 * itemSize + itemSize

def slotEntry (layout : GcItemLayout) (raw : List UInt8) (iid : ℤ) (itemSize : ℕ)
    (bases : Fin 3 → ℕ) (p : Fin 3 × ℕ) : GcStat :=
  entryAt layout raw iid itemSize (bases p.1) p.1 p.2

/-- **A long enough buffer is decoded slot by slot**, as far as each reaches. -/
theorem Decodes.decodeGcStats_slots (h : t.Decodes itemSize entries bases layout) {raw : List UInt8}
    (hl : wrapU64 (bases 2 + entries 2 * itemSize) ≤ raw.length) (iid : ℤ) :
    t.decodeGcStats raw iid =
      ((Rows.slotsOf entries).filter fun p => slotEnd itemSize bases p ≤ raw.length).map
        (slotEntry layout raw iid itemSize bases) := by
  rw [h.decodeGcStats hl, Rows.slotsOf, List.filter_flatMap, List.map_flatMap]
  refine List.flatMap_congr fun g _ => ?_
  rw [decodeGeneration_eq_filter, List.filter_map, List.map_map]
  rfl

/-- **The Entries a long enough buffer decodes to.** -/
theorem Decodes.mem_decodeGcStats (h : t.Decodes itemSize entries bases layout) {raw : List UInt8}
    (hl : wrapU64 (bases 2 + entries 2 * itemSize) ≤ raw.length) {iid : ℤ} {s : GcStat} :
    s ∈ t.decodeGcStats raw iid ↔ ∃ g : Fin 3, ∃ i < entries g,
      bases g + i * itemSize + itemSize ≤ raw.length ∧
        entryAt layout raw iid itemSize (bases g) g i = s := by
  simp only [h.decodeGcStats hl, List.mem_flatMap, List.mem_finRange, true_and,
    mem_decodeGeneration]

end OffsetTable

end GcScope
