import GcScope.RemoteDebugging.Session

/-!
# Which ring shape a build is read through

Two builds can share a version word and a set of debug offsets and still differ in their Entries. The
candidates of a word are told apart by the size of the ring region the process publishes: the size
is predicted for each candidate, the table is built for the one that fits, and a guard compares the
size of the built table once more before anything is decoded.

* `selectGcShape`, `DebugOffsets.toOffsetTable`: the selection and the table built from it.
* `setRing_decodes`, `setInline_decodes`: what the decoder reads off a built table.
* `expectedRingSize_eq`, `expectedRingSize_inj`: the prediction tells item sizes apart, `RingFits` being
  that the size of the ring does not wrap around.
* **`DebugOffsets.RingShapes.geometry`**: the prediction, the guard and the decoder agree;
  `oversized_not_refused` is a shape whose size wraps around to zero.
-/

set_option autoImplicit false

namespace GcScope

open MachineInt

/-- Shape of a version's generation-stats region, as data. -/
structure GcStatsShape where
  kind : GcStatsKind
  /-- Zero where there are no stats. -/
  itemSize : ℕ
  /-- Absent where the stats cannot be read. -/
  layout : Option GcItemLayout
  deriving DecidableEq

/-- A stats layout of a word that has more than one. -/
structure GcCandidate where
  kind : GcStatsKind
  itemSize : ℕ
  layout : GcItemLayout
  deriving DecidableEq

/-- The shape of a candidate. -/
def GcCandidate.shape (c : GcCandidate) : GcStatsShape := ⟨c.kind, c.itemSize, some c.layout⟩

@[simp] theorem GcCandidate.shape_itemSize (c : GcCandidate) : c.shape.itemSize = c.itemSize := rfl

/-- The words with more than one compiled stats layout. -/
abbrev GcCandidates := List (BitVec 64 × List GcCandidate)

/-- The Entry layout of a 3.15.0b1 build with collector instrumentation. -/
def ringIncLayout : GcItemLayout where
  itemSize := 208
  fields := ringLayout.fields ++
    [("increment_size", 64), ("alive_size", 72), ("finalized_garbage_count", 80),
      ("clear_weakrefs_count", 88), ("deleted_garbage_count", 96), ("ts_mark_alive_start", 104),
      ("ts_mark_alive_stop", 112), ("ts_fill_increment_start", 120),
      ("ts_fill_increment_stop", 128), ("ts_deduce_unreachable_start", 136),
      ("ts_deduce_unreachable_stop", 144), ("ts_handle_weakref_callbacks_start", 152),
      ("ts_handle_weakref_callbacks_stop", 160), ("ts_finalize_garbage_stop", 168),
      ("ts_handle_resurrected_stop", 176), ("ts_clear_weakrefs_stop", 184),
      ("ts_delete_garbage_start", 192), ("ts_delete_garbage_stop", 200)]

/-- The candidates the program is built with. -/
def GcCandidates.shipped : GcCandidates :=
  [(0x030f00b1, [⟨.ringBuffer, 64, ringLayout⟩, ⟨.ringBuffer, 208, ringIncLayout⟩])]

/-- The shape of every shipped ring layout. -/
def ringShape : GcStatsShape := ⟨.ringBuffer, 64, some ringLayout⟩

/-- Pick the shape of `hex` by the ring size the process publishes, or else the default. -/
def selectGcShape (candidates : GcCandidates) (hex : BitVec 64) (reported freeThreaded : ℕ)
    (default : GcStatsShape) : GcStatsShape :=
  if reported = 0 then default
  else
    match candidates.find? fun row => row.1 == hex with
    | none => default
    | some (_, cands) =>
      match cands.find? fun c => expectedRingSize c.itemSize freeThreaded == reported with
      | some c => c.shape
      | none => default

/-- The debug offsets of a process, read through a registered layout. -/
structure DebugOffsets extends VersionedOffsets where
  /-- The word of the layout they are read through. -/
  expectedVersion : BitVec 64
  freeThreaded : BitVec 64
  runtimeInterpretersHead : BitVec 64
  interpreterStateNext : BitVec 64
  interpreterStateId : BitVec 64
  interpreterStateGc : BitVec 64
  gcInlineOff : BitVec 64
  /-- The shape of the layout itself, before any selection. -/
  gcStatsShape : GcStatsShape
  deriving DecidableEq

namespace DebugOffsets

variable (o : DebugOffsets) (candidates : GcCandidates)

/-- The table before its stats geometry is known. -/
def navigation : OffsetTable :=
  { OffsetTable.blank with
    versionHex := o.expectedVersion
    runtimeInterpretersHead := o.runtimeInterpretersHead
    interpNext := o.interpreterStateNext
    interpId := o.interpreterStateId
    interpGc := some o.interpreterStateGc }

/-- The size of the ring region the process publishes. -/
def reported : ℕ := o.gcGenerationStatsSize.toNat

def toOffsetTable : OffsetTable :=
  let shape := selectGcShape candidates o.expectedVersion o.reported o.freeThreaded.toNat
    o.gcStatsShape
  match shape.kind, shape.layout with
  | .inlineArray, some layout => o.navigation.setInline shape.itemSize layout o.gcInlineOff
  | .ringBuffer, some layout => o.navigation.setRing shape.itemSize layout o.freeThreaded.toNat
  | _, _ => o.navigation

end DebugOffsets

/-! ## Built tables -/

namespace OffsetTable

variable (t : OffsetTable) {itemSize : ℕ} (layout : GcItemLayout)

theorem setRing_decodes (h : itemSize ≠ 0) (freeThreaded : ℕ) :
    (t.setRing itemSize layout freeThreaded).Decodes itemSize (ringEntries freeThreaded)
      (computeRingBaseOffsets itemSize (ringEntries freeThreaded)) layout :=
  ⟨rfl, h, rfl, rfl, rfl⟩

theorem setInline_decodes (h : itemSize ≠ 0) (inlineOff : BitVec 64) :
    (t.setInline itemSize layout inlineOff).Decodes itemSize ![1, 1, 1]
      ![0, itemSize, wrapU64 (2 * itemSize)] layout :=
  ⟨rfl, h, rfl, rfl, rfl⟩

theorem gcStatsRegionSize_setRing (itemSize freeThreaded : ℕ) :
    (t.setRing itemSize layout freeThreaded).gcStatsRegionSize =
      expectedRingSize itemSize freeThreaded := rfl

end OffsetTable

/-! ## The prediction -/

/-- Entries of all generations of a ring build. -/
def ringDepth (freeThreaded : ℕ) : ℕ := if freeThreaded ≠ 0 then 3 else 17

/-- The ring region of this item size has a size that does not wrap around. -/
abbrev RingFits (itemSize freeThreaded : ℕ) : Prop :=
  ringDepth freeThreaded * itemSize + 24 < 2 ^ 64

theorem expectedRingSize_wraps (itemSize freeThreaded : ℕ) :
    expectedRingSize itemSize freeThreaded = wrapU64 (ringDepth freeThreaded * itemSize + 24) := by
  unfold expectedRingSize ringDepth ringEntries computeRingBaseOffsets
  split_ifs <;>
    simp only [Matrix.cons_val_zero, Matrix.cons_val_one, Matrix.cons_val, add_assoc,
      wrapU64_add_wrapU64] <;>
    congr 1 <;> ring

section Fits

variable {itemSize freeThreaded : ℕ} (hfit : RingFits itemSize freeThreaded)

include hfit

theorem expectedRingSize_eq :
    expectedRingSize itemSize freeThreaded = ringDepth freeThreaded * itemSize + 24 :=
  (expectedRingSize_wraps itemSize freeThreaded).trans (wrapU64_of_lt hfit)

theorem expectedRingSize_ne_zero : expectedRingSize itemSize freeThreaded ≠ 0 := by
  rw [expectedRingSize_eq hfit]
  omega

/-- **Two item sizes never predict the same region.** -/
theorem expectedRingSize_inj {itemSize' : ℕ} (hfit' : RingFits itemSize' freeThreaded)
    (h : expectedRingSize itemSize freeThreaded = expectedRingSize itemSize' freeThreaded) :
    itemSize = itemSize' := by
  rw [expectedRingSize_eq hfit, expectedRingSize_eq hfit', Nat.add_right_cancel_iff] at h
  refine Nat.eq_of_mul_eq_mul_left ?_ h
  unfold ringDepth
  split_ifs <;> decide

theorem computeRingBaseOffsets_of_fits :
    computeRingBaseOffsets itemSize (ringEntries freeThreaded) =
      ![0, ringEntries freeThreaded 0 * itemSize + 8,
        ringEntries freeThreaded 0 * itemSize + 8 + ringEntries freeThreaded 1 * itemSize + 8] := by
  unfold RingFits ringDepth at hfit
  unfold computeRingBaseOffsets ringEntries
  rw [wrapU64_of_lt, wrapU64_of_lt] <;> split_ifs at hfit ⊢ <;>
    simp only [Matrix.cons_val_zero, Matrix.cons_val_one] <;> omega

theorem OffsetTable.expectedRingSize_eq_statsBufferLen (t : OffsetTable) (layout : GcItemLayout)
    (h : itemSize ≠ 0) :
    ∃ len, (t.setRing itemSize layout freeThreaded).statsBufferLen = some len ∧
      expectedRingSize itemSize freeThreaded = len + 8 := by
  have hlen := (t.setRing_decodes layout h freeThreaded).statsBufferLen
  have hsize := OffsetTable.gcStatsRegionSize_eq (t := t.setRing itemSize layout freeThreaded) rfl hlen
  rw [OffsetTable.gcStatsRegionSize_setRing] at hsize
  refine ⟨_, hlen, hsize.trans (wrapU64_of_lt ?_)⟩
  -- the size is at least three cursor words, so the last one did not wrap around
  have heq := expectedRingSize_eq hfit
  have hlt := wrapU64_lt (computeRingBaseOffsets itemSize (ringEntries freeThreaded) 2 +
    ringEntries freeThreaded 2 * itemSize)
  rw [hsize] at heq
  unfold wrapU64 at heq hlt ⊢
  omega

end Fits

/-! ## The selection -/

namespace DebugOffsets

variable (o : DebugOffsets) (candidates : GcCandidates)

/-- The shapes compiled for the word of the layout, its own included. -/
def shapes : List GcStatsShape :=
  o.gcStatsShape ::
    (((candidates.find? fun row => row.1 == o.expectedVersion).map Prod.snd).getD []).map
      GcCandidate.shape

/-- The word has ring shapes only, which differ in their item sizes. -/
structure RingShapes : Prop where
  ring : ∀ sh ∈ o.shapes candidates, sh.kind = .ringBuffer
  layout : ∀ sh ∈ o.shapes candidates, sh.layout.isSome
  pos : ∀ sh ∈ o.shapes candidates, sh.itemSize ≠ 0
  distinct : ∀ sh ∈ o.shapes candidates, ∀ sh' ∈ o.shapes candidates,
    sh.itemSize = sh'.itemSize → sh = sh'

/-- No region of these shapes has a size that wraps around. -/
def ShapesFit : Prop := ∀ sh ∈ o.shapes candidates, RingFits sh.itemSize o.freeThreaded.toNat

/-- The shape the table is built for. -/
def selected : GcStatsShape :=
  selectGcShape candidates o.expectedVersion o.reported o.freeThreaded.toNat o.gcStatsShape

/-- Selection answers with a compiled shape; one that does not fit is the layout's own, and then no
candidate fits. -/
theorem selected_spec :
    o.selected candidates ∈ o.shapes candidates ∧
      (o.reported ≠ 0 →
        expectedRingSize (o.selected candidates).itemSize o.freeThreaded.toNat ≠ o.reported →
        ∀ sh ∈ o.shapes candidates,
          expectedRingSize sh.itemSize o.freeThreaded.toNat ≠ o.reported) := by
  unfold selected selectGcShape shapes
  split_ifs with h0
  · exact ⟨List.mem_cons_self, fun h => absurd h0 h⟩
  cases candidates.find? fun row => row.1 == o.expectedVersion with
  | none => simp
  | some row =>
    obtain ⟨word, cands⟩ := row
    simp only [Option.map_some, Option.getD_some]
    cases hc : cands.find? fun c => expectedRingSize c.itemSize o.freeThreaded.toNat == o.reported with
    | some c =>
      have hfit : expectedRingSize c.shape.itemSize o.freeThreaded.toNat = o.reported := by
        simpa using List.find?_some hc
      have hmem : c.shape ∈ cands.map GcCandidate.shape :=
        List.mem_map_of_mem (List.mem_of_find?_eq_some hc)
      exact ⟨List.mem_cons_of_mem _ hmem, fun _ h => absurd hfit h⟩
    | none =>
      refine ⟨List.mem_cons_self, fun _ h sh hsh => ?_⟩
      obtain rfl | hsh := List.mem_cons.mp hsh
      · exact h
      · obtain ⟨c, hcm, rfl⟩ := List.mem_map.mp hsh
        simpa using List.find?_eq_none.mp hc c hcm

theorem toOffsetTable_of_ring {layout : GcItemLayout}
    (hk : (o.selected candidates).kind = .ringBuffer)
    (hl : (o.selected candidates).layout = some layout) :
    o.toOffsetTable candidates =
      o.navigation.setRing (o.selected candidates).itemSize layout o.freeThreaded.toNat := by
  unfold selected at hk hl
  simp only [toOffsetTable, hk, hl]
  rfl

namespace RingShapes

variable {o candidates} (h : o.RingShapes candidates)

include h

theorem toOffsetTable_eq : ∃ layout, (o.selected candidates).layout = some layout ∧
    o.toOffsetTable candidates =
      o.navigation.setRing (o.selected candidates).itemSize layout o.freeThreaded.toNat := by
  have hsel := (o.selected_spec candidates).1
  obtain ⟨layout, hl⟩ := Option.isSome_iff_exists.mp (h.layout _ hsel)
  exact ⟨layout, hl, o.toOffsetTable_of_ring candidates (h.ring _ hsel) hl⟩

theorem gcStatsRegionSize_selected : (o.toOffsetTable candidates).gcStatsRegionSize =
    expectedRingSize (o.selected candidates).itemSize o.freeThreaded.toNat := by
  obtain ⟨layout, -, ht⟩ := h.toOffsetTable_eq
  rw [ht, OffsetTable.gcStatsRegionSize_setRing]

variable (hfits : o.ShapesFit candidates)

include hfits

theorem selected_eq {sh : GcStatsShape} (hsh : sh ∈ o.shapes candidates)
    (hfit : expectedRingSize sh.itemSize o.freeThreaded.toNat = o.reported) :
    o.selected candidates = sh := by
  obtain ⟨hsel, hnone⟩ := o.selected_spec candidates
  have h0 : o.reported ≠ 0 := hfit ▸ expectedRingSize_ne_zero (hfits _ hsh)
  by_cases he : expectedRingSize (o.selected candidates).itemSize o.freeThreaded.toNat = o.reported
  · exact h.distinct _ hsel _ hsh
      (expectedRingSize_inj (hfits _ hsel) (hfits _ hsh) (he.trans hfit.symm))
  · exact absurd hfit (hnone h0 he sh hsh)

/-- The guard passes when nothing is published or some shape fits. -/
theorem not_contradicts_iff :
    ¬ PySession.Contradicts o.toVersionedOffsets (o.toOffsetTable candidates) ↔
      o.reported = 0 ∨ ∃ sh ∈ o.shapes candidates,
        expectedRingSize sh.itemSize o.freeThreaded.toNat = o.reported := by
  rw [PySession.Contradicts, h.gcStatsRegionSize_selected]
  change ¬ (o.reported ≠ 0 ∧ _ ∧ o.reported ≠ _) ↔ _
  constructor
  · intro hn
    by_contra hc
    rw [not_or] at hc
    have hsel := (o.selected_spec candidates).1
    exact hn ⟨hc.1, expectedRingSize_ne_zero (hfits _ hsel), fun he => hc.2 ⟨_, hsel, he.symm⟩⟩
  · rintro (h0 | ⟨sh, hsh, hfit⟩) ⟨hne, -, hdiff⟩
    · exact hne h0
    · exact hdiff (by rw [h.selected_eq hfits hsh hfit, hfit])

/-- **Prediction, guard and decoder use one geometry**, as long as no size wraps around. The table
passes the guard exactly when the process publishes no size or the size of a compiled shape; it is
then the table of that shape; and for every shape the predicted size is the size of its table, one
word more than the decoder needs. -/
theorem geometry :
    (∀ s : PySession, s.resolved = .full o.toVersionedOffsets (o.toOffsetTable candidates) ∨
        s.resolved = .layoutOnly o.toVersionedOffsets (o.toOffsetTable candidates) →
      (s.verifyRingStatsSize = .ok () ↔ o.reported = 0 ∨ ∃ sh ∈ o.shapes candidates,
        expectedRingSize sh.itemSize o.freeThreaded.toNat = o.reported)) ∧
    (∀ sh ∈ o.shapes candidates,
      expectedRingSize sh.itemSize o.freeThreaded.toNat = o.reported →
        let t := o.toOffsetTable candidates
        let entries := ringEntries o.freeThreaded.toNat
        t.gcStatsKind = .ringBuffer ∧ t.gcItemSize = some sh.itemSize ∧ t.gcLayout = sh.layout ∧
          t.gcEntriesPerGen = some entries ∧
          t.gcGenBaseOffsets = some (computeRingBaseOffsets sh.itemSize entries)) ∧
    (∀ sh ∈ o.shapes candidates, ∀ layout, sh.layout = some layout → ∀ t : OffsetTable,
      let built := t.setRing sh.itemSize layout o.freeThreaded.toNat
      expectedRingSize sh.itemSize o.freeThreaded.toNat = built.gcStatsRegionSize ∧
        ∃ len, built.statsBufferLen = some len ∧
          expectedRingSize sh.itemSize o.freeThreaded.toNat = len + 8) := by
  refine ⟨fun s hs => ?_, fun sh hsh hfit => ?_, fun sh hsh layout _ t => ⟨rfl, ?_⟩⟩
  · have ho : s.resolved.offsets = some o.toVersionedOffsets := by
      obtain hs | hs := hs <;> rw [hs] <;> rfl
    have ht : s.resolved.table = o.toOffsetTable candidates := by
      obtain hs | hs := hs <;> rw [hs] <;> rfl
    rw [PySession.verifyRingStatsSize_isOk ho, ht, h.not_contradicts_iff hfits]
  · obtain ⟨layout, hl, ht⟩ := h.toOffsetTable_eq
    rw [h.selected_eq hfits hsh hfit] at hl ht
    rw [ht, hl]
    exact ⟨rfl, rfl, rfl, rfl, rfl⟩
  · exact t.expectedRingSize_eq_statsBufferLen (hfits _ hsh) layout (h.pos sh hsh)

end RingShapes

theorem ringShapes_shipped (h : o.gcStatsShape = ringShape) : o.RingShapes .shipped := by
  have hsh : ∀ sh ∈ o.shapes .shipped, sh = ringShape ∨ sh = ⟨.ringBuffer, 208, some ringIncLayout⟩ := by
    unfold shapes
    rw [h]
    by_cases hw : (0x030f00b1 : BitVec 64) = o.expectedVersion
    · rw [← hw]
      decide
    · have hnone : GcCandidates.shipped.find? (fun row => row.1 == o.expectedVersion) = none := by
        rw [List.find?_eq_none, GcCandidates.shipped]
        exact fun row hrow => by rw [List.mem_singleton.mp hrow]; exact fun h => hw (eq_of_beq h)
      rw [hnone]
      decide
  refine ⟨?_, ?_, ?_, ?_⟩
  · intro sh hm
    obtain rfl | rfl := hsh sh hm <;> rfl
  · intro sh hm
    obtain rfl | rfl := hsh sh hm <;> rfl
  · intro sh hm
    obtain rfl | rfl := hsh sh hm <;> decide
  · intro sh hm sh' hm' heq
    obtain rfl | rfl := hsh sh hm <;> obtain rfl | rfl := hsh sh' hm' <;>
      first | rfl | exact absurd heq (by decide)

/-- An instrumented 3.15.0b1 build with 3560 bytes of rings. -/
def instrumented : DebugOffsets where
  gcGenerationStats := 104
  gcGenerationStatsSize := 3560
  expectedVersion := 0x030f00b1
  freeThreaded := 0
  runtimeInterpretersHead := 0
  interpreterStateNext := 8
  interpreterStateId := 0
  interpreterStateGc := 16
  gcInlineOff := 0
  gcStatsShape := ringShape

/-- The instrumented build is read through the larger of the two layouts of its word. -/
theorem instrumented_geometry :
    (instrumented.toOffsetTable .shipped).gcItemSize = some 208 ∧
      (instrumented.toOffsetTable .shipped).gcLayout = some ringIncLayout :=
  let fits := (RingShapes.geometry (ringShapes_shipped instrumented rfl)
    (show ∀ sh ∈ _, _ by decide)).2.1 ⟨.ringBuffer, 208, some ringIncLayout⟩ (by decide) (by decide)
  ⟨fits.2.1, fits.2.2.1⟩

/-- A layout whose Entries are so large that seventeen of them and the cursor words wrap around to
zero bytes, in a process that publishes 100. -/
def oversized : DebugOffsets :=
  { instrumented with
    gcGenerationStatsSize := 100
    gcStatsShape := ⟨.ringBuffer, 7595718147998050664, some ringLayout⟩ }

/-- A session on it. -/
def oversizedSession : PySession where
  memory := .padded fun _ => []
  runtimeAddr := 0
  resolved := .full oversized.toVersionedOffsets (oversized.toOffsetTable [])
  storedHex := none
  exeKey := none
  cmdline := none

/-- The guard passes a published size that no shape predicts, the size of the table being zero. -/
theorem oversized_not_refused :
    (oversized.RingShapes [] ∧ (∀ sh ∈ oversized.shapes [], sh.itemSize < 2 ^ 64) ∧
      oversizedSession.resolved =
        .full oversized.toVersionedOffsets (oversized.toOffsetTable [])) ∧
    ¬ (oversizedSession.verifyRingStatsSize = .ok () ↔ oversized.reported = 0 ∨
      ∃ sh ∈ oversized.shapes [],
        expectedRingSize sh.itemSize oversized.freeThreaded.toNat = oversized.reported) := by
  have hshapes : oversized.shapes [] = [⟨.ringBuffer, 7595718147998050664, some ringLayout⟩] := rfl
  refine ⟨⟨⟨?_, ?_, ?_, ?_⟩, ?_, rfl⟩, fun h => ?_⟩
  any_goals
    rw [hshapes]
    decide
  have hok : oversizedSession.verifyRingStatsSize = .ok () :=
    (PySession.verifyRingStatsSize_isOk rfl).mpr (by decide)
  obtain h0 | ⟨sh, hsh, hsize⟩ := h.mp hok
  · exact absurd h0 (by decide)
  · rw [hshapes, List.mem_singleton] at hsh
    subst hsh
    exact absurd hsize (by decide)

end DebugOffsets

end GcScope
