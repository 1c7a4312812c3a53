import GcScope.Lib.ListFacts
import GcScope.RemoteDebugging.RegionRows

/-!
# The snapshot collector and the monitor on one ring region

The snapshot collector resolves the region through the session and decodes it with the monitor's own
decoder, but sizes the read by what the process publishes and compares it with nothing.

* `collectGcStats`, `parseGcEntries`: the collector.
* `parseGcEntries_eq`: its entries are the complete Records the decoder yields.
* `BothDecode`, **`BothDecode.entries_eq_iff`**: both paths on the same bytes of one session.
* **`collect_fails_closed_iff`**: when it decodes nothing from a target the monitor refuses, and when
  the two agree on one they both decode.
* `collect_decodes_refused`: a target the monitor refuses and the collector reads.
-/

set_option autoImplicit false

namespace GcScope

open LittleEndian MachineInt OffsetTable

/-- One Entry as the renderers draw it. -/
structure GcEntry (F : Type) where
  generation : ℕ
  index : ℕ
  byteOffset : ℕ
  startTs : ℤ
  stopTs : ℤ
  collections : ℤ
  collected : ℤ
  uncollectable : ℤ
  candidates : ℤ
  duration : F
  heapSize : ℤ
  deriving DecidableEq

structure GcStatsSnapshot (F : Type) where
  statsAddr : BitVec 64
  statsSize : ℕ
  itemSize : ℕ
  entriesPerGen : Fin 3 → ℕ
  hasTimestamps : Bool
  hasDuration : Bool
  rawStatsBytes : List UInt8
  entries : List (GcEntry F)

variable {F : Type} [F64 F]

/-- A Record as the renderers draw it. -/
def GcEntry.of (table : OffsetTable) (s : GcStat) : GcEntry F where
  generation := s.generation
  index := s.index
  byteOffset := (table.entryByteOffset s.generation s.index).getD 0
  startTs := s.tsStart
  stopTs := s.tsStop
  collections := s.collections
  collected := s.collected
  uncollectable := s.uncollectable
  candidates := s.candidates
  duration := s.duration
  heapSize := s.heapSize

/-- The finished Collections of a stats region. -/
def parseGcEntries (raw : List UInt8) (table : OffsetTable) : List (GcEntry F) :=
  ((table.decodeGcStats raw 0).filter GcStat.isComplete).map (GcEntry.of table)

/-- The generation-stats layer of a snapshot. -/
def collectGcStats (session : PySession) (table : OffsetTable) (offOpt : Option VersionedOffsets)
    (gcAddr : BitVec 64) (collect : Bool) : Except ReadError (GcStatsSnapshot F) := do
  let statsAddr := (← session.gcStatsRegionAddr gcAddr).getD 0
  let statsTotal := match table.gcStatsKind with
    | .none => 0
    | .inlineArray => table.statsBufferLen.getD 0
    | .ringBuffer => ((offOpt.map VersionedOffsets.gcGenerationStatsSize).getD 0).toNat
  let (raw, entries) ←
    if collect ∧ statsAddr ≠ 0 ∧ 0 < statsTotal then
      match session.read statsAddr statsTotal with
      | .ok raw => Except.ok (raw, parseGcEntries raw table)
      | .error e => .error (.snapshotBuffer e)
    else .ok ([], [])
  return {
    statsAddr
    statsSize := statsTotal
    itemSize := table.gcItemSize.getD 0
    entriesPerGen := table.gcEntriesPerGen.getD fun _ => 0
    hasTimestamps := match table.gcLayout with
      | some l => l.hasField "ts_start" && l.hasField "ts_stop"
      | none => false
    hasDuration := match table.gcLayout with
      | some l => l.hasField "duration"
      | none => false
    rawStatsBytes := raw
    entries }

/-! ## One decoder -/

theorem decodeGcStats_iid (table : OffsetTable) (raw : List UInt8) (iid iid' : ℤ) :
    table.decodeGcStats raw iid' =
      (table.decodeGcStats raw iid).map fun s => { s with interpreterId := iid' } := by
  unfold OffsetTable.decodeGcStats
  cases table.statsBufferLen with
  | none => rfl
  | some total =>
    simp only
    split_ifs
    · rfl
    · cases table.gcLayout with
      | none => rfl
      | some layout =>
        simp only [List.map_flatMap, OffsetTable.decodeGeneration, List.map_map]
        rfl

/-- **The collector's entries are the complete Records of the same bytes**, field for field and in
the decoder's order, whichever interpreter the Records are ascribed to. -/
theorem parseGcEntries_eq (raw : List UInt8) (table : OffsetTable) (iid : ℤ) :
    (parseGcEntries raw table : List (GcEntry F)) =
      ((table.decodeGcStats raw iid).filter GcStat.isComplete).map (GcEntry.of table) := by
  rw [parseGcEntries, decodeGcStats_iid table raw iid 0, List.filter_map, List.map_map]
  rfl

/-! ## What the collector decodes -/

/-- The bytes a ring build publishes: as many as it says, where its ring pointer points. -/
def publishedRegion (session : PySession) (vo : VersionedOffsets) (gcAddr : BitVec 64) :
    Option (List UInt8) :=
  match session.gcStatsRegionAddr gcAddr with
  | .ok (some addr) => session.memory.read addr vo.gcGenerationStatsSize.toNat
  | _ => none

theorem gcStatsRegionAddr_ne_zero {session : PySession}
    (hk : session.resolved.table.gcStatsKind = .ringBuffer) {gcAddr addr : BitVec 64}
    (h : session.gcStatsRegionAddr gcAddr = .ok (some addr)) : addr ≠ 0 := by
  unfold PySession.gcStatsRegionAddr OffsetTable.gcStatsRegion resolveStatsRegion at h
  rw [hk] at h
  simp only at h
  split_ifs at h with h0
  · cases h
  · simp only at h
    cases hr : session.readU64 (gcAddr +
      (Option.map VersionedOffsets.gcGenerationStats session.resolved.offsets).getD 0) with
    | error e => rw [hr] at h; cases h
    | ok ptr =>
      rw [hr] at h
      simp only [Except.ok.injEq] at h
      split_ifs at h with hp
      obtain rfl := Option.some.inj h
      exact hp

section Ring

variable {session : PySession} {vo : VersionedOffsets} {gcAddr : BitVec 64}

theorem collect_of_region (hk : session.resolved.table.gcStatsKind = .ringBuffer)
    (hs : vo.gcGenerationStatsSize.toNat ≠ 0) {raw : List UInt8}
    (hr : publishedRegion session vo gcAddr = some raw) :
    ∃ snap : GcStatsSnapshot F,
      collectGcStats session session.resolved.table (some vo) gcAddr true = .ok snap ∧
        snap.entries = parseGcEntries raw session.resolved.table := by
  unfold publishedRegion at hr
  split at hr
  · rename_i addr haddr
    have hne := gcStatsRegionAddr_ne_zero hk haddr
    have hread : session.read addr vo.gcGenerationStatsSize.toNat = .ok raw := by
      rw [PySession.read, hr]
    simp only [collectGcStats, haddr, hk, Option.map_some, Option.getD_some, bind, Except.bind,
      true_and, ne_eq, hne, not_false_eq_true, Nat.pos_of_ne_zero hs, if_true, hread]
    exact ⟨_, rfl, rfl⟩
  · cases hr

theorem region_of_collect (hk : session.resolved.table.gcStatsKind = .ringBuffer)
    {snap : GcStatsSnapshot F}
    (h : collectGcStats session session.resolved.table (some vo) gcAddr true = .ok snap)
    (hne : snap.entries ≠ []) :
    ∃ raw, publishedRegion session vo gcAddr = some raw ∧
      snap.entries = parseGcEntries raw session.resolved.table := by
  unfold publishedRegion
  cases haddr : session.gcStatsRegionAddr gcAddr with
  | error e => simp [collectGcStats, haddr, bind, Except.bind] at h
  | ok addr =>
    simp only [collectGcStats, haddr, hk, Option.map_some, Option.getD_some, bind, Except.bind,
      true_and] at h
    split_ifs at h with hc
    · cases addr with
      | none => exact absurd rfl hc.1
      | some addr =>
        simp only [Option.getD_some, PySession.read] at h
        cases hread : session.memory.read addr vo.gcGenerationStatsSize.toNat with
        | none => rw [hread] at h; cases h
        | some raw =>
          rw [hread] at h
          obtain rfl := Except.ok.inj h
          exact ⟨raw, hread, rfl⟩
    · obtain rfl := Except.ok.inj h
      exact absurd rfl hne

end Ring

/-! ## Failing closed -/

/-- No Entry that the table's geometry places inside the bytes is finished. -/
def NoneFinished (table : OffsetTable) (raw : List UInt8) : Prop :=
  ∀ itemSize entries bases layout, table.Decodes itemSize entries bases layout →
    ∀ g : Fin 3, ∀ i < entries g, bases g + i * itemSize + itemSize ≤ raw.length →
      (OffsetTable.entryAt layout raw 0 itemSize (bases g) g i).isComplete = false

theorem parseGcEntries_eq_nil_iff (table : OffsetTable) {raw : List UInt8} :
    (parseGcEntries raw table : List (GcEntry F)) = [] ↔
      (∀ total, table.statsBufferLen = some total → raw.length < total) ∨
        NoneFinished table raw := by
  rw [parseGcEntries, List.map_eq_nil_iff, List.filter_eq_nil_iff]
  cases ht : table.statsBufferLen with
  | none => simp [OffsetTable.decodeGcStats_of_none ht]
  | some total =>
    obtain ⟨itemSize, entries, bases, layout, hd, rfl⟩ := OffsetTable.statsBufferLen_eq_some ht
    by_cases hl : raw.length < wrapU64 (bases 2 + entries 2 * itemSize)
    · simp [OffsetTable.decodeGcStats_of_short ht hl, hl]
    · constructor
      · intro h
        refine Or.inr fun itemSize' entries' bases' layout' hd' g i hi hfit => ?_
        obtain ⟨rfl, rfl, rfl, rfl⟩ := hd.unique hd'
        have := h _ ((hd.mem_decodeGcStats (not_lt.mp hl)).mpr ⟨g, i, hi, hfit, rfl⟩)
        simpa using this
      · rintro (h | h) s hs
        · exact absurd (h _ rfl) hl
        · obtain ⟨g, i, hi, hfit, rfl⟩ := (hd.mem_decodeGcStats (not_lt.mp hl)).mp hs
          simp [h itemSize entries bases layout hd g i hi hfit]

theorem length_publishedRegion {session : PySession} {vo : VersionedOffsets} {gcAddr : BitVec 64}
    {raw : List UInt8} (h : publishedRegion session vo gcAddr = some raw) :
    raw.length = vo.gcGenerationStatsSize.toNat := by
  unfold publishedRegion at h
  split at h
  · exact session.memory.length_of_read _ _ _ h
  · cases h

/-- The monitor refuses a target whose published size contradicts its table. -/
theorem exists_error_iff {session : PySession} {vo : VersionedOffsets}
    (hv : session.resolved.offsets = some vo) :
    (∃ e, session.verifyRingStatsSize = .error e) ↔
      PySession.Contradicts vo session.resolved.table := by
  rw [← not_iff_not, ← PySession.verifyRingStatsSize_isOk hv]
  cases session.verifyRingStatsSize with
  | ok u => simp
  | error e => simp

/-! ## One region, two readers -/

/-- Nothing finished lies in the bytes behind those the monitor decodes. -/
def NoneFinishedPast (table : OffsetTable) (raw : List UInt8) : Prop :=
  ∀ itemSize entries bases layout total, table.Decodes itemSize entries bases layout →
    table.statsBufferLen = some total →
      ∀ p ∈ Rows.slotsOf entries, total < slotEnd itemSize bases p →
        slotEnd itemSize bases p ≤ raw.length →
          (slotEntry layout raw 0 itemSize bases p).isComplete = false

theorem slotEntry_take {layout : GcItemLayout} {raw : List UInt8} {iid : ℤ} {itemSize total : ℕ}
    {bases : Fin 3 → ℕ} {p : Fin 3 × ℕ} (h : slotEnd itemSize bases p ≤ total) :
    slotEntry layout (raw.take total) iid itemSize bases p =
      slotEntry layout raw iid itemSize bases p := by
  unfold slotEnd at h
  unfold slotEntry entryAt
  rw [List.drop_take, List.take_take, Nat.min_eq_left (by omega)]

theorem parseGcEntries_slots {table : OffsetTable} {itemSize : ℕ} {entries bases : Fin 3 → ℕ}
    {layout : GcItemLayout} (hd : table.Decodes itemSize entries bases layout) {raw : List UInt8}
    (hl : wrapU64 (bases 2 + entries 2 * itemSize) ≤ raw.length) :
    (parseGcEntries raw table : List (GcEntry F)) =
      ((Rows.slotsOf entries).filter fun p => slotEnd itemSize bases p ≤ raw.length &&
        (slotEntry layout raw 0 itemSize bases p).isComplete).map
          fun p => GcEntry.of table (slotEntry layout raw 0 itemSize bases p) := by
  rw [parseGcEntries, hd.decodeGcStats_slots hl, List.filter_map, List.map_map, List.filter_filter]
  simp only [Bool.and_comm, Function.comp_def]

/-- The entries of the first bytes are those of the slots that end there. -/
theorem parseGcEntries_take {table : OffsetTable} {itemSize total : ℕ} {entries bases : Fin 3 → ℕ}
    {layout : GcItemLayout} (hd : table.Decodes itemSize entries bases layout) {raw : List UInt8}
    (hl : wrapU64 (bases 2 + entries 2 * itemSize) ≤ total) (hle : total ≤ raw.length) :
    (parseGcEntries (raw.take total) table : List (GcEntry F)) =
      ((Rows.slotsOf entries).filter fun p => slotEnd itemSize bases p ≤ total &&
        (slotEntry layout raw 0 itemSize bases p).isComplete).map
          fun p => GcEntry.of table (slotEntry layout raw 0 itemSize bases p) := by
  have hlen : (raw.take total).length = total := by rw [List.length_take, Nat.min_eq_left hle]
  have hfilter : ((Rows.slotsOf entries).filter fun p => slotEnd itemSize bases p ≤ total &&
      (slotEntry layout (raw.take total) 0 itemSize bases p).isComplete) =
        (Rows.slotsOf entries).filter fun p => slotEnd itemSize bases p ≤ total &&
          (slotEntry layout raw 0 itemSize bases p).isComplete := by
    refine List.filter_congr fun p _ => ?_
    by_cases hp : slotEnd itemSize bases p ≤ total
    · rw [slotEntry_take hp]
    · rw [decide_eq_false hp, Bool.false_and, Bool.false_and]
  rw [parseGcEntries_slots hd (by rwa [hlen]), hlen, hfilter]
  refine List.map_congr_left fun p hp => ?_
  have hin := (List.mem_filter.mp hp).2
  rw [Bool.and_eq_true, decide_eq_true_eq] at hin
  rw [slotEntry_take hin.1]

/-- **A buffer and its first bytes hold the same finished Entries** exactly when none lies behind
those bytes. -/
theorem parseGcEntries_take_iff {table : OffsetTable} {total : ℕ}
    (ht : table.statsBufferLen = some total) {raw : List UInt8} (hle : total ≤ raw.length) :
    (parseGcEntries raw table : List (GcEntry F)) = parseGcEntries (raw.take total) table ↔
      NoneFinishedPast table raw := by
  obtain ⟨itemSize, entries, bases, layout, hd, htotal⟩ := statsBufferLen_eq_some ht
  rw [parseGcEntries_slots hd (htotal ▸ hle), parseGcEntries_take hd htotal.ge hle,
    ListFacts.map_filter_eq_map_filter_iff]
  · simp only [Bool.and_eq_true, decide_eq_true_eq]
    constructor
    · intro h itemSize' entries' bases' layout' total' hd' ht' p hp hpast hfit
      obtain ⟨rfl, rfl, rfl, rfl⟩ := hd.unique hd'
      obtain rfl := Option.some.inj (ht.symm.trans ht')
      refine Bool.eq_false_iff.mpr fun hc => ?_
      exact absurd (h p hp ⟨hfit, hc⟩).1 (not_le.mpr hpast)
    · refine fun h p hp hin => ⟨not_lt.mp fun hpast => ?_, hin.2⟩
      have hnone := h _ _ _ _ _ hd ht p hp hpast hin.1
      exact absurd hin.2 (Bool.eq_false_iff.mp hnone)
  · intro p _ hin
    simp only [Bool.and_eq_true, decide_eq_true_eq] at hin ⊢
    exact ⟨hin.1.trans hle, hin.2⟩

/-- The rows of a ring table end inside what the decoder needs. -/
theorem noneFinishedPast_setRing (t : OffsetTable) (layout : GcItemLayout)
    {itemSize freeThreaded : ℕ} (hfit : RingFits itemSize freeThreaded) (raw : List UInt8) :
    NoneFinishedPast (t.setRing itemSize layout freeThreaded) raw := by
  intro itemSize' entries bases layout' total hd ht p hp hpast
  have hpos : itemSize ≠ 0 := fun h0 => hd.pos ((Option.some.inj hd.item).symm.trans h0)
  -- the rows end below what the decoder needs
  obtain ⟨R, hR, -, hlt, hrows⟩ := Configured.exists_rows
    (.ring t freeThreaded : Configured itemSize layout _) hpos
    ((t.regionBytes_setRing itemSize layout freeThreaded).trans_lt hfit)
  obtain rfl := hR
  obtain ⟨rfl, rfl, rfl, rfl⟩ := hrows.unique hd
  obtain rfl : R.stop 2 = total := Option.some.inj ((hrows.statsBufferLen_rows hlt).symm.trans ht)
  exact absurd (slotEnd_le hp) (not_le.mpr hpast)

/-- What both readers make of one interpreter's ring region: the Records the monitor decodes and the
snapshot the collector makes of the bytes published there, the first of which are those the monitor
reads. -/
structure BothDecode (session : PySession) (vo : VersionedOffsets) (interpAddr : BitVec 64)
    (records : List GcStat) (snap : GcStatsSnapshot F) (raw : List UInt8) : Prop where
  monitor : session.readInterpreterStats interpAddr = .ok (some records)
  collector : collectGcStats session session.resolved.table (some vo)
    (session.resolved.table.gcStateAddr session.runtimeAddr interpAddr) true = .ok snap
  region : publishedRegion session vo
    (session.resolved.table.gcStateAddr session.runtimeAddr interpAddr) = some raw
  same : ∀ addr total, session.gcStatsRegionAddr
      (session.resolved.table.gcStateAddr session.runtimeAddr interpAddr) = .ok (some addr) →
    session.resolved.table.statsBufferLen = some total →
      session.memory.read addr total = some (raw.take total)

section Ring

variable {session : PySession} {vo : VersionedOffsets}

/-- The snapshot of a region holds what its bytes decode to. -/
theorem entries_of_region (hk : session.resolved.table.gcStatsKind = .ringBuffer)
    {gcAddr : BitVec 64} {raw : List UInt8} (hr : publishedRegion session vo gcAddr = some raw)
    {snap : GcStatsSnapshot F}
    (h : collectGcStats session session.resolved.table (some vo) gcAddr true = .ok snap) :
    snap.entries = parseGcEntries raw session.resolved.table := by
  by_cases hs : vo.gcGenerationStatsSize.toNat = 0
  · -- nothing is read, and nothing is what no bytes decode to
    have hnil : raw = [] := List.length_eq_zero_iff.mp ((length_publishedRegion hr).trans hs)
    have hnone : (parseGcEntries raw session.resolved.table : List (GcEntry F)) = [] := by
      rw [parseGcEntries_eq_nil_iff, hnil]
      refine Or.inr fun itemSize _ _ _ hd g i _ hfit => ?_
      have := hd.pos
      rw [List.length_nil] at hfit
      omega
    rw [hnone]
    by_contra hne
    obtain ⟨raw', hr', he⟩ := region_of_collect hk h hne
    obtain rfl := Option.some.inj (hr.symm.trans hr')
    exact hne (he.trans hnone)
  · obtain ⟨snap', hsnap', he⟩ := collect_of_region (F := F) hk hs hr
    obtain rfl := Except.ok.inj (h.symm.trans hsnap')
    exact he

theorem records_of_region {interpAddr addr : BitVec 64} {records : List GcStat}
    (h : session.readInterpreterStats interpAddr = .ok (some records))
    (haddr : session.gcStatsRegionAddr
      (session.resolved.table.gcStateAddr session.runtimeAddr interpAddr) = .ok (some addr)) :
    (session.resolved.table.statsBufferLen = none ∧ records = []) ∨
      ∃ total raw iid, session.resolved.table.statsBufferLen = some total ∧
        session.memory.read addr total = some raw ∧
        records = session.resolved.table.decodeGcStats raw iid := by
  unfold PySession.readInterpreterStats at h
  cases hiid : session.readI64 (interpAddr + session.resolved.table.interpId) with
  | error e => simp [hiid, bind, Except.bind] at h
  | ok iid =>
    simp only [hiid, haddr, bind, Except.bind, pure, Except.pure] at h
    split_ifs at h
    · cases h
    · cases hread : session.readGcStats { session.resolved.table with gcStatsAddr := some addr } iid with
      | error e => rw [hread] at h; cases h
      | ok stats =>
        rw [hread] at h
        obtain rfl := Option.some.inj (Except.ok.inj h)
        have hlen : ({ session.resolved.table with gcStatsAddr := some addr } : OffsetTable).statsBufferLen =
            session.resolved.table.statsBufferLen := rfl
        simp only [PySession.readGcStats, hlen] at hread
        cases htotal : session.resolved.table.statsBufferLen with
        | none =>
          rw [htotal] at hread
          exact Or.inl ⟨rfl, (Except.ok.inj hread).symm⟩
        | some total =>
          simp only [htotal, PySession.read] at hread
          cases hraw : session.memory.read addr total with
          | none => rw [hraw] at hread; cases hread
          | some raw =>
            rw [hraw] at hread
            exact Or.inr ⟨total, raw, iid, rfl, hraw, (Except.ok.inj hread).symm⟩

/-- The first interpreter's Records are what the monitor reads of a target it does not refuse. -/
theorem gcStats_first (hk : session.resolved.table.gcStatsKind = .ringBuffer)
    (hok : session.verifyRingStatsSize = .ok ()) {interpAddr : BitVec 64} (hne : interpAddr ≠ 0)
    (hhead : session.readInterpretersHead = .ok interpAddr) {records : List GcStat}
    (h : session.readInterpreterStats interpAddr = .ok (some records)) :
    session.gcStats false = .ok records := by
  rw [PySession.gcStats, hk]
  simp only [PySession.gcStatsRing, hok, hhead, bind, Except.bind, PySession.gcStatsPerInterpreter,
    walkInterpreterChain]
  rw [walkFrom, if_neg hne, if_neg List.not_mem_nil, h]
  rfl

/-- **Where both decode the same bytes, the collector's entries are the complete ones of the monitor's
Records**, as long as no finished Entry lies behind the bytes the monitor decodes. -/
theorem BothDecode.entries_eq_iff (hk : session.resolved.table.gcStatsKind = .ringBuffer)
    {interpAddr : BitVec 64} {records : List GcStat} {snap : GcStatsSnapshot F} {raw : List UInt8}
    (h : BothDecode session vo interpAddr records snap raw) :
    snap.entries = (records.filter GcStat.isComplete).map (GcEntry.of session.resolved.table) ↔
      NoneFinishedPast session.resolved.table raw := by
  rw [entries_of_region hk h.region h.collector]
  have hr := h.region
  unfold publishedRegion at hr
  split at hr
  · rename_i addr haddr
    rcases records_of_region h.monitor haddr with ⟨hnone, rfl⟩ | ⟨total, raw', iid, htotal, hraw', rfl⟩
    · -- a table that decodes nothing has no Entries
      have hempty : (parseGcEntries raw session.resolved.table : List (GcEntry F)) = [] := by
        rw [parseGcEntries, decodeGcStats_of_none hnone, List.filter_nil, List.map_nil]
      rw [hempty]
      refine iff_of_true rfl fun itemSize entries bases layout total hd htotal => ?_
      rw [htotal] at hnone
      cases hnone
    · obtain rfl := Option.some.inj (hraw'.symm.trans (h.same addr total haddr htotal))
      have hle : total ≤ raw.length := by
        have := session.memory.length_of_read _ _ _ hraw'
        rw [List.length_take] at this
        omega
      rw [← parseGcEntries_eq (raw.take total) session.resolved.table iid]
      exact parseGcEntries_take_iff htotal hle
  · cases hr

end Ring

/-- **When the two readers of a ring region agree.** A target the monitor refuses gives the collector
no entry exactly when it is not refused at all, or publishes fewer bytes than the decoder needs, or
has no readable region, or has none finished there. Where both decode the same bytes of an
interpreter, the collector's entries are the complete ones of the monitor's Records exactly when
nothing finished lies behind what the monitor decodes, and so for every ring table whose region has a
size that does not wrap around; the first interpreter's Records are what the monitor answers with. -/
theorem collect_fails_closed_iff {session : PySession}
    (hk : session.resolved.table.gcStatsKind = .ringBuffer) {vo : VersionedOffsets}
    (hv : session.resolved.offsets = some vo) (gcAddr : BitVec 64) :
    (((∃ e, session.verifyRingStatsSize = .error e) →
        ∀ snap : GcStatsSnapshot F, collectGcStats session session.resolved.table
          session.resolved.offsets gcAddr true = .ok snap → snap.entries = []) ↔
      (vo.gcGenerationStatsSize.toNat = 0 ∨ session.resolved.table.gcStatsRegionSize = 0 ∨
        vo.gcGenerationStatsSize.toNat = session.resolved.table.gcStatsRegionSize) ∨
      (∀ total, session.resolved.table.statsBufferLen = some total →
        vo.gcGenerationStatsSize.toNat < total) ∨
      ∀ raw, publishedRegion session vo gcAddr = some raw →
        NoneFinished session.resolved.table raw) ∧
    ((∃ e, session.verifyRingStatsSize = .error e) →
      ∀ all, ∃ e, session.gcStats all = .error e) ∧
    (∀ interpAddr records (snap : GcStatsSnapshot F) raw,
      BothDecode session vo interpAddr records snap raw →
        (snap.entries = (records.filter GcStat.isComplete).map (GcEntry.of session.resolved.table) ↔
          NoneFinishedPast session.resolved.table raw) ∧
        ∀ (t : OffsetTable) itemSize layout freeThreaded,
          session.resolved.table = t.setRing itemSize layout freeThreaded →
            RingFits itemSize freeThreaded → snap.entries =
              (records.filter GcStat.isComplete).map (GcEntry.of session.resolved.table)) ∧
    ∀ interpAddr records, session.verifyRingStatsSize = .ok () → interpAddr ≠ 0 →
      session.readInterpretersHead = .ok interpAddr →
      session.readInterpreterStats interpAddr = .ok (some records) →
        session.gcStats false = .ok records := by
  rw [exists_error_iff hv, hv]
  refine ⟨⟨fun h => ?_, fun h hc snap hsnap => ?_⟩,
    fun hc all => ⟨_, PySession.gcStats_of_contradicts hk hv hc all⟩,
    fun interpAddr records snap raw hboth => ⟨hboth.entries_eq_iff hk, ?_⟩,
    fun interpAddr records hok hne hhead => gcStats_first hk hok hne hhead⟩
  · by_cases hc : PySession.Contradicts vo session.resolved.table
    · by_cases hshort : ∀ total, session.resolved.table.statsBufferLen = some total →
          vo.gcGenerationStatsSize.toNat < total
      · exact Or.inr (Or.inl hshort)
      · refine Or.inr (Or.inr fun raw hr => ?_)
        obtain ⟨snap, hsnap, he⟩ := collect_of_region (F := F) hk hc.1 hr
        rw [h hc snap hsnap, eq_comm, parseGcEntries_eq_nil_iff, length_publishedRegion hr] at he
        exact he.resolve_left hshort
    · unfold PySession.Contradicts at hc
      exact Or.inl (by tauto)
  · by_contra hne
    obtain ⟨raw, hr, he⟩ := region_of_collect hk hsnap hne
    refine hne (he.trans ((parseGcEntries_eq_nil_iff _).mpr ?_))
    rw [length_publishedRegion hr]
    rcases h with h | h | h
    · exact absurd hc (by unfold PySession.Contradicts; tauto)
    · exact Or.inl h
    · exact Or.inr (h raw hr)
  · intro t itemSize layout freeThreaded ht hfit
    exact (hboth.entries_eq_iff hk).mpr (ht ▸ noneFinishedPast_setRing t layout hfit raw)

/-- A free-threaded 3.15 process of an unregistered build: its table expects three 64-byte Entries,
it publishes room for three of 96 bytes, and its first Entry is finished. -/
def unregisteredBuild : PySession where
  memory := .padded fun addr => if addr = 0x2000 then wordsBytes [5, 9, 1] else wordBytes 0x2000
  runtimeAddr := 0
  resolved := .full ⟨8, 312⟩ (OffsetTable.blank.setRing 64 ringLayout 1)
  storedHex := none
  exeKey := none
  cmdline := none

/-- The same process before its ring is allocated. -/
def unallocatedBuild : PySession :=
  { unregisteredBuild with
    resolved := .full ⟨0, 312⟩ (OffsetTable.blank.setRing 64 ringLayout 1) }

/-- The same process as a registered build, which publishes what its table expects. -/
def registeredBuild : PySession :=
  { unregisteredBuild with resolved := .full ⟨8, 216⟩ (OffsetTable.blank.setRing 64 ringLayout 1) }

/-- A refused target without a ring pointer gives the collector nothing; of a target that is not
refused both readers make the same. -/
theorem collect_unallocated :
    (¬ ∃ snap : GcStatsSnapshot (Secs fun w => w.toInt),
      collectGcStats unallocatedBuild unallocatedBuild.resolved.table
        unallocatedBuild.resolved.offsets 0 true = .ok snap ∧ snap.entries ≠ []) ∧
    ∃ (snap : GcStatsSnapshot (Secs fun w => w.toInt)) (records : List GcStat),
      collectGcStats registeredBuild registeredBuild.resolved.table
        registeredBuild.resolved.offsets 0 true = .ok snap ∧
      registeredBuild.readInterpreterStats 0 = .ok (some records) ∧
      snap.entries =
        (records.filter GcStat.isComplete).map (GcEntry.of registeredBuild.resolved.table) := by
  constructor
  · rintro ⟨snap, hsnap, hne⟩
    exact hne ((@collect_fails_closed_iff _ _ unallocatedBuild rfl ⟨0, 312⟩ rfl 0).1.mpr
      (Or.inr (Or.inr fun _ hr => by cases hr)) ⟨_, rfl⟩ snap hsnap)
  · have hboth := (@collect_fails_closed_iff (Secs fun w => w.toInt) _ registeredBuild rfl ⟨8, 216⟩
      rfl 0).2.2.1
    obtain ⟨snap, hsnap, -⟩ := @collect_of_region (Secs fun w => w.toInt) _ registeredBuild
      ⟨8, 216⟩ 0 rfl (by decide) _ rfl
    refine ⟨snap, _, hsnap, rfl, (hboth 0 _ snap _ ⟨rfl, hsnap, rfl, ?_⟩).2 .blank 64 ringLayout 1 rfl
      (by decide)⟩
    rintro addr total haddr htotal
    obtain rfl := Option.some.inj (Except.ok.inj haddr)
    obtain rfl := Option.some.inj htotal
    rfl

/-- **The monitor refuses a target the collector decodes.** -/
theorem collect_decodes_refused : (∃ e, unregisteredBuild.verifyRingStatsSize = .error e) ∧
    ∃ snap : GcStatsSnapshot (Secs fun w => w.toInt),
      collectGcStats unregisteredBuild unregisteredBuild.resolved.table
        unregisteredBuild.resolved.offsets 0 true = .ok snap ∧ snap.entries ≠ [] := by
  refine ⟨⟨_, rfl⟩, ?_⟩
  obtain ⟨snap, hsnap, he⟩ := @collect_of_region (Secs fun w => w.toInt) _ unregisteredBuild
    ⟨8, 312⟩ 0 rfl (by decide) _ rfl
  refine ⟨snap, hsnap, ?_⟩
  rw [he, ne_eq, parseGcEntries_eq_nil_iff]
  rintro (h | h)
  · exact absurd (h 208 rfl) (by decide +kernel)
  · exact absurd (h 64 _ _ ringLayout ⟨rfl, by decide, rfl, rfl, rfl⟩ 0 0 (by decide)
      (by decide +kernel)) (by decide +kernel)

end GcScope
