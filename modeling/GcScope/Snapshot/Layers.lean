import GcScope.RemoteDebugging.Attach
import GcScope.Snapshot.Coverage

/-!
# The layers of a snapshot

A snapshot is collected in one walk: the debug offsets, the head of the interpreter chain, the GC state
and its generation stats. The heavy layers are read on request; the navigation and the labels always.

* `collectData`: the collector, with `CollectedData.narrow`, what is left of a snapshot under a request.
* **`collect_union`**: requests compose.
* **`collect_wellFormed`**: what the renderers of a snapshot rely on.
-/

set_option autoImplicit false

namespace GcScope

/-- Which heavy layers a caller wants. -/
structure CollectRequest where
  debugOffsets : Bool
  gcState : Bool
  gcStats : Bool
  deriving DecidableEq

namespace CollectRequest

def all : CollectRequest := ⟨true, true, true⟩

def tui : CollectRequest := all

/-- The layers of either request. -/
def union (r r' : CollectRequest) : CollectRequest :=
  ⟨r.debugOffsets || r'.debugOffsets, r.gcState || r'.gcState, r.gcStats || r'.gcStats⟩

end CollectRequest

/-- What the debug offsets say of sizes: their own, and that of the `gc` sub-struct. -/
structure DebugSizes where
  total : BitVec 64
  gc : BitVec 64

/-- An attached process, with the sizes its debug offsets give. -/
structure Watched where
  pid : Pid
  session : PySession
  sizes : DebugSizes

structure GcSubState (F : Type) where
  rawBytes : List UInt8
  generationStats : GcStatsSnapshot F

structure InterpreterSnapshot (F : Type) where
  addr : BitVec 64
  gc : GcSubState F
  gcOffset : BitVec 64
  gcSize : BitVec 64
  id : ℤ
  nextAddr : BitVec 64

structure CollectedData (F : Type) where
  pid : Pid
  runtimeAddr : BitVec 64
  runtimeVersion : BitVec 64
  runtimeRawBytes : List UInt8
  debugOffsetsSize : BitVec 64
  resolved : Resolved
  interpreter : InterpreterSnapshot F

inductive CollectError where
  | debugOffsets (cause : ReadError)
  | interpretersHead (cause : ReadError)
  | gcState (cause : ReadError)
  | read (cause : ReadError)
  | changed (cause : CollectError)
  | dead (cause : CollectError)

/-- The outermost text of the error. -/
def CollectError.message : CollectError → String
  | debugOffsets _ => "Failed to read _Py_DebugOffsets + _PyRuntime memory"
  | interpretersHead _ => "Failed to read interpreters_head pointer"
  | gcState _ => "Failed to read GC state"
  | read cause => cause.message
  | changed _ => "target PID is now held by a different program"
  | dead _ => "target process is gone"

/-! ## The collector -/

/-- Values that every layer hangs off. -/
structure InterpreterNav where
  headAddr : BitVec 64
  gcAddr : BitVec 64
  gcSize : BitVec 64
  gcOffset : BitVec 64
  id : ℤ
  nextAddr : BitVec 64

namespace Watched

variable (w : Watched)

def debugOffsetsSize : BitVec 64 := if w.session.resolved.offsets.isSome then w.sizes.total else 0

/-- A read made only where it is asked for. -/
def gated (asked : Bool) (read : Except CollectError (List UInt8)) :
    Except CollectError (List UInt8) :=
  if asked then read else .ok []

/-- The debug offsets and the runtime that follows them. -/
def readDebugOffsetsDump : Except CollectError (List UInt8) :=
  (w.session.read w.session.runtimeAddr (w.debugOffsetsSize.toNat * 2)).mapError .debugOffsets

def resolveInterpreterNav : Except CollectError InterpreterNav := do
  let table := w.session.resolved.table
  let headAddr ← (w.session.readU64 (w.session.runtimeAddr + table.runtimeInterpretersHead)).mapError
    .interpretersHead
  let gcSize := match w.session.resolved.offsets with
    | some _ => w.sizes.gc
    | none => table.gcStatsInlineOff + BitVec.ofNat 64 (table.statsBufferLen.getD 0)
  let nextAddr ← (w.session.readU64 (headAddr + table.interpNext)).mapError .read
  let id ← (w.session.readI64 (headAddr + table.interpId)).mapError .read
  return {
    headAddr
    gcAddr := table.gcStateAddr w.session.runtimeAddr headAddr
    gcSize
    gcOffset := table.interpGc.getD 0
    id
    nextAddr }

/-- The bytes of the `gc` sub-struct. -/
def readGcState (gcAddr gcSize : BitVec 64) : Except CollectError (List UInt8) :=
  (w.session.read gcAddr gcSize.toNat).mapError .gcState

variable {F : Type} [F64 F]

/-- The snapshot made of what was read. -/
def snapshot (runtimeRawBytes : List UInt8) (nav : InterpreterNav) (gcRaw : List UInt8)
    (generationStats : GcStatsSnapshot F) : CollectedData F where
  pid := w.pid
  runtimeAddr := w.session.runtimeAddr
  runtimeVersion := w.session.storedHex.getD w.session.resolved.table.versionHex
  runtimeRawBytes
  debugOffsetsSize := w.debugOffsetsSize
  resolved := w.session.resolved
  interpreter := {
    addr := nav.headAddr
    gc := { rawBytes := gcRaw, generationStats }
    gcOffset := nav.gcOffset
    gcSize := nav.gcSize
    id := nav.id
    nextAddr := nav.nextAddr }

/-- Collect the layers of a request. -/
def collectData (request : CollectRequest) : Except CollectError (CollectedData F) := do
  let table := w.session.resolved.table
  let offOpt := w.session.resolved.offsets
  let runtimeRawBytes ← gated (request.debugOffsets && offOpt.isSome) w.readDebugOffsetsDump
  let nav ← w.resolveInterpreterNav
  let gcRaw ← gated request.gcState (w.readGcState nav.gcAddr nav.gcSize)
  let generationStats ←
    (collectGcStats w.session table offOpt nav.gcAddr request.gcStats).mapError .read
  return w.snapshot runtimeRawBytes nav gcRaw generationStats

end Watched

/-! ## What a request leaves of a snapshot -/

section Except

variable {ε ε' α β : Type}

theorem except_bind_eq_ok {x : Except ε α} {f : α → Except ε β} {b : β} :
    x >>= f = .ok b ↔ ∃ a, x = .ok a ∧ f a = .ok b := by
  cases x with
  | error e => simp [bind, Except.bind]
  | ok a => simp [bind, Except.bind]

theorem mapError_eq_ok {g : ε → ε'} {x : Except ε α} {a : α} :
    x.mapError g = .ok a ↔ x = .ok a := by
  cases x <;> simp [Except.mapError]

end Except

variable {F : Type}

/-- A layer that was not asked for is empty. -/
def layer (asked : Bool) (bytes : List UInt8) : List UInt8 := if asked then bytes else []

def GcStatsSnapshot.narrow (asked : Bool) (snap : GcStatsSnapshot F) : GcStatsSnapshot F :=
  { snap with
    rawStatsBytes := layer asked snap.rawStatsBytes
    entries := if asked then snap.entries else [] }

def CollectedData.narrow (request : CollectRequest) (d : CollectedData F) : CollectedData F :=
  { d with
    runtimeRawBytes := layer request.debugOffsets d.runtimeRawBytes
    interpreter := { d.interpreter with
      gc := {
        rawBytes := layer request.gcState d.interpreter.gc.rawBytes
        generationStats := d.interpreter.gc.generationStats.narrow request.gcStats } } }

/-- Bytes read for either of two requests are read for each of them. -/
theorem gated_union (read : Except CollectError (List UInt8)) (c c' : Bool) (bytes : List UInt8) :
    Watched.gated (c || c') read = .ok bytes ↔
      (Watched.gated c read = .ok (layer c bytes) ∧ Watched.gated c' read = .ok (layer c' bytes)) ∧
        layer (c || c') bytes = bytes := by
  cases c <;> cases c' <;> simp [Watched.gated, layer, eq_comm]

variable [F64 F] {session : PySession} {table : OffsetTable} {offOpt : Option VersionedOffsets}
  {gcAddr : BitVec 64} {snap : GcStatsSnapshot F}

theorem collectGcStats_narrow {asked : Bool}
    (h : collectGcStats session table offOpt gcAddr asked = .ok snap) :
    snap.narrow asked = snap ∧
      collectGcStats session table offOpt gcAddr false = .ok (snap.narrow false) := by
  unfold collectGcStats at h ⊢
  cases haddr : session.gcStatsRegionAddr gcAddr with
  | error e =>
    rw [haddr] at h
    cases h
  | ok addr =>
    rw [haddr] at h
    simp only [bind, Except.bind, pure, Except.pure, Bool.false_eq_true, false_and, if_false] at h ⊢
    cases asked with
    | false =>
      simp only [Bool.false_eq_true, false_and, if_false] at h
      obtain rfl := Except.ok.inj h
      exact ⟨rfl, rfl⟩
    | true =>
      split_ifs at h with hread
      · cases hraw : session.read (addr.getD 0) _ with
        | error e =>
          rw [hraw] at h
          cases h
        | ok raw =>
          rw [hraw] at h
          obtain rfl := Except.ok.inj h
          exact ⟨rfl, rfl⟩
      · obtain rfl := Except.ok.inj h
        exact ⟨rfl, rfl⟩

/-- The stats of either of two requests are those of each. -/
theorem collectGcStats_union (c c' : Bool) :
    collectGcStats session table offOpt gcAddr (c || c') = .ok snap ↔
      (collectGcStats session table offOpt gcAddr c = .ok (snap.narrow c) ∧
        collectGcStats session table offOpt gcAddr c' = .ok (snap.narrow c')) ∧
      snap.narrow (c || c') = snap := by
  have htrue : snap.narrow true = snap := rfl
  have hboth : ∀ asked, collectGcStats session table offOpt gcAddr asked = .ok snap →
      collectGcStats session table offOpt gcAddr false = .ok (snap.narrow false) ∧
        snap.narrow asked = snap := fun asked h => (collectGcStats_narrow h).symm
  cases c <;> cases c' <;> simp only [Bool.or_self, Bool.or_true, Bool.or_false, htrue, and_true,
    and_self]
  · constructor
    · exact fun h => hboth false h
    · exact fun h => h.2 ▸ h.1
  · exact ⟨fun h => ⟨(hboth true h).1, h⟩, And.right⟩
  · exact ⟨fun h => ⟨h, (hboth true h).1⟩, And.left⟩

namespace Watched

variable {w : Watched} {r r' : CollectRequest} {d : CollectedData F}

/-- A snapshot, layer by layer. -/
theorem collectData_ok_iff : w.collectData r = .ok d ↔ ∃ nav, w.resolveInterpreterNav = .ok nav ∧
    d = w.snapshot d.runtimeRawBytes nav d.interpreter.gc.rawBytes d.interpreter.gc.generationStats ∧
    gated (r.debugOffsets && w.session.resolved.offsets.isSome) w.readDebugOffsetsDump =
      .ok d.runtimeRawBytes ∧
    gated r.gcState (w.readGcState nav.gcAddr nav.gcSize) = .ok d.interpreter.gc.rawBytes ∧
    collectGcStats w.session w.session.resolved.table w.session.resolved.offsets nav.gcAddr r.gcStats =
      .ok d.interpreter.gc.generationStats := by
  unfold collectData
  constructor
  · intro h
    obtain ⟨raw, hraw, h⟩ := except_bind_eq_ok.mp h
    obtain ⟨nav, hnav, h⟩ := except_bind_eq_ok.mp h
    obtain ⟨gcRaw, hgc, h⟩ := except_bind_eq_ok.mp h
    obtain ⟨stats, hstats, h⟩ := except_bind_eq_ok.mp h
    obtain rfl := Except.ok.inj h
    exact ⟨nav, hnav, rfl, hraw, hgc, mapError_eq_ok.mp hstats⟩
  · rintro ⟨nav, hnav, hd, hraw, hgc, hstats⟩
    refine except_bind_eq_ok.mpr ⟨_, hraw, except_bind_eq_ok.mpr ⟨_, hnav, ?_⟩⟩
    refine except_bind_eq_ok.mpr ⟨_, hgc, except_bind_eq_ok.mpr ⟨_, mapError_eq_ok.mpr hstats, ?_⟩⟩
    exact congrArg Except.ok hd.symm

omit [F64 F] in
theorem eq_snapshot_narrow_iff (nav : InterpreterNav) :
    d.narrow r = w.snapshot (d.narrow r).runtimeRawBytes nav (d.narrow r).interpreter.gc.rawBytes
        (d.narrow r).interpreter.gc.generationStats ↔
      d = w.snapshot d.runtimeRawBytes nav d.interpreter.gc.rawBytes
        d.interpreter.gc.generationStats := by
  obtain ⟨pid, runtimeAddr, version, raw, size, resolved, addr, ⟨gcRaw, stats⟩, off, gcSize, id, next⟩ := d
  simp only [CollectedData.narrow, snapshot, CollectedData.mk.injEq, InterpreterSnapshot.mk.injEq]

/-- **Requests compose.** What two requests ask for together is collected exactly where each collects its
part of it, and holds nothing else. -/
theorem collect_union : w.collectData (r.union r') = .ok d ↔
    (w.collectData r = .ok (d.narrow r) ∧ w.collectData r' = .ok (d.narrow r')) ∧
      d.narrow (r.union r') = d := by
  have hgate : ∀ c, gated (c && w.session.resolved.offsets.isSome) w.readDebugOffsetsDump =
      gated c (gated w.session.resolved.offsets.isSome w.readDebugOffsetsDump) := by
    intro c
    cases c <;> rfl
  simp only [collectData_ok_iff, eq_snapshot_narrow_iff, hgate]
  constructor
  · rintro ⟨nav, hnav, hd, hraw, hgc, hstats⟩
    obtain ⟨⟨hraw₁, hraw₂⟩, hraw₃⟩ := (gated_union _ _ _ _).mp hraw
    obtain ⟨⟨hgc₁, hgc₂⟩, hgc₃⟩ := (gated_union _ _ _ _).mp hgc
    obtain ⟨⟨hstats₁, hstats₂⟩, hstats₃⟩ := (collectGcStats_union _ _).mp hstats
    refine ⟨⟨⟨nav, hnav, hd, hraw₁, hgc₁, hstats₁⟩, ⟨nav, hnav, hd, hraw₂, hgc₂, hstats₂⟩⟩, ?_⟩
    simp only [CollectedData.narrow, CollectRequest.union, hraw₃, hgc₃, hstats₃]
  · rintro ⟨⟨⟨nav, hnav, hd, hraw₁, hgc₁, hstats₁⟩, nav', hnav', -, hraw₂, hgc₂, hstats₂⟩, hnarrow⟩
    obtain rfl := Except.ok.inj (hnav.symm.trans hnav')
    refine ⟨nav, hnav, hd, (gated_union _ _ _ _).mpr ⟨⟨hraw₁, hraw₂⟩, ?_⟩,
      (gated_union _ _ _ _).mpr ⟨⟨hgc₁, hgc₂⟩, ?_⟩,
      (collectGcStats_union _ _).mpr ⟨⟨hstats₁, hstats₂⟩, ?_⟩⟩
    · exact congrArg CollectedData.runtimeRawBytes hnarrow
    · exact congrArg (fun d => d.interpreter.gc.rawBytes) hnarrow
    · exact congrArg (fun d => d.interpreter.gc.generationStats) hnarrow

end Watched

/-! ## What the renderers rely on -/

/-- An Entry lies within the raw bytes, and decoding its window there gives it back. -/
structure GcStatsSnapshot.Holds (snap : GcStatsSnapshot F) (table : OffsetTable) (e : GcEntry F) :
    Prop where
  generation_lt : e.generation < 3
  index_lt : e.index < snap.entriesPerGen ⟨e.generation, generation_lt⟩
  within : e.byteOffset + snap.itemSize ≤ snap.rawStatsBytes.length
  decodes : ∃ s, entryView table snap.rawStatsBytes snap.itemSize e = some s ∧ s.isComplete = true ∧
    GcEntry.of table s = e

/-- Every layer has the length its label says, or was not asked for; the Entries lie in the raw bytes. -/
structure CollectedData.WellFormed (d : CollectedData F) (r : CollectRequest) : Prop where
  runtime : d.runtimeRawBytes.length =
    if r.debugOffsets && d.resolved.offsets.isSome then d.debugOffsetsSize.toNat * 2 else 0
  gcState : d.interpreter.gc.rawBytes.length =
    if r.gcState then d.interpreter.gcSize.toNat else 0
  stats : d.interpreter.gc.generationStats.rawStatsBytes = [] ∨ r.gcStats = true ∧
    d.interpreter.gc.generationStats.rawStatsBytes.length = d.interpreter.gc.generationStats.statsSize
  entries : ∀ e ∈ d.interpreter.gc.generationStats.entries,
    d.interpreter.gc.generationStats.Holds d.resolved.table e

theorem PySession.length_of_read (s : PySession) {addr : BitVec 64} {size : ℕ} {bytes : List UInt8}
    (h : s.read addr size = .ok bytes) : bytes.length = size := by
  unfold PySession.read at h
  cases hread : s.memory.read addr size with
  | none =>
    rw [hread] at h
    cases h
  | some bs =>
    rw [hread] at h
    obtain rfl := Except.ok.inj h
    exact s.memory.length_of_read _ _ _ hread

theorem statsTotal_lt (table : OffsetTable) (published : BitVec 64) :
    (match table.gcStatsKind with
      | .none => 0
      | .inlineArray => table.statsBufferLen.getD 0
      | .ringBuffer => published.toNat) < 2 ^ 64 := by
  cases table.gcStatsKind with
  | none => exact Nat.two_pow_pos 64
  | inlineArray =>
    cases htotal : table.statsBufferLen with
    | none => exact Nat.two_pow_pos 64
    | some total => exact OffsetTable.statsBufferLen_lt htotal
  | ringBuffer => exact published.isLt

theorem collectGcStats_raw {asked : Bool}
    (h : collectGcStats session table offOpt gcAddr asked = .ok snap) :
    snap.statsSize < 2 ^ 64 ∧
    (snap.rawStatsBytes = [] ∨ asked = true ∧ snap.rawStatsBytes.length = snap.statsSize) ∧
      snap.itemSize = table.gcItemSize.getD 0 ∧
      snap.entriesPerGen = table.gcEntriesPerGen.getD (fun _ => 0) ∧
      (snap.entries = [] ∨ snap.entries = parseGcEntries snap.rawStatsBytes table) := by
  unfold collectGcStats at h
  obtain ⟨addr, -, h⟩ := except_bind_eq_ok.mp h
  dsimp only at h
  split_ifs at h with hread
  · cases hraw : session.read (addr.getD 0) _ with
    | error e =>
      rw [hraw] at h
      cases h
    | ok raw =>
      rw [hraw] at h
      obtain rfl := Except.ok.inj h
      exact ⟨statsTotal_lt _ _, Or.inr ⟨hread.1, session.length_of_read hraw⟩, rfl, rfl, Or.inr rfl⟩
  · obtain rfl := Except.ok.inj h
    exact ⟨statsTotal_lt _ _, Or.inl rfl, rfl, rfl, Or.inl rfl⟩

theorem holds_of_mem (hitem : snap.itemSize = table.gcItemSize.getD 0)
    (hcounts : snap.entriesPerGen = table.gcEntriesPerGen.getD fun _ => 0)
    (hlt : snap.rawStatsBytes.length < 2 ^ 64) {e : GcEntry F}
    (he : e ∈ (parseGcEntries snap.rawStatsBytes table : List (GcEntry F))) :
    snap.Holds table e := by
  obtain ⟨s, hs, rfl⟩ := List.mem_map.mp he
  obtain ⟨hmem, hcomplete⟩ := List.mem_filter.mp hs
  cases htotal : table.statsBufferLen with
  | none =>
    rw [OffsetTable.decodeGcStats_of_none htotal] at hmem
    cases hmem
  | some total =>
    by_cases hshort : snap.rawStatsBytes.length < total
    · rw [OffsetTable.decodeGcStats_of_short htotal hshort] at hmem
      cases hmem
    · obtain ⟨itemSize, entries, bases, layout, hd, rfl⟩ := OffsetTable.statsBufferLen_eq_some htotal
      obtain ⟨g, i, hi, hfit, rfl⟩ := (hd.mem_decodeGcStats (not_lt.mp hshort)).mp hmem
      rw [hd.item, Option.getD_some] at hitem
      rw [hd.entries, Option.getD_some] at hcounts
      have hw : bases g + i * itemSize + itemSize < 2 ^ 64 := hfit.trans_lt hlt
      have hoff : table.entryByteOffset g i = some (bases g + i * itemSize) := by
        simp [OffsetTable.entryByteOffset, hd.item, hd.bases, hd.entries, Nat.not_le.mpr hi,
          MachineInt.wrapU64_of_lt ((Nat.le_add_right _ _).trans_lt hw)]
      have hbyte : (GcEntry.of table (OffsetTable.entryAt layout snap.rawStatsBytes 0 itemSize (bases g)
          g i) : GcEntry F).byteOffset = bases g + i * itemSize := by
        simp only [GcEntry.of, OffsetTable.entryAt, hoff, Option.getD_some]
      refine ⟨g.isLt, ?_, ?_, _, ?_, hcomplete, rfl⟩
      · rw [hcounts]
        exact hi
      · rw [hbyte, hitem]
        exact hfit
      · rw [entryView, hd.layout, Option.map_some, hbyte, hitem, selectedEntryBytes_eq hfit hw]
        rfl

namespace Watched

variable {w : Watched} {r : CollectRequest} {d : CollectedData F}

theorem resolved_of_collectData (h : w.collectData r = .ok d) : d.resolved = w.session.resolved := by
  obtain ⟨nav, -, hd, -⟩ := collectData_ok_iff.mp h
  rw [hd]
  rfl

theorem length_gated {asked : Bool} {read : Except CollectError (List UInt8)} {bytes : List UInt8}
    {n : ℕ} (hread : ∀ bs, read = .ok bs → bs.length = n) (h : gated asked read = .ok bytes) :
    bytes.length = if asked then n else 0 := by
  cases asked with
  | false =>
    obtain rfl := Except.ok.inj h
    rfl
  | true => exact hread bytes h

/-- **Every snapshot is well formed**, whatever was asked for: each layer is as long as its label says or
was not asked for, and each Entry is read back from its own window of the raw bytes. -/
theorem collect_wellFormed (h : w.collectData r = .ok d) : d.WellFormed r := by
  obtain ⟨nav, -, hd, hraw, hgc, hstats⟩ := collectData_ok_iff.mp h
  obtain ⟨hsizeLt, hbytes, hitem, hcounts, hentries⟩ := collectGcStats_raw hstats
  have hsize : d.debugOffsetsSize = w.debugOffsetsSize := by rw [hd]; rfl
  have hresolved := resolved_of_collectData h
  have hgcSize : d.interpreter.gcSize = nav.gcSize := by rw [hd]; rfl
  constructor
  · rw [hresolved, hsize]
    exact length_gated (fun bs hbs => w.session.length_of_read (mapError_eq_ok.mp hbs)) hraw
  · rw [hgcSize]
    exact length_gated (fun bs hbs => w.session.length_of_read (mapError_eq_ok.mp hbs)) hgc
  · exact hbytes
  · intro e he
    rw [hresolved]
    rcases hentries with hnone | hall
    · rw [hnone] at he
      cases he
    · have hlt : d.interpreter.gc.generationStats.rawStatsBytes.length < 2 ^ 64 := by
        rcases hbytes with hnil | ⟨-, hlen⟩
        · exact hnil ▸ Nat.two_pow_pos 64
        · exact hlen ▸ hsizeLt
      exact holds_of_mem hitem hcounts hlt (hall ▸ he)

end Watched

end GcScope
