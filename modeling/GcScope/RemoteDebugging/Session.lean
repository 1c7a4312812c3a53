import Mathlib.Data.Finset.Card
import Mathlib.Data.Fintype.Basic
import GcScope.RemoteDebugging.OffsetTable

/-!
# Reading generation stats through an attached session

A session holds the resolved layout of a process and reads its memory. The monitor reads every
interpreter's stats region through it.

* `PySession.gcStatsRegionAddr`: where an interpreter's region is.
* `PySession.verifyRingStatsSize`: the size guard of ring builds.
* `walkInterpreterChain`, `PySession.gcStats`: the walk over the interpreters.
* `PySession.revalidate`: what a failed read says about the process.
* **`gcStats_of_contradicts`**: a ring build whose published size contradicts its table is refused.
-/

set_option autoImplicit false

namespace GcScope

open LittleEndian

/-- The memory of a process, as reads through its handle see it. -/
structure ProcessMemory where
  read : BitVec 64 → ℕ → Option (List UInt8)
  /-- A read that succeeds returns what was asked for. -/
  length_of_read : ∀ addr size bs, read addr size = some bs → bs.length = size

namespace ProcessMemory

/-- A memory holding the given bytes from each address on, then zeros. -/
def padded (bytes : BitVec 64 → List UInt8) : ProcessMemory where
  read addr size := some ((bytes addr ++ List.replicate size 0).take size)
  length_of_read addr size bs h := by
    obtain rfl := Option.some.inj h
    rw [List.length_take, List.length_append, List.length_replicate]
    omega

/-- The memory of a process that has gone. -/
def unreadable : ProcessMemory where
  read _ _ := none
  length_of_read _ _ _ h := nomatch h

end ProcessMemory

inductive ReadError where
  | memory (addr : BitVec 64) (size : ℕ)
  | statsPointer (cause : ReadError)
  | statsBuffer (addr : BitVec 64) (total : ℕ) (cause : ReadError)
  | snapshotBuffer (cause : ReadError)
  | sizeMismatch (versionHex : BitVec 64) (reported expected : ℕ)
  deriving DecidableEq

/-- Lower-case hexadecimal after `0x`, zero-padded to a width. -/
def hexDigits (width n : ℕ) : String :=
  let digits := String.ofList (Nat.toDigits 16 n)
  "0x" ++ String.ofList (List.replicate (width - digits.length) '0') ++ digits

namespace ReadError

/-- The outermost text of the error. -/
def message : ReadError → String
  | memory _ _ => "Failed to read process memory"
  | statsPointer _ => "Failed to read gc.generation_stats pointer"
  | statsBuffer addr total _ =>
    "Failed to read gc_stats buffer at " ++ hexDigits 0 addr.toNat ++ " (" ++ toString total ++
      " bytes)"
  | snapshotBuffer _ => "Failed to read GC stats buffer"
  | sizeMismatch versionHex reported expected =>
    "gc_generation_stats size mismatch for " ++ hexDigits 8 versionHex.toNat ++
      ": the process reports " ++ toString reported ++
      " bytes but gcscope's compiled layout expects " ++ toString expected ++
      ". This build's GC ring layout differs from the registered one; decoding it would report " ++
      "garbage. Run `gcscope read-runtime <pid>` to see the selected layout and its geometry, " ++
      "then regenerate offsets with scripts/gen-offsets.py against this exact build."

end ReadError

/-- What the debug offsets of a 3.13+ process publish about its ring region. -/
structure VersionedOffsets where
  gcGenerationStats : BitVec 64
  gcGenerationStatsSize : BitVec 64
  deriving DecidableEq

/-- The resolved layout of a process, by support tier. -/
inductive Resolved where
  | full (offsets : VersionedOffsets) (table : OffsetTable)
  | layoutOnly (offsets : VersionedOffsets) (table : OffsetTable)
  | legacy (table : OffsetTable)

namespace Resolved

def table : Resolved → OffsetTable
  | full _ table => table
  | layoutOnly _ table => table
  | legacy table => table

def offsets : Resolved → Option VersionedOffsets
  | full offsets _ => some offsets
  | layoutOnly offsets _ => some offsets
  | legacy _ => none

end Resolved

/-- The identity of a binary: its path and its modification time. -/
abbrev ExeKey := String × ℕ

/-- An attached process. -/
structure PySession where
  /-- What reads through the held handle see. -/
  memory : ProcessMemory
  runtimeAddr : BitVec 64
  resolved : Resolved
  /-- The version word of the debug offsets, from 3.13 on. -/
  storedHex : Option (BitVec 64)
  exeKey : Option ExeKey
  cmdline : Option String

/-- Turn a region into an address, reading the ring pointer where there is one; a null pointer is no
region. -/
def resolveStatsRegion (region : GcStatsRegion)
    (readPtr : BitVec 64 → Except ReadError (BitVec 64)) :
    Except ReadError (Option (BitVec 64)) :=
  match region with
  | .absent => .ok none
  | .direct addr => .ok (some addr)
  | .deref ptrAddr =>
    match readPtr ptrAddr with
    | .error e => .error (.statsPointer e)
    | .ok ptr => .ok (if ptr ≠ 0 then some ptr else none)

/-- Whether `iid` can be an interpreter id. -/
def isInterpreterId (iid : ℤ) : Bool := decide (0 ≤ iid)

section Walk

variable {ε : Type}

/-- The addresses a walk has not visited. -/
def unvisited (visited : List (BitVec 64)) : Finset (Fin (2 ^ 64)) :=
  Finset.univ.filter fun i => BitVec.ofFin i ∉ visited

theorem unvisited_lt {visited : List (BitVec 64)} {current : BitVec 64} (h : current ∉ visited) :
    (unvisited (current :: visited)).card < (unvisited visited).card := by
  refine Finset.card_lt_card ⟨fun i hi => ?_, fun hsub => ?_⟩
  · simp only [unvisited, Finset.mem_filter, List.mem_cons, not_or] at hi ⊢
    exact ⟨hi.1, hi.2.2⟩
  · have := hsub (Finset.mem_filter.mpr ⟨Finset.mem_univ current.toFin, h⟩)
    simp [unvisited] at this

/-- One interpreter's turn of the walk; past the head a failure costs the interpreter, not the
poll. -/
def visitInterpreter (head : Bool) (stats : List GcStat)
    (read : Except ε (Option (List GcStat))) : Except ε (List GcStat) :=
  match read with
  | .ok (some read) => .ok (stats ++ read)
  | .ok none => .ok stats
  | .error e => if head then .error e else .ok stats

/-- Follow the interpreter chain, collecting Records. A link met twice ends the walk. -/
def walkFrom (allInterpreters : Bool)
    (readStats : BitVec 64 → Except ε (Option (List GcStat)))
    (readNext : BitVec 64 → Except ε (BitVec 64))
    (current : BitVec 64) (visited : List (BitVec 64)) (head : Bool) (stats : List GcStat) :
    Except ε (List GcStat) :=
  if current = 0 then .ok stats
  else if current ∈ visited then .ok stats
  else
    match visitInterpreter head stats (readStats current) with
    | .error e => .error e
    | .ok stats =>
      if head && !allInterpreters then .ok stats
      else
        match readNext current with
        | .ok next => walkFrom allInterpreters readStats readNext next (current :: visited) false stats
        | .error e => if head then .error e else .ok stats
termination_by (unvisited visited).card
decreasing_by exact unvisited_lt ‹_›

def walkInterpreterChain (headAddr : BitVec 64) (allInterpreters : Bool)
    (readStats : BitVec 64 → Except ε (Option (List GcStat)))
    (readNext : BitVec 64 → Except ε (BitVec 64)) : Except ε (List GcStat) :=
  walkFrom allInterpreters readStats readNext headAddr [] true []

end Walk

/-- What a re-check says of a session whose read failed. -/
inductive Revalidated where
  | fresh
  | changed
  | dead
  deriving DecidableEq

inductive CmdlineCheck where
  | gone
  | differs
  | inconclusive
  deriving DecidableEq

/-- What the command line alone says. An empty one is unknown, not different. -/
def classifyCmdline : Option String → Option String → CmdlineCheck
  | _, none => .gone
  | some old, some new =>
    if !old.isEmpty && !new.isEmpty && old != new then .differs else .inconclusive
  | none, some _ => .inconclusive

/-- What opening a PID anew finds: a handle, the runtime and the identity of the binary. -/
structure Reopened where
  memory : ProcessMemory
  runtimeAddr : BitVec 64
  exeKey : Option ExeKey

namespace PySession

variable (s : PySession)

def read (addr : BitVec 64) (size : ℕ) : Except ReadError (List UInt8) :=
  match s.memory.read addr size with
  | some bs => .ok bs
  | none => .error (.memory addr size)

def readU64 (addr : BitVec 64) : Except ReadError (BitVec 64) := do
  let bytes ← s.read addr 8
  return (readWord bytes 0).getD 0

def readI64 (addr : BitVec 64) : Except ReadError ℤ := do
  let v ← s.readU64 addr
  return v.toInt

def gcStatsRegionAddr (gcAddr : BitVec 64) : Except ReadError (Option (BitVec 64)) :=
  let genStatsOff := (s.resolved.offsets.map VersionedOffsets.gcGenerationStats).getD 0
  resolveStatsRegion (s.resolved.table.gcStatsRegion gcAddr genStatsOff) s.readU64

/-- Refuse a ring build whose published size differs from what its table implies. -/
def verifyRingStatsSize : Except ReadError Unit :=
  match s.resolved.offsets with
  | none => .ok ()
  | some vo =>
    let reported := vo.gcGenerationStatsSize.toNat
    let expected := s.resolved.table.gcStatsRegionSize
    if reported ≠ 0 ∧ expected ≠ 0 ∧ reported ≠ expected then
      .error (.sizeMismatch s.resolved.table.versionHex reported expected)
    else .ok ()

/-- Read and decode the region a table points at. -/
def readGcStats (table : OffsetTable) (iid : ℤ) : Except ReadError (List GcStat) :=
  match table.gcStatsAddr with
  | none => .ok []
  | some addr =>
    match table.statsBufferLen with
    | none => .ok []
    | some total =>
      match s.read addr total with
      | .error e => .error (.statsBuffer addr total e)
      | .ok raw => .ok (table.decodeGcStats raw iid)

def readInterpretersHead : Except ReadError (BitVec 64) :=
  s.readU64 (s.runtimeAddr + s.resolved.table.runtimeInterpretersHead)

def readInterpreterStats (interpAddr : BitVec 64) : Except ReadError (Option (List GcStat)) := do
  let iid ← s.readI64 (interpAddr + s.resolved.table.interpId)
  if !isInterpreterId iid then return none
  let gcAddr := s.resolved.table.gcStateAddr s.runtimeAddr interpAddr
  match ← s.gcStatsRegionAddr gcAddr with
  | none => return none
  | some addr =>
    let stats ← s.readGcStats { s.resolved.table with gcStatsAddr := some addr } iid
    return some stats

def gcStatsPerInterpreter (headAddr : BitVec 64) (allInterpreters : Bool) :
    Except ReadError (List GcStat) :=
  walkInterpreterChain headAddr allInterpreters s.readInterpreterStats
    fun addr => s.readU64 (addr + s.resolved.table.interpNext)

/-- The 3.8 path: the one GC state in the runtime, read once. -/
def gcStatsGlobal (headAddr : BitVec 64) : Except ReadError (List GcStat) := do
  let iid ← if headAddr ≠ 0 then s.readI64 (headAddr + s.resolved.table.interpId) else pure 0
  let gcAddr := s.resolved.table.gcStateAddr s.runtimeAddr headAddr
  let addr ← s.gcStatsRegionAddr gcAddr
  s.readGcStats { s.resolved.table with gcStatsAddr := addr } iid

def gcStatsInline (allInterpreters : Bool) : Except ReadError (List GcStat) := do
  let headAddr ← s.readInterpretersHead
  if s.resolved.table.hasGlobalGc then s.gcStatsGlobal headAddr
  else s.gcStatsPerInterpreter headAddr allInterpreters

def gcStatsRing (allInterpreters : Bool) : Except ReadError (List GcStat) := do
  s.verifyRingStatsSize
  let headAddr ← s.readInterpretersHead
  s.gcStatsPerInterpreter headAddr allInterpreters

/-- Read the generation stats of the first, or of every, interpreter. -/
def gcStats (allInterpreters : Bool) : Except ReadError (List GcStat) :=
  match s.resolved.table.gcStatsKind with
  | .none => .ok []
  | .inlineArray => s.gcStatsInline allInterpreters
  | .ringBuffer => s.gcStatsRing allInterpreters

/-! ## Revalidation -/

/-- Refresh the handle and the runtime address in place. `none` is a failure, `false` another binary
or version. -/
def softReattach (reopened : Option Reopened) : Option (Bool × PySession) := do
  let r ← reopened
  if r.exeKey ≠ s.exeKey then return (false, s)
  let s' := { s with memory := r.memory, runtimeAddr := r.runtimeAddr }
  match s.storedHex with
  | none => return (true, s')
  | some hex =>
    match s'.readU64 (r.runtimeAddr + 8) with
    | .error _ => none
    | .ok word => return (if word ≠ hex then (false, s) else (true, s'))

/-- Re-check a session whose read failed, against the command line the PID has now. -/
def revalidate (cmdline : Option String) (reopened : Option Reopened) : Revalidated × PySession :=
  match classifyCmdline s.cmdline cmdline with
  | .gone => (.dead, s)
  | .differs => (.changed, s)
  | .inconclusive =>
    match s.softReattach reopened with
    | some (true, s') => (.fresh, s')
    | some (false, _) => (.changed, s)
    | none => (.dead, s)

/-! ## The size guard -/

/-- The published size is present and contradicts the table. -/
def Contradicts (vo : VersionedOffsets) (table : OffsetTable) : Prop :=
  vo.gcGenerationStatsSize.toNat ≠ 0 ∧ table.gcStatsRegionSize ≠ 0 ∧
    vo.gcGenerationStatsSize.toNat ≠ table.gcStatsRegionSize

instance (vo : VersionedOffsets) (table : OffsetTable) : Decidable (Contradicts vo table) := by
  unfold Contradicts; infer_instance

variable {s}

/-- **A ring build whose published size contradicts its table is refused**, naming both sizes. -/
theorem gcStats_of_contradicts (hk : s.resolved.table.gcStatsKind = .ringBuffer)
    {vo : VersionedOffsets} (hv : s.resolved.offsets = some vo)
    (h : Contradicts vo s.resolved.table) (allInterpreters : Bool) :
    s.gcStats allInterpreters = .error (.sizeMismatch s.resolved.table.versionHex
      vo.gcGenerationStatsSize.toNat s.resolved.table.gcStatsRegionSize) := by
  have hverify : s.verifyRingStatsSize = .error (.sizeMismatch s.resolved.table.versionHex
      vo.gcGenerationStatsSize.toNat s.resolved.table.gcStatsRegionSize) := by
    rw [verifyRingStatsSize, hv]
    exact if_pos h
  rw [gcStats, hk]
  simp only [gcStatsRing, hverify]
  rfl

theorem verifyRingStatsSize_isOk {vo : VersionedOffsets} (hv : s.resolved.offsets = some vo) :
    s.verifyRingStatsSize = .ok () ↔ ¬ Contradicts vo s.resolved.table := by
  rw [verifyRingStatsSize, hv]
  unfold Contradicts
  simp only
  split_ifs with h <;> simp [h]

end PySession

end GcScope
