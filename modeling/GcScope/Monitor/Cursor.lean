import Mathlib
import GcScope.Lib.StableSort
import GcScope.Lib.Mealy
import GcScope.RemoteDebugging.GcStat

/-!
# The read cursor of a process tree

One accumulator (`RingObservation`) per ring, a ring being one `(pid, interpreter, generation)`.
The cursor decides which Records of a poll are new and folds them into their ring.

* `RingObservation.admits`, `RingObservation.fold`: the test against a ring and its update.
* `Cursor.retain`: the gate that bounds the interpreters kept per process.
* `Cursor.admitRecord`, `Cursor.admitRecords`: one Record, and one poll.
* `Cursor.forget`: retires a process.
* `Cursor.step`: the same operations cut into the steps of the loop, for statements about the
  moment a Record is offered; `exec_steps`, `outs_steps` tie the two together.
-/

set_option autoImplicit false

namespace GcScope

open Std (ExtTreeMap TransCmp LawfulEqCmp)
open StableSort MachineInt

/-- How many interpreters' accumulators one process keeps. -/
def maxRetainedInterpreters : ℕ := 1024

/-- One ring: the Entries one generation of one interpreter publishes its Records through. -/
structure RingKey where
  pid : ℕ
  interpreter : ℤ
  generation : ℕ
  deriving DecidableEq

/-- Rings are ordered by process, interpreter, generation. -/
def RingKey.cmp : RingKey → RingKey → Ordering :=
  compareLex (compareOn RingKey.pid)
    (compareLex (compareOn RingKey.interpreter) (compareOn RingKey.generation))

instance : TransCmp RingKey.cmp := by unfold RingKey.cmp; infer_instance

instance : LawfulEqCmp RingKey.cmp where
  compare_self := by simp [RingKey.cmp, compareLex, compareOn]
  eq_of_compare {a b} h := by
    cases a; cases b
    simpa [RingKey.cmp, compareLex, compareOn, Ordering.then_eq_eq] using h

/-- Interpreters of processes, ordered by process, then interpreter. -/
def interpreterCmp : ℕ × ℤ → ℕ × ℤ → Ordering := compareLex (compareOn Prod.fst) (compareOn Prod.snd)

instance : TransCmp interpreterCmp := by unfold interpreterCmp; infer_instance

instance : LawfulEqCmp interpreterCmp where
  compare_self := by simp [interpreterCmp, compareLex, compareOn]
  eq_of_compare {a b} h := by
    cases a; cases b
    simpa [interpreterCmp, compareLex, compareOn, Ordering.then_eq_eq] using h

/-- The totals CPython keeps for the life of a generation, as of one Record. -/
structure Lifetime (F : Type) where
  collections : ℤ
  collected : ℤ
  uncollectable : ℤ
  duration : F
  deriving DecidableEq

/-- What one ring did, against what the Observer saw of it. -/
structure RingObservation (F : Type) where
  first : Lifetime F
  firstPauseNs : ℤ
  last : Lifetime F
  sampled : ℕ
  measuredPauseNs : ℤ
  timed : Bool
  pricesPause : Bool
  deriving DecidableEq

/-- One Record's own pause, floored at zero. -/
def pauseNs (record : GcStat) : ℤ := max (wrap64 (record.tsStop - record.tsStart)) 0

section Observation

variable {F : Type} [F64 F]

def Lifetime.of (record : GcStat) : Lifetime F where
  collections := record.collections
  collected := record.collected
  uncollectable := record.uncollectable
  duration := record.duration

instance : Inhabited (Lifetime F) := ⟨⟨0, 0, 0, F64.ofBits 0⟩⟩

instance : Inhabited (RingObservation F) := ⟨⟨default, 0, default, 0, 0, false, false⟩⟩

namespace RingObservation

/-- Whether no Record from this ring has been read. -/
def isEmpty (o : RingObservation F) : Bool := o.sampled == 0

/-- Whether `counter` is past this ring's cursor. -/
def admits (o : RingObservation F) (counter : ℤ) : Bool :=
  o.isEmpty || decide (o.last.collections < counter)

/-- The values the first Record of a ring fixes. -/
def opened (o : RingObservation F) (record : GcStat) : RingObservation F :=
  if o.isEmpty then
    { o with
      first := Lifetime.of record
      firstPauseNs := pauseNs record
      timed := record.hasTiming
      pricesPause := record.has "duration" }
  else o

def fold (o : RingObservation F) (record : GcStat) : RingObservation F :=
  { o.opened record with
    last := Lifetime.of record
    sampled := o.sampled + 1
    measuredPauseNs := wrap64 (o.measuredPauseNs + pauseNs record) }

end RingObservation

end Observation

/-- Which Records of a process tree have been reported, and what their rings did. -/
structure Cursor (F : Type) where
  rings : ExtTreeMap RingKey (RingObservation F) RingKey.cmp
  /-- Rings whose process has gone, each with the eviction that retired it. -/
  retired : List (RingKey × ℕ × RingObservation F)
  evictions : ℕ
  /-- The latest moment each interpreter is known to have reached. -/
  lastCertainty : ExtTreeMap (ℕ × ℤ) ℤ interpreterCmp
  /-- Per process, the interpreters kept and the poll each was last seen in. -/
  retained : ExtTreeMap ℕ (ExtTreeMap ℤ ℕ)
  dropped : ExtTreeMap ℕ ℕ
  polls : ℕ
  deriving DecidableEq

/-- The ring a Record read from `pid` belongs to. -/
def GcStat.ring (record : GcStat) (pid : ℕ) : RingKey :=
  ⟨pid, record.interpreterId, record.generation⟩

/-- The order one poll's Records are folded in. -/
def sortCandidates (records : List GcStat) : List GcStat :=
  stableSort (fun r : GcStat => toLex (r.interpreterId, toLex (r.generation, r.collections))) records

namespace Cursor

variable {F : Type} [F64 F]

def new : Cursor F := ⟨∅, [], 0, ∅, ∅, ∅, 0⟩

/-- The interpreters kept for `pid`. -/
def retainedOf (c : Cursor F) (pid : ℕ) : ExtTreeMap ℤ ℕ := c.retained.getD pid ∅

/-- The interpreter seen least recently, the smallest id among equals. -/
def stalest (retained : ExtTreeMap ℤ ℕ) : Option ℤ :=
  ((retained.toList.map fun e => toLex (e.2, e.1)).min?).map fun e => (ofLex e).2

/-- The interpreter that goes to make room for `interpreter`, if one must. -/
def evicts (c : Cursor F) (pid : ℕ) (interpreter : ℤ) : Option ℤ :=
  if (c.retainedOf pid).contains interpreter then none
  else if (c.retainedOf pid).size < maxRetainedInterpreters then none
  else stalest (c.retainedOf pid)

/-- Drop everything one interpreter of `pid` is cursored on. -/
def dropInterpreter (c : Cursor F) (pid : ℕ) (interpreter : ℤ) : Cursor F :=
  { c with
    rings := c.rings.filter fun key _ => key.pid != pid || key.interpreter != interpreter
    lastCertainty := c.lastCertainty.erase (pid, interpreter) }

/-- Mark this process's `interpreter` seen in this poll, at the bound dropping the one seen least
recently. -/
def retain (c : Cursor F) (pid : ℕ) (interpreter : ℤ) : Cursor F :=
  match c.evicts pid interpreter with
  | none =>
    { c with retained := c.retained.insert pid ((c.retainedOf pid).insert interpreter c.polls) }
  | some stalest =>
    let c' := { c with
      retained := c.retained.insert pid
        (((c.retainedOf pid).erase stalest).insert interpreter c.polls) }.dropInterpreter pid stalest
    { c' with dropped := c'.dropped.insert pid (c'.dropped.getD pid 0 + 1) }

/-- Raise an interpreter's certainty bound when `moment` is later; a non-positive one is no
evidence. -/
def raiseCertainty (c : Cursor F) (pid : ℕ) (interpreter : ℤ) (moment : ℤ) : Cursor F :=
  if moment ≤ 0 then c
  else { c with
    lastCertainty := c.lastCertainty.alter (pid, interpreter) fun bound =>
      some (match bound with
        | some b => max b moment
        | none => moment) }

/-- The accumulator of a ring, empty where there is none. -/
def observationOrDefault (c : Cursor F) (key : RingKey) : RingObservation F :=
  c.rings.getD key default

/-- One pass of the loop of `admitRecords`: the Record's effect, and the Record if it is new. -/
def admitRecord (pid : ℕ) (c : Cursor F) (record : GcStat) : Cursor F × List GcStat :=
  let c := c.retain pid record.interpreterId
  if !record.isComplete then (c.raiseCertainty pid record.interpreterId record.tsStart, [])
  else if record.collections ≤ 0 then (c, [])
  else
    let key := record.ring pid
    let observation := c.observationOrDefault key
    if !observation.admits record.collections then
      ({ c with rings := c.rings.insert key observation }, [])
    else
      ({ c with rings := c.rings.insert key (observation.fold record) }.raiseCertainty pid
        record.interpreterId record.tsStop, [record])

/-- The start of a poll. -/
def tick (c : Cursor F) : Cursor F := { c with polls := c.polls + 1 }

/-- Fold one poll's Records in and return the ones not yet reported, in the order an exporter
should receive them. -/
def admitRecords (c : Cursor F) (pid : ℕ) (records : List GcStat) : Cursor F × List GcStat :=
  let candidates := sortCandidates records
  (Mealy.exec (admitRecord pid) c.tick candidates,
    stableSort GcStat.tsStart (Mealy.outs (admitRecord pid) c.tick candidates))

/-- How many of this process's interpreters lost their accumulators to make room. -/
def droppedCount (c : Cursor F) (pid : ℕ) : ℕ := c.dropped.getD pid 0

/-- Drop everything `pid` is cursored on, retiring its accumulators. -/
def forget (c : Cursor F) (pid : ℕ) : Cursor F :=
  { c with
    rings := c.rings.filter fun key _ => key.pid != pid
    retired := c.retired ++
      (c.rings.toList.filter fun e => e.1.pid == pid).map fun e => (e.1, c.evictions, e.2)
    evictions := c.evictions + 1
    lastCertainty := c.lastCertainty.filter fun key _ => key.1 != pid
    retained := c.retained.erase pid
    dropped := c.dropped.erase pid }

/-- What one ring did against what was read of it. -/
def observation (c : Cursor F) (key : RingKey) : Option (RingObservation F) := c.rings[key]?

end Cursor

/-! ## Runs -/

/-- What a caller does with a cursor. -/
inductive CursorOp where
  | admitRecords (pid : ℕ) (records : List GcStat)
  | forget (pid : ℕ)
  deriving DecidableEq

/-- The steps the operations are made of. -/
inductive CursorStep where
  | tick
  | offer (pid : ℕ) (record : GcStat)
  | forget (pid : ℕ)
  deriving DecidableEq

/-- An operation, cut into steps. -/
def CursorOp.steps : CursorOp → List CursorStep
  | .admitRecords pid records => .tick :: (sortCandidates records).map (CursorStep.offer pid)
  | .forget pid => [.forget pid]

namespace Cursor

variable {F : Type} [F64 F]

/-- One operation: the cursor after it and the Records it returns. -/
def apply (c : Cursor F) : CursorOp → Cursor F × List GcStat
  | .admitRecords pid records => c.admitRecords pid records
  | .forget pid => (c.forget pid, [])

/-- One step: the cursor after it and the Record it accepts. -/
def step (c : Cursor F) : CursorStep → Cursor F × List GcStat
  | .tick => (c.tick, [])
  | .offer pid record => admitRecord pid c record
  | .forget pid => (c.forget pid, [])

theorem exec_offers (pid : ℕ) (c : Cursor F) (records : List GcStat) :
    Mealy.exec step c (records.map (CursorStep.offer pid)) =
      Mealy.exec (admitRecord pid) c records := by
  induction records generalizing c with
  | nil => rfl
  | cons r rs ih => exact ih _

theorem outs_offers (pid : ℕ) (c : Cursor F) (records : List GcStat) :
    Mealy.outs step c (records.map (CursorStep.offer pid)) =
      Mealy.outs (admitRecord pid) c records := by
  induction records generalizing c with
  | nil => rfl
  | cons r rs ih => rw [List.map_cons, Mealy.outs_cons, Mealy.outs_cons, ih]; rfl

/-- The steps of an operation do what the operation does. -/
theorem exec_steps (c : Cursor F) (op : CursorOp) :
    Mealy.exec step c op.steps = (c.apply op).1 := by
  cases op with
  | admitRecords pid records => exact exec_offers pid c.tick _
  | forget pid => rfl

/-- What an operation returns is what its steps accept, in start order. -/
theorem outs_steps (c : Cursor F) (op : CursorOp) :
    (c.apply op).2 = stableSort GcStat.tsStart (Mealy.outs step c op.steps) := by
  cases op with
  | admitRecords pid records =>
    rw [CursorOp.steps, Mealy.outs_cons, show (step c .tick).1 = c.tick from rfl, outs_offers]
    rfl
  | forget pid => rfl

theorem exec_flatMap_steps (c : Cursor F) (ops : List CursorOp) :
    Mealy.exec step c (ops.flatMap CursorOp.steps) = Mealy.exec apply c ops := by
  induction ops generalizing c with
  | nil => rfl
  | cons op ops ih => rw [List.flatMap_cons, Mealy.exec_append, exec_steps, ih, Mealy.exec_cons]

end Cursor

end GcScope
