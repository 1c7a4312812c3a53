import Mathlib.Algebra.GroupWithZero.Defs
import Mathlib.Data.BitVec
import Mathlib.Data.List.FinRange
import Mathlib.Tactic.FinCases
import GcScope.Lib.OverwritingRing
import GcScope.RemoteDebugging.OffsetTable

/-!
# The Probe's stats region and its writer

The C structs of one interpreter's region, as the words they are laid out to, and `add_stats`, the
writer, as the sequence of its stores.

* `Stats`, `Stats.bytes`: the region and its bytes.
* `fieldStores`, `stores`, `addStats`: the writer, store by store; `partialAdd` stops it midway.
* **`buffer_run`**: what a whole run of calls leaves in each slot.
-/

set_option autoImplicit false

namespace GcScope.Probe

open LittleEndian MachineInt OverwritingRing

/-! ## The region -/

/-- The ring depths a Probe is compiled with. Its region is a C object, so its size is no more than a
`ptrdiff_t` holds. -/
structure Depths where
  young : ℕ
  old : ℕ
  young_pos : 0 < young
  old_pos : 0 < old
  fits : 64 * (young + 2 * old) + 24 < 2 ^ 63

namespace Depths

/-- The depths of a default build. -/
def compiled : Depths := ⟨11, 3, by decide, by decide, by decide⟩

/-- The depth of each generation's ring. -/
def of (d : Depths) : Fin 3 → ℕ := ![d.young, d.old, d.old]

theorem of_pos (d : Depths) (g : Fin 3) : 0 < d.of g := by
  fin_cases g
  · exact d.young_pos
  · exact d.old_pos
  · exact d.old_pos

end Depths

/-- One Entry, each field a 64-bit word. -/
structure GenerationStats where
  tsStart : BitVec 64
  tsStop : BitVec 64
  collections : BitVec 64
  collected : BitVec 64
  uncollectable : BitVec 64
  candidates : BitVec 64
  duration : BitVec 64
  heapSize : BitVec 64
  deriving DecidableEq

namespace GenerationStats

def zero : GenerationStats := ⟨0, 0, 0, 0, 0, 0, 0, 0⟩

/-- The words of an Entry, in declaration order. -/
def words (e : GenerationStats) : List (BitVec 64) :=
  [e.tsStart, e.tsStop, e.collections, e.collected, e.uncollectable, e.candidates, e.duration,
    e.heapSize]

@[simp] theorem length_words (e : GenerationStats) : e.words.length = 8 := rfl

end GenerationStats

/-- One generation's ring and the slot written last. -/
structure StatsBuffer (n : ℕ) where
  items : Fin n → GenerationStats
  index : Fin n

/-- One interpreter's region: the young ring, then the two old ones. -/
structure Stats (d : Depths) where
  buffer : (g : Fin 3) → StatsBuffer (d.of g)

namespace StatsBuffer

variable {n : ℕ}

/-- The words of the Entries, without the index word. -/
def itemWords (b : StatsBuffer n) : List (BitVec 64) :=
  (List.finRange n).flatMap fun i => (b.items i).words

/-- The index word follows the Entries. -/
def words (b : StatsBuffer n) : List (BitVec 64) := b.itemWords ++ [BitVec.ofNat 64 b.index]

/-- The slot the next Record goes to. -/
def nextIndex (b : StatsBuffer n) : Fin n :=
  ⟨(b.index + 1) % n, Nat.mod_lt _ (b.index.val.zero_le.trans_lt b.index.isLt)⟩

theorem nextIndex_val (b : StatsBuffer n) : (b.nextIndex : ℕ) = (b.index + 1) % n := rfl

end StatsBuffer

namespace Stats

variable {d : Depths}

/-- The region before any call. -/
def zero (d : Depths) : Stats d := ⟨fun g => ⟨fun _ => .zero, ⟨0, d.of_pos g⟩⟩⟩

def words (s : Stats d) : List (BitVec 64) := (List.finRange 3).flatMap fun g => (s.buffer g).words

def bytes (s : Stats d) : List UInt8 := wordsBytes s.words

/-- Change one generation's ring. -/
def modify (s : Stats d) (gen : Fin 3) (f : StatsBuffer (d.of gen) → StatsBuffer (d.of gen)) :
    Stats d := ⟨Function.update s.buffer gen (f (s.buffer gen))⟩

@[simp] theorem modify_buffer_self (s : Stats d) (gen : Fin 3)
    (f : StatsBuffer (d.of gen) → StatsBuffer (d.of gen)) :
    (s.modify gen f).buffer gen = f (s.buffer gen) := Function.update_self _ _ _

theorem modify_buffer_of_ne (s : Stats d) {gen g : Fin 3} (h : g ≠ gen)
    (f : StatsBuffer (d.of gen) → StatsBuffer (d.of gen)) :
    (s.modify gen f).buffer g = s.buffer g := Function.update_of_ne h _ _

theorem modify_congr (s : Stats d) {gen : Fin 3}
    {f k : StatsBuffer (d.of gen) → StatsBuffer (d.of gen)}
    (h : f (s.buffer gen) = k (s.buffer gen)) : s.modify gen f = s.modify gen k := by
  rw [modify, modify, h]

theorem modify_modify (s : Stats d) (gen : Fin 3)
    (f f' : StatsBuffer (d.of gen) → StatsBuffer (d.of gen)) :
    (s.modify gen f).modify gen f' = s.modify gen (f' ∘ f) := by
  simp [modify, Function.update_idem]

end Stats

/-! ## The writer -/

/-- The arguments of one call of `add_stats`. -/
structure Call where
  gen : Fin 3
  tsStart : BitVec 64
  tsStop : BitVec 64
  duration : BitVec 64
  collected : BitVec 64
  uncollectable : BitVec 64
  heapSize : BitVec 64
  deriving DecidableEq

section Writer

-- `fadd` is the addition of doubles, on the words that hold them
variable (fadd : BitVec 64 → BitVec 64 → BitVec 64) {d : Depths}

/-- The stores of a call into its Entry, in program order. -/
def fieldStores (c : Call) : List (GenerationStats → GenerationStats) :=
  [fun e => { e with tsStart := c.tsStart },
    fun e => { e with collections := e.collections + 1 },
    fun e => { e with collected := e.collected + c.collected },
    fun e => { e with uncollectable := e.uncollectable + c.uncollectable },
    fun e => { e with candidates := e.candidates + 0 },
    fun e => { e with duration := fadd e.duration c.duration },
    fun e => { e with heapSize := c.heapSize },
    fun e => { e with tsStop := c.tsStop }]

/-- A store into one Entry of one ring. -/
def storeAt (gen : Fin 3) (cur : Fin (d.of gen)) (f : GenerationStats → GenerationStats)
    (s : Stats d) : Stats d :=
  s.modify gen fun b => { b with items := Function.update b.items cur (f (b.items cur)) }

/-- All stores of a call: the index, the copy of the previous Entry, the fields. -/
def stores (s : Stats d) (c : Call) : List (Stats d → Stats d) :=
  let prev := (s.buffer c.gen).index
  let cur := (s.buffer c.gen).nextIndex
  (fun s => s.modify c.gen fun b => { b with index := cur }) ::
    (fun s => s.modify c.gen fun b => { b with items := Function.update b.items cur (b.items prev) }) ::
    (fieldStores fadd c).map (storeAt c.gen cur)

/-- The region once the first `m` stores of a call have landed. -/
def partialAdd (s : Stats d) (c : Call) (m : ℕ) : Stats d :=
  ((stores fadd s c).take m).foldl (fun s f => f s) s

/-- One whole call. -/
def addStats (s : Stats d) (c : Call) : Stats d := (stores fadd s c).foldl (fun s f => f s) s

/-- What a call makes of the previous Entry. -/
def GenerationStats.next (prev : GenerationStats) (c : Call) : GenerationStats :=
  (fieldStores fadd c).foldl (fun e f => f e) prev

theorem GenerationStats.next_eq (prev : GenerationStats) (c : Call) : prev.next fadd c =
    ⟨c.tsStart, c.tsStop, prev.collections + 1, prev.collected + c.collected,
      prev.uncollectable + c.uncollectable, prev.candidates + 0, fadd prev.duration c.duration,
      c.heapSize⟩ := rfl

theorem foldl_fieldStores (s : Stats d) (gen : Fin 3) (cur : Fin (d.of gen)) (e : GenerationStats)
    (fs : List (GenerationStats → GenerationStats)) :
    (fs.map (storeAt gen cur)).foldl (fun s f => f s)
      (s.modify gen fun b => ⟨Function.update b.items cur e, cur⟩) =
      s.modify gen fun b => ⟨Function.update b.items cur (fs.foldl (fun e f => f e) e), cur⟩ := by
  induction fs generalizing e with
  | nil => rfl
  | cons f fs ih =>
    rw [List.map_cons, List.foldl_cons, List.foldl_cons, ← ih, storeAt, Stats.modify_modify]
    congr 2
    funext b
    simp

theorem partialAdd_one (s : Stats d) (c : Call) : partialAdd fadd s c 1 =
    s.modify c.gen fun b => { b with index := (s.buffer c.gen).nextIndex } := rfl

/-- **Midway, the current slot holds the previous Entry with the fields stored so far.** -/
theorem partialAdd_add_two (s : Stats d) (c : Call) (m : ℕ) : partialAdd fadd s c (m + 2) =
    s.modify c.gen fun b => ⟨Function.update b.items (s.buffer c.gen).nextIndex
      (((fieldStores fadd c).take m).foldl (fun e f => f e)
        ((s.buffer c.gen).items (s.buffer c.gen).index)), (s.buffer c.gen).nextIndex⟩ := by
  rw [← foldl_fieldStores, partialAdd, stores]
  simp only [List.take_succ_cons, List.foldl_cons, ← List.map_take, Stats.modify_modify]
  rw [Stats.modify_congr s (k := fun b => ⟨Function.update b.items (s.buffer c.gen).nextIndex
    ((s.buffer c.gen).items (s.buffer c.gen).index), (s.buffer c.gen).nextIndex⟩)]
  rfl

theorem length_stores (s : Stats d) (c : Call) : (stores fadd s c).length = 10 := rfl

theorem partialAdd_all (s : Stats d) (c : Call) : partialAdd fadd s c (8 + 2) = addStats fadd s c := by
  have hlen : (stores fadd s c).length ≤ 8 + 2 := by rw [length_stores]
  unfold partialAdd addStats
  rw [List.take_of_length_le hlen]

/-- **A whole call writes the next Entry into the next slot**, and touches nothing else. -/
theorem addStats_eq (s : Stats d) (c : Call) : addStats fadd s c =
    s.modify c.gen fun b => ⟨Function.update b.items (s.buffer c.gen).nextIndex
      (((s.buffer c.gen).items (s.buffer c.gen).index).next fadd c),
        (s.buffer c.gen).nextIndex⟩ := by
  have hfields : (fieldStores fadd c).take 8 = fieldStores fadd c := rfl
  rw [← partialAdd_all, partialAdd_add_two, hfields, GenerationStats.next]

/-! ## Runs of calls -/

/-- The region after a run of calls. -/
def run (d : Depths) (calls : List Call) : Stats d := calls.foldl (addStats fadd) (.zero d)

/-- The calls of one generation. -/
def callsOf (g : Fin 3) (calls : List Call) : List Call := calls.filter fun c => c.gen = g

theorem callsOf_concat_self (calls : List Call) (c : Call) :
    callsOf c.gen (calls ++ [c]) = callsOf c.gen calls ++ [c] := by
  simp [callsOf]

theorem callsOf_concat_of_ne {g : Fin 3} {c : Call} (h : c.gen ≠ g) (calls : List Call) :
    callsOf g (calls ++ [c]) = callsOf g calls := by
  simp [callsOf, h]

/-- The Entry a run of calls of one generation leads to. -/
def totals (l : List Call) : GenerationStats := l.foldl (GenerationStats.next fadd) .zero

theorem run_concat (calls : List Call) (c : Call) :
    run fadd d (calls ++ [c]) = addStats fadd (run fadd d calls) c := by
  rw [run, List.foldl_append, List.foldl_cons, List.foldl_nil, ← run]

theorem totals_concat (l : List Call) (c : Call) :
    totals fadd (l ++ [c]) = (totals fadd l).next fadd c := by
  rw [totals, List.foldl_append, List.foldl_cons, List.foldl_nil, ← totals]

/-- The Entry holds the running totals of the calls, and the latest call's own values. -/
theorem totals_eq (l : List Call) : totals fadd l =
    ⟨(l.getLast?.map Call.tsStart).getD 0, (l.getLast?.map Call.tsStop).getD 0,
      BitVec.ofNat 64 l.length, (l.map Call.collected).sum, (l.map Call.uncollectable).sum, 0,
      (l.map Call.duration).foldl fadd 0, (l.getLast?.map Call.heapSize).getD 0⟩ := by
  induction l using List.reverseRecOn with
  | nil => rfl
  | append_singleton l c ih =>
    rw [totals_concat, ih, GenerationStats.next_eq]
    simp [BitVec.ofNat_add]

/-- What a slot holds after the calls of its generation. -/
def slotAt (n : ℕ) (l : List Call) (i : ℕ) : GenerationStats :=
  ((latestIn n (l.length + 1) i).map fun j => totals fadd (l.take j)).getD .zero

theorem slotAt_nil (n i : ℕ) : slotAt fadd n [] i = .zero := by
  rw [slotAt]
  cases latestIn n (([] : List Call).length + 1) i with
  | none => rfl
  | some j => simp [totals]

theorem slotAt_last {n : ℕ} (hn : 0 < n) (l : List Call) :
    slotAt fadd n l (l.length % n) = totals fadd l := by
  have h : latestIn n (l.length + 1) (l.length % n) = some l.length :=
    latestIn_eq_some_iff.mpr ⟨rfl, Nat.lt_succ_self _, by omega⟩
  rw [slotAt, h, Option.map_some, Option.getD_some, List.take_length]

theorem slotAt_concat {n i : ℕ} (hi : i < n) (l : List Call) (c : Call) :
    slotAt fadd n (l ++ [c]) i =
      if (l.length + 1) % n = i then (totals fadd l).next fadd c else slotAt fadd n l i := by
  rw [slotAt, List.length_append, List.length_singleton, latestIn_succ hi]
  split_ifs with h
  · rw [Option.map_some, Option.getD_some, List.take_of_length_le (by simp), totals_concat]
  · rw [slotAt]
    cases hl : latestIn n (l.length + 1) i with
    | none => rfl
    | some j =>
      have := (latestIn_eq_some_iff.mp hl).2.1
      rw [Option.map_some, Option.map_some, List.take_append_of_le_length (by omega)]

/-- **What a whole run of calls leaves in each slot**, and where the write position is. -/
theorem buffer_run (calls : List Call) (g : Fin 3) :
    (∀ i, ((run fadd d calls).buffer g).items i =
        slotAt fadd (d.of g) (callsOf g calls) i) ∧
      (((run fadd d calls).buffer g).index : ℕ) = (callsOf g calls).length % d.of g := by
  induction calls using List.reverseRecOn with
  | nil => exact ⟨fun i => (slotAt_nil fadd _ _).symm, (Nat.zero_mod _).symm⟩
  | append_singleton calls c ih =>
    obtain ⟨hitems, hindex⟩ := ih
    rw [run_concat, addStats_eq]
    by_cases hg : c.gen = g
    · subst hg
      rw [Stats.modify_buffer_self, callsOf_concat_self]
      have hnext : (((run fadd d calls).buffer c.gen).nextIndex : ℕ) =
          ((callsOf c.gen calls).length + 1) % d.of c.gen := by
        rw [StatsBuffer.nextIndex_val, hindex, Nat.mod_add_mod]
      have hprev : ((run fadd d calls).buffer c.gen).items
          ((run fadd d calls).buffer c.gen).index = totals fadd (callsOf c.gen calls) := by
        rw [hitems, hindex, slotAt_last fadd (d.of_pos _)]
      refine ⟨fun i => ?_, ?_⟩
      · change Function.update _ _ _ i = _
        rw [hprev, slotAt_concat fadd i.isLt, ← hitems, Function.update_apply, ← hnext]
        simp only [Fin.ext_iff, eq_comm]
      · rw [List.length_append, List.length_singleton]
        exact hnext
    · rw [Stats.modify_buffer_of_ne _ (Ne.symm hg), callsOf_concat_of_ne hg]
      exact ⟨hitems, hindex⟩

end Writer

end GcScope.Probe
