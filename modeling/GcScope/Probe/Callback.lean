import GcScope.Lib.Mealy
import GcScope.Probe.Region
import GcScope.Probe.Slots

/-!
# The Probe's callback

The garbage collector calls the Probe when a Collection starts and when it stops. The callback finds
the slot of its interpreter, keeps the start there and makes a Record of it at the next stop.

* `Table.onGc`: the callback; `Act` and `Table.step` add what else claims slots.
* `pairs`: the start-stop pairs among the callbacks of one interpreter.
* `Host.genWord_toInt`: a generation that is a C `int` is read as it is.
* `slotFor_cases`: which slot a callback gets.
* **`Inv.step`**: what every act keeps.
* **`records_each_once`**: the calls of `add_stats` are the start-stop pairs, and the published
  counters are their numbers.
-/

set_option autoImplicit false

namespace GcScope.Probe

/-! ## The slots -/

/-- What a check of the interpreter has answered. -/
inductive Check where
  | unknown
  | passed
  | failed
  deriving DecidableEq

/-- One interpreter's region, and what is carried from a start to its stop. -/
structure Slot (d : Depths) where
  claimed : Bool
  interpId : BitVec 64
  stats : Stats d
  pendingTsStart : BitVec 64
  pendingHeapSize : BitVec 64
  pendingValid : Bool

/-- A slot before anything is stored in it. -/
def Slot.zero (d : Depths) : Slot d := ⟨false, 0, .zero d, 0, 0, false⟩

/-- The module's state: the slots, the check of the offsets and the published capabilities. -/
structure Table (d : Depths) where
  slots : Fin maxInterp → Slot d
  offsetsOk : Check
  capabilities : BitVec 32

def Table.zero (d : Depths) : Table d := ⟨fun _ => .zero d, .unknown, 0⟩

/-- The interpreter a Probe is loaded into: its doubles, its `long`, and `heap_size`. -/
structure Host where
  fadd : BitVec 64 → BitVec 64 → BitVec 64
  asSecondsDouble : BitVec 64 → BitVec 64
  longBits : ℕ
  int_le_long : 32 ≤ longBits
  hasHeapSize : Bool
  heapSizeOk : Check

/-! ## A callback -/

/-- The collector's state of an interpreter, read through the offsets. -/
structure GcState where
  collecting : BitVec 32
  heapSize : BitVec 64

/-- The info of a callback. A value may be absent, and it may not be an integer. -/
structure Info where
  generation : Option (Option ℤ)
  collected : Option (Option ℤ)
  uncollectable : Option (Option ℤ)

/-- One call of the callback: who runs, the arguments, the clock and the collector's state. -/
structure OnGc where
  interp : Option (BitVec 64)
  nargs : ℕ
  /-- The phase, where it is a string. -/
  phase : Option String
  /-- The info, where it is a dictionary. -/
  info : Option Info
  now : BitVec 64
  gcstate : Option GcState

/-- The phases differ first at index 2. -/
def OnGc.isStop (c : OnGc) : Bool :=
  match c.phase with
  | some phase => decide (2 < phase.toList.length) && phase.toList[2]? == some 'o'
  | none => false

example (c : OnGc) : OnGc.isStop { c with phase := some "stop" } = true ∧
    OnGc.isStop { c with phase := some "start" } = false := ⟨rfl, rfl⟩

/-- An object as a C integer of `bits` bits, -1 where it is none. -/
def asInteger (bits : ℕ) (v : Option ℤ) : ℤ :=
  match v with
  | some n => if -2 ^ (bits - 1) ≤ n ∧ n < 2 ^ (bits - 1) then n else -1
  | none => -1

/-- A count of a stop; zero where there is none. -/
def OnGc.count (c : OnGc) (field : Info → Option (Option ℤ)) : BitVec 64 :=
  match c.info.bind field with
  | some v => BitVec.ofInt 64 (asInteger 64 v)
  | none => 0

/-- The ring of a generation. -/
def genIndex (g : BitVec 32) : Option (Fin 3) :=
  if hg : 0 ≤ g.toInt ∧ g.toInt < 3 then some ⟨g.toInt.toNat, by omega⟩ else none

namespace Host

variable (h : Host)

/-- The generation of a stop, cut to an `int`; -1 where there is none. -/
def genWord (c : OnGc) : BitVec 32 :=
  match c.info.bind Info.generation with
  | some v => BitVec.ofInt 32 (asInteger h.longBits v)
  | none => -1

/-- The tracked objects, where they can be counted. -/
def heapSize (gcstate : Option GcState) : BitVec 64 :=
  if h.heapSizeOk ≠ .passed then 0
  else
    match gcstate with
    | none => 0
    | some g => g.heapSize

/-- The capability word. -/
def capabilities (offsetsOk : Check) : BitVec 32 :=
  (if offsetsOk = .passed then 1 else 0) ||| (if h.hasHeapSize then 2 else 0) |||
    if h.heapSizeOk = .passed then 4 else 0

/-- **A generation that is a C `int` is read as it is.** -/
theorem genWord_toInt {c : OnGc} {n : ℤ} (hgen : c.info.bind Info.generation = some (some n))
    (hlo : -2 ^ 31 ≤ n) (hhi : n < 2 ^ 31) : (h.genWord c).toInt = n := by
  have hpow : (2 : ℤ) ^ 31 ≤ 2 ^ (h.longBits - 1) :=
    pow_le_pow_right₀ (by norm_num) (by have := h.int_le_long; omega)
  have hlong : asInteger h.longBits (some n) = n := if_pos ⟨by omega, by omega⟩
  rw [genWord, hgen]
  dsimp only
  rw [hlong]
  exact BitVec.toInt_ofInt_eq_self (by norm_num) (by simpa using hlo) (by simpa using hhi)

end Host

namespace Table

variable {d : Depths} (h : Host)

def setSlot (t : Table d) (i : Fin maxInterp) (s : Slot d) : Table d :=
  { t with slots := Function.update t.slots i s }

/-- Whether the offsets fit, answered by the first start. -/
def checkOffsets (t : Table d) (gcstate : Option GcState) : Table d :=
  if t.offsetsOk ≠ .unknown then t
  else
    match gcstate with
    | none => t
    | some g =>
      let offsetsOk := if g.collecting = 1 then .passed else .failed
      { t with offsetsOk := offsetsOk, capabilities := h.capabilities offsetsOk }

/-- The slot of the interpreter, or a free one, claimed for it. -/
def slotFor (t : Table d) (interp : Option (BitVec 64)) : Option (Fin maxInterp) × Table d :=
  match interp with
  | none => (none, t)
  | some id =>
    match (List.finRange maxInterp).find? fun i => (t.slots i).claimed && (t.slots i).interpId == id with
    | some i => (some i, t)
    | none =>
      match (List.finRange maxInterp).find? fun i => !(t.slots i).claimed with
      | some i => (some i, t.setSlot i { t.slots i with claimed := true, interpId := id })
      | none => (none, t)

/-- The callback in its slot: the state after it, and the call of `add_stats` it makes. -/
def onGcIn (t : Table d) (i : Fin maxInterp) (c : OnGc) : Table d × List (Fin maxInterp × Call) :=
  if !c.isStop then
    let t := t.checkOffsets h c.gcstate
    (t.setSlot i { t.slots i with
      pendingHeapSize := h.heapSize c.gcstate
      pendingTsStart := c.now
      pendingValid := true }, [])
  else if !(t.slots i).pendingValid then (t, [])
  else
    let slot := { t.slots i with pendingValid := false }
    match genIndex (h.genWord c) with
    | none => (t.setSlot i slot, [])
    | some gen =>
      let call : Call :=
        { gen
          tsStart := slot.pendingTsStart
          tsStop := c.now
          duration := h.asSecondsDouble (c.now - slot.pendingTsStart)
          collected := c.count Info.collected
          uncollectable := c.count Info.uncollectable
          heapSize := slot.pendingHeapSize }
      (t.setSlot i { slot with stats := addStats h.fadd slot.stats call }, [(i, call)])

/-- The callback. -/
def onGc (t : Table d) (c : OnGc) : Table d × List (Fin maxInterp × Call) :=
  if c.nargs ≠ 2 then (t, [])
  else
    match t.slotFor c.interp with
    | (none, t) => (t, [])
    | (some i, t) => t.onGcIn h i c

end Table

/-- What reaches the module: callbacks, and the questions for a region's address, which claim a slot
as well. -/
inductive Act where
  | onGc (c : OnGc)
  | regionAddr (interp : Option (BitVec 64))

def Table.step {d : Depths} (h : Host) (t : Table d) : Act → Table d × List (Fin maxInterp × Call)
  | .onGc c => t.onGc h c
  | .regionAddr interp => ((t.slotFor interp).2, [])

/-! ## Start-stop pairs -/

/-- The callbacks of one interpreter. -/
def Act.callback? (id : BitVec 64) : Act → Option OnGc
  | .onGc c => if c.interp = some id ∧ c.nargs = 2 then some c else none
  | .regionAddr _ => none

def callbacksOf (id : BitVec 64) (acts : List Act) : List OnGc := acts.filterMap (Act.callback? id)

/-- The latest start since the last stop. -/
def pendingStart (before : List OnGc) : Option OnGc :=
  (before.reverse.takeWhile fun c => !c.isStop).head?

/-- The Record of a stop that has a start pending and a generation that is collected. -/
def pairOf (h : Host) (before : List OnGc) (stop : OnGc) : Option Call :=
  if stop.isStop then do
    let start ← pendingStart before
    let gen ← genIndex (h.genWord stop)
    return {
      gen
      tsStart := start.now
      tsStop := stop.now
      duration := h.asSecondsDouble (stop.now - start.now)
      collected := stop.count Info.collected
      uncollectable := stop.count Info.uncollectable
      heapSize := h.heapSize start.gcstate }
  else none

/-- The start-stop pairs among the callbacks of an interpreter, by their stops. -/
def pairs (h : Host) (l : List OnGc) : List Call :=
  (List.range l.length).filterMap fun k => l[k]?.bind (pairOf h (l.take k))

theorem pendingStart_concat (l : List OnGc) (c : OnGc) :
    pendingStart (l ++ [c]) = if c.isStop then none else some c := by
  rw [pendingStart, List.reverse_concat, List.takeWhile_cons]
  cases c.isStop <;> rfl

theorem pairs_concat (h : Host) (l : List OnGc) (c : OnGc) :
    pairs h (l ++ [c]) = pairs h l ++ (pairOf h l c).toList := by
  have hbefore : ∀ k ∈ List.range l.length,
      ((l ++ [c])[k]?.bind (pairOf h ((l ++ [c]).take k))) = l[k]?.bind (pairOf h (l.take k)) := by
    intro k hk
    have hk := List.mem_range.mp hk
    rw [List.getElem?_append_left hk, List.take_append_of_le_length hk.le]
  have hlast : (l ++ [c])[l.length]?.bind (pairOf h ((l ++ [c]).take l.length)) = pairOf h l c := by
    rw [List.getElem?_concat_length, List.take_left, Option.bind_some]
  rw [pairs, List.length_append, List.length_singleton, List.range_succ, List.filterMap_append,
    List.filterMap_congr hbefore, ← pairs, List.filterMap_cons, hlast]
  cases pairOf h l c <;> rfl

theorem callbacksOf_concat (id : BitVec 64) (acts : List Act) (a : Act) :
    callbacksOf id (acts ++ [a]) = callbacksOf id acts ++ (a.callback? id).toList := by
  rw [callbacksOf, List.filterMap_append, ← callbacksOf, List.filterMap_cons]
  cases a.callback? id <;> rfl

/-! ## What a run keeps -/

section Runs

variable {d : Depths} {h : Host}

/-- The start a slot carries: its time and its heap size. -/
def Slot.pending (s : Slot d) : Option (BitVec 64 × BitVec 64) :=
  if s.pendingValid then some (s.pendingTsStart, s.pendingHeapSize) else none

/-- The calls of `add_stats` on one slot. -/
def callsIn (i : Fin maxInterp) (outs : List (Fin maxInterp × Call)) : List Call :=
  (outs.filter fun o => o.1 = i).map Prod.snd

/-- A slot holds what the pairs of its interpreter make of it, a free one nothing. -/
structure Slot.Holds (h : Host) (acts : List Act) (calls : List Call) (s : Slot d) : Prop where
  free : s.claimed = false → calls = [] ∧ s.pending = none
  paired : s.claimed = true → calls = pairs h (callbacksOf s.interpId acts)
  pending : s.claimed = true → s.pending =
    (pendingStart (callbacksOf s.interpId acts)).map fun c => (c.now, h.heapSize c.gcstate)
  stats : s.stats = run h.fadd d calls

/-- What holds after a run: slots belong to different interpreters, and an interpreter without one has
been turned away by a full table. -/
structure Inv (h : Host) (acts : List Act) (outs : List (Fin maxInterp × Call)) (t : Table d) :
    Prop where
  slots : ∀ i, (t.slots i).Holds h acts (callsIn i outs)
  distinct : ∀ i j, (t.slots i).claimed = true → (t.slots j).claimed = true →
    (t.slots i).interpId = (t.slots j).interpId → i = j
  held : ∀ i, (t.slots i).claimed = false → ∀ id, callbacksOf id acts ≠ [] →
    ∃ j, (t.slots j).claimed = true ∧ (t.slots j).interpId = id

theorem Inv.zero : Inv h [] [] (Table.zero d) where
  slots _ := ⟨fun _ => ⟨rfl, rfl⟩, (nomatch ·), (nomatch ·), rfl⟩
  distinct _ _ hi := nomatch hi
  held _ _ _ hne := absurd rfl hne

@[simp] theorem Table.setSlot_self (t : Table d) (i : Fin maxInterp) (s : Slot d) :
    (t.setSlot i s).slots i = s := Function.update_self _ _ _

theorem Table.setSlot_of_ne (t : Table d) {i j : Fin maxInterp} (hj : j ≠ i) (s : Slot d) :
    (t.setSlot i s).slots j = t.slots j := Function.update_of_ne hj _ _

@[simp] theorem Table.checkOffsets_slots (t : Table d) (gcstate : Option GcState) :
    (t.checkOffsets h gcstate).slots = t.slots := by
  unfold checkOffsets
  split_ifs
  · rfl
  · cases gcstate <;> rfl

theorem slotFor_cases (t : Table d) (id : BitVec 64) :
    (∃ i, t.slotFor (some id) = (some i, t) ∧ (t.slots i).claimed = true ∧
      (t.slots i).interpId = id) ∨
    (∃ i, t.slotFor (some id) =
        (some i, t.setSlot i { t.slots i with claimed := true, interpId := id }) ∧
      (t.slots i).claimed = false ∧ ∀ j, (t.slots j).claimed = true → (t.slots j).interpId ≠ id) ∨
    (t.slotFor (some id) = (none, t) ∧
      ∀ j, (t.slots j).claimed = true ∧ (t.slots j).interpId ≠ id) := by
  unfold Table.slotFor
  dsimp only
  cases hown : (List.finRange maxInterp).find? fun i =>
      (t.slots i).claimed && (t.slots i).interpId == id with
  | some i =>
    have hi := List.find?_some hown
    rw [Bool.and_eq_true, beq_iff_eq] at hi
    exact .inl ⟨i, rfl, hi.1, hi.2⟩
  | none =>
    have hother : ∀ j, (t.slots j).claimed = true → (t.slots j).interpId ≠ id := by
      intro j hj hid
      have hno := List.find?_eq_none.mp hown j (List.mem_finRange j)
      rw [hj, hid, Bool.true_and, beq_self_eq_true] at hno
      exact hno rfl
    refine .inr ?_
    cases hfree : (List.finRange maxInterp).find? fun i => !(t.slots i).claimed with
    | some i =>
      have hi : (t.slots i).claimed = false := by simpa using List.find?_some hfree
      exact .inl ⟨i, rfl, hi, hother⟩
    | none =>
      have hfull : ∀ j, (t.slots j).claimed = true := fun j => by
        simpa using List.find?_eq_none.mp hfree j (List.mem_finRange j)
      exact .inr ⟨rfl, fun j => ⟨hfull j, hother j (hfull j)⟩⟩

variable {acts : List Act} {outs : List (Fin maxInterp × Call)} {t : Table d}

theorem Inv.claim (hinv : Inv h acts outs t) (interp : Option (BitVec 64)) :
    Inv h acts outs (t.slotFor interp).2 := by
  cases interp with
  | none => exact hinv
  | some id =>
    rcases slotFor_cases t id with ⟨i, hs, -, -⟩ | ⟨i, hs, hi, hother⟩ | ⟨hs, -⟩
    · rw [hs]
      exact hinv
    · rw [hs]
      have hnone : callbacksOf id acts = [] := by
        by_contra hne
        obtain ⟨j, hj, hid⟩ := hinv.held i hi id hne
        exact hother j hj hid
      obtain ⟨hcalls, hpending⟩ := (hinv.slots i).free hi
      have hslot : ∀ j, j ≠ i →
          (t.setSlot i { t.slots i with claimed := true, interpId := id }).slots j = t.slots j :=
        fun j hj => t.setSlot_of_ne hj _
      refine ⟨fun j => ?_, fun j k hj hk hid => ?_, fun j hj id' hne => ?_⟩
      · by_cases hji : j = i
        · rw [hji, Table.setSlot_self]
          refine ⟨(nomatch ·), fun _ => ?_, fun _ => ?_, (hinv.slots i).stats⟩
          · rw [hnone]
            exact hcalls
          · rw [hnone]
            exact hpending
        · rw [hslot j hji]
          exact hinv.slots j
      · by_cases hji : j = i
        · by_cases hki : k = i
          · rw [hji, hki]
          · rw [hslot k hki] at hk hid
            rw [hji, Table.setSlot_self] at hid
            exact absurd hid.symm (hother k hk)
        · rw [hslot j hji] at hj hid
          by_cases hki : k = i
          · rw [hki, Table.setSlot_self] at hid
            exact absurd hid (hother j hj)
          · rw [hslot k hki] at hk hid
            exact hinv.distinct j k hj hk hid
      · obtain ⟨k, hk, hid⟩ := hinv.held i hi id' hne
        have hki : k ≠ i := by
          rintro rfl
          rw [hi] at hk
          cases hk
        exact ⟨k, by rw [hslot k hki]; exact hk, by rw [hslot k hki]; exact hid⟩
    · rw [hs]
      exact hinv

/-- An act that no interpreter with a slot takes part in. -/
theorem Inv.pass (hinv : Inv h acts outs t) (a : Act)
    (hown : ∀ i, (t.slots i).claimed = true → a.callback? (t.slots i).interpId = none)
    (hfull : ∀ i, (t.slots i).claimed = false → ∀ id, a.callback? id = none) :
    Inv h (acts ++ [a]) outs t := by
  have hsame : ∀ id, a.callback? id = none → callbacksOf id (acts ++ [a]) = callbacksOf id acts :=
    fun id hid => by rw [callbacksOf_concat, hid, Option.toList_none, List.append_nil]
  refine ⟨fun i => ⟨(hinv.slots i).free, fun hi => ?_, fun hi => ?_, (hinv.slots i).stats⟩,
    hinv.distinct, fun i hi id hne => ?_⟩
  · rw [hsame _ (hown i hi)]
    exact (hinv.slots i).paired hi
  · rw [hsame _ (hown i hi)]
    exact (hinv.slots i).pending hi
  · rw [hsame id (hfull i hi id)] at hne
    exact hinv.held i hi id hne

theorem callsIn_append (i j : Fin maxInterp) (new : List Call) :
    callsIn j (outs ++ new.map fun call => (i, call)) = callsIn j outs ++ if j = i then new else [] := by
  rw [callsIn, List.filter_append, List.map_append, ← callsIn, List.filter_map]
  split_ifs with hji
  · rw [hji]
    simp [Function.comp_def]
  · simp [Function.comp_def, Ne.symm hji]

/-- **A callback changes the slot of its interpreter**, as the pair it completes and the start it
leaves say. -/
theorem Inv.update {i : Fin maxInterp} {c : OnGc} {s : Slot d} {t' : Table d}
    (hinv : Inv h acts outs t) (hi : (t.slots i).claimed = true)
    (hc : c.interp = some (t.slots i).interpId) (hnargs : c.nargs = 2)
    (ht' : t'.slots = Function.update t.slots i s) (hclaimed : s.claimed = true)
    (hid : s.interpId = (t.slots i).interpId)
    (hstats : s.stats = ((pairOf h (callbacksOf s.interpId acts) c).toList).foldl (addStats h.fadd)
      (t.slots i).stats)
    (hpending : s.pending = if c.isStop then none else some (c.now, h.heapSize c.gcstate)) :
    Inv h (acts ++ [.onGc c]) (outs ++ (pairOf h (callbacksOf s.interpId acts) c).toList.map
      fun call => (i, call)) t' := by
  have hself : t'.slots i = s := by rw [ht', Function.update_self]
  have hother : ∀ j, j ≠ i → t'.slots j = t.slots j := fun j hj => by
    rw [ht', Function.update_of_ne hj]
  have hown : callbacksOf s.interpId (acts ++ [.onGc c]) = callbacksOf s.interpId acts ++ [c] := by
    rw [callbacksOf_concat, Act.callback?, if_pos ⟨hc.trans (congrArg some hid.symm), hnargs⟩]
    rfl
  have helse : ∀ id, id ≠ s.interpId → callbacksOf id (acts ++ [.onGc c]) = callbacksOf id acts := by
    intro id hne
    rw [callbacksOf_concat, Act.callback?, if_neg, Option.toList_none, List.append_nil]
    rintro ⟨hcid, -⟩
    exact hne (Option.some.inj (hcid.symm.trans hc) |>.trans hid.symm)
  have hclaim : ∀ j, (t'.slots j).claimed = (t.slots j).claimed := fun j => by
    by_cases hji : j = i
    · rw [hji, hself, hclaimed, hi]
    · rw [hother j hji]
  have hids : ∀ j, (t'.slots j).interpId = (t.slots j).interpId := fun j => by
    by_cases hji : j = i
    · rw [hji, hself, hid]
    · rw [hother j hji]
  refine ⟨fun j => ?_, fun j k => ?_, fun j hj id hne => ?_⟩
  · rw [callsIn_append]
    by_cases hji : j = i
    · subst hji
      rw [hself, if_pos rfl]
      have hcalls := (hinv.slots j).paired hi
      refine ⟨fun hfree => ?_, fun _ => ?_, fun _ => ?_, ?_⟩
      · rw [hclaimed] at hfree
        cases hfree
      · rw [hown, pairs_concat, hcalls, hid]
      · rw [hown, pendingStart_concat, hpending]
        cases c.isStop <;> rfl
      · rw [hstats, (hinv.slots j).stats]
        unfold run
        rw [List.foldl_append]
    · rw [hother j hji, if_neg hji, List.append_nil]
      have hj := hinv.slots j
      refine ⟨hj.free, fun hcj => ?_, fun hcj => ?_, hj.stats⟩
      · have hne := mt (hinv.distinct j i hcj hi) hji
        rw [helse _ (hid ▸ hne)]
        exact hj.paired hcj
      · have hne := mt (hinv.distinct j i hcj hi) hji
        rw [helse _ (hid ▸ hne)]
        exact hj.pending hcj
  · rw [hclaim, hclaim, hids, hids]
    exact hinv.distinct j k
  · rw [hclaim] at hj
    by_cases hself' : id = s.interpId
    · exact ⟨i, by rw [hclaim]; exact hi, by rw [hids, hself', hid]⟩
    · rw [helse id hself'] at hne
      obtain ⟨k, hk, hkid⟩ := hinv.held j hj id hne
      exact ⟨k, by rw [hclaim]; exact hk, by rw [hids]; exact hkid⟩

theorem Inv.update_none {i : Fin maxInterp} {c : OnGc} {s : Slot d} {t' : Table d}
    (hinv : Inv h acts outs t) (hi : (t.slots i).claimed = true)
    (hc : c.interp = some (t.slots i).interpId) (hnargs : c.nargs = 2)
    (hpair : pairOf h (callbacksOf (t.slots i).interpId acts) c = none)
    (ht' : t'.slots = Function.update t.slots i s) (hclaimed : s.claimed = true)
    (hid : s.interpId = (t.slots i).interpId) (hstats : s.stats = (t.slots i).stats)
    (hpending : s.pending = if c.isStop then none else some (c.now, h.heapSize c.gcstate)) :
    Inv h (acts ++ [.onGc c]) outs t' := by
  rw [← hid] at hpair
  have hnew := hinv.update hi hc hnargs ht' hclaimed hid (by rw [hpair]; exact hstats) hpending
  rw [hpair] at hnew
  simpa using hnew

theorem Inv.onGcIn {i : Fin maxInterp} {c : OnGc} (hinv : Inv h acts outs t)
    (hi : (t.slots i).claimed = true) (hc : c.interp = some (t.slots i).interpId)
    (hnargs : c.nargs = 2) :
    Inv h (acts ++ [.onGc c]) (outs ++ (t.onGcIn h i c).2) (t.onGcIn h i c).1 := by
  have hpend := (hinv.slots i).pending hi
  cases hstop : c.isStop with
  | false =>
    have hpair : pairOf h (callbacksOf (t.slots i).interpId acts) c = none := by simp [pairOf, hstop]
    have hslots : (t.onGcIn h i c).1.slots = Function.update t.slots i { t.slots i with
        pendingHeapSize := h.heapSize c.gcstate, pendingTsStart := c.now, pendingValid := true } := by
      simp [Table.onGcIn, hstop, Table.setSlot]
    have hnew := hinv.update_none hi hc hnargs hpair hslots hi rfl rfl (by simp [Slot.pending, hstop])
    simpa [Table.onGcIn, hstop] using hnew
  | true =>
    cases hvalid : (t.slots i).pendingValid with
    | false =>
      -- a stop without a start
      have hnone : pendingStart (callbacksOf (t.slots i).interpId acts) = none := by
        rw [Slot.pending, hvalid] at hpend
        exact Option.map_eq_none_iff.mp hpend.symm
      have hpair : pairOf h (callbacksOf (t.slots i).interpId acts) c = none := by
        simp [pairOf, hstop, hnone]
      have hslots : t.slots = Function.update t.slots i (t.slots i) :=
        (Function.update_eq_self i t.slots).symm
      have hnew := hinv.update_none hi hc hnargs hpair hslots hi rfl rfl
        (by simp [Slot.pending, hvalid, hstop])
      simpa [Table.onGcIn, hstop, hvalid] using hnew
    | true =>
      obtain ⟨start, hstart, hvalues⟩ : ∃ start,
          pendingStart (callbacksOf (t.slots i).interpId acts) = some start ∧
            (start.now, h.heapSize start.gcstate) =
              ((t.slots i).pendingTsStart, (t.slots i).pendingHeapSize) := by
        rw [Slot.pending, hvalid, if_pos rfl] at hpend
        exact Option.map_eq_some_iff.mp hpend.symm
      obtain ⟨htime, hheap⟩ := Prod.mk.inj hvalues
      cases hgen : genIndex (h.genWord c) with
      | none =>
        -- a stop whose generation is not collected takes the start with it
        have hpair : pairOf h (callbacksOf (t.slots i).interpId acts) c = none := by
          simp [pairOf, hstop, hstart, hgen]
        have hslots : (t.onGcIn h i c).1.slots =
            Function.update t.slots i { t.slots i with pendingValid := false } := by
          simp [Table.onGcIn, hstop, hvalid, hgen, Table.setSlot]
        have hnew := hinv.update_none hi hc hnargs hpair hslots hi rfl rfl
          (by simp [Slot.pending, hstop])
        simpa [Table.onGcIn, hstop, hvalid, hgen] using hnew
      | some gen =>
        obtain ⟨call, hpair, hcall⟩ : ∃ call,
            pairOf h (callbacksOf (t.slots i).interpId acts) c = some call ∧ call =
              { gen
                tsStart := (t.slots i).pendingTsStart
                tsStop := c.now
                duration := h.asSecondsDouble (c.now - (t.slots i).pendingTsStart)
                collected := c.count Info.collected
                uncollectable := c.count Info.uncollectable
                heapSize := (t.slots i).pendingHeapSize } := by
          refine ⟨_, ?_, rfl⟩
          simp [pairOf, hstop, hstart, hgen, htime, hheap]
        have hslots : (t.onGcIn h i c).1.slots = Function.update t.slots i { t.slots i with
            pendingValid := false, stats := addStats h.fadd (t.slots i).stats call } := by
          simp [Table.onGcIn, hstop, hvalid, hgen, Table.setSlot, hcall]
        have hnew := hinv.update hi hc hnargs hslots hi rfl (by rw [hpair]; rfl)
          (by simp [Slot.pending, hstop])
        rw [hpair] at hnew
        simpa [Table.onGcIn, hstop, hvalid, hgen, hcall] using hnew

/-- **What every act keeps.** -/
theorem Inv.step (hinv : Inv h acts outs t) (a : Act) :
    Inv h (acts ++ [a]) (outs ++ (t.step h a).2) (t.step h a).1 := by
  cases a with
  | regionAddr interp =>
    have hnew := (hinv.claim interp).pass (.regionAddr interp) (fun _ _ => rfl) fun _ _ _ => rfl
    simpa [Table.step] using hnew
  | onGc c =>
    rw [Table.step, Table.onGc]
    by_cases hnargs : c.nargs = 2
    · rw [if_neg (not_not_intro hnargs)]
      cases hc : c.interp with
      | none =>
        have hno : ∀ id, (Act.onGc c).callback? id = none := fun id => by simp [Act.callback?, hc]
        simpa [Table.slotFor] using hinv.pass (.onGc c) (fun _ _ => hno _) fun _ _ id => hno id
      | some id =>
        have hclaim := hinv.claim (some id)
        rcases slotFor_cases t id with ⟨i, hs, hi, hid⟩ | ⟨i, hs, hi, -⟩ | ⟨hs, hfull⟩
        · rw [hs]
          exact hinv.onGcIn hi (hc.trans (congrArg some hid.symm)) hnargs
        · rw [hs] at hclaim ⊢
          exact hclaim.onGcIn (by simp) (by rw [hc, Table.setSlot_self]) hnargs
        · rw [hs]
          have hno : ∀ i, (Act.onGc c).callback? (t.slots i).interpId = none := fun i => by
            simp [Act.callback?, hc, Ne.symm (hfull i).2]
          have hnew := hinv.pass (.onGc c) (fun i _ => hno i) fun i hi => by
            rw [(hfull i).1] at hi
            cases hi
          simpa using hnew
    · rw [if_pos hnargs]
      have hno : ∀ id, (Act.onGc c).callback? id = none := fun id => by
        simp [Act.callback?, hnargs]
      simpa using hinv.pass (.onGc c) (fun _ _ => hno _) fun _ _ id => hno id

/-- **What holds after every run.** -/
theorem inv_run (acts : List Act) : Inv h acts (Mealy.outs (Table.step h) (Table.zero d) acts)
    (Mealy.exec (Table.step h) (Table.zero d) acts) := by
  induction acts using List.reverseRecOn with
  | nil => exact Inv.zero
  | append_singleton acts a ih =>
    rw [Mealy.outs_concat, Mealy.exec_concat]
    exact ih.step a

/-- The Entry a reader finds as the newest one of a generation. -/
def Stats.published (s : Stats d) (g : Fin 3) : GenerationStats :=
  (s.buffer g).items (s.buffer g).index

/-- **The newest Entry counts the calls of its generation.** -/
theorem published_collections (fadd : BitVec 64 → BitVec 64 → BitVec 64) (calls : List Call)
    (g : Fin 3) : ((run fadd d calls).published g).collections =
      BitVec.ofNat 64 (calls.countP fun call => call.gen = g) := by
  obtain ⟨hitems, hindex⟩ := buffer_run fadd (d := d) calls g
  rw [Stats.published, hitems, hindex, slotAt_last fadd (d.of_pos g), totals_eq, callsOf,
    List.countP_eq_length_filter]

end Runs

/-- **The callback records each Collection once.** Whatever is called in whatever order, the calls of
`add_stats` for an interpreter with a slot are its start-stop pairs, no others are made, and the
published counter of each generation is the number of its pairs. -/
theorem records_each_once (h : Host) (d : Depths) (acts : List Act) :
    let calls := Mealy.outs (Table.step h) (Table.zero d) acts
    let final := Mealy.exec (Table.step h) (Table.zero d) acts
    (∀ call ∈ calls, (final.slots call.1).claimed = true) ∧
      ∀ i, (final.slots i).claimed = true →
        callsIn i calls = pairs h (callbacksOf (final.slots i).interpId acts) ∧
        ∀ g, ((final.slots i).stats.published g).collections = BitVec.ofNat 64
          ((pairs h (callbacksOf (final.slots i).interpId acts)).countP fun call => call.gen = g) := by
  intro calls final
  have hinv : Inv h acts calls final := inv_run acts
  refine ⟨fun call hcall => ?_, fun i hi => ⟨(hinv.slots i).paired hi, fun g => ?_⟩⟩
  · by_contra hfree
    have hnone := ((hinv.slots call.1).free (Bool.eq_false_iff.mpr hfree)).1
    have hmem : call.2 ∈ callsIn call.1 calls :=
      List.mem_map.mpr ⟨call, List.mem_filter.mpr ⟨hcall, decide_eq_true rfl⟩, rfl⟩
    rw [hnone] at hmem
    exact List.not_mem_nil hmem
  · rw [(hinv.slots i).stats, published_collections, (hinv.slots i).paired hi]

end GcScope.Probe
