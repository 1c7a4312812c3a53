import GcScope.Lib.Guarded
import GcScope.RemoteDebugging.ChainWalk

/-!
# The address arithmetic of the chain walk

Every address the walk reads is the sum of a word of the target and an offset of the table. The sums
are unchecked: an unoptimised build panics where one overflows, an optimised build wraps around and
reads elsewhere.

* `PySession.gcStatsPerInterpreterChecked`: the walk whose sums panic.
* `guarded_walkFromM`: a walk with readers that may panic, along the chain it turns to.
* `PySession.guarded_gcStatsPerInterpreter`: when the walk does not panic, and that it is then the walk
  whose sums wrap.
* **`PySession.chainAddresses_iff`**: the walk treats an address too close to the top as unreadable
  exactly where it meets none.
* **`garbage_link_panics`**: a garbage link that ends it.
-/

set_option autoImplicit false

namespace GcScope

/-! ## The readers -/

namespace OffsetTable

variable (t : OffsetTable)

def gcStateAddrChecked (runtimeAddr interpAddr : BitVec 64) : Option (BitVec 64) :=
  if t.hasGlobalGc then checkedAdd runtimeAddr (t.runtimeGc.getD 0)
  else checkedAdd interpAddr (t.interpGc.getD 0)

/-- The sum made for the GC state of an interpreter fits. -/
def GcStateFits (runtimeAddr interpAddr : BitVec 64) : Prop :=
  if t.hasGlobalGc then Fits runtimeAddr (t.runtimeGc.getD 0)
  else Fits interpAddr (t.interpGc.getD 0)

theorem guarded_gcStateAddr (runtimeAddr interpAddr : BitVec 64) :
    Guarded (t.gcStateAddrChecked runtimeAddr interpAddr) (t.GcStateFits runtimeAddr interpAddr)
      (t.gcStateAddr runtimeAddr interpAddr) := by
  unfold gcStateAddrChecked GcStateFits gcStateAddr
  split_ifs <;> exact guarded_checkedAdd _ _

def gcStatsRegionChecked (gcAddr genStatsPtrOff : BitVec 64) : Option GcStatsRegion :=
  match t.gcStatsKind with
  | .none => some .absent
  | .inlineArray => (checkedAdd gcAddr t.gcStatsInlineOff).map .direct
  | .ringBuffer =>
    if genStatsPtrOff = 0 then some .absent else (checkedAdd gcAddr genStatsPtrOff).map .deref

/-- The sum made for the stats region fits, where one is made. -/
def RegionFits (gcAddr genStatsPtrOff : BitVec 64) : Prop :=
  match t.gcStatsKind with
  | .none => True
  | .inlineArray => Fits gcAddr t.gcStatsInlineOff
  | .ringBuffer => genStatsPtrOff ≠ 0 → Fits gcAddr genStatsPtrOff

theorem guarded_gcStatsRegion (gcAddr genStatsPtrOff : BitVec 64) :
    Guarded (t.gcStatsRegionChecked gcAddr genStatsPtrOff) (t.RegionFits gcAddr genStatsPtrOff)
      (t.gcStatsRegion gcAddr genStatsPtrOff) := by
  unfold gcStatsRegionChecked RegionFits gcStatsRegion
  cases t.gcStatsKind with
  | none => exact .pure _
  | inlineArray => exact (guarded_checkedAdd _ _).map _
  | ringBuffer =>
    by_cases h : genStatsPtrOff = 0
    · simp only [h, if_true, ne_eq, not_true_eq_false, false_implies]
      exact .pure _
    · simp only [h, if_false, ne_eq, not_false_eq_true, true_implies]
      exact (guarded_checkedAdd _ _).map _

end OffsetTable

namespace PySession

variable (s : PySession)

/-- Where a ring build publishes the pointer to its stats. -/
def genStatsOff : BitVec 64 := (s.resolved.offsets.map VersionedOffsets.gcGenerationStats).getD 0

def gcStatsRegionAddrChecked (gcAddr : BitVec 64) :
    Option (Except ReadError (Option (BitVec 64))) :=
  (s.resolved.table.gcStatsRegionChecked gcAddr s.genStatsOff).map fun region =>
    resolveStatsRegion region s.readU64

/-- The Records of the region found for an interpreter. -/
def readRegionStats (iid : ℤ) : Except ReadError (Option (BitVec 64)) →
    Except ReadError (Option (List GcStat))
  | .error e => .error e
  | .ok none => .ok none
  | .ok (some addr) =>
    (s.readGcStats { s.resolved.table with gcStatsAddr := some addr } iid).map some

def readInterpreterStatsChecked (interpAddr : BitVec 64) :
    Option (Except ReadError (Option (List GcStat))) := do
  let idAddr ← checkedAdd interpAddr s.resolved.table.interpId
  match s.readI64 idAddr with
  | .error e => some (.error e)
  | .ok iid =>
    if !isInterpreterId iid then some (.ok none)
    else
      let gcAddr ← s.resolved.table.gcStateAddrChecked s.runtimeAddr interpAddr
      (s.gcStatsRegionAddrChecked gcAddr).map (s.readRegionStats iid)

def readNextChecked (addr : BitVec 64) : Option (Except ReadError (BitVec 64)) :=
  (checkedAdd addr s.resolved.table.interpNext).map s.readU64

/-- The walk of an unoptimised build; `none` is a panic. -/
def gcStatsPerInterpreterChecked (headAddr : BitVec 64) (allInterpreters : Bool) :
    Option (Except ReadError (List GcStat)) :=
  walkFromM allInterpreters s.readInterpreterStatsChecked s.readNextChecked headAddr [] true []

/-- The link behind an interpreter, by an addition that wraps. -/
def readNext (addr : BitVec 64) : Except ReadError (BitVec 64) :=
  s.readU64 (addr + s.resolved.table.interpNext)

/-- The sums made for the stats of an interpreter fit. Those for its GC state and its region are made
only where it has an id. -/
def StatsFit (a : BitVec 64) : Prop :=
  Fits a s.resolved.table.interpId ∧
    ∀ iid, s.readI64 (a + s.resolved.table.interpId) = .ok iid → isInterpreterId iid = true →
      s.resolved.table.GcStateFits s.runtimeAddr a ∧
        s.resolved.table.RegionFits (s.resolved.table.gcStateAddr s.runtimeAddr a) s.genStatsOff

/-- The sum made for the link of an interpreter fits. -/
def LinkFits (a : BitVec 64) : Prop := Fits a s.resolved.table.interpNext

theorem guarded_readNext (a : BitVec 64) :
    Guarded (s.readNextChecked a) (s.LinkFits a) (s.readNext a) :=
  (guarded_checkedAdd _ _).map _

theorem guarded_gcStatsRegionAddr (gcAddr : BitVec 64) :
    Guarded (s.gcStatsRegionAddrChecked gcAddr)
      (s.resolved.table.RegionFits gcAddr s.genStatsOff) (s.gcStatsRegionAddr gcAddr) :=
  (s.resolved.table.guarded_gcStatsRegion gcAddr s.genStatsOff).map _

theorem readInterpreterStats_eq {a : BitVec 64} {iid : ℤ}
    (hid : s.readI64 (a + s.resolved.table.interpId) = .ok iid) (h : isInterpreterId iid = true) :
    s.readInterpreterStats a = s.readRegionStats iid
      (s.gcStatsRegionAddr (s.resolved.table.gcStateAddr s.runtimeAddr a)) := by
  simp only [readInterpreterStats, hid, bind, Except.bind, h, Bool.not_true, Bool.false_eq_true,
    if_false]
  cases s.gcStatsRegionAddr (s.resolved.table.gcStateAddr s.runtimeAddr a) with
  | error e => rfl
  | ok addr =>
    cases addr with
    | none => rfl
    | some addr =>
      simp only [readRegionStats]
      cases s.readGcStats { s.resolved.table with gcStatsAddr := some addr } iid <;> rfl

/-- **The reader of an interpreter's stats panics exactly where a sum it makes overflows.** -/
theorem guarded_readInterpreterStats (a : BitVec 64) :
    Guarded (s.readInterpreterStatsChecked a) (s.StatsFit a) (s.readInterpreterStats a) := by
  refine (guarded_checkedAdd a s.resolved.table.interpId).bind ?_
  cases hid : s.readI64 (a + s.resolved.table.interpId) with
  | error e =>
    have hval : s.readInterpreterStats a = .error e := by
      simp only [readInterpreterStats, hid, bind, Except.bind]
    rw [hval]
    exact (Guarded.pure _).congr (by simp)
  | ok iid =>
    by_cases h : isInterpreterId iid = true
    · rw [s.readInterpreterStats_eq hid h]
      simp only [h, Bool.not_true, Bool.false_eq_true, if_false]
      have hstate := s.resolved.table.guarded_gcStateAddr s.runtimeAddr a
      have hregion := (s.guarded_gcStatsRegionAddr
        (s.resolved.table.gcStateAddr s.runtimeAddr a)).map (s.readRegionStats iid)
      refine (hstate.bind hregion).congr ?_
      simp [h]
    · have hval : s.readInterpreterStats a = .ok none := by
        simp only [readInterpreterStats, hid, bind, Except.bind, h]
        rfl
      rw [hval]
      simp only [h]
      exact (Guarded.pure _).congr (by simp [h])

end PySession

/-! ## The walk -/

section Walk

variable {ε : Type} {readStats : BitVec 64 → Option (Except ε (Option (List GcStat)))}
  {readNext : BitVec 64 → Option (Except ε (BitVec 64))} {P Q : BitVec 64 → Prop}
  {rs : BitVec 64 → Except ε (Option (List GcStat))} {rn : BitVec 64 → Except ε (BitVec 64)}
  (hs : ∀ a, Guarded (readStats a) (P a) (rs a)) (hn : ∀ a, Guarded (readNext a) (Q a) (rn a))

include hs hn

/-- Past the head both readers are used at every address of the chain. -/
theorem guarded_walkFromM_past_head (allInterpreters : Bool) (current : BitVec 64)
    (visited : List (BitVec 64)) (stats : List GcStat) :
    Guarded (walkFromM allInterpreters readStats readNext current visited false stats)
      (∀ a ∈ chainFrom rn current visited, P a ∧ Q a)
      (walkFrom allInterpreters rs rn current visited false stats) := by
  induction current, visited using chainFrom.induct generalizing stats with
  | case1 visited =>
    rw [walkFromM, walkFrom, if_pos rfl, if_pos rfl, chainFrom_of_stop (Or.inl rfl)]
    exact (Guarded.pure _).congr (by simp)
  | case2 current visited h₀ hv =>
    rw [walkFromM, walkFrom, if_neg h₀, if_neg h₀, if_pos hv, if_pos hv,
      chainFrom_of_stop (Or.inr hv)]
    exact (Guarded.pure _).congr (by simp)
  | case3 current visited h₀ hv ih =>
    rw [walkFromM, walkFrom, if_neg h₀, if_neg h₀, if_neg hv, if_neg hv,
      visitInterpreter_past_head]
    simp only [Bool.false_and, Bool.false_eq_true, if_false]
    cases hnext : rn current with
    | error e =>
      refine Guarded.congr ((hs current).bind (?_ : Guarded _ (Q current) _)) ?_
      · rw [visitInterpreter_past_head]
        refine Guarded.congr ((hn current).bind (?_ : Guarded _ True _)) (and_iff_left trivial)
        rw [hnext]
        exact Guarded.pure _
      · rw [chainFrom_of_error h₀ hv hnext]
        simp
    | ok next =>
      refine Guarded.congr ((hs current).bind (?_ : Guarded _
        (Q current ∧ ∀ a ∈ chainFrom rn next (current :: visited), P a ∧ Q a) _)) ?_
      · rw [visitInterpreter_past_head]
        refine (hn current).bind ?_
        rw [hnext]
        exact ih next _
      · rw [chainFrom_of_next h₀ hv hnext, List.forall_mem_cons, and_assoc]

/-- The sums made along the walk: those for the stats of the head and, where all interpreters are asked
for and the head can be read, all of them along the chain. -/
def HoldAlong (rs : BitVec 64 → Except ε (Option (List GcStat)))
    (rn : BitVec 64 → Except ε (BitVec 64)) (P Q : BitVec 64 → Prop) (head : BitVec 64)
    (allInterpreters : Bool) : Prop :=
  head ≠ 0 → P head ∧ (allInterpreters = true → (∃ read, rs head = .ok read) →
    ∀ a ∈ chainFrom rn head [], P a ∧ Q a)

omit hs hn in
theorem holdAlong_of_ne {head : BitVec 64} (h₀ : head ≠ 0) {allInterpreters : Bool} :
    HoldAlong rs rn P Q head allInterpreters ↔
      P head ∧ (allInterpreters = true → (∃ read, rs head = .ok read) →
        ∀ a ∈ chainFrom rn head [], P a ∧ Q a) :=
  ⟨fun h => h h₀, fun h _ => h⟩

/-- **A walk with readers that may panic** is the walk without where the checks hold along it. -/
theorem guarded_walkFromM (head : BitVec 64) (allInterpreters : Bool) :
    Guarded (walkFromM allInterpreters readStats readNext head [] true [])
      (HoldAlong rs rn P Q head allInterpreters)
      (walkInterpreterChain head allInterpreters rs rn) := by
  rw [walkInterpreterChain, walkFromM, walkFrom]
  by_cases h₀ : head = 0
  · rw [if_pos h₀, if_pos h₀]
    exact (Guarded.pure _).congr ⟨fun _ h => absurd h₀ h, fun _ => trivial⟩
  rw [holdAlong_of_ne h₀]
  rw [if_neg h₀, if_neg h₀, if_neg List.not_mem_nil, if_neg List.not_mem_nil]
  cases hread : rs head with
  | error e =>
    refine Guarded.congr ((hs head).bind (?_ : Guarded _ True _)) ?_
    · rw [hread]
      exact Guarded.pure _
    · simp
  | ok read =>
    rw [← hread, visitInterpreter_head hread]
    cases allInterpreters with
    | false =>
      refine Guarded.congr ((hs head).bind (?_ : Guarded _ True _)) ?_
      · rw [visitInterpreter_head hread]
        exact Guarded.pure _
      · simp
    | true =>
      simp only [Bool.not_true, Bool.and_false, Bool.false_eq_true, if_false, if_true]
      cases hnext : rn head with
      | error e =>
        refine Guarded.congr ((hs head).bind (?_ : Guarded _ (Q head) _)) ?_
        · rw [visitInterpreter_head hread]
          refine Guarded.congr ((hn head).bind (?_ : Guarded _ True _)) (and_iff_left trivial)
          rw [hnext]
          exact Guarded.pure _
        · simp [hread, chainFrom_of_error h₀ List.not_mem_nil hnext]
      | ok next =>
        refine Guarded.congr ((hs head).bind (?_ : Guarded _
          (Q head ∧ ∀ a ∈ chainFrom rn next [head], P a ∧ Q a) _)) ?_
        · rw [visitInterpreter_head hread]
          refine (hn head).bind ?_
          rw [hnext]
          exact guarded_walkFromM_past_head hs hn true next [head] _
        · rw [chainFrom_of_next h₀ List.not_mem_nil hnext, List.forall_mem_cons, hread]
          simp [and_assoc]

end Walk

namespace PySession

variable (s : PySession)

/-- No sum made along the walk overflows. -/
def AddressesFit (headAddr : BitVec 64) (allInterpreters : Bool) : Prop :=
  HoldAlong s.readInterpreterStats s.readNext s.StatsFit s.LinkFits headAddr allInterpreters

/-- **Where no sum overflows, the walk is the one whose sums wrap**; elsewhere it panics. -/
theorem guarded_gcStatsPerInterpreter (headAddr : BitVec 64) (allInterpreters : Bool) :
    Guarded (s.gcStatsPerInterpreterChecked headAddr allInterpreters)
      (s.AddressesFit headAddr allInterpreters)
      (s.gcStatsPerInterpreter headAddr allInterpreters) :=
  guarded_walkFromM s.guarded_readInterpreterStats s.guarded_readNext headAddr allInterpreters

/-- The walk that takes an address too close to the top for one that cannot be read. -/
def gcStatsTopUnreadable (headAddr : BitVec 64) (allInterpreters : Bool) :
    Except ReadError (List GcStat) :=
  walkInterpreterChain headAddr allInterpreters
    (fun a => (s.readInterpreterStatsChecked a).getD (.error (.memory a 8)))
    fun a => (s.readNextChecked a).getD (.error (.memory a 8))

/-- A walk that does not panic returns what it would with such addresses unreadable. -/
theorem eq_gcStatsTopUnreadable {headAddr : BitVec 64} {allInterpreters : Bool}
    {r : Except ReadError (List GcStat)}
    (h : s.gcStatsPerInterpreterChecked headAddr allInterpreters = some r) :
    r = s.gcStatsTopUnreadable headAddr allInterpreters :=
  ((guarded_walkFromM (fun a => Guarded.self (s.readInterpreterStatsChecked a) (.error (.memory a 8)))
    (fun a => Guarded.self (s.readNextChecked a) (.error (.memory a 8))) headAddr allInterpreters
    r).mp h).2

/-- **The walk makes no overflowing sum, and treats an address too close to the top as unreadable,
exactly where the sums it makes fit.** -/
theorem chainAddresses_iff (headAddr : BitVec 64) (allInterpreters : Bool) :
    s.gcStatsPerInterpreterChecked headAddr allInterpreters =
        some (s.gcStatsTopUnreadable headAddr allInterpreters) ↔
      s.AddressesFit headAddr allInterpreters := by
  constructor
  · exact fun h => ((s.guarded_gcStatsPerInterpreter headAddr allInterpreters _).mp h).1
  · intro h
    have hrun := (s.guarded_gcStatsPerInterpreter headAddr allInterpreters).of_holds h
    rw [hrun, s.eq_gcStatsTopUnreadable hrun]

end PySession

/-! ## A garbage link -/

/-- An interpreter at `0x1000` whose link has been overwritten. -/
def garbageLink : PySession where
  memory := .padded fun addr => if addr = 0x1008 then LittleEndian.wordBytes 0xFFFFFFFFFFFFFFF8 else []
  runtimeAddr := 0x500
  resolved := .legacy
    { OffsetTable.blank.setInline 24 ⟨24, [("collections", 0), ("collected", 8)]⟩ 0x80 with
      interpNext := 0x8
      interpId := 0x10
      interpGc := some 0x20 }
  storedHex := none
  exeKey := none
  cmdline := none

theorem readNext_garbageLink : garbageLink.readNext 0x1000 = .ok 0xFFFFFFFFFFFFFFF8 := by decide

/-- **A garbage link ends the walk in a panic**, and the Records of the head go with it. -/
theorem garbage_link_panics :
    garbageLink.gcStatsPerInterpreterChecked 0x1000 true ≠
      some (garbageLink.gcStatsTopUnreadable 0x1000 true) := by
  intro h
  obtain ⟨hfit, -⟩ := (garbageLink.guarded_gcStatsPerInterpreter 0x1000 true _).mp h
  have hread : ∃ read, garbageLink.readInterpreterStats 0x1000 = .ok read := ⟨_, rfl⟩
  have hmem : (0xFFFFFFFFFFFFFFF8 : BitVec 64) ∈ chainFrom garbageLink.readNext 0x1000 [] := by
    rw [chainFrom_of_next (by decide) List.not_mem_nil readNext_garbageLink]
    refine List.mem_cons_of_mem _ ?_
    rw [chainFrom, if_neg (by decide), if_neg (by decide)]
    exact List.mem_cons_self
  have hid := ((hfit (by decide)).2 rfl hread _ hmem).1.1
  exact absurd hid (by decide)

end GcScope
