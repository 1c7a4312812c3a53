import GcScope.RemoteDebugging.RuntimeSearch

/-!
# The runtime before 3.13

Before 3.13 the runtime has no cookie. The search resolves its symbol in each module and trusts the
address when, among the words found there, the first that passes for an interpreter is the one at the
head of the chain: its first thread has to point back at it.

* `tableForVersion`: the offsets of the versions.
* `Legacy.checkRuntime`, `Legacy.findRuntimePre313`: the search.
* **`checkRuntime_iff`**: the addresses that are trusted.
* **`legacy_search_exact`**: which module answers, and what a search that fails tells.
* **`legacy_used_where_found`**: an attached address is used in the process it was found in.
-/

set_option autoImplicit false

namespace GcScope

open LittleEndian

/-! ## The tables -/

/-- An offset table with the offsets of the chain from an interpreter to its first thread and back. -/
structure LegacyTable extends OffsetTable where
  interpThreadsHead : BitVec 64
  threadInterp : BitVec 64
  /-- They lie within a page of their structs, as the head of the chain does. -/
  small : runtimeInterpretersHead.toNat < 4096 ∧ interpThreadsHead.toNat < 4096 ∧
    threadInterp.toNat < 4096

def legacyGcLayout : GcItemLayout where
  itemSize := 24
  fields := [("collections", 0), ("collected", 8), ("uncollectable", 16)]

/-- A table, with all that the versions have in common. -/
def legacyTable (versionHex runtimeIh interpNext interpId interpTsHead : BitVec 64)
    (interpGc : Option (BitVec 64)) (threadInterp : BitVec 64) (runtimeGc : Option (BitVec 64))
    (small : runtimeIh.toNat < 4096 ∧ interpTsHead.toNat < 4096 ∧ threadInterp.toNat < 4096) :
    LegacyTable where
  versionHex
  runtimeInterpretersHead := runtimeIh
  runtimeGc
  interpNext
  interpId
  interpGc
  gcStatsKind := .inlineArray
  gcLayout := some legacyGcLayout
  gcStatsAddr := none
  gcItemSize := some 24
  gcEntriesPerGen := some ![1, 1, 1]
  gcGenBaseOffsets := some ![0, 24, 48]
  gcStatsInlineOff := 0x80
  gcStatsAddrIsPerInterp := true
  interpThreadsHead := interpTsHead
  threadInterp
  small

/-- 3.8 has one GC state, in the runtime. -/
def v38 (versionHex : BitVec 64) : LegacyTable :=
  legacyTable versionHex 0x20 0 0x10 0x08 none 0x10 (some 0x158) (by decide)

def v39 (versionHex : BitVec 64) : LegacyTable :=
  legacyTable versionHex 0x20 0 0x18 0x08 (some 0x268) 0x10 none (by decide)

def v310 (versionHex : BitVec 64) : LegacyTable := v39 versionHex

def v311 (versionHex : BitVec 64) : LegacyTable :=
  legacyTable versionHex 0x28 0 0x30 0x10 (some 0x288) 0x10 none (by decide)

def v312 (versionHex : BitVec 64) : LegacyTable :=
  legacyTable versionHex 0x28 0 0x08 0x48 (some 0x70) 0x10 none (by decide)

/-- The table of a version, for 3.8 to 3.12. -/
def tableForVersion (major minor : BitVec 8) : Option LegacyTable :=
  let versionHex := major.setWidth 64 <<< 24 ||| minor.setWidth 64 <<< 16
  if major ≠ 3 then none
  else if minor = 8 then some (v38 versionHex)
  else if minor = 9 then some (v39 versionHex)
  else if minor = 10 then some (v310 versionHex)
  else if minor = 11 then some (v311 versionHex)
  else if minor = 12 then some (v312 versionHex)
  else none

/-! ## The search -/

/-- A mapped region of a process. The last page of the address space is never mapped. -/
structure MapRange where
  start : ℕ
  size : ℕ
  below_top : start + size + 4096 ≤ 2 ^ 64

def mapsContains (maps : List MapRange) (addr : BitVec 64) : Bool :=
  maps.any fun m => decide (m.start ≤ addr.toNat) && decide (addr.toNat < m.start + m.size)

/-- Why a module was turned down. -/
inductive Rejection where
  | unreadable (path cause : String)
  | noSymbol (path : String)
  | crossReference (path : String) (addr base scanSize : BitVec 64) (table : LegacyTable)

def Rejection.message : Rejection → String
  | unreadable path cause => path ++ ": unreadable on disk (" ++ cause ++ ")"
  | noSymbol path => path ++ ": no _PyRuntime symbol"
  | crossReference path addr base scanSize table =>
    path ++ ": _PyRuntime at " ++ hexDigits 16 addr.toNat ++ " (module base " ++
      hexDigits 16 base.toNat ++ ") failed the " ++
      "interpreters_head->threads_head->interp cross-reference (scanned " ++
      toString scanSize.toNat ++ " bytes; offsets ih=" ++
      toString table.runtimeInterpretersHead.toNat ++ " th=" ++
      toString table.interpThreadsHead.toNat ++ " ti=" ++ toString table.threadInterp.toNat ++ ")"

inductive LegacyError where
  | modules (text : String)
  | noModules (pid : Pid)
  | notFound (pid : Pid) (tried : List Rejection)

def LegacyError.message : LegacyError → String
  | modules text => text
  | noModules pid => "No python-related modules found in process " ++ toString pid
  | notFound pid tried =>
    "Could not find a valid pre-3.13 _PyRuntime in process " ++ toString pid ++ ".\nTried:\n  " ++
      "\n  ".intercalate (tried.map Rejection.message)

/-- The machine as this search meets it: its files, its processes and their mapped regions, and what is
told of a file that cannot be read. -/
structure Legacy where
  disk : Disk
  machine : Machine
  maps : Pid → Option (List MapRange)
  ioError : String → String

namespace Legacy

variable (l : Legacy) (pid : Pid) (t : LegacyTable)

def readU64 (addr : BitVec 64) : Option (BitVec 64) :=
  (l.machine.readMemory pid addr 8).bind fun bytes => readWord bytes 0

/-- The first of the words that passes for an interpreter. -/
def checkInterpreterAddresses (maps : List MapRange) :
    List (BitVec 64) → Option (Option (BitVec 64))
  | [] => some none
  | candidate :: rest =>
    if ¬mapsContains maps candidate then checkInterpreterAddresses maps rest
    else do
      let threadAt ← checkedAdd candidate t.interpThreadsHead
      match l.readU64 pid threadAt with
      | none => checkInterpreterAddresses maps rest
      | some tstate =>
        if tstate = 0 ∨ ¬mapsContains maps tstate then checkInterpreterAddresses maps rest
        else do
          let interpAt ← checkedAdd tstate t.threadInterp
          match l.readU64 pid interpAt with
          | none => checkInterpreterAddresses maps rest
          | some interp =>
            if interp = candidate then some (some candidate)
            else checkInterpreterAddresses maps rest

/-- Bytes as whole words. -/
def wordsOf (bytes : List UInt8) : List (BitVec 64) :=
  (List.range (bytes.length / 8)).map fun i => (readWord bytes (8 * i)).getD 0

/-- Whether the words at an address lead to the interpreter at the head of the chain. -/
def checkRuntime (runtimeAddr scanSize : BitVec 64) : Option Bool := do
  let headAt ← checkedAdd runtimeAddr t.runtimeInterpretersHead
  match l.readU64 pid headAt with
  | none => some false
  | some expected =>
    match l.machine.readMemory pid runtimeAddr scanSize.toNat with
    | none => some false
    | some bytes =>
      match l.maps pid with
      | none => some false
      | some maps => do
        let found ← l.checkInterpreterAddresses pid t maps (wordsOf bytes)
        return found == some expected

/-- What the search does at a module: it answers, or turns the module down. -/
def visit (m : String × BitVec 64) : Option (Except Rejection (BitVec 64 × String)) :=
  -- within a page, so the sum does not overflow
  let scanSize := t.runtimeInterpretersHead + 64
  match l.disk.file m.1 with
  | none => some (.error (.unreadable m.1 (l.ioError m.1)))
  | some bytes => do
    match ← l.disk.goblin.resolveSymbolInBytes bytes m.2 "_PyRuntime" with
    | none => some (.error (.noSymbol m.1))
    | some addr =>
      if ← l.checkRuntime pid t addr scanSize then return .ok (addr, m.1)
      else return .error (.crossReference m.1 addr m.2 scanSize t)

def tryModules : List Rejection → List (String × BitVec 64) →
    Option (Except LegacyError (BitVec 64 × String))
  | tried, [] => some (.error (.notFound pid tried))
  | tried, m :: rest => do
    match ← l.visit pid t m with
    | .ok found => return .ok found
    | .error rejection => tryModules (tried ++ [rejection]) rest

/-- The runtime of a process by its symbol. -/
def findRuntimePre313 : Option (Except LegacyError (BitVec 64 × String)) :=
  match l.machine.modules pid with
  | .error text => some (.error (.modules text))
  | .ok [] => some (.error (.noModules pid))
  | .ok modules => l.tryModules pid t [] modules

/-! ## What is trusted -/

/-- A word passes for an interpreter: it is mapped, and has a first thread that is mapped and points back
at it. -/
structure SelfConsistent (maps : List MapRange) (interp : BitVec 64) : Prop where
  mapped : mapsContains maps interp = true
  thread : ∃ tstate, l.readU64 pid (interp + t.interpThreadsHead) = some tstate ∧ tstate ≠ 0 ∧
    mapsContains maps tstate = true ∧ l.readU64 pid (tstate + t.threadInterp) = some interp

variable {l pid t} {maps : List MapRange} {addr : BitVec 64}

theorem checkedAdd_of_mapped (h : mapsContains maps addr = true) {off : BitVec 64}
    (hoff : off.toNat < 4096) : checkedAdd addr off = some (addr + off) := by
  obtain ⟨m, -, hm⟩ := List.any_eq_true.mp h
  rw [Bool.and_eq_true, decide_eq_true_eq, decide_eq_true_eq] at hm
  have := m.below_top
  exact (guarded_checkedAdd addr off).of_holds (by unfold Fits; omega)

theorem checkInterpreterAddresses_cons (c : BitVec 64) (rest : List (BitVec 64)) :
    (l.SelfConsistent pid t maps c →
      l.checkInterpreterAddresses pid t maps (c :: rest) = some (some c)) ∧
    (¬l.SelfConsistent pid t maps c → l.checkInterpreterAddresses pid t maps (c :: rest) =
      l.checkInterpreterAddresses pid t maps rest) := by
  rw [checkInterpreterAddresses]
  by_cases hc : mapsContains maps c = true
  · rw [if_neg (not_not.mpr hc), checkedAdd_of_mapped hc t.small.2.1, Option.bind_eq_bind,
      Option.bind_some]
    cases hts : l.readU64 pid (c + t.interpThreadsHead) with
    | none =>
      refine ⟨fun h => ?_, fun _ => rfl⟩
      obtain ⟨tstate, hread, -⟩ := h.thread
      cases hts.symm.trans hread
    | some tstate =>
      have hthread : ∀ h : l.SelfConsistent pid t maps c, tstate ≠ 0 ∧
          mapsContains maps tstate = true ∧ l.readU64 pid (tstate + t.threadInterp) = some c := by
        intro h
        obtain ⟨tstate', hread, hrest⟩ := h.thread
        obtain rfl := Option.some.inj (hts.symm.trans hread)
        exact hrest
      dsimp only
      split_ifs with hbad
      · refine ⟨fun h => ?_, fun _ => rfl⟩
        obtain ⟨hne, hmapped, -⟩ := hthread h
        exact absurd hbad (not_or.mpr ⟨hne, not_not.mpr hmapped⟩)
      · rw [not_or, not_not] at hbad
        rw [checkedAdd_of_mapped hbad.2 t.small.2.2, Option.bind_some]
        cases hback : l.readU64 pid (tstate + t.threadInterp) with
        | none => exact ⟨fun h => (nomatch hback.symm.trans (hthread h).2.2), fun _ => rfl⟩
        | some interp =>
          dsimp only
          split_ifs with heq
          · subst heq
            exact ⟨fun _ => rfl, fun h => (h ⟨hc, tstate, hts, hbad.1, hbad.2, hback⟩).elim⟩
          · exact ⟨fun h => absurd (Option.some.inj (hback.symm.trans (hthread h).2.2)) heq,
              fun _ => rfl⟩
  · rw [if_pos hc]
    exact ⟨fun h => absurd h.mapped hc, fun _ => rfl⟩

open Classical in
/-- **The scan answers with the first word that passes**, and no sum of it overflows. -/
theorem checkInterpreterAddresses_eq (words : List (BitVec 64)) :
    l.checkInterpreterAddresses pid t maps words =
      some (words.find? fun c => decide (l.SelfConsistent pid t maps c)) := by
  induction words with
  | nil => rfl
  | cons c rest ih =>
    obtain ⟨hpass, hskip⟩ := checkInterpreterAddresses_cons (l := l) c rest
    by_cases hc : l.SelfConsistent pid t maps c
    · rw [hpass hc, List.find?_cons, decide_eq_true hc]
    · rw [hskip hc, ih, List.find?_cons, decide_eq_false hc]

variable (l pid t) in
/-- An address the search trusts: the head of the chain is read, it is among the words found at the
address, it passes for an interpreter, and none of the words before it does. -/
def Trusted (runtimeAddr scanSize : BitVec 64) : Prop :=
  ∃ interp bytes maps pre post,
    l.readU64 pid (runtimeAddr + t.runtimeInterpretersHead) = some interp ∧
      l.machine.readMemory pid runtimeAddr scanSize.toNat = some bytes ∧ l.maps pid = some maps ∧
      wordsOf bytes = pre ++ interp :: post ∧ l.SelfConsistent pid t maps interp ∧
      ∀ c ∈ pre, ¬l.SelfConsistent pid t maps c

variable (l pid t) in
/-- **Which addresses are trusted.** The check panics exactly where the address of the head overflows. -/
theorem checkRuntime_iff (runtimeAddr scanSize : BitVec 64) :
    (l.checkRuntime pid t runtimeAddr scanSize = some true ↔
      Fits runtimeAddr t.runtimeInterpretersHead ∧ l.Trusted pid t runtimeAddr scanSize) ∧
    (l.checkRuntime pid t runtimeAddr scanSize = none ↔
      ¬Fits runtimeAddr t.runtimeInterpretersHead) := by
  have hhead := guarded_checkedAdd runtimeAddr t.runtimeInterpretersHead
  unfold checkRuntime Trusted
  by_cases hfits : Fits runtimeAddr t.runtimeInterpretersHead
  · rw [hhead.of_holds hfits, Option.bind_eq_bind, Option.bind_some]
    cases l.readU64 pid (runtimeAddr + t.runtimeInterpretersHead) with
    | none => simp [hfits]
    | some interp =>
      cases l.machine.readMemory pid runtimeAddr scanSize.toNat with
      | none => simp [hfits]
      | some bytes =>
        cases l.maps pid with
        | none => simp [hfits]
        | some maps =>
          dsimp only
          rw [checkInterpreterAddresses_eq, Option.bind_eq_bind, Option.bind_some]
          simp only [Option.pure_def, Option.some.injEq, beq_iff_eq, reduceCtorEq, hfits, true_and,
            not_true_eq_false, and_true, List.find?_eq_some_iff_append, decide_eq_true_eq]
          constructor
          · rintro ⟨hpass, pre, post, hwords, hpre⟩
            exact ⟨interp, bytes, maps, pre, post, rfl, rfl, rfl, hwords, hpass,
              fun c hc => by simpa using hpre c hc⟩
          · rintro ⟨_, _, _, pre, post, rfl, rfl, rfl, hwords, hpass, hpre⟩
            exact ⟨hpass, pre, post, hwords, fun c hc => by simpa using hpre c hc⟩
  · rw [hhead.eq_none hfits]
    exact ⟨iff_of_false (fun h => nomatch h) fun h => hfits h.1, iff_of_true rfl hfits⟩

/-! ## The modules -/

variable {m : String × BitVec 64} {modules : List (String × BitVec 64)}

variable (l pid t) in
/-- A module has the symbol, at a trusted address. -/
def Answers (m : String × BitVec 64) (found : BitVec 64 × String) : Prop :=
  found.2 = m.1 ∧ (∃ bytes, l.disk.file m.1 = some bytes ∧
    l.disk.goblin.resolveSymbolInBytes bytes m.2 "_PyRuntime" = some (some found.1)) ∧
      Fits found.1 t.runtimeInterpretersHead ∧
        l.Trusted pid t found.1 (t.runtimeInterpretersHead + 64)

variable (l pid t) in
/-- Why a module is turned down: its file, its symbol or the address of it. -/
inductive TurnedDown (m : String × BitVec 64) : Rejection → Prop
  | unreadable (file : l.disk.file m.1 = none) :
      TurnedDown m (.unreadable m.1 (l.ioError m.1))
  | noSymbol {bytes : List UInt8} (file : l.disk.file m.1 = some bytes)
      (symbol : l.disk.goblin.resolveSymbolInBytes bytes m.2 "_PyRuntime" = some none) :
      TurnedDown m (.noSymbol m.1)
  | crossReference {bytes : List UInt8} {addr : BitVec 64} (file : l.disk.file m.1 = some bytes)
      (symbol : l.disk.goblin.resolveSymbolInBytes bytes m.2 "_PyRuntime" = some (some addr))
      (fits : Fits addr t.runtimeInterpretersHead)
      (untrusted : ¬l.Trusted pid t addr (t.runtimeInterpretersHead + 64)) :
      TurnedDown m (.crossReference m.1 addr m.2 (t.runtimeInterpretersHead + 64) t)

theorem checkRuntime_of_not_trusted {runtimeAddr scanSize : BitVec 64}
    (hfits : Fits runtimeAddr t.runtimeInterpretersHead)
    (h : ¬l.Trusted pid t runtimeAddr scanSize) :
    l.checkRuntime pid t runtimeAddr scanSize = some false := by
  obtain ⟨htrue, hnone⟩ := checkRuntime_iff l pid t runtimeAddr scanSize
  rcases hc : l.checkRuntime pid t runtimeAddr scanSize with _ | _ | _
  · exact absurd hfits (hnone.mp hc)
  · rfl
  · exact absurd (htrue.mp hc).2 h

theorem TurnedDown.visit {r : Rejection} (h : l.TurnedDown pid t m r) :
    l.visit pid t m = some (.error r) := by
  unfold Legacy.visit
  cases h with
  | unreadable file => rw [file]
  | noSymbol file symbol => simp only [file, symbol, Option.bind_eq_bind, Option.bind_some]
  | crossReference file symbol fits untrusted =>
    simp only [file, symbol, checkRuntime_of_not_trusted fits untrusted, Option.bind_eq_bind,
      Option.bind_some]
    rfl

theorem Answers.visit {found : BitVec 64 × String} (h : l.Answers pid t m found) :
    l.visit pid t m = some (.ok found) := by
  obtain ⟨addr, path⟩ := found
  obtain ⟨rfl, ⟨bytes, file, symbol⟩, htrusted⟩ := h
  unfold Legacy.visit
  simp only [file, symbol, (checkRuntime_iff _ _ _ _ _).1.mpr htrusted, Option.bind_eq_bind,
    Option.bind_some]
  rfl

variable (l pid t) in
theorem visit_cases (m : String × BitVec 64) : l.visit pid t m = none ∨
    (∃ found, l.Answers pid t m found) ∨ ∃ r, l.TurnedDown pid t m r := by
  cases hfile : l.disk.file m.1 with
  | none => exact Or.inr (Or.inr ⟨_, .unreadable hfile⟩)
  | some bytes =>
    rcases hsymbol : l.disk.goblin.resolveSymbolInBytes bytes m.2 "_PyRuntime" with _ | _ | addr
    · exact Or.inl (by simp [Legacy.visit, hfile, hsymbol])
    · exact Or.inr (Or.inr ⟨_, .noSymbol hfile hsymbol⟩)
    · by_cases hfits : Fits addr t.runtimeInterpretersHead
      · by_cases htrusted : l.Trusted pid t addr (t.runtimeInterpretersHead + 64)
        · exact Or.inr (Or.inl ⟨(addr, m.1), rfl, ⟨bytes, hfile, hsymbol⟩, hfits, htrusted⟩)
        · exact Or.inr (Or.inr ⟨_, .crossReference hfile hsymbol hfits htrusted⟩)
      · have hpanic := (checkRuntime_iff l pid t addr
          (t.runtimeInterpretersHead + 64)).2.mpr hfits
        exact Or.inl (by simp only [Legacy.visit, hfile, hsymbol, hpanic, Option.bind_eq_bind,
          Option.bind_some, Option.bind_none])

/-- **What the search does at a module.** -/
theorem visit_iff : (∀ found, l.visit pid t m = some (.ok found) ↔ l.Answers pid t m found) ∧
    ∀ r, l.visit pid t m = some (.error r) ↔ l.TurnedDown pid t m r := by
  refine ⟨fun found => ⟨fun h => ?_, Answers.visit⟩, fun r => ⟨fun h => ?_, TurnedDown.visit⟩⟩
  · rcases visit_cases l pid t m with hnone | ⟨found', h'⟩ | ⟨r, hr⟩
    · cases hnone.symm.trans h
    · obtain rfl := Except.ok.inj (Option.some.inj (h'.visit.symm.trans h))
      exact h'
    · cases hr.visit.symm.trans h
  · rcases visit_cases l pid t m with hnone | ⟨found, h'⟩ | ⟨r', hr⟩
    · cases hnone.symm.trans h
    · cases h'.visit.symm.trans h
    · obtain rfl := Except.error.inj (Option.some.inj (hr.visit.symm.trans h))
      exact hr

/-- The modules are gone through until one answers, and each one turned down is kept. -/
theorem tryModules_iff (tried : List Rejection) :
    (∀ found, l.tryModules pid t tried modules = some (.ok found) ↔
      ∃ pre m post, modules = pre ++ m :: post ∧ l.Answers pid t m found ∧
        ∀ m' ∈ pre, ∃ r, l.TurnedDown pid t m' r) ∧
    ∀ e, l.tryModules pid t tried modules = some (.error e) ↔
      ∃ rs, e = .notFound pid (tried ++ rs) ∧ List.Forall₂ (l.TurnedDown pid t) modules rs := by
  have hturned : l.TurnedDown pid t = fun m r => l.visit pid t m = some (.error r) := by
    funext m r
    exact propext (visit_iff.2 r).symm
  simp only [← visit_iff.1]
  rw [hturned]
  induction modules generalizing tried with
  | nil =>
    refine ⟨fun found => by simp [tryModules], fun e => ?_⟩
    simp [tryModules, eq_comm]
  | cons m rest ih =>
    rw [tryModules]
    simp only [ListFacts.exists_first_cons_iff, List.forall₂_cons_left_iff]
    rcases hm : l.visit pid t m with _ | ⟨r | found⟩
    · simp
    · obtain ⟨hok, herror⟩ := ih (tried ++ [r])
      constructor
      · intro found
        simpa using hok found
      · intro e
        refine (herror e).trans ⟨?_, ?_⟩
        · rintro ⟨rs, rfl, hrs⟩
          exact ⟨r :: rs, by rw [List.append_assoc]; rfl, r, rs, rfl, hrs, rfl⟩
        · rintro ⟨_, rfl, r', rs, hr', hrs, rfl⟩
          obtain rfl : r = r' := by simpa using hr'
          exact ⟨rs, by rw [List.append_assoc]; rfl, hrs⟩
    · exact ⟨fun found' => by simp, fun e => by simp⟩

/-- **The search answers with the first module whose symbol leads to the interpreter chain**, and tells of
every module why it was turned down when there is none. -/
theorem legacy_search_exact (hmodules : l.machine.modules pid = .ok modules) (hne : modules ≠ []) :
    (∀ found, l.findRuntimePre313 pid t = some (.ok found) ↔
      ∃ pre m post, modules = pre ++ m :: post ∧ l.Answers pid t m found ∧
        ∀ m' ∈ pre, ∃ r, l.TurnedDown pid t m' r) ∧
    ∀ e, l.findRuntimePre313 pid t = some (.error e) ↔
      ∃ tried, e = .notFound pid tried ∧ List.Forall₂ (l.TurnedDown pid t) modules tried := by
  have hsearch : l.findRuntimePre313 pid t = l.tryModules pid t [] modules := by
    rw [findRuntimePre313, hmodules]
    cases modules with
    | nil => exact absurd rfl hne
    | cons m rest => rfl
  rw [hsearch]
  exact tryModules_iff []

/-! ## Where an address is used -/

variable {version : PythonVersion}

variable (l pid version t) in
/-- The machine has a process of a version with a table, and finds its runtime by the search. -/
structure Behind : Prop where
  detected : l.machine.version pid = .ok version
  table : tableForVersion version.major version.minor = some t
  layout : l.machine.legacyTable version = some t.toOffsetTable
  search : (l.findRuntimePre313 pid t).map (Except.mapError LegacyError.message) =
    some (l.machine.legacyRuntime pid)

theorem tableForVersion_some {major minor : BitVec 8} (h : tableForVersion major minor = some t) :
    major = 3 ∧ minor < 13 := by
  unfold tableForVersion at h
  split_ifs at h with h3 h8 h9 h10 h11 h12 <;>
    first
      | exact absurd h (Option.some_ne_none _).symm
      | exact ⟨not_not.mp h3, by subst_vars; decide⟩

theorem findRuntimePre313_ok {found : BitVec 64 × String}
    (h : l.findRuntimePre313 pid t = some (.ok found)) :
    ∃ modules, l.machine.modules pid = .ok modules ∧ ∃ m ∈ modules, l.Answers pid t m found := by
  rw [findRuntimePre313] at h
  cases hmodules : l.machine.modules pid with
  | error text =>
    rw [hmodules] at h
    cases h
  | ok modules =>
    rw [hmodules] at h
    cases modules with
    | nil => cases h
    | cons m rest =>
      obtain ⟨pre, m', post, hsplit, hanswers, -⟩ := ((tryModules_iff []).1 found).mp h
      refine ⟨m :: rest, rfl, m', ?_, hanswers⟩
      rw [hsplit]
      exact List.mem_append_right _ List.mem_cons_self

theorem Behind.findRuntimeVersioned_ok (h : l.Behind pid t version)
    {found : (BitVec 64 × String) × PythonVersion}
    (hf : l.machine.findRuntimeVersioned pid = .ok found) :
    l.machine.legacyRuntime pid = .ok found.1 ∧ found.2 = version := by
  obtain ⟨hmajor, hminor⟩ := tableForVersion_some h.table
  unfold Machine.findRuntimeVersioned at hf
  rw [h.detected] at hf
  dsimp only at hf
  rw [if_neg (not_not.mpr hmajor), if_neg (by rw [BitVec.not_le]; exact hminor), h.layout] at hf
  dsimp only at hf
  cases hl : l.machine.legacyRuntime pid with
  | error text =>
    rw [hl] at hf
    cases hf
  | ok r =>
    rw [hl] at hf
    obtain rfl := Except.ok.inj hf
    exact ⟨rfl, rfl⟩

/-- Where the machine has an address, a module of the process has it. -/
theorem Behind.answers (h : l.Behind pid t version) {found : BitVec 64 × String}
    (hl : l.machine.legacyRuntime pid = .ok found) :
    ∃ modules, l.machine.modules pid = .ok modules ∧ ∃ m ∈ modules, l.Answers pid t m found := by
  have hsearch := h.search
  rw [hl] at hsearch
  obtain ⟨r, hr, hmap⟩ := Option.map_eq_some_iff.mp hsearch
  cases r with
  | error e => cases hmap
  | ok found' =>
    obtain rfl := Except.ok.inj hmap
    exact findRuntimePre313_ok hr

variable (l pid t) in
/-- A read in a process, where a module of it has the symbol at a trusted address. -/
def ReadsAtSymbol (u : RuntimeUse) : Prop :=
  u.process = pid ∧ ∃ modules, l.machine.modules pid = .ok modules ∧
    ∃ m ∈ modules, l.Answers pid t m (u.runtimeAddr, m.1)

end Legacy

/-! ## The callers -/

namespace Machine

open Legacy

variable {l : Legacy} {pid : Pid} {t : LegacyTable} {version : PythonVersion} {addr : BitVec 64}
  {path : String} (b : Build)

theorem usesOnly_legacyLayout (h : l.Behind pid t version) (exeKey : Option ExeKey) :
    UsesOnly pid addr (fun _ => True) (l.machine.parsedLayout b pid version exeKey) := by
  have hminor := (tableForVersion_some h.table).2
  have hlayout : UsesOnly pid addr (fun _ => True) (l.machine.resolveLayout b pid version) := by
    unfold resolveLayout
    rw [if_neg (by rw [BitVec.not_le]; exact hminor), h.layout]
    exact Logs.pure trivial
  refine hlayout.bind fun entry _ => ?_
  cases exeKey with
  | none => exact Logs.pure trivial
  | some key => exact Logs.state fun _ => trivial

theorem usesOnly_attach_legacy (h : l.Behind pid t version)
    (hl : l.machine.legacyRuntime pid = .ok (addr, path)) :
    UsesOnly pid addr (fun a => a.use = ⟨pid, addr⟩) (l.machine.attach b pid) := by
  refine (Logs.lift fun handle hh => openHandle_process hh).bind fun handle hp => ?_
  refine (Logs.lift fun found hf => h.findRuntimeVersioned_ok hf).bind ?_
  rintro ⟨⟨addr', path'⟩, detected⟩ ⟨hl', rfl⟩
  obtain ⟨rfl, rfl⟩ := Prod.mk.inj (Except.ok.inj (hl.symm.trans hl'))
  refine (usesOnly_cachedLayout hp _).bind fun cached _ => ?_
  cases cached with
  | some entry => exact Logs.pure (by rw [Attached.use, hp])
  | none =>
    exact (usesOnly_legacyLayout b h _).bind fun _ _ => Logs.pure (by rw [Attached.use, hp])

theorem usesOnly_softReattach_legacy {a : Attached} (ha : a.pid = pid) (h : l.Behind pid t version)
    (hl : l.machine.legacyRuntime pid = .ok (addr, path)) :
    UsesOnly pid addr (fun r => r.1 = true → r.2.use = ⟨pid, addr⟩) (l.machine.softReattach a) := by
  unfold softReattach
  rw [ha]
  refine (Logs.lift fun handle hh => openHandle_process hh).bind fun handle hp => ?_
  refine (Logs.lift fun found hf => h.findRuntimeVersioned_ok hf).bind ?_
  rintro ⟨⟨addr', path'⟩, detected⟩ ⟨hl', -⟩
  obtain ⟨rfl, rfl⟩ := Prod.mk.inj (Except.ok.inj (hl.symm.trans hl'))
  dsimp only
  split_ifs with hk
  · exact Logs.pure fun h => absurd h Bool.false_ne_true
  cases a.session.storedHex with
  | none => exact Logs.pure fun _ => by rw [Attached.use, hp]
  | some hex =>
    refine (usesOnly_readRuntime hp 8 8).bind fun bytes _ => ?_
    split_ifs with hhex
    · exact Logs.pure fun h => absurd h Bool.false_ne_true
    · exact Logs.pure fun _ => by rw [Attached.use, hp]

variable (addr) in
theorem attach_fails_legacy (h : l.Behind pid t version) {text : String}
    (hl : l.machine.legacyRuntime pid = .error text) :
    UsesOnly pid addr (fun _ => False) (l.machine.attach b pid) := by
  refine (Logs.lift (Q := fun _ => True) fun _ _ => trivial).bind fun handle _ => ?_
  refine (Logs.lift (Q := fun _ => False) fun found hf => ?_).bind fun _ hfalse => hfalse.elim
  cases hl.symm.trans (h.findRuntimeVersioned_ok hf).1

variable (addr) in
theorem softReattach_fails_legacy {a : Attached} (ha : a.pid = pid) (h : l.Behind pid t version)
    {text : String} (hl : l.machine.legacyRuntime pid = .error text) :
    UsesOnly pid addr (fun _ => False) (l.machine.softReattach a) := by
  unfold softReattach
  rw [ha]
  refine (Logs.lift (Q := fun _ => True) fun _ _ => trivial).bind fun handle _ => ?_
  refine (Logs.lift (Q := fun _ => False) fun found hf => ?_).bind fun _ hfalse => hfalse.elim
  cases hl.symm.trans (h.findRuntimeVersioned_ok hf).1

theorem readsAtSymbol_of_uses (h : l.Behind pid t version)
    (hl : l.machine.legacyRuntime pid = .ok (addr, path)) {uses : List RuntimeUse}
    (huses : ∀ u ∈ uses, u = ⟨pid, addr⟩) {last : RuntimeUse} (hlast : last = ⟨pid, addr⟩) :
    ∀ u ∈ uses ++ [last], l.ReadsAtSymbol pid t u := by
  obtain ⟨modules, hmodules, m, hm, hanswers⟩ := h.answers hl
  have hat : l.ReadsAtSymbol pid t ⟨pid, addr⟩ := by
    obtain rfl : path = m.1 := hanswers.1
    exact ⟨rfl, modules, hmodules, m, hm, hanswers⟩
  intro u hu
  rcases List.mem_append.mp hu with hu | hu
  · rw [huses u hu]
    exact hat
  · rw [List.mem_singleton.mp hu, hlast]
    exact hat

/-- **Before 3.13 an address is used in the process it was found in**: every attach and every re-attach
that succeeds reads the process asked for, where one of its modules has the symbol. -/
theorem legacy_used_where_found (h : l.Behind pid t version) :
    (∀ caches a caches' uses, l.machine.attach b pid (caches, []) = .ok (a, caches', uses) →
      ∀ u ∈ uses ++ [a.use], l.ReadsAtSymbol pid t u) ∧
    (∀ a : Attached, a.pid = pid → ∀ caches a' caches' uses,
      l.machine.softReattach a (caches, []) = .ok ((true, a'), caches', uses) →
      ∀ u ∈ uses ++ [a'.use], l.ReadsAtSymbol pid t u) := by
  cases hl : l.machine.legacyRuntime pid with
  | error text =>
    refine ⟨fun caches a caches' uses hok => ?_, fun a ha caches a' caches' uses hok => ?_⟩
    · exact (attach_fails_legacy 0 b h hl _ _ _ hok).2.elim
    · exact (softReattach_fails_legacy 0 ha h hl _ _ _ hok).2.elim
  | ok found =>
    obtain ⟨addr, path⟩ := found
    refine ⟨fun caches a caches' uses hok => ?_, fun a ha caches a' caches' uses hok => ?_⟩
    · obtain ⟨⟨us, hus, huses⟩, hlast⟩ := usesOnly_attach_legacy b h hl _ _ _ hok
      rw [List.nil_append] at hus
      obtain rfl : uses = us := hus
      exact readsAtSymbol_of_uses h hl huses hlast
    · obtain ⟨⟨us, hus, huses⟩, hlast⟩ := usesOnly_softReattach_legacy ha h hl _ _ _ hok
      rw [List.nil_append] at hus
      obtain rfl : uses = us := hus
      exact readsAtSymbol_of_uses h hl huses (hlast rfl)

end Machine

/-! ## An interpreter of 3.11 -/

namespace Legacy

/-- An ELF image: a header, one loadable segment, the names, and the sections `.symtab`, with the symbol
`_PyRuntime` at 0x4000, and `.strtab`. -/
def symbolElf : List UInt8 :=
  wordsBytes [0x00010102464C457F, 0, 0x00000001003E0003, 0, 64, 200, 0x0038004000000000,
      0x0002000300400001] ++
    wordsBytes [0x0000000500000001, 0, 0, 0, 392, 392, 0x1000] ++
    wordsBytes [0x746E755279505F00, 0x6D79732E00656D69, 0x7274732E00626174, 0x0000000000626174] ++
    List.replicate 24 0 ++ wordsBytes [0xFFF1001100000001, 0x4000, 0x200] ++
    List.replicate 64 0 ++
    wordsBytes [0x000000020000000C, 0, 0, 152, 48, 0x0000000100000002, 8, 24] ++
    wordsBytes [0x0000000300000014, 0, 0, 120, 28, 0, 1, 0]

def symbolNames (n : ℕ) : Option String :=
  if n = 0 then some "" else if n = 1 then some "_PyRuntime" else if n = 12 then some ".symtab"
  else if n = 20 then some ".strtab" else none

def symbolParsed : Elf where
  programHeaders := [{ pType := 1, pVaddr := 0, pAlign := 0x1000 }]
  sectionHeaders := [⟨0, 0, 0, 0⟩, ⟨12, 0, 152, 48⟩, ⟨20, 0, 120, 28⟩]
  shdrStrtab := symbolNames
  dynsyms := []
  dynstrtab := fun _ => none
  syms := [⟨0, 0⟩, ⟨1, 0x4000⟩]
  strtab := symbolNames

/-- An interpreter at 0x7000 whose first thread is at 0x8000. The file of the executable is gone; the
library is mapped at 0x200000. -/
def oldInterpreter : Legacy where
  disk := {
    goblin := { bareGoblin with elf := fun bytes => if bytes = symbolElf then some symbolParsed else none }
    file := fun path => if path = "/usr/lib/libpython3.11.so" then some symbolElf else none }
  machine := {
    children := fun _ => []
    modules := fun _ => .ok [("/usr/bin/python3.11", 0x1000), ("/usr/lib/libpython3.11.so", 0x200000)]
    runtimeSection := fun _ _ => none
    memory := fun _ => some (.padded fun addr =>
      if addr = 0x204000 then wordsBytes [0, 0, 0, 0, 0, 0x7000]
      else if addr = 0x204028 then wordBytes 0x7000
      else if addr = 0x7010 then wordBytes 0x8000
      else if addr = 0x8010 then wordBytes 0x7000 else [])
    version := fun _ => .ok ⟨3, 11, 4, 0xF, 0⟩
    legacyRuntime := fun _ => .ok (0x204000, "/usr/lib/libpython3.11.so")
    legacyTable := fun v => (tableForVersion v.major v.minor).map LegacyTable.toOffsetTable
    exeKey := fun _ => none
    cmdline := fun _ => none }
  maps := fun _ => some [⟨0x7000, 0x2000, by decide⟩]
  ioError := fun _ => "No such file or directory (os error 2)"

theorem symbolElf_resolves (base : BitVec 64) :
    oldInterpreter.disk.goblin.resolveSymbolInBytes symbolElf base "_PyRuntime" =
      some (some (base + 0x4000)) := by
  have hkind : classify symbolElf = some .elf := by decide +kernel
  have hparse : oldInterpreter.disk.goblin.elf symbolElf = some symbolParsed := by
    simp [oldInterpreter]
  have hbias : elfLoadBias symbolParsed = some (some 0) := by decide
  have hsymbol : symbolParsed.symbolNamed "_PyRuntime" = some ⟨1, 0x4000⟩ := rfl
  rw [Goblin.resolveSymbol_elf hkind hparse hbias, hsymbol]
  simp

theorem oldInterpreter_found : oldInterpreter.findRuntimePre313 1 (v311 0x030B0000) =
    some (.ok (0x204000, "/usr/lib/libpython3.11.so")) := by
  have hfirst : oldInterpreter.visit 1 (v311 0x030B0000) ("/usr/bin/python3.11", 0x1000) =
      some (.error _) := (TurnedDown.unreadable rfl).visit
  have hchecked : oldInterpreter.checkRuntime 1 (v311 0x030B0000) (0x200000 + 0x4000)
      ((v311 0x030B0000).runtimeInterpretersHead + 64) = some true := by
    decide +kernel
  have hlibrary : oldInterpreter.visit 1 (v311 0x030B0000) ("/usr/lib/libpython3.11.so", 0x200000) =
      some (.ok (0x204000, "/usr/lib/libpython3.11.so")) := by
    have hfile : oldInterpreter.disk.file "/usr/lib/libpython3.11.so" = some symbolElf := rfl
    rw [visit]
    simp only [hfile, symbolElf_resolves, Option.bind_eq_bind, Option.bind_some]
    rw [hchecked]
    rfl
  have hsearch : oldInterpreter.findRuntimePre313 1 (v311 0x030B0000) =
      oldInterpreter.tryModules 1 (v311 0x030B0000) []
        [("/usr/bin/python3.11", 0x1000), ("/usr/lib/libpython3.11.so", 0x200000)] := rfl
  rw [hsearch, tryModules, hfirst, Option.bind_eq_bind, Option.bind_some]
  dsimp only
  rw [tryModules, hlibrary]
  rfl

/-- The search passes over the executable and answers with the library. -/
theorem oldInterpreter_search : ∃ pre m post,
    [("/usr/bin/python3.11", (0x1000 : BitVec 64)), ("/usr/lib/libpython3.11.so", 0x200000)] =
        pre ++ m :: post ∧
      oldInterpreter.Answers 1 (v311 0x030B0000) m (0x204000, "/usr/lib/libpython3.11.so") ∧
      ∀ m' ∈ pre, ∃ r, oldInterpreter.TurnedDown 1 (v311 0x030B0000) m' r :=
  ((legacy_search_exact rfl (List.cons_ne_nil _ _)).1 _).mp oldInterpreter_found

/-- An attach reads the interpreter through the address of the library. -/
theorem oldInterpreter_used : ∃ a caches' uses,
    oldInterpreter.machine.attach Machine.oneLayout 1 (Machine.noCaches, []) = .ok (a, caches', uses) ∧
      ∀ u ∈ uses ++ [a.use], oldInterpreter.ReadsAtSymbol 1 (v311 0x030B0000) u :=
  have hrun : ∃ a caches' uses, oldInterpreter.machine.attach Machine.oneLayout 1
      (Machine.noCaches, []) = .ok (a, caches', uses) := ⟨_, _, _, rfl⟩
  let ⟨a, caches', uses, hok⟩ := hrun
  have hbehind : oldInterpreter.Behind 1 (v311 0x030B0000) ⟨3, 11, 4, 0xF, 0⟩ :=
    ⟨rfl, rfl, rfl, by rw [oldInterpreter_found]; rfl⟩
  ⟨a, caches', uses, hok,
    (Machine.legacy_used_where_found Machine.oneLayout hbehind).1 _ a caches' uses hok⟩

end Legacy

end GcScope
