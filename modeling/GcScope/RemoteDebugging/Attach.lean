import GcScope.Lib.Logged
import GcScope.RemoteDebugging.Registry
import GcScope.RemoteDebugging.RingShape

/-!
# Attaching to a process

Attaching looks for the runtime section of a process and, where it has none, of its children; the
search answers with an address and a path, and everything after it reads through the process asked
for.

* `Machine.searchPidAndChildren`: the search; `Machine.locate` keeps the process it ended in.
* `Machine.attach`, `Machine.softReattach`: the callers, logging what they read at a runtime address.
* `Machine.softReattach_session`: the re-attach of a session is the one `revalidate` makes.
* **`Machine.usedWhereFound_iff`**: the address is used where it was found exactly when the process
  asked for has a valid section.
* **`launcher_misread`**: an attach that reads a child's address in its parent.
-/

set_option autoImplicit false

namespace GcScope

open LittleEndian

/-- The number of a process. -/
abbrev Pid := ℕ

inductive FindError where
  | modules (text : String)
  | noModules (pid : Pid)
  | cookie (pid : Pid) (addr : BitVec 64)
  | noSection (pid : Pid)
  | tooDeep (pid : Pid)
  | inChildren (pid : Pid) (errors : List (Pid × FindError))

/-- The text of the error. -/
def FindError.message : FindError → String
  | modules text => text
  | noModules pid => "No python-related modules found in process " ++ toString pid
  | cookie _ _ => "Failed to read process memory"
  | noSection pid => "Could not find valid PyRuntime section in process " ++ toString pid
  | tooDeep pid => "Could not find valid PyRuntime in process " ++ toString pid ++ " or its children"
  | inChildren pid errors =>
    "Could not find valid PyRuntime section in process " ++ toString pid ++ " or its children:\n" ++
      "\n".intercalate (errors.map fun e => "  child " ++ toString e.1 ++ ": " ++ e.2.message)
termination_by e => sizeOf e
decreasing_by
  obtain ⟨child, cause⟩ := e
  have := List.sizeOf_lt_of_mem ‹_›
  simp only [Prod.mk.sizeOf_spec, inChildren.sizeOf_spec] at this ⊢
  omega

/-! ## The search -/

section Search

variable {α : Type} (children : Pid → List Pid) (tryFind : Pid → Except FindError α)

/-- The first answer, or the errors of all. -/
def firstFound (search : Pid → Except FindError α) :
    List Pid → Except (List (Pid × FindError)) α
  | [] => .error []
  | child :: rest =>
    match search child with
    | .ok found => .ok found
    | .error e =>
      match firstFound search rest with
      | .ok found => .ok found
      | .error errors => .error ((child, e) :: errors)

/-- Look in a process, then in its children, `left` levels down. -/
def searchFrom : ℕ → Pid → Except FindError α
  | 0, pid =>
    match tryFind pid with
    | .ok found => .ok found
    | .error _ => .error (.tooDeep pid)
  | left + 1, pid =>
    match tryFind pid with
    | .ok found => .ok found
    | .error _ =>
      if children pid = [] then tryFind pid
      else
        match firstFound (searchFrom left) (children pid) with
        | .ok found => .ok found
        | .error errors => .error (.inChildren pid errors)

variable {children tryFind}

theorem firstFound_map {β : Type} (g : α → β) (search : Pid → Except FindError α) (l : List Pid) :
    firstFound (fun p => (search p).map g) l = (firstFound search l).map g := by
  induction l with
  | nil => rfl
  | cons child rest ih =>
    simp only [firstFound, ih]
    cases search child with
    | ok found => rfl
    | error e => cases firstFound search rest <;> rfl

theorem searchFrom_map {β : Type} (g : α → β) (left : ℕ) (pid : Pid) :
    searchFrom children (fun p => (tryFind p).map g) left pid =
      (searchFrom children tryFind left pid).map g := by
  induction left generalizing pid with
  | zero =>
    simp only [searchFrom]
    cases tryFind pid <;> rfl
  | succ left ih =>
    have hsearch : searchFrom children (fun p => (tryFind p).map g) left =
        fun p => (searchFrom children tryFind left p).map g := funext ih
    simp only [searchFrom, hsearch, firstFound_map]
    cases tryFind pid with
    | ok found => rfl
    | error e =>
      by_cases hc : children pid = []
      · simp only [hc, if_true]
        rfl
      · simp only [hc, if_false]
        cases firstFound (searchFrom children tryFind left) (children pid) <;> rfl

theorem firstFound_ok {search : Pid → Except FindError α} {l : List Pid} {a : α}
    (h : firstFound search l = .ok a) : ∃ p ∈ l, search p = .ok a := by
  induction l with
  | nil => cases h
  | cons child rest ih =>
    simp only [firstFound] at h
    cases hs : search child with
    | ok found =>
      rw [hs] at h
      obtain rfl := Except.ok.inj h
      exact ⟨child, List.mem_cons_self, hs⟩
    | error e =>
      rw [hs] at h
      cases hr : firstFound search rest with
      | ok found =>
        rw [hr] at h
        obtain rfl := Except.ok.inj h
        obtain ⟨p, hp, hps⟩ := ih hr
        exact ⟨p, List.mem_cons_of_mem _ hp, hps⟩
      | error errors =>
        rw [hr] at h
        cases h

theorem searchFrom_ok {left : ℕ} {pid : Pid} {a : α}
    (h : searchFrom children tryFind left pid = .ok a) : ∃ p, tryFind p = .ok a := by
  induction left generalizing pid with
  | zero =>
    simp only [searchFrom] at h
    cases ht : tryFind pid with
    | ok found => exact ⟨pid, by rw [ht] at h ⊢; exact h⟩
    | error e =>
      rw [ht] at h
      cases h
  | succ left ih =>
    simp only [searchFrom] at h
    cases ht : tryFind pid with
    | ok found => exact ⟨pid, by rw [ht] at h ⊢; exact h⟩
    | error e =>
      rw [ht] at h
      by_cases hc : children pid = []
      · simp only [hc, if_true] at h
        cases h
      · simp only [hc, if_false] at h
        cases hf : firstFound (searchFrom children tryFind left) (children pid) with
        | error errors =>
          rw [hf] at h
          cases h
        | ok found =>
          rw [hf] at h
          obtain rfl := Except.ok.inj h
          obtain ⟨p, -, hp⟩ := firstFound_ok hf
          exact ih hp

/-- A process with an answer of its own is not searched further. -/
theorem searchFrom_self {left : ℕ} {pid : Pid} {a : α} (h : tryFind pid = .ok a) :
    searchFrom children tryFind left pid = .ok a := by
  cases left <;> simp only [searchFrom, h]

end Search

/-- How far down the search goes. -/
def maxDepth : ℕ := 3

/-- What marks a runtime section. -/
def cookie : List UInt8 := [0x78, 0x64, 0x65, 0x62, 0x75, 0x67, 0x70, 0x79]

/-- The processes of a machine, as an attach finds them. -/
structure Machine where
  children : Pid → List Pid
  /-- The modules that look like Python, with their load addresses. -/
  modules : Pid → Except String (List (String × BitVec 64))
  /-- Where the file at a path has its runtime section when loaded at an address. -/
  runtimeSection : String → BitVec 64 → Option (BitVec 64)
  /-- What reads through a handle see; absent where a process cannot be opened. -/
  memory : Pid → Option ProcessMemory
  /-- The version detected from the binary. -/
  version : Pid → Except String PythonVersion
  /-- The runtime of a process before 3.13, and the table of its version. -/
  legacyRuntime : Pid → Except String (BitVec 64 × String)
  legacyTable : PythonVersion → Option OffsetTable
  exeKey : String → Option ExeKey
  cmdline : Pid → Option String

namespace Machine

variable (w : Machine)

def readMemory (pid : Pid) (addr : BitVec 64) (size : ℕ) : Option (List UInt8) :=
  (w.memory pid).bind fun m => m.read addr size

def validateCookie (pid : Pid) (addr : BitVec 64) : Except FindError Bool :=
  match w.readMemory pid addr cookie.length with
  | some data => .ok (data == cookie)
  | none => .error (.cookie pid addr)

/-- Look through the modules of a process for a section with the cookie. -/
def tryModules (pid : Pid) : List (String × BitVec 64) → Except FindError (BitVec 64 × String)
  | [] => .error (.noSection pid)
  | (path, baseAddr) :: rest =>
    match w.runtimeSection path baseAddr with
    | none => tryModules pid rest
    | some addr =>
      match w.validateCookie pid addr with
      | .error e => .error e
      | .ok true => .ok (addr, path)
      | .ok false => tryModules pid rest

def tryFindRuntime (pid : Pid) : Except FindError (BitVec 64 × String) :=
  match w.modules pid with
  | .error text => .error (.modules text)
  | .ok [] => .error (.noModules pid)
  | .ok modules => w.tryModules pid modules

/-- The address of a runtime section and the path of its module. -/
def searchPidAndChildren (pid : Pid) : Except FindError (BitVec 64 × String) :=
  searchFrom w.children w.tryFindRuntime maxDepth pid

/-- The search, answering with the process as well. -/
def locate (pid : Pid) : Except FindError (Pid × BitVec 64 × String) :=
  searchFrom w.children (fun p => (w.tryFindRuntime p).map fun found => (p, found)) maxDepth pid

/-- The process has a valid section of its own. -/
def HasRuntime (pid : Pid) : Prop := ∃ found, w.tryFindRuntime pid = .ok found

theorem searchPidAndChildren_eq (pid : Pid) :
    w.searchPidAndChildren pid = (w.locate pid).map Prod.snd := by
  rw [locate, ← searchFrom_map, searchPidAndChildren]
  congr 1
  funext p
  cases w.tryFindRuntime p <;> rfl

theorem tryFindRuntime_of_locate {pid p : Pid} {found : BitVec 64 × String}
    (h : w.locate pid = .ok (p, found)) : w.tryFindRuntime p = .ok found := by
  obtain ⟨q, hq⟩ := searchFrom_ok h
  cases ht : w.tryFindRuntime q with
  | error e =>
    rw [ht] at hq
    cases hq
  | ok found' =>
    rw [ht] at hq
    obtain ⟨rfl, rfl⟩ := Prod.mk.inj (Except.ok.inj hq)
    exact ht

/-- **The search ends in the process asked for exactly where that has a section of its own.** -/
theorem locate_self_iff {pid : Pid} {found : BitVec 64 × String}
    (h : w.searchPidAndChildren pid = .ok found) :
    w.locate pid = .ok (pid, found) ↔ w.HasRuntime pid := by
  constructor
  · exact fun hl => ⟨found, w.tryFindRuntime_of_locate hl⟩
  · rintro ⟨own, hown⟩
    have hs : w.searchPidAndChildren pid = .ok own := searchFrom_self hown
    obtain rfl := Except.ok.inj (h.symm.trans hs)
    refine searchFrom_self ?_
    rw [hown]
    rfl

end Machine

/-! ## The callers -/

inductive AttachError where
  | notOpen (pid : Pid)
  | noVersion (text : String)
  | majorVersion (version : PythonVersion)
  | noTable (version : PythonVersion)
  | noDebugOffsets (version : PythonVersion)
  | find (cause : FindError)
  | findLegacy (text : String)
  | read (cause : ReadError)
  | layout (cause : LayoutError)

/-- The text of the error. -/
def AttachError.message : AttachError → String
  | notOpen _ => "Failed to create process handle"
  | noVersion text => text
  | majorVersion v =>
    "Unsupported Python major version " ++ toString v.major.toNat ++ "." ++ toString v.minor.toNat
  | noTable v =>
    "Unsupported Python version " ++ toString v.major.toNat ++ "." ++ toString v.minor.toNat ++
      " (no pre-3.13 offset table)"
  | noDebugOffsets v =>
    "Python " ++ toString v.major.toNat ++ "." ++ toString v.minor.toNat ++
      " does not support _Py_DebugOffsets"
  | find cause => cause.message
  | findLegacy text => text
  | read cause => cause.message
  | layout cause => cause.message

/-- A read at the runtime address: the process it reads, and the address. -/
structure RuntimeUse where
  process : Pid
  runtimeAddr : BitVec 64
  deriving DecidableEq

/-- An open process. -/
structure Handle where
  process : Pid
  memory : ProcessMemory

/-- A resolved layout and what is needed to reuse it. -/
structure CachedLayout where
  resolved : Resolved
  version : PythonVersion
  storedHex : Option (BitVec 64)

structure Caches where
  layouts : ExeKey → Option CachedLayout
  fallbacks : FallbackCache

/-- What the program is built with. -/
structure Build where
  registry : Registry
  candidates : GcCandidates
  /-- The size of the debug offsets of a layout, and how they are read. -/
  offsetsSize : BitVec 64 → ℕ
  parseOffsets : BitVec 64 → List UInt8 → DebugOffsets

/-- A computation over the caches, logging the reads at a runtime address. -/
abbrev Attaching : Type → Type := Logged RuntimeUse Caches AttachError

/-- A session with the process it was asked for and the handle it reads through. -/
structure Attached where
  pid : Pid
  handle : Handle
  version : PythonVersion
  session : PySession
  /-- The session reads through the handle. -/
  reads : session.memory = handle.memory

/-- Where the session reads the interpreter chain and the stats. -/
def Attached.use (a : Attached) : RuntimeUse := ⟨a.handle.process, a.session.runtimeAddr⟩

/-- Read at an offset from the runtime address. -/
def Handle.readRuntime (h : Handle) (runtimeAddr off : BitVec 64) (size : ℕ) :
    Attaching (List UInt8) := do
  Logged.log ⟨h.process, runtimeAddr⟩
  match h.memory.read (runtimeAddr + off) size with
  | some bytes => return bytes
  | none => throw (.read (.memory (runtimeAddr + off) size))

def layoutStillValid (handle : Handle) (runtimeAddr : BitVec 64) (entry : CachedLayout) :
    Attaching Bool := do
  match entry.storedHex with
  | none => return true
  | some hex =>
    let bytes ← handle.readRuntime runtimeAddr 8 8
    return (readWord bytes 0).getD 0 == hex

/-- The version is 3.13 or later. -/
def PythonVersion.HasDebugOffsets (v : PythonVersion) : Prop := 3 < v.major ∨ v.major = 3 ∧ 13 ≤ v.minor

namespace Machine

variable (w : Machine) (b : Build)

def openHandle (pid : Pid) : Except AttachError Handle :=
  match w.memory pid with
  | some memory => .ok ⟨pid, memory⟩
  | none => .error (.notOpen pid)

def findRuntime (pid : Pid) : Except AttachError (BitVec 64 × String) :=
  match w.searchPidAndChildren pid with
  | .ok found => .ok found
  | .error e => .error (.find e)

/-- Find the runtime by the detected version: by the cookie from 3.13 on. -/
def findRuntimeVersioned (pid : Pid) : Except AttachError ((BitVec 64 × String) × PythonVersion) :=
  match w.version pid with
  | .error text => .error (.noVersion text)
  | .ok version =>
    if version.major ≠ 3 then .error (.majorVersion version)
    else if 13 ≤ version.minor then (w.findRuntime pid).map fun found => (found, version)
    else
      match w.legacyTable version with
      | none => .error (.noTable version)
      | some _ =>
        match w.legacyRuntime pid with
        | .ok found => .ok (found, version)
        | .error text => .error (.findLegacy text)

/-- Read the debug offsets, through the layout their version word resolves to. -/
def readOffsets (pid : Pid) (version : PythonVersion) :
    Attaching (BitVec 64 × BitVec 64 × DebugOffsets) := do
  if version.major < 3 ∨ version.major = 3 ∧ version.minor < 13 then
    throw (.noDebugOffsets version)
  else
    let (addr, _) ← Logged.lift (w.findRuntime pid)
    let handle ← Logged.lift (w.openHandle pid)
    let bytes ← handle.readRuntime addr 8 8
    let stored := (readWord bytes 0).getD 0
    let resolved ← Logged.state fun caches =>
      let (fallbacks, answer) := b.registry.resolveLayout caches.fallbacks pid stored
      (answer, { caches with fallbacks })
    match resolved with
    | .error e => throw (.layout e)
    | .ok (_, layout) =>
      let raw ← handle.readRuntime addr 0 (b.offsetsSize layout)
      return (addr, stored, b.parseOffsets layout raw)

def resolveLayout (pid : Pid) (detected : PythonVersion) : Attaching CachedLayout := do
  if 13 ≤ detected.minor then
    let (_, stored, offsets) ← w.readOffsets b pid detected
    let table := offsets.toOffsetTable b.candidates
    return {
      resolved :=
        if b.registry.hasVerifiedLayout stored then .full offsets.toVersionedOffsets table
        else .layoutOnly offsets.toVersionedOffsets table
      version := (PythonVersion.fromHex stored).getD detected
      storedHex := some stored }
  else
    match w.legacyTable detected with
    | none => throw (.noTable detected)
    | some table => return ⟨.legacy table, detected, none⟩

/-- The cached layout of a binary, where the live version word still matches it. -/
def cachedLayout (handle : Handle) (runtimeAddr : BitVec 64) (exeKey : Option ExeKey) :
    Attaching (Option CachedLayout) := do
  match exeKey with
  | none => return none
  | some key =>
    let hit ← Logged.state fun caches => (caches.layouts key, caches)
    match hit with
    | none => return none
    | some entry =>
      if ← layoutStillValid handle runtimeAddr entry then return some entry else return none

/-- Resolve a layout and keep it for the binary. -/
def parsedLayout (pid : Pid) (detected : PythonVersion) (exeKey : Option ExeKey) :
    Attaching CachedLayout := do
  let entry ← w.resolveLayout b pid detected
  match exeKey with
  | none => return entry
  | some key =>
    Logged.state fun caches =>
      (entry, { caches with layouts := Function.update caches.layouts key (some entry) })

def attach (pid : Pid) : Attaching Attached := do
  let handle ← Logged.lift (w.openHandle pid)
  let ((runtimeAddr, modulePath), version) ← Logged.lift (w.findRuntimeVersioned pid)
  let exeKey := w.exeKey modulePath
  let cached ← cachedLayout handle runtimeAddr exeKey
  let entry ← match cached with
    | some entry => pure entry
    | none => w.parsedLayout b pid version exeKey
  return {
    pid, handle
    version := entry.version
    session := {
      memory := handle.memory
      runtimeAddr
      resolved := entry.resolved
      storedHex := entry.storedHex
      exeKey
      cmdline := w.cmdline pid }
    reads := rfl }

/-- Refresh the handle and the runtime address in place; `false` says another binary or version. -/
def softReattach (a : Attached) : Attaching (Bool × Attached) := do
  let handle ← Logged.lift (w.openHandle a.pid)
  let ((runtimeAddr, modulePath), _) ← Logged.lift (w.findRuntimeVersioned a.pid)
  if w.exeKey modulePath ≠ a.session.exeKey then return (false, a)
  else
    let fresh : Attached :=
      { a with
        handle
        session := { a.session with memory := handle.memory, runtimeAddr }
        reads := rfl }
    match a.session.storedHex with
    | none => return (true, fresh)
    | some hex =>
      let bytes ← handle.readRuntime runtimeAddr 8 8
      if (readWord bytes 0).getD 0 ≠ hex then return (false, a) else return (true, fresh)

/-! ## Where the address is used -/

variable {w b} {pid : Pid} {addr : BitVec 64} {path : String}

/-- Everything read at the runtime address is read in `pid` at `addr`. -/
abbrev UsesOnly {α : Type} (pid : Pid) (addr : BitVec 64) (Q : α → Prop) (x : Attaching α) : Prop :=
  Logs (fun u : RuntimeUse => u = ⟨pid, addr⟩) Q x

theorem usesOnly_readRuntime {h : Handle} (hp : h.process = pid) (off : BitVec 64) (size : ℕ) :
    UsesOnly pid addr (fun _ => True) (h.readRuntime addr off size) := by
  refine (Logs.log (by rw [hp])).bind fun _ _ => ?_
  cases h.memory.read (addr + off) size with
  | some bytes => exact Logs.pure trivial
  | none => exact Logs.fail _

theorem usesOnly_layoutStillValid {h : Handle} (hp : h.process = pid) (entry : CachedLayout) :
    UsesOnly pid addr (fun _ => True) (layoutStillValid h addr entry) := by
  unfold layoutStillValid
  cases entry.storedHex with
  | none => exact Logs.pure trivial
  | some hex => exact (usesOnly_readRuntime hp 8 8).bind fun _ _ => Logs.pure trivial

theorem openHandle_process {h : Handle} (hh : w.openHandle pid = .ok h) : h.process = pid := by
  unfold openHandle at hh
  cases hm : w.memory pid with
  | none =>
    rw [hm] at hh
    cases hh
  | some memory =>
    rw [hm] at hh
    obtain rfl := Except.ok.inj hh
    rfl

theorem usesOnly_readOffsets (hs : w.searchPidAndChildren pid = .ok (addr, path))
    (version : PythonVersion) :
    UsesOnly pid addr (fun _ => True) (w.readOffsets b pid version) := by
  unfold readOffsets
  split_ifs with hv
  · exact Logs.fail _
  have hfind : w.findRuntime pid = .ok (addr, path) := by rw [findRuntime, hs]
  refine (Logs.lift fun found hf => Except.ok.inj (hfind.symm.trans hf)).bind ?_
  rintro _ rfl
  refine (Logs.lift fun h hh => openHandle_process hh).bind fun h hp => ?_
  refine (usesOnly_readRuntime hp 8 8).bind fun bytes _ => ?_
  refine (Logs.state (Q := fun _ => True) fun _ => trivial).bind fun resolved _ => ?_
  cases resolved with
  | error e => exact Logs.fail _
  | ok answer => exact (usesOnly_readRuntime hp 0 _).bind fun _ _ => Logs.pure trivial

theorem usesOnly_resolveLayout (hs : w.searchPidAndChildren pid = .ok (addr, path))
    {version : PythonVersion} (hv : 13 ≤ version.minor) :
    UsesOnly pid addr (fun _ => True) (w.resolveLayout b pid version) := by
  unfold resolveLayout
  rw [if_pos hv]
  exact (usesOnly_readOffsets hs version).bind fun _ _ => Logs.pure trivial

theorem usesOnly_cachedLayout {h : Handle} (hp : h.process = pid) (exeKey : Option ExeKey) :
    UsesOnly pid addr (fun _ => True) (cachedLayout h addr exeKey) := by
  cases exeKey with
  | none => exact Logs.pure trivial
  | some key =>
    refine (Logs.state (Q := fun _ => True) fun _ => trivial).bind fun hit _ => ?_
    cases hit with
    | none => exact Logs.pure trivial
    | some entry =>
      refine (usesOnly_layoutStillValid hp entry).bind fun valid _ => ?_
      cases valid <;> exact Logs.pure trivial

theorem usesOnly_parsedLayout (hs : w.searchPidAndChildren pid = .ok (addr, path))
    {version : PythonVersion} (hv : 13 ≤ version.minor) (exeKey : Option ExeKey) :
    UsesOnly pid addr (fun _ => True) (w.parsedLayout b pid version exeKey) := by
  refine (usesOnly_resolveLayout hs hv).bind fun entry _ => ?_
  cases exeKey with
  | none => exact Logs.pure trivial
  | some key => exact Logs.state fun _ => trivial

theorem findRuntimeVersioned_ok {version : PythonVersion} (hw : w.version pid = .ok version)
    (hv : version.HasDebugOffsets) {found : (BitVec 64 × String) × PythonVersion}
    (h : w.findRuntimeVersioned pid = .ok found) :
    w.searchPidAndChildren pid = .ok found.1 ∧ 13 ≤ found.2.minor := by
  unfold findRuntimeVersioned at h
  rw [hw] at h
  dsimp only at h
  split_ifs at h with hmajor hminor
  · cases hs : w.searchPidAndChildren pid with
    | error e =>
      rw [findRuntime, hs] at h
      cases h
    | ok r =>
      rw [findRuntime, hs] at h
      obtain rfl := Except.ok.inj h
      exact ⟨rfl, hminor⟩
  · exfalso
    rcases hv with hv | ⟨-, hv⟩
    · rw [not_not.mp hmajor] at hv
      exact absurd hv (by decide)
    · exact hminor hv

/-- **An attach reads everything at the runtime address in the process it was asked for**, whichever
process the address was found in. -/
theorem usesOnly_attach {version : PythonVersion} (hw : w.version pid = .ok version)
    (hv : version.HasDebugOffsets) (hs : w.searchPidAndChildren pid = .ok (addr, path)) :
    UsesOnly pid addr (fun a => a.use = ⟨pid, addr⟩) (w.attach b pid) := by
  refine (Logs.lift fun h hh => openHandle_process hh).bind fun h hp => ?_
  refine (Logs.lift fun found hf => findRuntimeVersioned_ok hw hv hf).bind ?_
  rintro ⟨⟨addr', path'⟩, detected⟩ ⟨hs', hminor⟩
  obtain ⟨rfl, rfl⟩ := Prod.mk.inj (Except.ok.inj (hs.symm.trans hs'))
  refine (usesOnly_cachedLayout hp _).bind fun cached _ => ?_
  cases cached with
  | some entry => exact Logs.pure (by rw [Attached.use, hp])
  | none =>
    exact (usesOnly_parsedLayout hs hminor _).bind fun _ _ => Logs.pure (by rw [Attached.use, hp])

theorem usesOnly_softReattach {a : Attached} (ha : a.pid = pid) {version : PythonVersion}
    (hw : w.version pid = .ok version) (hv : version.HasDebugOffsets)
    (hs : w.searchPidAndChildren pid = .ok (addr, path)) :
    UsesOnly pid addr (fun r => r.1 = true → r.2.use = ⟨pid, addr⟩) (w.softReattach a) := by
  unfold softReattach
  rw [ha]
  refine (Logs.lift fun h hh => openHandle_process hh).bind fun h hp => ?_
  refine (Logs.lift fun found hf => findRuntimeVersioned_ok hw hv hf).bind ?_
  rintro ⟨⟨addr', path'⟩, detected⟩ ⟨hs', hminor⟩
  obtain ⟨rfl, rfl⟩ := Prod.mk.inj (Except.ok.inj (hs.symm.trans hs'))
  dsimp only
  split_ifs with hk
  · exact Logs.pure fun h => nomatch h
  cases a.session.storedHex with
  | none => exact Logs.pure fun _ => by rw [Attached.use, hp]
  | some hex =>
    refine (usesOnly_readRuntime hp 8 8).bind fun bytes _ => ?_
    split_ifs with hhex
    · exact Logs.pure fun h => nomatch h
    · exact Logs.pure fun _ => by rw [Attached.use, hp]

theorem attach_fails (addr : BitVec 64) {version : PythonVersion}
    (hw : w.version pid = .ok version) (hv : version.HasDebugOffsets) {e : FindError}
    (hs : w.searchPidAndChildren pid = .error e) :
    UsesOnly pid addr (fun _ => False) (w.attach b pid) := by
  refine (Logs.lift (Q := fun _ => True) fun _ _ => trivial).bind fun h _ => ?_
  refine (Logs.lift (Q := fun _ => False) fun found hf => ?_).bind fun _ hfalse => hfalse.elim
  have := (findRuntimeVersioned_ok hw hv hf).1
  rw [hs] at this
  cases this

theorem softReattach_fails (addr : BitVec 64) {a : Attached} (ha : a.pid = pid)
    {version : PythonVersion} (hw : w.version pid = .ok version) (hv : version.HasDebugOffsets)
    {e : FindError} (hs : w.searchPidAndChildren pid = .error e) :
    UsesOnly pid addr (fun _ => False) (w.softReattach a) := by
  unfold softReattach
  rw [ha]
  refine (Logs.lift (Q := fun _ => True) fun _ _ => trivial).bind fun h _ => ?_
  refine (Logs.lift (Q := fun _ => False) fun found hf => ?_).bind fun _ hfalse => hfalse.elim
  have := (findRuntimeVersioned_ok hw hv hf).1
  rw [hs] at this
  cases this

variable (w b)

/-- Every read at a runtime address is made in the process where the search found the address. -/
def UsedWhereFound (pid : Pid) (uses : List RuntimeUse) : Prop :=
  ∀ u ∈ uses, ∃ path, w.locate pid = .ok (u.process, u.runtimeAddr, path)

variable {w b}

/-- Reads in the process asked for are reads where the address was found exactly where that process
has a section of its own. -/
theorem usedWhereFound_of_uses (hs : w.searchPidAndChildren pid = .ok (addr, path))
    {uses : List RuntimeUse} (huses : ∀ u ∈ uses, u = ⟨pid, addr⟩) {last : RuntimeUse}
    (hlast : last = ⟨pid, addr⟩) :
    w.UsedWhereFound pid (uses ++ [last]) ↔ w.HasRuntime pid := by
  rw [← w.locate_self_iff hs]
  constructor
  · intro h
    obtain ⟨path', hl⟩ := h last (List.mem_append_right _ List.mem_cons_self)
    rw [hlast] at hl
    have hmap := w.searchPidAndChildren_eq pid
    rw [hs, hl] at hmap
    obtain ⟨-, hpath⟩ := Prod.mk.inj (Except.ok.inj hmap)
    rw [hl, hpath]
  · intro h u hu
    have hu' : u = ⟨pid, addr⟩ := by
      rcases List.mem_append.mp hu with hu | hu
      · exact huses u hu
      · rw [List.mem_singleton.mp hu, hlast]
    exact ⟨path, by rw [hu', h]⟩

/-- **An address is used in the process it was found in exactly where the process asked for has a
section of its own**, for every attach and every re-attach that succeeds. -/
theorem usedWhereFound_iff (w : Machine) (b : Build) (pid : Pid) {version : PythonVersion}
    (hw : w.version pid = .ok version) (hv : version.HasDebugOffsets) :
    (∀ caches a caches' uses, w.attach b pid (caches, []) = .ok (a, caches', uses) →
      (w.UsedWhereFound pid (uses ++ [a.use]) ↔ w.HasRuntime pid)) ∧
    (∀ a : Attached, a.pid = pid → ∀ caches a' caches' uses,
      w.softReattach a (caches, []) = .ok ((true, a'), caches', uses) →
      (w.UsedWhereFound pid (uses ++ [a'.use]) ↔ w.HasRuntime pid)) := by
  cases hs : w.searchPidAndChildren pid with
  | error e =>
    refine ⟨fun caches a caches' uses h => ?_, fun a ha caches a' caches' uses h => ?_⟩
    · exact (attach_fails 0 hw hv hs _ _ _ h).2.elim
    · exact (softReattach_fails 0 ha hw hv hs _ _ _ h).2.elim
  | ok found =>
    obtain ⟨addr, path⟩ := found
    refine ⟨fun caches a caches' uses h => ?_, fun a ha caches a' caches' uses h => ?_⟩
    · obtain ⟨⟨us, hus, huses⟩, hlast⟩ := usesOnly_attach hw hv hs _ _ _ h
      rw [List.nil_append] at hus
      obtain rfl : uses = us := hus
      exact usedWhereFound_of_uses hs huses hlast
    · obtain ⟨⟨us, hus, huses⟩, hlast⟩ := usesOnly_softReattach ha hw hv hs _ _ _ h
      rw [List.nil_append] at hus
      obtain rfl : uses = us := hus
      exact usedWhereFound_of_uses hs huses (hlast rfl)

/-- What opening a process anew finds. -/
def reopen (w : Machine) (pid : Pid) : Option Reopened :=
  match w.openHandle pid, w.findRuntimeVersioned pid with
  | .ok handle, .ok ((runtimeAddr, modulePath), _) =>
    some ⟨handle.memory, runtimeAddr, w.exeKey modulePath⟩
  | _, _ => none

/-- **The re-attach is the one a failed read is answered with.** -/
theorem softReattach_session (a : Attached) (s : Caches × List RuntimeUse) :
    (match w.softReattach a s with
      | .ok ((same, a'), _) => some (same, a'.session)
      | .error _ => none) = a.session.softReattach (w.reopen a.pid) := by
  unfold softReattach PySession.softReattach reopen
  cases hh : w.openHandle a.pid with
  | error e => rfl
  | ok handle =>
    cases hf : w.findRuntimeVersioned a.pid with
    | error e => rfl
    | ok found =>
      obtain ⟨⟨runtimeAddr, modulePath⟩, detected⟩ := found
      simp only [Logged.lift, Except.map, bind, StateT.bind, Except.bind, Option.bind]
      by_cases hk : w.exeKey modulePath = a.session.exeKey
      · simp only [hk, ne_eq, not_true_eq_false, if_false]
        cases hx : a.session.storedHex with
        | none => rfl
        | some hex =>
          simp only [Handle.readRuntime, Logged.log, bind, StateT.bind, Except.bind,
            PySession.readU64, PySession.read]
          cases hr : handle.memory.read (runtimeAddr + 8) 8 with
          | none => rfl
          | some bytes =>
            simp only [pure]
            delta StateT.pure
            simp only [pure, Except.pure]
            split_ifs <;> rfl
      · simp only [hk, ne_eq, not_false_eq_true, if_true]
        rfl

/-! ## A launcher and its interpreter -/

/-- A parent whose module has no valid section in memory, and the child it started. At the address of
the child's runtime the parent holds a version word of its own. -/
def launcher : Machine where
  children pid := if pid = 1 then [2] else []
  modules pid := .ok [("python", if pid = 1 then 0x1000 else 0x2000)]
  runtimeSection _ baseAddr := some (baseAddr + 0x4000)
  memory pid := some (.padded fun addr =>
    if addr = 0x6008 then wordBytes 0x030f00b1
    else if pid = 2 ∧ addr = 0x6000 then cookie else [])
  version _ := .ok ⟨3, 15, 0, 0xB, 1⟩
  legacyRuntime _ := .error ""
  legacyTable _ := none
  exeKey _ := none
  cmdline _ := none

/-- A build that reads the debug offsets of one layout. -/
def oneLayout : Build where
  registry := .shipped
  candidates := .shipped
  offsetsSize _ := 8
  parseOffsets _ _ := .instrumented

/-- No caches. -/
def noCaches : Caches := ⟨fun _ => none, fun _ _ => none⟩

/-- **An attach reads in the parent at an address found in the child.** -/
theorem launcher_misread : ¬ ∀ a caches' uses,
    launcher.attach oneLayout 1 (noCaches, []) = .ok (a, caches', uses) →
      launcher.UsedWhereFound 1 (uses ++ [a.use]) := by
  intro h
  have hrun : ∃ a caches' uses, launcher.attach oneLayout 1 (noCaches, []) = .ok (a, caches', uses) ∧
      a.use = ⟨1, 0x6000⟩ := ⟨_, _, _, rfl, rfl⟩
  obtain ⟨a, caches', uses, hok, huse⟩ := hrun
  obtain ⟨path, hl⟩ := h a caches' uses hok a.use (List.mem_append_right _ List.mem_cons_self)
  rw [huse, show launcher.locate 1 = .ok (2, 0x6000, "python") by rfl] at hl
  exact absurd (Prod.mk.inj (Except.ok.inj hl)).1 (by decide)

/-- Attaching to the child reads in the child. -/
theorem interpreter_read : ∃ a caches' uses,
    launcher.attach oneLayout 2 (noCaches, []) = .ok (a, caches', uses) ∧
      launcher.UsedWhereFound 2 (uses ++ [a.use]) :=
  have hrun : ∃ a caches' uses,
      launcher.attach oneLayout 2 (noCaches, []) = .ok (a, caches', uses) := ⟨_, _, _, rfl⟩
  let ⟨a, caches', uses, hok⟩ := hrun
  ⟨a, caches', uses, hok,
    ((usedWhereFound_iff launcher oneLayout 2
      (show launcher.version 2 = .ok ⟨3, 15, 0, 0xB, 1⟩ from rfl) (.inr ⟨rfl, by decide⟩)).1
      noCaches a caches' uses hok).mpr ⟨(0x6000, "python"), rfl⟩⟩

end Machine

end GcScope
