import GcScope.Lib.Mealy
import GcScope.RemoteDebugging.Attach

/-!
# The layouts kept between attaches

What an attach resolved is kept for the binary, and what the fallback answered for a process and a
word; later attaches reuse both, in whatever state they find the machine.

* `Machine.resolution`: the cascade where nothing was kept; `Machine.resolveLayout_eq`: what the
  fallback kept plays no part.
* `Machine.attach_ok`, `Machine.attach_of_plain`: an attach, by whether it reuses a layout.
* `Sessions.step`: attaches and re-attaches, each on the machine of its time.
* **`Sessions.layout_as_resolved`**: a session holds what the cascade answered for its binary, and the
  version word of the process it reads.
* **`Sessions.attach_as_plain`**: an attach answers as it does with nothing kept, where a binary and a
  version word determine the offsets.
-/

set_option autoImplicit false

namespace GcScope

open LittleEndian

/-! ## The cascade -/

namespace Registry

variable {reg : Registry} {cache : FallbackCache} {stored : BitVec 64}

theorem caches_none (reg : Registry) : reg.Caches fun _ _ => none :=
  fun _ _ _ h => absurd h (by simp)

theorem Caches.resolveLayout_snd (h : reg.Caches cache) (pid pid' : ℕ) :
    (reg.resolveLayout cache pid stored).2 = (reg.resolveLayout (fun _ _ => none) pid' stored).2 := by
  unfold resolveLayout
  cases PythonVersion.fromHex stored with
  | none => rfl
  | some v =>
    dsimp only
    split_ifs
    · rfl
    · cases reg.aliasOf stored with
      | some a => rfl
      | none =>
        dsimp only
        cases hc : cache pid stored with
        | some layout => rw [h pid stored layout hc]
        | none => cases reg.resolveFallbackLayout stored <;> rfl

end Registry

/-- The word at the place of the version. -/
def Handle.versionWord (h : Handle) (runtimeAddr : BitVec 64) : Option (BitVec 64) :=
  (h.memory.read (runtimeAddr + 8) 8).map fun bytes => (readWord bytes 0).getD 0

theorem Handle.readRuntime_bind_ok {α : Type} {h : Handle} {addr off : BitVec 64} {size : ℕ}
    {f : List UInt8 → Attaching α} {s : Caches × List RuntimeUse}
    {x : α × Caches × List RuntimeUse} (hx : (h.readRuntime addr off size >>= f) s = .ok x) :
    ∃ bytes, h.memory.read (addr + off) size = some bytes ∧
      f bytes (s.1, s.2 ++ [⟨h.process, addr⟩]) = .ok x := by
  simp only [readRuntime, Logged.log, bind, StateT.bind, Except.bind] at hx
  cases hread : h.memory.read (addr + off) size with
  | none =>
    rw [hread] at hx
    cases hx
  | some bytes =>
    rw [hread] at hx
    exact ⟨bytes, rfl, hx⟩

/-- The entry made of the debug offsets read. -/
def Build.entryOf (b : Build) (detected : PythonVersion) (stored : BitVec 64)
    (offsets : DebugOffsets) : CachedLayout :=
  let table := offsets.toOffsetTable b.candidates
  { resolved :=
      if b.registry.hasVerifiedLayout stored then .full offsets.toVersionedOffsets table
      else .layoutOnly offsets.toVersionedOffsets table
    version := (PythonVersion.fromHex stored).getD detected
    storedHex := some stored }

/-- The layout of a word where nothing was kept. -/
def Build.layoutOf (b : Build) (stored : BitVec 64) : Except LayoutError (LayoutTier × BitVec 64) :=
  (b.registry.resolveLayout (fun _ _ => none) 0 stored).2

namespace Machine

variable (w : Machine) (b : Build)

/-- What the cascade answers where nothing was kept. -/
def resolution (pid : Pid) (detected : PythonVersion) : Except AttachError CachedLayout :=
  (w.resolveLayout b pid detected (noCaches, [])).map Prod.fst

/-- A process as an attach finds it. -/
structure Finds (pid : Pid) (handle : Handle) (addr : BitVec 64) (path : String)
    (detected : PythonVersion) : Prop where
  opened : w.openHandle pid = .ok handle
  runtime : w.findRuntimeVersioned pid = .ok ((addr, path), detected)

variable {w b} {pid : Pid} {handle : Handle} {addr : BitVec 64} {path : String}
  {detected : PythonVersion} {s : Caches × List RuntimeUse}

theorem Finds.version (h : w.Finds pid handle addr path detected) :
    w.version pid = .ok detected ∧ detected.major = 3 ∧
      (13 ≤ detected.minor → w.findRuntime pid = .ok (addr, path)) := by
  have hruntime := h.runtime
  unfold findRuntimeVersioned at hruntime
  cases hv : w.version pid with
  | error text =>
    rw [hv] at hruntime
    cases hruntime
  | ok version =>
    rw [hv] at hruntime
    dsimp only at hruntime
    split_ifs at hruntime with hmajor hminor
    · cases hf : w.findRuntime pid with
      | error e =>
        rw [hf] at hruntime
        cases hruntime
      | ok found =>
        rw [hf] at hruntime
        obtain ⟨rfl, rfl⟩ := Prod.mk.inj (Except.ok.inj hruntime)
        exact ⟨rfl, not_not.mp hmajor, fun _ => rfl⟩
    · cases ht : w.legacyTable version with
      | none =>
        rw [ht] at hruntime
        cases hruntime
      | some table =>
        rw [ht] at hruntime
        dsimp only at hruntime
        cases hl : w.legacyRuntime pid with
        | error text =>
          rw [hl] at hruntime
          cases hruntime
        | ok found =>
          rw [hl] at hruntime
          obtain ⟨-, rfl⟩ := Prod.mk.inj (Except.ok.inj hruntime)
          exact ⟨rfl, not_not.mp hmajor, fun hminor' => absurd hminor' hminor⟩

/-- The fallbacks kept once the cascade has read the version word. -/
def fallbacksAfter (b : Build) (handle : Handle) (addr : BitVec 64) (detected : PythonVersion)
    (pid : Pid) (fallbacks : FallbackCache) : FallbackCache :=
  if 13 ≤ detected.minor then
    match handle.versionWord addr with
    | some stored => (b.registry.resolveLayout fallbacks pid stored).1
    | none => fallbacks
  else fallbacks

theorem caches_fallbacksAfter {fallbacks : FallbackCache} (h : b.registry.Caches fallbacks) :
    b.registry.Caches (fallbacksAfter b handle addr detected pid fallbacks) := by
  unfold fallbacksAfter
  split_ifs
  · cases handle.versionWord addr with
    | none => exact h
    | some stored => exact h.step pid stored
  · exact h

/-- The cascade from 3.13 on: the version word, the layout it resolves to, the offsets read through
that. -/
theorem Finds.resolveLayout_eq (h : w.Finds pid handle addr path detected)
    (hminor : 13 ≤ detected.minor) : w.resolveLayout b pid detected s =
      match handle.versionWord addr with
      | none => .error (.read (.memory (addr + 8) 8))
      | some stored =>
        match (b.registry.resolveLayout s.1.fallbacks pid stored).2 with
        | .error e => .error (.layout e)
        | .ok (_, layout) =>
          match handle.memory.read (addr + 0) (b.offsetsSize layout) with
          | none => .error (.read (.memory (addr + 0) (b.offsetsSize layout)))
          | some raw => .ok (b.entryOf detected stored (b.parseOffsets layout raw),
              ⟨s.1.layouts, (b.registry.resolveLayout s.1.fallbacks pid stored).1⟩,
              s.2 ++ [⟨handle.process, addr⟩] ++ [⟨handle.process, addr⟩]) := by
  obtain ⟨-, hmajor, hsearch⟩ := h.version
  have hfind := hsearch hminor
  have hversion : ¬ (detected.major < 3 ∨ detected.major = 3 ∧ detected.minor < 13) := by
    rw [hmajor]
    rintro (hlt | ⟨-, hlt⟩)
    · exact absurd hlt (by decide)
    · exact absurd hminor (BitVec.not_le.mpr hlt)
  unfold resolveLayout readOffsets Handle.versionWord
  rw [if_pos hminor, if_neg hversion, hfind, h.opened]
  simp only [Logged.lift, Except.map, Handle.readRuntime, Logged.log, Logged.state, bind,
    StateT.bind, Except.bind]
  cases handle.memory.read (addr + 8) 8 with
  | none => rfl
  | some bytes =>
    simp only [Option.map_some, pure]
    delta StateT.pure
    simp only [pure, Except.pure]
    cases (b.registry.resolveLayout s.1.fallbacks pid ((readWord bytes 0).getD 0)).2 with
    | error e => rfl
    | ok answer =>
      dsimp only
      cases handle.memory.read (addr + 0) (b.offsetsSize answer.2) <;> rfl

/-- **What was kept plays no part in what the cascade answers.** -/
theorem Finds.resolveLayout_map (h : w.Finds pid handle addr path detected)
    (hc : b.registry.Caches s.1.fallbacks) : ∃ uses, w.resolveLayout b pid detected s =
      (w.resolution b pid detected).map fun entry =>
        (entry, ⟨s.1.layouts, fallbacksAfter b handle addr detected pid s.1.fallbacks⟩, uses) := by
  unfold resolution fallbacksAfter
  by_cases hminor : 13 ≤ detected.minor
  · rw [h.resolveLayout_eq hminor, h.resolveLayout_eq hminor, if_pos hminor]
    cases handle.versionWord addr with
    | none => exact ⟨[], rfl⟩
    | some stored =>
      dsimp only
      rw [hc.resolveLayout_snd pid pid, noCaches]
      cases (b.registry.resolveLayout (fun _ _ => none) pid stored).2 with
      | error e => exact ⟨[], rfl⟩
      | ok answer =>
        dsimp only
        cases handle.memory.read (addr + 0) (b.offsetsSize answer.2) with
        | none => exact ⟨[], rfl⟩
        | some raw => exact ⟨_, rfl⟩
  · unfold resolveLayout
    simp only [if_neg hminor]
    cases w.legacyTable detected with
    | none => exact ⟨[], rfl⟩
    | some table => exact ⟨s.2, rfl⟩

/-! ## An attach -/

/-- The entry an attach reuses, if any. -/
def reused (caches : Caches) (handle : Handle) (addr : BitVec 64) (exeKey : Option ExeKey) :
    Except AttachError (Option CachedLayout) :=
  match exeKey.bind caches.layouts with
  | none => .ok none
  | some entry =>
    match entry.storedHex with
    | none => .ok (some entry)
    | some hex =>
      match handle.versionWord addr with
      | none => .error (.read (.memory (addr + 8) 8))
      | some word => .ok (if word = hex then some entry else none)

/-- The layouts with an entry more, where the binary can be told. -/
def keep (layouts : ExeKey → Option CachedLayout) (exeKey : Option ExeKey) (entry : CachedLayout) :
    ExeKey → Option CachedLayout :=
  match exeKey with
  | none => layouts
  | some key => Function.update layouts key (some entry)

/-- The session of an entry. -/
def sessionOf (w : Machine) (pid : Pid) (handle : Handle) (addr : BitVec 64) (path : String)
    (entry : CachedLayout) : PySession where
  memory := handle.memory
  runtimeAddr := addr
  resolved := entry.resolved
  storedHex := entry.storedHex
  exeKey := w.exeKey path
  cmdline := w.cmdline pid

theorem memory_sessionOf (w : Machine) (pid : Pid) (handle : Handle) (addr : BitVec 64)
    (path : String) (entry : CachedLayout) :
    (w.sessionOf pid handle addr path entry).memory = handle.memory := rfl

/-- What an attach hands out of an entry. -/
def attached (w : Machine) (pid : Pid) (handle : Handle) (addr : BitVec 64) (path : String)
    (entry : CachedLayout) : Attached where
  pid
  handle
  version := entry.version
  session := w.sessionOf pid handle addr path entry
  reads := memory_sessionOf w pid handle addr path entry

theorem cachedLayout_eq (handle : Handle) (addr : BitVec 64) (exeKey : Option ExeKey)
    (s : Caches × List RuntimeUse) : ∃ uses, cachedLayout handle addr exeKey s =
      (reused s.1 handle addr exeKey).map fun hit => (hit, s.1, uses) := by
  unfold reused Handle.versionWord
  cases exeKey with
  | none => exact ⟨s.2, rfl⟩
  | some key =>
    simp only [cachedLayout, Logged.state, bind, StateT.bind, Except.bind, Option.bind]
    cases hk : s.1.layouts key with
    | none => exact ⟨s.2, rfl⟩
    | some entry =>
      dsimp only [layoutStillValid]
      cases hx : entry.storedHex with
      | none => exact ⟨s.2, rfl⟩
      | some hex =>
        simp only [Handle.readRuntime, Logged.log, bind, StateT.bind, Except.bind]
        cases handle.memory.read (addr + 8) 8 with
        | none => exact ⟨[], rfl⟩
        | some bytes =>
          simp only [pure, Option.map_some]
          delta StateT.pure
          simp only [pure, Except.pure, beq_iff_eq]
          by_cases he : (readWord bytes 0).getD 0 = hex
          · exact ⟨_, by rw [if_pos he, if_pos he]; rfl⟩
          · exact ⟨_, by rw [if_neg he, if_neg he]; rfl⟩

theorem Finds.parsedLayout_eq (h : w.Finds pid handle addr path detected)
    (hc : b.registry.Caches s.1.fallbacks) (exeKey : Option ExeKey) :
    ∃ uses, w.parsedLayout b pid detected exeKey s =
      (w.resolution b pid detected).map fun entry => (entry, ⟨keep s.1.layouts exeKey entry,
        fallbacksAfter b handle addr detected pid s.1.fallbacks⟩, uses) := by
  obtain ⟨uses, hrun⟩ := h.resolveLayout_map hc
  refine ⟨uses, ?_⟩
  simp only [parsedLayout, bind, StateT.bind, hrun, Except.bind]
  cases w.resolution b pid detected with
  | error e => rfl
  | ok entry => cases exeKey <;> rfl

/-- **An attach**: an entry reused, or the cascade and its answer kept. -/
theorem Finds.attach_eq (h : w.Finds pid handle addr path detected)
    (hc : b.registry.Caches s.1.fallbacks) : ∃ uses, w.attach b pid s =
      match reused s.1 handle addr (w.exeKey path) with
      | .error e => .error e
      | .ok (some entry) => .ok (w.attached pid handle addr path entry, s.1, uses)
      | .ok none => (w.resolution b pid detected).map fun entry =>
          (w.attached pid handle addr path entry, ⟨keep s.1.layouts (w.exeKey path) entry,
            fallbacksAfter b handle addr detected pid s.1.fallbacks⟩, uses) := by
  obtain ⟨uses, hcached⟩ := cachedLayout_eq handle addr (w.exeKey path) s
  simp only [attach, Logged.lift, h.opened, h.runtime, Except.map, bind, StateT.bind, Except.bind,
    hcached]
  cases hreused : reused s.1 handle addr (w.exeKey path) with
  | error e => exact ⟨[], rfl⟩
  | ok hit =>
    cases hit with
    | some entry => exact ⟨uses, rfl⟩
    | none =>
      obtain ⟨uses', hparsed⟩ := h.parsedLayout_eq (s := (s.1, uses)) hc (w.exeKey path)
      refine ⟨uses', ?_⟩
      simp only [StateT.bind, bind, hparsed]
      cases w.resolution b pid detected <;> rfl

theorem finds_of_attach {r : Attached × Caches × List RuntimeUse} (h : w.attach b pid s = .ok r) :
    ∃ handle addr path detected, w.Finds pid handle addr path detected := by
  obtain ⟨handle, hopen, h⟩ := Logged.lift_bind_ok h
  obtain ⟨⟨⟨addr, path⟩, detected⟩, hfind, -⟩ := Logged.lift_bind_ok h
  exact ⟨handle, addr, path, detected, hopen, hfind⟩

theorem Finds.resolution_ok (h : w.Finds pid handle addr path detected) {entry : CachedLayout}
    (hentry : w.resolution b pid detected = .ok entry) :
    (13 ≤ detected.minor ∧ ∃ stored tier layout raw, handle.versionWord addr = some stored ∧
      b.layoutOf stored = .ok (tier, layout) ∧
      handle.memory.read (addr + 0) (b.offsetsSize layout) = some raw ∧
      entry = b.entryOf detected stored (b.parseOffsets layout raw)) ∨
    ¬ 13 ≤ detected.minor ∧ ∃ table, w.legacyTable detected = some table ∧
      entry = ⟨.legacy table, detected, none⟩ := by
  unfold resolution at hentry
  by_cases hminor : 13 ≤ detected.minor
  · refine .inl ⟨hminor, ?_⟩
    rw [h.resolveLayout_eq hminor] at hentry
    cases hword : handle.versionWord addr with
    | none =>
      rw [hword] at hentry
      cases hentry
    | some stored =>
      rw [hword] at hentry
      have hpid : (b.registry.resolveLayout (fun _ _ => none) pid stored).2 =
          (b.registry.resolveLayout (fun _ _ => none) 0 stored).2 :=
        (Registry.caches_none _).resolveLayout_snd pid 0
      dsimp only [noCaches] at hentry
      rw [hpid] at hentry
      cases hlayout : b.layoutOf stored with
      | error e =>
        rw [Build.layoutOf] at hlayout
        rw [hlayout] at hentry
        cases hentry
      | ok answer =>
        rw [Build.layoutOf] at hlayout
        rw [hlayout] at hentry
        obtain ⟨tier, layout⟩ := answer
        dsimp only at hentry
        cases hraw : handle.memory.read (addr + 0) (b.offsetsSize layout) with
        | none =>
          rw [hraw] at hentry
          cases hentry
        | some raw =>
          rw [hraw] at hentry
          exact ⟨stored, tier, layout, raw, rfl, hlayout, hraw, (Except.ok.inj hentry).symm⟩
  · refine .inr ⟨hminor, ?_⟩
    simp only [resolveLayout, if_neg hminor] at hentry
    cases htable : w.legacyTable detected with
    | none =>
      rw [htable] at hentry
      cases hentry
    | some table =>
      rw [htable] at hentry
      exact ⟨table, rfl, (Except.ok.inj hentry).symm⟩

theorem Finds.versionWord_resolution (h : w.Finds pid handle addr path detected)
    {entry : CachedLayout} (hentry : w.resolution b pid detected = .ok entry) :
    ∀ hex ∈ entry.storedHex, handle.versionWord addr = some hex := by
  rintro hex hhex
  obtain ⟨-, stored, tier, layout, raw, hword, -, -, rfl⟩ | ⟨-, table, -, rfl⟩ :=
    h.resolution_ok hentry
  · rw [hword]
    exact hhex
  · cases hhex

theorem reused_some {caches : Caches} {exeKey : Option ExeKey} {entry : CachedLayout}
    (h : reused caches handle addr exeKey = .ok (some entry)) :
    (∃ key, exeKey = some key ∧ caches.layouts key = some entry) ∧
      ∀ hex ∈ entry.storedHex, handle.versionWord addr = some hex := by
  unfold reused at h
  cases hkey : exeKey.bind caches.layouts with
  | none =>
    rw [hkey] at h
    cases h
  | some kept =>
    have hkept : ∃ key, exeKey = some key ∧ caches.layouts key = some kept :=
      Option.bind_eq_some_iff.mp hkey
    rw [hkey] at h
    dsimp only at h
    cases hx : kept.storedHex with
    | none =>
      rw [hx] at h
      obtain rfl := Option.some.inj (Except.ok.inj h)
      refine ⟨hkept, fun hex hhex => ?_⟩
      rw [hx] at hhex
      cases hhex
    | some hex =>
      rw [hx] at h
      cases hword : handle.versionWord addr with
      | none =>
        rw [hword] at h
        cases h
      | some word =>
        rw [hword] at h
        dsimp only at h
        split_ifs at h with he
        · obtain rfl := Option.some.inj (Except.ok.inj h)
          refine ⟨hkept, fun hex' hhex' => ?_⟩
          rw [hx] at hhex'
          rw [he]
          exact hhex'
        · cases h

/-- **A re-attach**: nothing of the session changes, or the address and the handle alone, to a process
of the same binary with the same version word. -/
theorem softReattach_ok {a a' : Attached} {same : Bool} {s' : Caches × List RuntimeUse}
    (h : w.softReattach a s = .ok ((same, a'), s')) : s'.1 = s.1 ∧ (a' = a ∨
      ∃ handle addr path detected, w.Finds a.pid handle addr path detected ∧
        w.exeKey path = a.session.exeKey ∧
        (∀ hex ∈ a.session.storedHex, handle.versionWord addr = some hex) ∧
        a'.pid = a.pid ∧ a'.handle = handle ∧ a'.version = a.version ∧
        a'.session = { a.session with memory := handle.memory, runtimeAddr := addr }) := by
  obtain ⟨handle, hopen, h⟩ := Logged.lift_bind_ok h
  obtain ⟨⟨⟨addr, path⟩, detected⟩, hfind, h⟩ := Logged.lift_bind_ok h
  dsimp only at h
  by_cases hk : w.exeKey path = a.session.exeKey
  · rw [if_neg (not_not.mpr hk)] at h
    cases hx : a.session.storedHex with
    | none =>
      rw [hx] at h
      obtain ⟨hsame, rfl⟩ := Prod.mk.inj (Except.ok.inj h)
      obtain ⟨-, rfl⟩ := Prod.mk.inj hsame
      exact ⟨rfl, .inr ⟨handle, addr, path, detected, ⟨hopen, hfind⟩, hk,
        fun hex hhex => absurd hhex (by simp), rfl, rfl, rfl, by simp only [hx]⟩⟩
    | some hex =>
      rw [hx] at h
      obtain ⟨bytes, hread, h⟩ := Handle.readRuntime_bind_ok h
      split_ifs at h with hword
      · obtain ⟨hsame, rfl⟩ := Prod.mk.inj (Except.ok.inj h)
        exact ⟨rfl, .inl (Prod.mk.inj hsame).2.symm⟩
      · obtain ⟨hsame, rfl⟩ := Prod.mk.inj (Except.ok.inj h)
        obtain ⟨-, rfl⟩ := Prod.mk.inj hsame
        refine ⟨rfl, .inr ⟨handle, addr, path, detected, ⟨hopen, hfind⟩, hk, ?_,
          rfl, rfl, rfl, by simp only [hx]⟩⟩
        rintro hex' hhex'
        obtain rfl := Option.some.inj hhex'
        rw [Handle.versionWord, hread, Option.map_some, not_not.mp hword]
  · rw [if_pos hk] at h
    obtain ⟨hsame, rfl⟩ := Prod.mk.inj (Except.ok.inj h)
    exact ⟨rfl, .inl (Prod.mk.inj hsame).2.symm⟩

end Machine

/-! ## Runs -/

/-- An attach, or a re-attach of a session held, to the machine as it is then. -/
inductive Call where
  | attach (w : Machine) (pid : Pid)
  | softReattach (w : Machine) (session : ℕ)

def Call.machine : Call → Machine
  | attach w _ => w
  | softReattach w _ => w

/-- What the program keeps between calls, and the sessions it holds. -/
structure Sessions where
  caches : Caches
  held : List Attached

namespace Sessions

variable (b : Build)

def new : Sessions := ⟨Machine.noCaches, []⟩

/-- The fallbacks kept by an attach that fails: the struct is read after the fallback is kept. -/
def fallbacksOnFailure (w : Machine) (pid : Pid) (fallbacks : FallbackCache) : FallbackCache :=
  match w.openHandle pid, w.findRuntimeVersioned pid with
  | .ok handle, .ok ((addr, _), detected) =>
    Machine.fallbacksAfter b handle addr detected pid fallbacks
  | _, _ => fallbacks

def step (s : Sessions) : Call → Sessions × List Attached
  | .attach w pid =>
    match w.attach b pid (s.caches, []) with
    | .ok (a, caches, _) => (⟨caches, s.held ++ [a]⟩, [a])
    | .error _ =>
      ({ s with caches := { s.caches with
          fallbacks := fallbacksOnFailure b w pid s.caches.fallbacks } }, [])
  | .softReattach w i =>
    match s.held[i]? with
    | none => (s, [])
    | some a =>
      match w.softReattach a (s.caches, []) with
      | .ok ((_, a'), caches, _) => (⟨caches, s.held.set i a'⟩, [a'])
      | .error _ => (s, [])

/-- The state after some calls. -/
def after (calls : List Call) : Sessions := Mealy.exec (step b) new calls

variable {b} {calls : List Call} {s : Sessions}

/-- The cascade answered `entry` for a process of the binary, in one of the attaches. -/
def Answered (b : Build) (calls : List Call) (exeKey : Option ExeKey) (entry : CachedLayout)
    (pid : Pid) : Prop :=
  ∃ w handle addr path detected, Call.attach w pid ∈ calls ∧
    w.Finds pid handle addr path detected ∧ w.exeKey path = exeKey ∧
    w.resolution b pid detected = .ok entry

theorem Answered.concat {exeKey : Option ExeKey} {entry : CachedLayout} {pid : Pid}
    (h : Answered b calls exeKey entry pid) (c : Call) :
    Answered b (calls ++ [c]) exeKey entry pid := by
  obtain ⟨w, handle, addr, path, detected, hmem, hrest⟩ := h
  exact ⟨w, handle, addr, path, detected, List.mem_append_left _ hmem, hrest⟩

/-- What is kept is what the cascade answered. -/
structure Kept (b : Build) (calls : List Call) (caches : Caches) : Prop where
  layouts : ∀ key entry, caches.layouts key = some entry →
    ∃ pid, Answered b calls (some key) entry pid
  fallbacks : b.registry.Caches caches.fallbacks

/-- A session holds what the cascade answered for a process of its binary, its own where the binary
cannot be told; and the process it reads was found with the version word it holds. -/
structure Backed (b : Build) (calls : List Call) (a : Attached) : Prop where
  resolved : ∃ entry pid, Answered b calls a.session.exeKey entry pid ∧
    (a.session.exeKey = none → pid = a.pid) ∧ a.session.resolved = entry.resolved ∧
    a.version = entry.version ∧ a.session.storedHex = entry.storedHex
  live : ∃ c ∈ calls, ∃ path detected,
    c.machine.Finds a.pid a.handle a.session.runtimeAddr path detected ∧
    c.machine.exeKey path = a.session.exeKey ∧
    ∀ hex ∈ a.session.storedHex, a.handle.versionWord a.session.runtimeAddr = some hex

theorem Kept.concat {caches : Caches} (h : Kept b calls caches) (c : Call) :
    Kept b (calls ++ [c]) caches where
  layouts := fun key entry hkept => (h.layouts key entry hkept).imp fun _ hr => hr.concat c
  fallbacks := h.fallbacks

theorem Backed.concat {a : Attached} (h : Backed b calls a) (c : Call) :
    Backed b (calls ++ [c]) a where
  resolved := by
    obtain ⟨entry, pid, hr, hrest⟩ := h.resolved
    exact ⟨entry, pid, hr.concat c, hrest⟩
  live := by
    obtain ⟨c', hc', hrest⟩ := h.live
    exact ⟨c', List.mem_append_left _ hc', hrest⟩

/-- **An attach** hands out a session that is backed, and keeps what the cascade answered. -/
theorem Kept.attach {caches : Caches} (h : Kept b calls caches) {w : Machine} {pid : Pid}
    {a : Attached} {caches' : Caches} {uses uses' : List RuntimeUse}
    (hrun : w.attach b pid (caches, uses) = .ok (a, caches', uses')) :
    Kept b (calls ++ [.attach w pid]) caches' ∧ Backed b (calls ++ [.attach w pid]) a := by
  obtain ⟨handle, addr, path, detected, hfinds⟩ := Machine.finds_of_attach hrun
  have hcall : Call.attach w pid ∈ calls ++ [.attach w pid] :=
    List.mem_append_right _ List.mem_cons_self
  obtain ⟨uses'', hattach⟩ := hfinds.attach_eq (s := (caches, uses)) h.fallbacks
  rw [hrun] at hattach
  cases hreused : Machine.reused caches handle addr (w.exeKey path) with
  | error e =>
    rw [hreused] at hattach
    cases hattach
  | ok hit =>
    rw [hreused] at hattach
    cases hit with
    | some entry =>
      obtain ⟨rfl, hcaches⟩ := Prod.mk.inj (Except.ok.inj hattach)
      obtain ⟨rfl, -⟩ := Prod.mk.inj hcaches
      obtain ⟨⟨key, hkey, hkept⟩, hword⟩ := Machine.reused_some hreused
      obtain ⟨origin, hr⟩ := h.layouts key entry hkept
      refine ⟨h.concat _, ⟨entry, origin, ?_, fun hnone => ?_, rfl, rfl, rfl⟩,
        _, hcall, path, detected, hfinds, rfl, hword⟩
      · rw [show (w.attached pid handle addr path entry).session.exeKey = some key from hkey]
        exact hr.concat _
      · exact absurd (hkey.symm.trans hnone) (by simp)
    | none =>
      cases hentry : w.resolution b pid detected with
      | error e =>
        rw [hentry] at hattach
        cases hattach
      | ok entry =>
        rw [hentry] at hattach
        obtain ⟨rfl, hcaches⟩ := Prod.mk.inj (Except.ok.inj hattach)
        obtain ⟨rfl, -⟩ := Prod.mk.inj hcaches
        have hr : ∀ key, w.exeKey path = key → Answered b (calls ++ [.attach w pid]) key entry pid :=
          fun key hkey => ⟨w, handle, addr, path, detected, hcall, hfinds, hkey, hentry⟩
        refine ⟨⟨fun key kept hkept => ?_, Machine.caches_fallbacksAfter h.fallbacks⟩,
          ⟨entry, pid, hr _ rfl, fun _ => rfl, rfl, rfl, rfl⟩,
          _, hcall, path, detected, hfinds, rfl, hfinds.versionWord_resolution hentry⟩
        unfold Machine.keep at hkept
        cases hkey : w.exeKey path with
        | none =>
          rw [hkey] at hkept
          exact (h.concat _).layouts key kept hkept
        | some key' =>
          rw [hkey] at hkept
          by_cases he : key = key'
          · obtain rfl := he
            dsimp only at hkept
            rw [Function.update_self] at hkept
            obtain rfl := Option.some.inj hkept
            exact ⟨pid, hr _ hkey⟩
          · dsimp only at hkept
            rw [Function.update_of_ne he] at hkept
            exact (h.concat _).layouts key kept hkept

/-- **A re-attach** leaves a session backed. -/
theorem Backed.softReattach {a a' : Attached} (h : Backed b calls a) {w : Machine} {i : ℕ}
    {same : Bool} {r s' : Caches × List RuntimeUse}
    (hrun : w.softReattach a r = .ok ((same, a'), s')) :
    s'.1 = r.1 ∧ Backed b (calls ++ [.softReattach w i]) a' := by
  obtain ⟨hcaches, rfl | ⟨handle, addr, path, detected, hfinds, hkey, hword, hpid, hhandle, hversion,
    hsession⟩⟩ := Machine.softReattach_ok hrun
  · exact ⟨hcaches, h.concat _⟩
  · obtain ⟨entry, origin, hr, hself, hresolved, hversion', hhex⟩ := h.resolved
    refine ⟨hcaches, ⟨entry, origin, ?_, ?_, ?_, ?_, ?_⟩, .softReattach w i,
      List.mem_append_right _ List.mem_cons_self, path, detected, ?_, ?_, ?_⟩
    · rw [hsession]
      exact hr.concat _
    · rw [hsession, hpid]
      exact hself
    · rw [hsession]
      exact hresolved
    · rw [hversion]
      exact hversion'
    · rw [hsession]
      exact hhex
    · rw [hpid, hhandle, hsession]
      exact hfinds
    · rw [hsession]
      exact hkey
    · rw [hsession, hhandle]
      exact hword

/-- What every call preserves. -/
theorem kept_and_backed (b : Build) (calls : List Call) :
    Kept b calls (after b calls).caches ∧ ∀ a ∈ (after b calls).held, Backed b calls a := by
  unfold after
  refine Mealy.exec_history
    (P := fun pre (s : Sessions) => Kept b pre s.caches ∧ ∀ a ∈ s.held, Backed b pre a)
    ⟨⟨fun key entry hkept => absurd hkept (by simp [new, Machine.noCaches]),
      Registry.caches_none _⟩, fun a ha => absurd ha List.not_mem_nil⟩ fun pre c post _ hpre => ?_
  generalize Mealy.exec (step b) new pre = s at hpre ⊢
  obtain ⟨hkept, hheld⟩ := hpre
  cases c with
  | attach w pid =>
    dsimp only [step]
    cases hrun : w.attach b pid (s.caches, []) with
    | error e =>
      refine ⟨⟨(hkept.concat _).layouts, ?_⟩, fun a ha => (hheld a ha).concat _⟩
      dsimp only [fallbacksOnFailure]
      split
      · exact Machine.caches_fallbacksAfter hkept.fallbacks
      · exact hkept.fallbacks
    | ok r =>
      obtain ⟨a, caches', uses⟩ := r
      obtain ⟨hkept', hbacked⟩ := hkept.attach hrun
      refine ⟨hkept', fun a' ha' => ?_⟩
      rcases List.mem_append.mp ha' with ha' | ha'
      · exact (hheld a' ha').concat _
      · rw [List.mem_singleton.mp ha']
        exact hbacked
  | softReattach w i =>
    dsimp only [step]
    cases hget : s.held[i]? with
    | none => exact ⟨hkept.concat _, fun a ha => (hheld a ha).concat _⟩
    | some a =>
      dsimp only
      cases hrun : w.softReattach a (s.caches, []) with
      | error e => exact ⟨hkept.concat _, fun a ha => (hheld a ha).concat _⟩
      | ok r =>
        obtain ⟨⟨same, a'⟩, caches', uses⟩ := r
        obtain ⟨rfl, hbacked⟩ := (hheld a (List.mem_of_getElem? hget)).softReattach hrun
        refine ⟨hkept.concat _, fun a'' ha'' => ?_⟩
        rcases List.mem_or_eq_of_mem_set ha'' with ha'' | rfl
        · exact (hheld a'' ha'').concat _
        · exact hbacked

/-- **Every session held is backed**, after any calls on any machines. -/
theorem layout_as_resolved (b : Build) (calls : List Call) :
    ∀ a ∈ (after b calls).held, Backed b calls a := (kept_and_backed b calls).2

/-- The processes of `launcher`, with a binary that can be told. -/
def keyed : Machine := { Machine.launcher with exeKey := fun path => some (path, 0) }

/-- The child attached to twice, and one of the sessions attached anew. -/
theorem layout_as_resolved_keyed : ∃ a ∈
    (after Machine.oneLayout [.attach keyed 2, .attach keyed 2, .softReattach keyed 1]).held,
      a.session.exeKey = some ("python", 0) ∧ Backed Machine.oneLayout
        [.attach keyed 2, .attach keyed 2, .softReattach keyed 1] a :=
  have hheld : ∃ a,
      (after Machine.oneLayout [.attach keyed 2, .attach keyed 2, .softReattach keyed 1]).held[1]? =
        some a ∧ a.session.exeKey = some ("python", 0) := ⟨_, rfl, rfl⟩
  let ⟨a, ha, hkey⟩ := hheld
  ⟨a, List.mem_of_getElem? ha, hkey, layout_as_resolved _ _ a (List.mem_of_getElem? ha)⟩

/-! ## With and without what was kept -/

/-- What the keeping relies on: the program has one table for a version before 3.13, and processes that
run one binary are of one version and, where their version words agree, publish one set of offsets. -/
structure OfBinary (b : Build) (machines : List Machine) : Prop where
  tables : ∀ w ∈ machines, ∀ w' ∈ machines, w.legacyTable = w'.legacyTable
  detected : ∀ w ∈ machines, ∀ w' ∈ machines, ∀ {pid pid' handle handle' addr addr' path path'}
    {detected detected' : PythonVersion}, w.Finds pid handle addr path detected →
    w'.Finds pid' handle' addr' path' detected' → (w.exeKey path).isSome →
    w.exeKey path = w'.exeKey path' → detected = detected'
  offsets : ∀ w ∈ machines, ∀ w' ∈ machines, ∀ {pid pid' handle handle' addr addr' path path'}
    {detected detected' : PythonVersion}, w.Finds pid handle addr path detected →
    w'.Finds pid' handle' addr' path' detected' → (w.exeKey path).isSome →
    w.exeKey path = w'.exeKey path' → handle.versionWord addr = handle'.versionWord addr' →
    ∀ layout raw raw', handle.memory.read (addr + 0) (b.offsetsSize layout) = some raw →
    handle'.memory.read (addr' + 0) (b.offsetsSize layout) = some raw' →
    b.parseOffsets layout raw = b.parseOffsets layout raw'

section Plain

variable {w : Machine} {pid : Pid} {handle : Handle} {addr : BitVec 64} {path : String}
  {detected : PythonVersion}

/-- An entry kept for the binary of a process whose version word it carries is the answer of the
cascade for that process, unless the offsets cannot be read there. -/
theorem OfBinary.resolution (h : OfBinary b (w :: calls.map Call.machine))
    (hfinds : w.Finds pid handle addr path detected) {key : ExeKey} (hkey : w.exeKey path = some key)
    {entry : CachedLayout} {origin : Pid} (hr : Answered b calls (some key) entry origin)
    (hword : ∀ hex ∈ entry.storedHex, handle.versionWord addr = some hex) :
    w.resolution b pid detected = .ok entry ∨
      ∃ cause, w.resolution b pid detected = .error (.read cause) := by
  obtain ⟨w', handle', addr', path', detected', hmem, hfinds', hkey', hentry⟩ := hr
  have hw : w ∈ w :: calls.map Call.machine := List.mem_cons_self
  have hw' : w' ∈ w :: calls.map Call.machine :=
    List.mem_cons_of_mem _ (List.mem_map.mpr ⟨_, hmem, rfl⟩)
  have hsome : (w.exeKey path).isSome := by rw [hkey]; rfl
  obtain rfl : detected = detected' :=
    h.detected w hw w' hw' hfinds hfinds' hsome (hkey.trans hkey'.symm)
  obtain ⟨hminor, stored, tier, layout, raw', hword', hlayout, hraw', rfl⟩ |
    ⟨hminor, table, htable, rfl⟩ := hfinds'.resolution_ok hentry
  · have hlive : handle.versionWord addr = some stored := hword stored rfl
    unfold Machine.resolution
    rw [hfinds.resolveLayout_eq hminor, hlive]
    dsimp only [Machine.noCaches]
    rw [(Registry.caches_none _).resolveLayout_snd pid 0, ← Build.layoutOf, hlayout]
    dsimp only
    cases hraw : handle.memory.read (addr + 0) (b.offsetsSize layout) with
    | none => exact .inr ⟨_, rfl⟩
    | some raw =>
      refine .inl ?_
      rw [← h.offsets w hw w' hw' hfinds hfinds' hsome (hkey.trans hkey'.symm)
        (hlive.trans hword'.symm) layout raw raw' hraw hraw']
      rfl
  · refine .inl ?_
    simp only [Machine.resolution, Machine.resolveLayout, if_neg hminor,
      h.tables w hw w' hw', htable]
    rfl

theorem OfBinary.reused_ok (h : OfBinary b (w :: calls.map Call.machine))
    (hfinds : w.Finds pid handle addr path detected) {entry : CachedLayout}
    (hentry : w.resolution b pid detected = .ok entry) :
    ∃ hit, Machine.reused (after b calls).caches handle addr (w.exeKey path) = .ok hit := by
  unfold Machine.reused
  cases hkept : (w.exeKey path).bind (after b calls).caches.layouts with
  | none => exact ⟨_, rfl⟩
  | some kept =>
    dsimp only
    cases hx : kept.storedHex with
    | none => exact ⟨_, rfl⟩
    | some hex =>
      dsimp only
      obtain ⟨key, hkey, hlayout⟩ := Option.bind_eq_some_iff.mp hkept
      obtain ⟨origin, w', handle', addr', path', detected', hmem, hfinds', hkey', horigin⟩ :=
        (kept_and_backed b calls).1.layouts key kept hlayout
      obtain rfl : detected = detected' := h.detected w List.mem_cons_self w'
        (List.mem_cons_of_mem _ (List.mem_map.mpr ⟨_, hmem, rfl⟩)) hfinds hfinds'
        (by rw [hkey]; rfl) (hkey.trans hkey'.symm)
      obtain ⟨-, stored, -, -, -, hword, -⟩ | ⟨hminor, -⟩ := hfinds.resolution_ok hentry
      · rw [hword]
        exact ⟨_, rfl⟩
      · obtain ⟨hminor', -⟩ | ⟨-, table, -, rfl⟩ := hfinds'.resolution_ok horigin
        · exact absurd hminor' hminor
        · cases hx

/-- **What is kept changes no answer**: an attach that succeeds with nothing kept answers the same after
any calls, and one that succeeds after them answers the same with nothing kept, unless the offsets
cannot be read anew. -/
theorem attach_as_plain (h : OfBinary b (w :: calls.map Call.machine)) (pid : Pid) :
    (∀ a, (w.attach b pid (Machine.noCaches, [])).map Prod.fst = .ok a →
      (w.attach b pid ((after b calls).caches, [])).map Prod.fst = .ok a) ∧
    ∀ a, (w.attach b pid ((after b calls).caches, [])).map Prod.fst = .ok a →
      (w.attach b pid (Machine.noCaches, [])).map Prod.fst = .ok a ∨
        ∃ cause, (w.attach b pid (Machine.noCaches, [])).map Prod.fst = .error (.read cause) := by
  have hnone : b.registry.Caches Machine.noCaches.fallbacks := Registry.caches_none _
  -- with nothing kept an attach is the cascade
  have hplain : ∀ {handle addr path detected}, w.Finds pid handle addr path detected →
      (w.attach b pid (Machine.noCaches, [])).map Prod.fst =
        (w.resolution b pid detected).map (w.attached pid handle addr path) := by
    intro handle addr path detected hfinds
    obtain ⟨uses, hattach⟩ := hfinds.attach_eq (s := (Machine.noCaches, [])) hnone
    have hreused : Machine.reused Machine.noCaches handle addr (w.exeKey path) = .ok none := by
      unfold Machine.reused
      cases w.exeKey path <;> rfl
    rw [hattach, hreused]
    cases w.resolution b pid detected <;> rfl
  have hkept := (kept_and_backed b calls).1
  -- a layout reused is the one the cascade would answer with
  have hsame : ∀ {handle addr path detected entry}, w.Finds pid handle addr path detected →
      Machine.reused (after b calls).caches handle addr (w.exeKey path) = .ok (some entry) →
      w.resolution b pid detected = .ok entry ∨
        ∃ cause, w.resolution b pid detected = .error (.read cause) := by
    intro handle addr path detected entry hfinds hreused
    obtain ⟨⟨key, hkey, hlayout⟩, hword⟩ := Machine.reused_some hreused
    obtain ⟨origin, hr⟩ := hkept.layouts key entry hlayout
    exact h.resolution hfinds hkey hr hword
  constructor
  · intro a ha
    cases hrun : w.attach b pid (Machine.noCaches, []) with
    | error e =>
      rw [hrun] at ha
      cases ha
    | ok r =>
      obtain ⟨handle, addr, path, detected, hfinds⟩ := Machine.finds_of_attach hrun
      rw [hplain hfinds] at ha
      cases hentry : w.resolution b pid detected with
      | error e =>
        rw [hentry] at ha
        cases ha
      | ok entry =>
        rw [hentry] at ha
        obtain rfl := Except.ok.inj ha
        obtain ⟨hit, hreused⟩ := h.reused_ok hfinds hentry
        obtain ⟨uses, hattach⟩ :=
          hfinds.attach_eq (s := ((after b calls).caches, [])) hkept.fallbacks
        rw [hattach, hreused]
        cases hit with
        | none =>
          rw [hentry]
          rfl
        | some kept =>
          rcases hsame hfinds hreused with hresolved | ⟨cause, hresolved⟩
          · obtain rfl := Except.ok.inj (hentry.symm.trans hresolved)
            rfl
          · cases hentry.symm.trans hresolved
  · intro a ha
    cases hrun : w.attach b pid ((after b calls).caches, []) with
    | error e =>
      rw [hrun] at ha
      cases ha
    | ok r =>
      obtain ⟨handle, addr, path, detected, hfinds⟩ := Machine.finds_of_attach hrun
      obtain ⟨uses, hattach⟩ :=
        hfinds.attach_eq (s := ((after b calls).caches, [])) hkept.fallbacks
      rw [hplain hfinds]
      rw [hattach] at ha
      cases hreused : Machine.reused (after b calls).caches handle addr (w.exeKey path) with
      | error e =>
        rw [hreused] at ha
        cases ha
      | ok hit =>
        rw [hreused] at ha
        cases hit with
        | some entry =>
          obtain rfl := Except.ok.inj ha
          rcases hsame hfinds hreused with hresolved | ⟨cause, hresolved⟩
          · rw [hresolved]
            exact .inl rfl
          · rw [hresolved]
            exact .inr ⟨cause, rfl⟩
        | none =>
          refine .inl ?_
          cases hentry : w.resolution b pid detected with
          | error e =>
            rw [hentry] at ha
            cases ha
          | ok entry =>
            rw [hentry] at ha
            exact ha

/-- The child attached to again answers as the first attach to it. -/
theorem attach_as_plain_keyed : ∃ a, (keyed.attach Machine.oneLayout 2
    ((after Machine.oneLayout [.attach keyed 2]).caches, [])).map Prod.fst = .ok a ∧
      a.session.storedHex = some 0x030f00b1 := by
  have hmachines : ∀ w ∈ keyed :: [Call.attach keyed 2].map Call.machine, w = keyed := by
    simp [Call.machine]
  have hbinary : OfBinary Machine.oneLayout (keyed :: [Call.attach keyed 2].map Call.machine) := by
    refine ⟨fun w hw w' hw' => by rw [hmachines w hw, hmachines w' hw'], ?_, ?_⟩
    · intro w hw w' hw' pid pid' handle handle' addr addr' path path' detected detected' h h' _ _
      obtain rfl := hmachines w hw
      obtain rfl := hmachines w' hw'
      exact Except.ok.inj (h.version.1.symm.trans h'.version.1)
    · intros
      rfl
  have hplain : ∃ a, (keyed.attach Machine.oneLayout 2 (Machine.noCaches, [])).map Prod.fst = .ok a ∧
      a.session.storedHex = some 0x030f00b1 := ⟨_, rfl, rfl⟩
  obtain ⟨a, ha, hhex⟩ := hplain
  exact ⟨a, (attach_as_plain hbinary 2).1 a ha, hhex⟩

end Plain

end Sessions

end GcScope
