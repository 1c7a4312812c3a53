import GcScope.Lib.Guarded
import GcScope.Lib.HexText

/-!
# Checking the debug offsets of a process

The offsets a process publishes are checked before a person reads them: the cookie, the version, the
sizes of the sections, and for the fields the program reads that they lie inside their section. All of
it comes from another process's memory.

* `PyDebugOffsets`: the published block, with `sectionSizes` and `checkedFields`.
* `validateOffsets`: the checks, in a build that stops where an addition overflows.
* `ValidationReport.display`: the report; `summary_mem_display` says when it ends in the summary.
* **`validateOffsets_iff`**: the verdicts are exact where no field lies in the last eight bytes of the
  address range.
* `field_at_top_panics`: a block that ends the report.
-/

set_option autoImplicit false

namespace GcScope

/-! ## Reports -/

structure Check where
  name : String
  passed : Bool
  detail : String
  deriving DecidableEq

structure ValidationReport where
  checks : List Check
  deriving DecidableEq

/-- A text with blanks behind it, up to a width. -/
def padRight (width : ℕ) (s : String) : String :=
  s ++ String.ofList (List.replicate (width - s.length) ' ')

/-- The line of a check. -/
def Check.line (c : Check) : String :=
  "  " ++ padRight 24 c.name ++ " " ++ (if c.passed then "✓" else "✗") ++ "  " ++ c.detail

namespace ValidationReport

/-- The last line of a report without a failed check. -/
def summary : String := "  all checks passed ✓"

/-- The lines of the report. -/
def display (r : ValidationReport) : List String :=
  let out := r.checks.foldl (fun out c => (out.1 ++ [c.line], out.2 && c.passed))
    (["", "[validation]"], true)
  out.1 ++ if out.2 then [summary] else []

theorem foldl_display (checks : List Check) (lines : List String) (allPassed : Bool) :
    checks.foldl (fun out c => (out.1 ++ [c.line], out.2 && c.passed)) (lines, allPassed) =
      (lines ++ checks.map Check.line, allPassed && checks.all Check.passed) := by
  induction checks generalizing lines allPassed with
  | nil => simp
  | cons c checks ih =>
    rw [List.foldl_cons, ih, List.map_cons, List.all_cons, List.append_assoc, Bool.and_assoc]
    rfl

theorem line_ne_summary (c : Check) : c.line ≠ summary := by
  intro h
  have hlen := congrArg String.length h
  have hpad : 24 ≤ (padRight 24 c.name).length := by
    simp only [padRight, String.length_append, String.length_ofList, List.length_replicate]
    omega
  have hsum : summary.length = 21 := by decide
  have hblank : "  ".length = 2 := by decide
  rw [hsum, Check.line] at hlen
  simp only [String.length_append, hblank] at hlen
  omega

/-- **The report says that all checks passed exactly when they did.** -/
theorem summary_mem_display (r : ValidationReport) :
    summary ∈ r.display ↔ ∀ c ∈ r.checks, c.passed = true := by
  have hlines : summary ∉ ["", "[validation]"] ++ r.checks.map Check.line := by
    rw [List.mem_append, not_or]
    refine ⟨by decide, fun h => ?_⟩
    obtain ⟨c, -, hc⟩ := List.mem_map.mp h
    exact line_ne_summary c hc
  rw [display, foldl_display, Bool.true_and, ← List.all_eq_true, List.mem_append,
    or_iff_right hlines]
  cases r.checks.all Check.passed <;> simp

end ValidationReport

/-! ## The published block -/

/-- A section of which only the size is checked. -/
structure SizedSection where
  size : BitVec 64
  deriving DecidableEq

structure RuntimeStateOffsets extends SizedSection where
  finalizing : BitVec 64
  interpretersHead : BitVec 64
  deriving DecidableEq

structure InterpreterStateOffsets extends SizedSection where
  gc : BitVec 64
  threadsHead : BitVec 64
  threadsMain : BitVec 64
  deriving DecidableEq

structure ThreadStateOffsets extends SizedSection where
  interp : BitVec 64
  currentFrame : BitVec 64
  deriving DecidableEq

structure InterpreterFrameOffsets extends SizedSection where
  previous : BitVec 64
  deriving DecidableEq

structure CodeObjectOffsets extends SizedSection where
  filename : BitVec 64
  coCodeAdaptive : BitVec 64
  deriving DecidableEq

structure SetObjectOffsets extends SizedSection where
  table : BitVec 64
  deriving DecidableEq

structure DictObjectOffsets extends SizedSection where
  maKeys : BitVec 64
  deriving DecidableEq

structure GcOffsets extends SizedSection where
  collecting : BitVec 64
  frame : BitVec 64
  generationStats : BitVec 64
  deriving DecidableEq

/-- The debug offsets of a process, as far as they are checked. -/
structure PyDebugOffsets where
  cookie : Vector UInt8 8
  version : BitVec 64
  freeThreaded : BitVec 64
  runtimeState : RuntimeStateOffsets
  interpreterState : InterpreterStateOffsets
  threadState : ThreadStateOffsets
  interpreterFrame : InterpreterFrameOffsets
  codeObject : CodeObjectOffsets
  pyobject : SizedSection
  typeObject : SizedSection
  heapTypeObject : SizedSection
  tupleObject : SizedSection
  listObject : SizedSection
  setObject : SetObjectOffsets
  dictObject : DictObjectOffsets
  floatObject : SizedSection
  longObject : SizedSection
  bytesObject : SizedSection
  unicodeObject : SizedSection
  gc : GcOffsets
  genObject : SizedSection
  deriving DecidableEq

/-- A field that is checked against the size of its section. -/
structure CheckedField where
  name : String
  field : BitVec 64
  size : BitVec 64
  deriving DecidableEq

/-- The eight bytes of the field lie inside its section. -/
def CheckedField.Inside (f : CheckedField) : Prop := f.field.toNat + 8 ≤ f.size.toNat

instance (f : CheckedField) : Decidable f.Inside := by unfold CheckedField.Inside; infer_instance

namespace PyDebugOffsets

variable (off : PyDebugOffsets)

/-- The sections whose size is checked. -/
def sectionSizes : List (String × BitVec 64) :=
  [("runtime_state.size", off.runtimeState.size),
    ("interpreter_state.size", off.interpreterState.size),
    ("thread_state.size", off.threadState.size),
    ("interpreter_frame.size", off.interpreterFrame.size),
    ("code_object.size", off.codeObject.size),
    ("pyobject.size", off.pyobject.size),
    ("type_object.size", off.typeObject.size),
    ("heap_type_object.size", off.heapTypeObject.size),
    ("tuple_object.size", off.tupleObject.size),
    ("list_object.size", off.listObject.size),
    ("set_object.size", off.setObject.size),
    ("dict_object.size", off.dictObject.size),
    ("float_object.size", off.floatObject.size),
    ("long_object.size", off.longObject.size),
    ("bytes_object.size", off.bytesObject.size),
    ("unicode_object.size", off.unicodeObject.size),
    ("gc.size", off.gc.size),
    ("gen_object.size", off.genObject.size)]

/-- The fields whose bounds are checked. -/
def checkedFields : List CheckedField :=
  [⟨"runtime_state.finalizing", off.runtimeState.finalizing, off.runtimeState.size⟩,
    ⟨"runtime_state.interpreters_head", off.runtimeState.interpretersHead, off.runtimeState.size⟩,
    ⟨"interpreter_state.gc", off.interpreterState.gc, off.interpreterState.size⟩,
    ⟨"interpreter_state.threads_head", off.interpreterState.threadsHead, off.interpreterState.size⟩,
    ⟨"interpreter_state.threads_main", off.interpreterState.threadsMain, off.interpreterState.size⟩,
    ⟨"thread_state.interp", off.threadState.interp, off.threadState.size⟩,
    ⟨"thread_state.current_frame", off.threadState.currentFrame, off.threadState.size⟩,
    ⟨"gc.collecting", off.gc.collecting, off.gc.size⟩,
    ⟨"gc.frame", off.gc.frame, off.gc.size⟩,
    ⟨"gc.generation_stats", off.gc.generationStats, off.gc.size⟩,
    ⟨"interpreter_frame.previous", off.interpreterFrame.previous, off.interpreterFrame.size⟩,
    ⟨"code_object.filename", off.codeObject.filename, off.codeObject.size⟩,
    ⟨"code_object.co_code_adaptive", off.codeObject.coCodeAdaptive, off.codeObject.size⟩,
    ⟨"set_object.table", off.setObject.table, off.setObject.size⟩,
    ⟨"dict_object.ma_keys", off.dictObject.maKeys, off.dictObject.size⟩]

end PyDebugOffsets

/-! ## The checks -/

/-- `0x` and eight digits, or more where there are more. -/
def hex08 (w : BitVec 64) : String := "0x" ++ String.ofList (HexText.padded 8 w.toNat)

/-- The bytes of `xdebugpy`. -/
def cookieBytes : List UInt8 := [0x78, 0x64, 0x65, 0x62, 0x75, 0x67, 0x70, 0x79]

def checkCookie (cookie : Vector UInt8 8) : Check :=
  let ok := cookieBytes.isPrefixOf cookie.toList
  ⟨"cookie", ok, if ok then "\"xdebugpy\"" else "mismatch"⟩

def checkVersion (version expected : BitVec 64) : Check :=
  ⟨"version", version == expected, "expected " ++ hex08 expected ++ ", got " ++ hex08 version⟩

def checkFreeThreaded (freeThreaded : BitVec 64) : Check :=
  ⟨"free_threaded", freeThreaded == 0, toString freeThreaded.toNat ++ " (expected 0)"⟩

def checkSize (s : String × BitVec 64) : Check :=
  let ok := decide (0 < s.2)
  ⟨s.1, ok, if ok then toString s.2.toNat else "0 (expected > 0)"⟩

/-- The check of a field that was found in bounds or not. -/
def fieldCheck (f : CheckedField) (ok : Bool) : Check :=
  ⟨f.name, ok,
    if ok then toString f.field.toNat ++ " + 8 <= " ++ toString f.size.toNat
    else toString f.field.toNat ++ " + 8 > " ++ toString f.size.toNat ++ " (out of bounds)"⟩

/-- Whether a field is in bounds; its end is a sum of two words. -/
def checkField (f : CheckedField) : Option Check :=
  (checkedAdd f.field 8).map fun stop => fieldCheck f (decide (stop ≤ f.size))

/-- The report on a block, or nothing where the build stops. -/
def validateOffsets (off : PyDebugOffsets) (expectedVersion : BitVec 64) :
    Option ValidationReport :=
  (off.checkedFields.mapM checkField).map fun fields =>
    ⟨[checkCookie off.cookie, checkVersion off.version expectedVersion,
      checkFreeThreaded off.freeThreaded] ++ off.sectionSizes.map checkSize ++ fields⟩

/-! ## The verdicts -/

/-- **A field is judged exactly where its end is a word.** -/
theorem guarded_checkField (f : CheckedField) :
    Guarded (checkField f) (f.field.toNat + 8 < 2 ^ 64) (fieldCheck f (decide f.Inside)) := by
  refine ((guarded_checkedAdd f.field 8).map _).value fun hfit => ?_
  have hstop : f.field + 8 ≤ f.size ↔ f.Inside := by
    rw [BitVec.le_def, BitVec.toNat_add, Nat.mod_eq_of_lt hfit]
    rfl
  rw [decide_eq_decide.mpr hstop]

namespace PyDebugOffsets

variable (off : PyDebugOffsets) (expectedVersion : BitVec 64)

/-- The report of exact arithmetic. -/
def exactReport : ValidationReport :=
  ⟨[checkCookie off.cookie, checkVersion off.version expectedVersion,
    checkFreeThreaded off.freeThreaded] ++ off.sectionSizes.map checkSize ++
      off.checkedFields.map fun f => fieldCheck f (decide f.Inside)⟩

/-- What a report is to say of a block. -/
structure WellFormed : Prop where
  cookie : cookieBytes <+: off.cookie.toList
  version : off.version = expectedVersion
  freeThreaded : off.freeThreaded = 0
  sizes : ∀ s ∈ off.sectionSizes, 0 < s.2.toNat
  fields : ∀ f ∈ off.checkedFields, f.Inside

theorem guarded_validateOffsets :
    Guarded (validateOffsets off expectedVersion)
      (∀ f ∈ off.checkedFields, f.field.toNat + 8 < 2 ^ 64) (off.exactReport expectedVersion) :=
  (Guarded.mapM off.checkedFields fun f _ => guarded_checkField f).map _

theorem exactReport_passed_iff :
    (∀ c ∈ (off.exactReport expectedVersion).checks, c.passed = true) ↔
      off.WellFormed expectedVersion := by
  simp only [exactReport, List.forall_mem_append, List.forall_mem_cons, List.forall_mem_map]
  constructor
  · rintro ⟨⟨⟨hcookie, hversion, hfree, -⟩, hsizes⟩, hfields⟩
    refine ⟨List.isPrefixOf_iff_prefix.mp hcookie, eq_of_beq hversion, eq_of_beq hfree,
      fun s hs => ?_, fun f hf => of_decide_eq_true (hfields f hf)⟩
    exact BitVec.lt_def.mp (of_decide_eq_true (hsizes s hs))
  · intro h
    refine ⟨⟨⟨List.isPrefixOf_iff_prefix.mpr h.cookie, beq_iff_eq.mpr h.version,
      beq_iff_eq.mpr h.freeThreaded, fun _ hc => nomatch hc⟩, fun s hs => ?_⟩,
      fun f hf => decide_eq_true (h.fields f hf)⟩
    exact decide_eq_true (BitVec.lt_def.mpr (h.sizes s hs))

/-- The verdicts on the fields follow the checks of the block and of the sizes. -/
theorem drop_exactReport : (off.exactReport expectedVersion).checks.drop 21 =
    off.checkedFields.map fun f => fieldCheck f (decide f.Inside) := rfl

/-- **When a validation is exact.** It yields a report in which every bounds check is the one of exact
arithmetic, and which says that all passed exactly for the well-formed blocks, where and only where
the end of every checked field is a word. -/
theorem validateOffsets_iff :
    (∃ report, validateOffsets off expectedVersion = some report ∧
      (report.checks.drop 21).map (fun c => (c.name, c.passed)) =
        off.checkedFields.map (fun f => (f.name, decide f.Inside)) ∧
      (ValidationReport.summary ∈ report.display ↔ off.WellFormed expectedVersion)) ↔
      ∀ f ∈ off.checkedFields, f.field.toNat + 8 < 2 ^ 64 := by
  constructor
  · rintro ⟨report, hreport, -⟩
    exact ((off.guarded_validateOffsets expectedVersion report).mp hreport).1
  · intro hfit
    refine ⟨_, (off.guarded_validateOffsets expectedVersion).of_holds hfit, ?_, ?_⟩
    · rw [drop_exactReport, List.map_map]
      rfl
    · rw [ValidationReport.summary_mem_display, exactReport_passed_iff]

/-- A block whose sections hold `0x400` bytes, with one field at the top of the address range. -/
def fieldAtTop : PyDebugOffsets where
  cookie := ⟨⟨cookieBytes⟩, rfl⟩
  version := 0x030f00b1
  freeThreaded := 0
  runtimeState := ⟨⟨0x400⟩, 0, 8⟩
  interpreterState := ⟨⟨0x400⟩, 0, 8, 16⟩
  threadState := ⟨⟨0x400⟩, 0, 8⟩
  interpreterFrame := ⟨⟨0x400⟩, 0⟩
  codeObject := ⟨⟨0x400⟩, 0, 8⟩
  pyobject := ⟨0x400⟩
  typeObject := ⟨0x400⟩
  heapTypeObject := ⟨0x400⟩
  tupleObject := ⟨0x400⟩
  listObject := ⟨0x400⟩
  setObject := ⟨⟨0x400⟩, 0⟩
  dictObject := ⟨⟨0x400⟩, 0⟩
  floatObject := ⟨0x400⟩
  longObject := ⟨0x400⟩
  bytesObject := ⟨0x400⟩
  unicodeObject := ⟨0x400⟩
  gc := ⟨⟨0x400⟩, 0, 8, 0xFFFFFFFFFFFFFFFF⟩
  genObject := ⟨0x400⟩

/-- **A field at the top of the address range ends the report.** -/
theorem field_at_top_panics : validateOffsets fieldAtTop 0x030f00b1 = none := by
  have hmem : (⟨"gc.generation_stats", 0xFFFFFFFFFFFFFFFF, 0x400⟩ : CheckedField) ∈
      fieldAtTop.checkedFields := by decide
  cases h : validateOffsets fieldAtTop 0x030f00b1 with
  | none => rfl
  | some report =>
    have hfit := ((fieldAtTop.guarded_validateOffsets 0x030f00b1 report).mp h).1 _ hmem
    exact absurd hfit (by decide)

end PyDebugOffsets

end GcScope
