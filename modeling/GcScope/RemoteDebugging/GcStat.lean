import Mathlib.Data.Rat.Floor
import GcScope.Lib.LittleEndian
import GcScope.Lib.MachineInt

/-!
# Records: decoded views of an Entry

A `GcStat` is a view over the bytes of one Entry of a generation's ring, read through the field
layout of the build (`GcItemLayout`, name to byte offset). Which fields an Entry has is a property
of the layout; a field it lacks reads as absent, and the typed accessors fall back to zero.

* `GcStat.isComplete`: whether an Entry describes a finished Collection.
* `GcStat.inI64_get`: every field value is a signed 64-bit integer.
* `F64`: the floating-point operations the program applies to durations, and `Secs`, the same
  operations without rounding error.
-/

set_option autoImplicit false

namespace GcScope

open LittleEndian MachineInt

/-- The double-precision operations the program uses on durations. -/
class F64 (F : Type) where
  ofBits : BitVec 64 → F
  ofInt : ℤ → F
  sub : F → F → F
  mul : F → F → F
  div : F → F → F
  round : F → F
  isFinite : F → Bool
  /-- The cast to a signed 64-bit integer, which saturates. -/
  toI64 : F → ℤ

/-- Seconds as exact rationals, under a reading of the published word. -/
def Secs (_ofBits : BitVec 64 → ℚ) : Type := ℚ

instance (ofBits : BitVec 64 → ℚ) : F64 (Secs ofBits) where
  ofBits := ofBits
  ofInt n := (n : ℚ)
  sub a b := Rat.sub a b
  mul a b := Rat.mul a b
  div a b := Rat.div a b
  -- halves round away from zero
  round (q : ℚ) := ((if 0 ≤ q then ⌊q + 1 / 2⌋ else ⌈q - 1 / 2⌉ : ℤ) : ℚ)
  isFinite _ := true
  toI64 (q : ℚ) := clamp64 (if 0 ≤ q then ⌊q⌋ else ⌈q⌉)

/-- The field layout of one Entry: its size and the byte offset of each named field. -/
structure GcItemLayout where
  itemSize : ℕ
  fields : List (String × ℕ)
  deriving DecidableEq

namespace GcItemLayout

def hasField (l : GcItemLayout) (name : String) : Bool := l.fields.any fun f => f.1 == name

def fieldOffset (l : GcItemLayout) (name : String) : Option ℕ :=
  (l.fields.find? fun f => f.1 == name).map Prod.snd

end GcItemLayout

/-- One decoded Entry: where it was read, its bytes, and the layout to read them with. -/
structure GcStat where
  generation : ℕ
  index : ℕ
  interpreterId : ℤ
  bytes : List UInt8
  layout : GcItemLayout
  deriving DecidableEq

namespace GcStat

variable (s : GcStat)

/-- The 64-bit word at `off`, or `none` where the Entry is too short. -/
def rawAt (off : ℕ) : Option (BitVec 64) := readWord s.bytes off

/-- The signed value of a field, or `none` where this layout lacks it. -/
def get (name : String) : Option ℤ :=
  ((s.layout.fieldOffset name).bind s.rawAt).map BitVec.toInt

/-- The double a field holds. -/
def getF64 {F : Type} [F64 F] (name : String) : Option F :=
  ((s.layout.fieldOffset name).bind s.rawAt).map F64.ofBits

/-- Whether this build's layout defines a field. -/
def has (name : String) : Bool := s.layout.hasField name

/-- Whether this build publishes the timestamps that bound a Collection. -/
def hasTiming : Bool := s.has "ts_start" && s.has "ts_stop"

def tsStart : ℤ := (s.get "ts_start").getD 0
def tsStop : ℤ := (s.get "ts_stop").getD 0
def collections : ℤ := (s.get "collections").getD 0
def collected : ℤ := (s.get "collected").getD 0
def uncollectable : ℤ := (s.get "uncollectable").getD 0
def candidates : ℤ := (s.get "candidates").getD 0
def duration {F : Type} [F64 F] : F := (s.getF64 "duration").getD (F64.ofBits 0)
def heapSize : ℤ := (s.get "heap_size").getD 0

/-- Whether the Entry describes a finished Collection. A layout without both timestamps cannot
answer the question, and its Entries all count as complete. -/
def isComplete : Bool := if !s.hasTiming then true else decide (s.tsStart < s.tsStop)

/-! ## Field values are machine words -/

theorem inI64_toInt (w : BitVec 64) : InI64 w.toInt :=
  ⟨BitVec.le_toInt w, BitVec.toInt_lt⟩

theorem inI64_get {name : String} {v : ℤ} (h : s.get name = some v) : InI64 v := by
  obtain ⟨w, -, rfl⟩ := Option.map_eq_some_iff.mp h
  exact inI64_toInt w

theorem inI64_getD_get (name : String) : InI64 ((s.get name).getD 0) := by
  cases h : s.get name with
  | none => exact inI64_zero
  | some v => exact s.inI64_get h

theorem inI64_collections : InI64 s.collections := s.inI64_getD_get _

theorem isComplete_of_hasTiming (h : s.hasTiming = true) :
    s.isComplete = decide (s.tsStart < s.tsStop) := by
  rw [isComplete, h]; rfl

end GcStat

end GcScope
