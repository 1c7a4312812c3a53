import Mathlib.Data.List.MinMax
import Mathlib.Data.Nat.Dist
import Mathlib.Data.Prod.Lex
import GcScope.Lib.Mealy
import GcScope.RemoteDebugging.Session

/-!
# The registry of compiled layouts

A process from 3.13 on publishes a version word. The layout to read its offsets through is the row
registered for the word, the row the word is proved equal to, or, between released patch versions of
one minor, the nearest row.

* `PythonVersion.fromHex`: the version a word encodes.
* `Registry`, `Registry.shipped`: rows and aliases, and those the program is built with.
* `Registry.resolveLayout`: the three tiers, with the cache of the fallback.
* `Registry.resolveFallbackLayout_eq_ok_iff`: the search for the nearest row.
* **`Registry.resolve_sound`**: what a word resolves to, after any history of resolutions.
-/

set_option autoImplicit false

namespace GcScope

/-! ## Version words -/

/-- A version; the release level is 0xA for an alpha, 0xB for a beta, 0xC for a release candidate
and 0xF for a final release. -/
structure PythonVersion where
  major : BitVec 8
  minor : BitVec 8
  micro : BitVec 8
  releaseLevel : BitVec 8
  serial : BitVec 8
  deriving DecidableEq

/-- The version a word encodes. -/
def PythonVersion.fromHex (v : BitVec 64) : Option PythonVersion :=
  let major := (v >>> 24 &&& 0xff).setWidth 8
  let minor := (v >>> 16 &&& 0xff).setWidth 8
  if major = 0 ∧ minor = 0 then none
  else some {
    major, minor
    micro := (v >>> 8 &&& 0xff).setWidth 8
    releaseLevel := (v >>> 4 &&& 0xf).setWidth 8
    serial := (v &&& 0xf).setWidth 8 }

def majorMinorMask : BitVec 64 := 0xffff0000

def releaseLevelFinal : BitVec 64 := 0xF

def releaseLevel (hex : BitVec 64) : BitVec 64 := hex >>> 4 &&& 0xf

inductive LayoutError where
  | invalidVersion (stored : BitVec 64)
  | preRelease (stored : BitVec 64)
  | noReleased (stored : BitVec 64)
  deriving DecidableEq

/-- The text of the error. -/
def LayoutError.message : LayoutError → String
  | invalidVersion stored =>
    "Invalid version value in _Py_DebugOffsets: " ++ hexDigits 0 stored.toNat
  | preRelease stored =>
    "Unsupported Python version " ++ hexDigits 8 stored.toNat ++
      ": this is a pre-release (alpha/beta/rc), and `_Py_DebugOffsets` changes between " ++
      "pre-releases — no other " ++ toString (stored >>> 24 &&& 0xff).toNat ++ "." ++
      toString (stored >>> 16 &&& 0xff).toNat ++ " layout can stand in for it. Generate offsets " ++
      "for this exact build with scripts/gen-offsets.py."
  | noReleased stored =>
    "Unsupported Python version " ++ hexDigits 8 stored.toNat ++
      ": no exact layout, and no *released* " ++ toString (stored >>> 24 &&& 0xff).toNat ++ "." ++
      toString (stored >>> 16 &&& 0xff).toNat ++ ".x layout is compiled in to fall back to. " ++
      "Generate offsets for this build with scripts/gen-offsets.py."

/-! ## The registry -/

/-- The version words with a compiled layout, and those proved to share one: build, layout. -/
structure Registry where
  layouts : List (BitVec 64)
  aliases : List (BitVec 64 × BitVec 64)

/-- The tier that answered for a word. -/
inductive LayoutTier where
  | exact
  | alias
  | fallback
  deriving DecidableEq

/-- Per process and word, the layout the fallback resolved to. -/
abbrev FallbackCache := ℕ → BitVec 64 → Option (BitVec 64)

/-- The part of the offsets `validate` compares: the word of the layout they were read through, and
the word read. -/
structure StampedOffsets where
  expectedVersion : BitVec 64
  storedVersion : BitVec 64

namespace Registry

variable (reg : Registry)

/-- The registered layout `stored` is proved equal to, if it is an alias. -/
def aliasOf (stored : BitVec 64) : Option (BitVec 64) :=
  (reg.aliases.find? fun a => a.1 == stored).map Prod.snd

/-- Whether there is a layout proved to describe `stored`. -/
def hasVerifiedLayout (stored : BitVec 64) : Bool :=
  reg.layouts.any (· == stored) || (reg.aliasOf stored).isSome

/-- The order of preference: rows below before rows above, then the nearer. -/
def preference (stored h : BitVec 64) : Bool ×ₗ ℕ :=
  toLex (decide (stored < h), Nat.dist h.toNat stored.toNat)

/-- Released rows of the same minor. -/
def candidates (stored : BitVec 64) : List (BitVec 64) :=
  (reg.layouts.filter fun h => h &&& majorMinorMask == stored &&& majorMinorMask).filter
    fun h => releaseLevel h == releaseLevelFinal

/-- The row that stands in for a released version without a row of its own. -/
def resolveFallbackLayout (stored : BitVec 64) : Except LayoutError (BitVec 64) :=
  if releaseLevel stored ≠ releaseLevelFinal then .error (.preRelease stored)
  else
    match (reg.candidates stored).argmin (preference stored) with
    | some h => .ok h
    | none => .error (.noReleased stored)

/-- The layout a word is read through, strongest evidence first. -/
def resolveLayout (cache : FallbackCache) (pid : ℕ) (stored : BitVec 64) :
    FallbackCache × Except LayoutError (LayoutTier × BitVec 64) :=
  match PythonVersion.fromHex stored with
  | none => (cache, .error (.invalidVersion stored))
  | some _ =>
    if reg.layouts.any (· == stored) then (cache, .ok (.exact, stored))
    else
      match reg.aliasOf stored with
      | some h => (cache, .ok (.alias, h))
      | none =>
        match cache pid stored with
        | some h => (cache, .ok (.fallback, h))
        | none =>
          match reg.resolveFallbackLayout stored with
          | .error e => (cache, .error e)
          | .ok h =>
            (Function.update cache pid (Function.update (cache pid) stored (some h)),
              .ok (.fallback, h))

/-- The version check of `validate`. -/
def versionCheck (offsets : StampedOffsets) : Bool :=
  let expected :=
    if reg.aliasOf offsets.storedVersion = some offsets.expectedVersion then offsets.storedVersion
    else offsets.expectedVersion
  offsets.storedVersion == expected

/-- One resolution, as a step on the cache. -/
def resolveStep (cache : FallbackCache) (call : ℕ × BitVec 64) :
    FallbackCache × List (Except LayoutError (LayoutTier × BitVec 64)) :=
  ((reg.resolveLayout cache call.1 call.2).1, [(reg.resolveLayout cache call.1 call.2).2])

/-- The cache after a history of resolutions. -/
def cacheAfter (calls : List (ℕ × BitVec 64)) : FallbackCache :=
  Mealy.exec reg.resolveStep (fun _ _ => none) calls

/-- What a word resolves to after a history of resolutions. -/
def resolved (calls : List (ℕ × BitVec 64)) (pid : ℕ) (stored : BitVec 64) :
    Except LayoutError (LayoutTier × BitVec 64) :=
  (reg.resolveLayout (reg.cacheAfter calls) pid stored).2

/-- What a registry must satisfy. -/
structure WellFormed : Prop where
  layouts_32 : ∀ h ∈ reg.layouts, h.toNat < 2 ^ 32
  layouts_nodup : reg.layouts.Nodup
  sources_nodup : (reg.aliases.map Prod.fst).Nodup
  source_not_row : ∀ a ∈ reg.aliases, a.1 ∉ reg.layouts
  target_row : ∀ a ∈ reg.aliases, a.2 ∈ reg.layouts

/-- The registry the program is built with. -/
def shipped : Registry where
  layouts := [0x030d00f0, 0x030e00f0, 0x030f00b1, 0x030f00b4, 0x031000a0]
  aliases := [
    (0x030d01f0, 0x030d00f0), (0x030d02f0, 0x030d00f0), (0x030d03f0, 0x030d00f0),
    (0x030d04f0, 0x030d00f0), (0x030d05f0, 0x030d00f0), (0x030d06f0, 0x030d00f0),
    (0x030d07f0, 0x030d00f0), (0x030d08f0, 0x030d00f0), (0x030d09f0, 0x030d00f0),
    (0x030d0af0, 0x030d00f0), (0x030d0bf0, 0x030d00f0), (0x030d0cf0, 0x030d00f0),
    (0x030d0df0, 0x030d00f0), (0x030d0ef0, 0x030d00f0), (0x030e01f0, 0x030e00f0),
    (0x030e02f0, 0x030e00f0), (0x030e03f0, 0x030e00f0), (0x030e04f0, 0x030e00f0),
    (0x030e05f0, 0x030e00f0), (0x030e06f0, 0x030e00f0), (0x030f00b2, 0x030f00b1),
    (0x030f00b3, 0x030f00b1), (0x030f00c1, 0x030f00b4)]

theorem shipped_wellFormed : shipped.WellFormed where
  layouts_32 := by simp [shipped]
  layouts_nodup := by simp [shipped]
  sources_nodup := by simp [shipped]
  source_not_row := by simp [shipped]
  target_row := by simp [shipped]

end Registry

/-! ## Reading version words -/

/-- The word encodes a version. -/
def Versioned (hex : BitVec 64) : Prop := (PythonVersion.fromHex hex).isSome

/-- The word encodes a final release. -/
def IsFinal (hex : BitVec 64) : Prop :=
  ∃ v ∈ PythonVersion.fromHex hex, v.releaseLevel = 0xF

/-- The words encode versions of the same major and minor. -/
def SameLine (a b : BitVec 64) : Prop :=
  ∃ v ∈ PythonVersion.fromHex a, ∃ w ∈ PythonVersion.fromHex b,
    v.major = w.major ∧ v.minor = w.minor

theorem toNat_field (a : BitVec 64) (k : ℕ) {mask : BitVec 64} {w : ℕ}
    (hm : mask.toNat = 2 ^ w - 1) : (a >>> k &&& mask).toNat = a.toNat / 2 ^ k % 2 ^ w := by
  rw [BitVec.toNat_and, hm, Nat.and_two_pow_sub_one_eq_mod, BitVec.toNat_ushiftRight,
    Nat.shiftRight_eq_div_pow]

theorem toNat_byte (a : BitVec 64) (k : ℕ) :
    ((a >>> k &&& 0xff).setWidth 8).toNat = a.toNat / 2 ^ k % 256 := by
  rw [BitVec.toNat_setWidth, toNat_field a k (w := 8) rfl]
  omega

theorem toNat_masked (a : BitVec 64) :
    (a &&& majorMinorMask).toNat = a.toNat / 2 ^ 16 % 2 ^ 16 * 2 ^ 16 := by
  rw [BitVec.toNat_and]
  apply Nat.eq_of_testBit_eq
  intro i
  rw [Nat.testBit_and, show majorMinorMask.toNat = (2 ^ 16 - 1) <<< 16 by decide,
    Nat.testBit_shiftLeft, ← Nat.shiftLeft_eq, Nat.testBit_shiftLeft,
    Nat.testBit_two_pow_sub_one, Nat.testBit_mod_two_pow, Nat.testBit_div_two_pow]
  by_cases hi : 16 ≤ i
  · simp [hi, Bool.and_comm]
  · simp [hi]

theorem fromHex_eq_some_iff {v : BitVec 64} {version : PythonVersion} :
    PythonVersion.fromHex v = some version ↔
      (v.toNat / 2 ^ 24 % 256 ≠ 0 ∨ v.toNat / 2 ^ 16 % 256 ≠ 0) ∧
        version.major.toNat = v.toNat / 2 ^ 24 % 256 ∧
        version.minor.toNat = v.toNat / 2 ^ 16 % 256 ∧
        version.micro.toNat = v.toNat / 2 ^ 8 % 256 ∧
        version.releaseLevel.toNat = v.toNat / 2 ^ 4 % 16 ∧
        version.serial.toNat = v.toNat % 16 := by
  have hmajor := toNat_byte v 24
  have hminor := toNat_byte v 16
  have hlevel : ((v >>> 4 &&& 0xf).setWidth 8).toNat = v.toNat / 2 ^ 4 % 16 := by
    rw [BitVec.toNat_setWidth, toNat_field v 4 (w := 4) rfl]
    omega
  have hserial : ((v &&& 0xf).setWidth 8).toNat = v.toNat % 16 := by
    have : (v >>> 0 &&& 0xf).toNat = _ := toNat_field v 0 (w := 4) rfl
    rw [BitVec.ushiftRight_zero] at this
    rw [BitVec.toNat_setWidth, this]
    omega
  have hzero : (0 : BitVec 8).toNat = 0 := rfl
  unfold PythonVersion.fromHex
  simp only [← BitVec.toNat_inj, hmajor, hminor, hzero]
  split_ifs with h
  · simp only [false_iff]
    omega
  · obtain ⟨major, minor, micro, level, serial⟩ := version
    simp only [Option.some.injEq, PythonVersion.mk.injEq, ← BitVec.toNat_inj, hmajor, hminor,
      hlevel, hserial, toNat_byte v 8]
    omega

theorem versioned_iff {v : BitVec 64} :
    Versioned v ↔ v.toNat / 2 ^ 24 % 256 ≠ 0 ∨ v.toNat / 2 ^ 16 % 256 ≠ 0 := by
  have hzero : (0 : BitVec 8).toNat = 0 := rfl
  unfold Versioned PythonVersion.fromHex
  simp only [← BitVec.toNat_inj, toNat_byte, hzero]
  split_ifs with h
  · simp only [Option.isSome_none, Bool.false_eq_true, false_iff]
    omega
  · simp only [Option.isSome_some, true_iff]
    omega

theorem isFinal_iff {v : BitVec 64} (hv : Versioned v) :
    IsFinal v ↔ releaseLevel v = releaseLevelFinal := by
  obtain ⟨version, hversion⟩ := Option.isSome_iff_exists.mp hv
  have hlevel := (fromHex_eq_some_iff.mp hversion).2.2.2.2.1
  have hrel : (releaseLevel v).toNat = v.toNat / 2 ^ 4 % 16 := toNat_field v 4 (w := 4) rfl
  have hfinal : releaseLevelFinal.toNat = 15 := rfl
  have h15 : (0xF : BitVec 8).toNat = 15 := rfl
  simp only [IsFinal, hversion, Option.mem_def, Option.some.injEq, exists_eq_left',
    ← BitVec.toNat_inj, hlevel, hrel, hfinal, h15]

theorem SameLine.versioned_left {a b : BitVec 64} (h : SameLine a b) : Versioned a :=
  let ⟨_, hv, _⟩ := h
  Option.isSome_of_mem hv

theorem sameLine_iff {a b : BitVec 64} (hb : Versioned b) :
    SameLine a b ↔ a &&& majorMinorMask = b &&& majorMinorMask := by
  rw [versioned_iff] at hb
  rw [← BitVec.toNat_inj, toNat_masked, toNat_masked]
  constructor
  · rintro ⟨v, hv, w, hw, hmajor, hminor⟩
    obtain ⟨-, hv₁, hv₂, -⟩ := fromHex_eq_some_iff.mp hv
    obtain ⟨-, hw₁, hw₂, -⟩ := fromHex_eq_some_iff.mp hw
    rw [hmajor] at hv₁
    rw [hminor] at hv₂
    omega
  · intro h
    have ha : Versioned a := versioned_iff.mpr (by omega)
    obtain ⟨v, hv⟩ := Option.isSome_iff_exists.mp ha
    obtain ⟨w, hw⟩ := Option.isSome_iff_exists.mp (versioned_iff.mpr hb)
    obtain ⟨-, hv₁, hv₂, -⟩ := fromHex_eq_some_iff.mp hv
    obtain ⟨-, hw₁, hw₂, -⟩ := fromHex_eq_some_iff.mp hw
    refine ⟨v, hv, w, hw, ?_, ?_⟩
    · rw [← BitVec.toNat_inj]; omega
    · rw [← BitVec.toNat_inj]; omega

namespace Registry

variable {reg : Registry} {stored : BitVec 64}

/-! ## The tiers -/

/-- A released row of the word's minor. -/
def Rival (reg : Registry) (stored row : BitVec 64) : Prop :=
  row ∈ reg.layouts ∧ IsFinal row ∧ SameLine row stored

/-- The row the fallback must take: the greatest rival below the word, or the smallest above where
there is none below. -/
structure Nearest (reg : Registry) (stored layout : BitVec 64) : Prop where
  rival : reg.Rival stored layout
  nearest : (layout < stored ∧ ∀ row, reg.Rival stored row → row < stored → row ≤ layout) ∨
    (stored < layout ∧ ∀ row, reg.Rival stored row → stored < row ∧ layout ≤ row)

theorem mem_candidates (hv : Versioned stored) {row : BitVec 64} :
    row ∈ reg.candidates stored ↔ reg.Rival stored row := by
  simp only [candidates, List.mem_filter, beq_iff_eq, Rival]
  constructor
  · rintro ⟨⟨hrow, hmask⟩, hfinal⟩
    have hline := (sameLine_iff hv).mpr hmask
    exact ⟨hrow, (isFinal_iff hline.versioned_left).mpr hfinal, hline⟩
  · rintro ⟨hrow, hfinal, hline⟩
    exact ⟨⟨hrow, (sameLine_iff hv).mp hline⟩, (isFinal_iff hline.versioned_left).mp hfinal⟩

/-- Rows below come before rows above, and of two on one side the nearer comes first. -/
theorem preference_le_iff {a b : BitVec 64} (ha : a ≠ stored) (hb : b ≠ stored) :
    preference stored a ≤ preference stored b ↔
      (a < stored ∧ (b < stored → b ≤ a)) ∨ (stored < a ∧ stored < b ∧ a ≤ b) := by
  have ha' : a.toNat ≠ stored.toNat := fun h => ha (BitVec.toNat_inj.mp h)
  have hb' : b.toNat ≠ stored.toNat := fun h => hb (BitVec.toNat_inj.mp h)
  simp only [preference, Prod.Lex.toLex_le_toLex, Nat.dist, BitVec.lt_def, BitVec.le_def,
    Bool.lt_iff, decide_eq_false_iff_not, decide_eq_true_eq, decide_eq_decide]
  omega

theorem argmin_eq_some_iff (hv : Versioned stored) (hrow : stored ∉ reg.layouts)
    {layout : BitVec 64} :
    (reg.candidates stored).argmin (preference stored) = some layout ↔
      reg.Nearest stored layout := by
  have hne : ∀ row, reg.Rival stored row → row ≠ stored := fun row h e => hrow (e ▸ h.1)
  have hle : ∀ {a b : BitVec 64}, reg.Rival stored a → reg.Rival stored b →
      (preference stored a ≤ preference stored b ↔
        (a < stored ∧ (b < stored → b ≤ a)) ∨ (stored < a ∧ stored < b ∧ a ≤ b)) :=
    fun ha hb => preference_le_iff (hne _ ha) (hne _ hb)
  constructor
  · intro h
    have hmem := (mem_candidates hv).mp (List.argmin_mem h)
    have hmin : ∀ row, reg.Rival stored row → preference stored layout ≤ preference stored row :=
      fun row hr => List.le_of_mem_argmin ((mem_candidates hv).mpr hr) h
    refine ⟨hmem, ?_⟩
    rcases (hle hmem hmem).mp le_rfl with ⟨hlt, -⟩ | ⟨hgt, -⟩
    · refine Or.inl ⟨hlt, fun row hr hrow => ?_⟩
      rcases (hle hmem hr).mp (hmin row hr) with h | h
      · exact h.2 hrow
      · bv_omega
    · refine Or.inr ⟨hgt, fun row hr => ?_⟩
      rcases (hle hmem hr).mp (hmin row hr) with h | h
      · bv_omega
      · exact h.2
  · rintro ⟨hmem, hnear⟩
    have hmin : ∀ row, reg.Rival stored row → preference stored layout ≤ preference stored row := by
      intro row hr
      rw [hle hmem hr]
      rcases hnear with ⟨hlt, h⟩ | ⟨hgt, h⟩
      · exact Or.inl ⟨hlt, h row hr⟩
      · exact Or.inr ⟨hgt, h row hr⟩
    cases h : (reg.candidates stored).argmin (preference stored) with
    | none =>
      rw [List.argmin_eq_none] at h
      exact absurd ((mem_candidates hv).mpr hmem) (h ▸ List.not_mem_nil)
    | some row =>
      -- each of the two is preferred to the other, so they stand at one place
      have hr := (mem_candidates hv).mp (List.argmin_mem h)
      have h₁ := (hle hmem hr).mp (hmin row hr)
      have h₂ := (hle hr hmem).mp (List.le_of_mem_argmin ((mem_candidates hv).mpr hmem) h)
      congr 1
      bv_omega

/-- **The fallback resolves a released word to the nearest rival, and nothing else.** -/
theorem resolveFallbackLayout_eq_ok_iff (hv : Versioned stored) (hrow : stored ∉ reg.layouts)
    {layout : BitVec 64} :
    reg.resolveFallbackLayout stored = .ok layout ↔ IsFinal stored ∧ reg.Nearest stored layout := by
  rw [← argmin_eq_some_iff hv hrow, isFinal_iff hv, resolveFallbackLayout]
  by_cases hf : releaseLevel stored = releaseLevelFinal
  · simp only [hf, ne_eq, not_true_eq_false, if_false, true_and]
    cases (reg.candidates stored).argmin (preference stored) <;> simp
  · simp [hf]

theorem resolveFallbackLayout_eq_error_iff (hv : Versioned stored) :
    (∃ e, reg.resolveFallbackLayout stored = .error e) ↔
      ¬ IsFinal stored ∨ ∀ row, ¬ reg.Rival stored row := by
  have hempty : (reg.candidates stored).argmin (preference stored) = none ↔
      ∀ row, ¬ reg.Rival stored row := by
    simp only [List.argmin_eq_none, List.eq_nil_iff_forall_not_mem, mem_candidates hv]
  rw [← hempty, isFinal_iff hv, resolveFallbackLayout]
  by_cases hf : releaseLevel stored = releaseLevelFinal
  · simp only [hf, ne_eq, not_true_eq_false, if_false, false_or]
    cases (reg.candidates stored).argmin (preference stored) <;> simp
  · simp [hf]

theorem aliasOf_eq_some_iff (h : reg.WellFormed) {layout : BitVec 64} :
    reg.aliasOf stored = some layout ↔ (stored, layout) ∈ reg.aliases := by
  rw [aliasOf, Option.map_eq_some_iff]
  constructor
  · rintro ⟨⟨source, target⟩, hfind, rfl⟩
    have := List.find?_some hfind
    simp only [beq_iff_eq] at this
    exact this ▸ List.mem_of_find?_eq_some hfind
  · intro hmem
    obtain ⟨a, ha⟩ := Option.isSome_iff_exists.mp (List.find?_isSome (p := fun a => a.1 == stored)
      |>.mpr ⟨_, hmem, beq_self_eq_true stored⟩)
    have hsource := List.find?_some ha
    simp only [beq_iff_eq] at hsource
    refine ⟨a, ha, ?_⟩
    have := List.inj_on_of_nodup_map h.sources_nodup (List.mem_of_find?_eq_some ha) hmem hsource
    rw [this]

theorem hasVerifiedLayout_iff : reg.hasVerifiedLayout stored = true ↔
    stored ∈ reg.layouts ∨ (reg.aliasOf stored).isSome := by
  simp [hasVerifiedLayout]

/-! ## The cache -/

/-- What is cached is what the fallback answers. -/
def Caches (reg : Registry) (cache : FallbackCache) : Prop :=
  ∀ pid stored h, cache pid stored = some h → reg.resolveFallbackLayout stored = .ok h

theorem Caches.step {cache : FallbackCache} (h : reg.Caches cache) (pid : ℕ) (stored : BitVec 64) :
    reg.Caches (reg.resolveLayout cache pid stored).1 := by
  unfold resolveLayout
  cases PythonVersion.fromHex stored with
  | none => exact h
  | some v =>
    simp only
    split_ifs
    · exact h
    · cases reg.aliasOf stored with
      | some a => exact h
      | none =>
        simp only
        cases cache pid stored with
        | some a => exact h
        | none =>
          simp only
          cases hf : reg.resolveFallbackLayout stored with
          | error e => exact h
          | ok layout =>
            intro pid' stored' a ha
            simp only at ha
            by_cases hp : pid' = pid
            · subst hp
              rw [Function.update_self] at ha
              by_cases hs : stored' = stored
              · subst hs
                rw [Function.update_self] at ha
                exact Option.some.inj ha ▸ hf
              · rw [Function.update_of_ne hs] at ha
                exact h _ _ _ ha
            · rw [Function.update_of_ne hp] at ha
              exact h _ _ _ ha

theorem caches_cacheAfter (reg : Registry) (calls : List (ℕ × BitVec 64)) :
    reg.Caches (reg.cacheAfter calls) :=
  Mealy.exec_induction (P := reg.Caches) (fun _ _ _ h => nomatch h)
    fun _ h call _ => h.step call.1 call.2

/-! ## What a word resolves to -/

theorem resolved_of_row (hv : Versioned stored) (hrow : stored ∈ reg.layouts)
    (calls : List (ℕ × BitVec 64)) (pid : ℕ) :
    reg.resolved calls pid stored = .ok (.exact, stored) := by
  obtain ⟨v, hversion⟩ := Option.isSome_iff_exists.mp hv
  rw [resolved, resolveLayout, hversion]
  simp [hrow]

theorem resolved_of_alias (hv : Versioned stored) (hrow : stored ∉ reg.layouts)
    {layout : BitVec 64} (ha : reg.aliasOf stored = some layout) (calls : List (ℕ × BitVec 64))
    (pid : ℕ) : reg.resolved calls pid stored = .ok (.alias, layout) := by
  obtain ⟨v, hversion⟩ := Option.isSome_iff_exists.mp hv
  rw [resolved, resolveLayout, hversion]
  simp [hrow, ha]

theorem resolved_of_fallback (hv : Versioned stored) (hrow : stored ∉ reg.layouts)
    (ha : reg.aliasOf stored = none) (calls : List (ℕ × BitVec 64)) (pid : ℕ) :
    reg.resolved calls pid stored =
      (reg.resolveFallbackLayout stored).map fun h => (.fallback, h) := by
  obtain ⟨v, hversion⟩ := Option.isSome_iff_exists.mp hv
  have hcache := caches_cacheAfter reg calls pid stored
  have hany : reg.layouts.any (· == stored) = false :=
    List.any_eq_false.mpr fun x hx he => hrow (beq_iff_eq.mp he ▸ hx)
  rw [resolved, resolveLayout, hversion]
  simp only [hany, ha, Bool.false_eq_true, if_false]
  cases hc : reg.cacheAfter calls pid stored with
  | some h => rw [hcache h hc]; rfl
  | none => cases reg.resolveFallbackLayout stored <;> rfl

theorem versionCheck_iff {layout : BitVec 64} : reg.versionCheck ⟨layout, stored⟩ = true ↔
    reg.aliasOf stored = some layout ∨ stored = layout := by
  unfold versionCheck
  simp only
  split_ifs with ha
  · simp [ha]
  · simp [ha]

/-- The three ways a word that encodes a version is answered. -/
theorem resolved_cases (hv : Versioned stored) (calls : List (ℕ × BitVec 64))
    (pid : ℕ) :
    (stored ∈ reg.layouts ∧ reg.resolved calls pid stored = .ok (.exact, stored)) ∨
    (∃ layout, reg.aliasOf stored = some layout ∧ stored ∉ reg.layouts ∧
      reg.resolved calls pid stored = .ok (.alias, layout)) ∨
    (stored ∉ reg.layouts ∧ reg.aliasOf stored = none ∧ reg.resolved calls pid stored =
      (reg.resolveFallbackLayout stored).map fun h => (.fallback, h)) := by
  by_cases hrow : stored ∈ reg.layouts
  · exact Or.inl ⟨hrow, resolved_of_row hv hrow calls pid⟩
  · cases ha : reg.aliasOf stored with
    | some layout => exact Or.inr (Or.inl ⟨layout, rfl, hrow, resolved_of_alias hv hrow ha calls pid⟩)
    | none => exact Or.inr (Or.inr ⟨hrow, rfl, resolved_of_fallback hv hrow ha calls pid⟩)

/-- What is called verified is what needed no fallback. -/
theorem hasVerifiedLayout_iff_resolved (hv : Versioned stored)
    (calls : List (ℕ × BitVec 64)) (pid : ℕ) : reg.hasVerifiedLayout stored = true ↔
      ∃ tier layout, tier ≠ .fallback ∧ reg.resolved calls pid stored = .ok (tier, layout) := by
  rw [hasVerifiedLayout_iff]
  rcases resolved_cases hv calls pid with ⟨hrow, hr⟩ | ⟨layout, ha, -, hr⟩ | ⟨hrow, ha, hr⟩
  · exact iff_of_true (Or.inl hrow) ⟨.exact, stored, nofun, hr⟩
  · exact iff_of_true (Or.inr (by rw [ha]; rfl)) ⟨.alias, layout, nofun, hr⟩
  · refine iff_of_false (by simp [hrow, ha]) ?_
    rintro ⟨tier, layout, hne, hok⟩
    rw [hr] at hok
    cases hf : reg.resolveFallbackLayout stored with
    | error e => rw [hf] at hok; cases hok
    | ok l =>
      rw [hf] at hok
      obtain ⟨rfl, -⟩ := Prod.mk.inj (Except.ok.inj hok)
      exact hne rfl

theorem versionCheck_resolved (hv : Versioned stored) {calls : List (ℕ × BitVec 64)} {pid : ℕ}
    {tier : LayoutTier} {layout : BitVec 64}
    (hok : reg.resolved calls pid stored = .ok (tier, layout)) :
    reg.versionCheck ⟨layout, stored⟩ = true ↔ reg.hasVerifiedLayout stored = true := by
  rw [versionCheck_iff, hasVerifiedLayout_iff]
  rcases resolved_cases hv calls pid with ⟨hrow, hr⟩ | ⟨l, ha, -, hr⟩ | ⟨hrow, ha, hr⟩
  · obtain ⟨-, rfl⟩ := Prod.mk.inj (Except.ok.inj (hr.symm.trans hok))
    exact iff_of_true (Or.inr rfl) (Or.inl hrow)
  · obtain ⟨-, rfl⟩ := Prod.mk.inj (Except.ok.inj (hr.symm.trans hok))
    exact iff_of_true (Or.inl ha) (Or.inr (by rw [ha]; rfl))
  · rw [hr] at hok
    cases hf : reg.resolveFallbackLayout stored with
    | error e => rw [hf] at hok; cases hok
    | ok l =>
      rw [hf] at hok
      obtain ⟨-, rfl⟩ := Prod.mk.inj (Except.ok.inj hok)
      have hmem := ((resolveFallbackLayout_eq_ok_iff hv hrow).mp hf).2.rival.1
      refine iff_of_false ?_ (by simp [hrow, ha])
      rintro (h | rfl)
      · rw [ha] at h; cases h
      · exact hrow hmem

/-- **Layout resolution is sound tier by tier.** After any history of resolutions, a word that
encodes a version resolves to its own row, or to the row it is proved equal to, or, released and
neither, to the nearest released row of its minor; otherwise it does not resolve. What is called
verified is what needed no fallback, which is what the version check passes. -/
theorem resolve_sound (h : reg.WellFormed) (hv : Versioned stored) (calls : List (ℕ × BitVec 64))
    (pid : ℕ) :
    (stored ∈ reg.layouts → reg.resolved calls pid stored = .ok (.exact, stored)) ∧
    (∀ layout, (stored, layout) ∈ reg.aliases →
      reg.resolved calls pid stored = .ok (.alias, layout)) ∧
    (stored ∉ reg.layouts → (∀ layout, (stored, layout) ∉ reg.aliases) →
      (∀ tier layout, reg.resolved calls pid stored = .ok (tier, layout) ↔
        tier = .fallback ∧ IsFinal stored ∧ reg.Nearest stored layout) ∧
      ((∃ e, reg.resolved calls pid stored = .error e) ↔
        ¬ IsFinal stored ∨ ∀ row, ¬ reg.Rival stored row)) ∧
    (reg.hasVerifiedLayout stored = true ↔ ∃ tier layout, tier ≠ .fallback ∧
      reg.resolved calls pid stored = .ok (tier, layout)) ∧
    ∀ tier layout, reg.resolved calls pid stored = .ok (tier, layout) →
      (reg.versionCheck ⟨layout, stored⟩ = true ↔ reg.hasVerifiedLayout stored = true) := by
  have hnone : reg.aliasOf stored = none ↔ ∀ layout, (stored, layout) ∉ reg.aliases := by
    simp only [Option.eq_none_iff_forall_ne_some, ne_eq, aliasOf_eq_some_iff h]
  have halias : ∀ layout, (stored, layout) ∈ reg.aliases → stored ∉ reg.layouts :=
    fun layout ha => h.source_not_row _ ha
  refine ⟨fun hrow => resolved_of_row hv hrow calls pid, fun layout ha =>
    resolved_of_alias hv (halias layout ha) ((aliasOf_eq_some_iff h).mpr ha) calls pid, ?_,
    hasVerifiedLayout_iff_resolved hv calls pid, fun tier layout => versionCheck_resolved hv⟩
  intro hrow ha
  rw [resolved_of_fallback hv hrow (hnone.mpr ha)]
  refine ⟨fun tier layout => ?_, ?_⟩
  · rw [← resolveFallbackLayout_eq_ok_iff hv hrow]
    cases reg.resolveFallbackLayout stored <;> simp [Except.map, eq_comm]
  · rw [← resolveFallbackLayout_eq_error_iff hv]
    cases reg.resolveFallbackLayout stored <;> simp [Except.map]

/-- A patch release newer than its alias table resolves to the released row of its minor. -/
theorem resolve_sound_new_patch :
    shipped.resolved [] 7 0x030e09f0 = .ok (.fallback, 0x030e00f0) := by
  have hv : Versioned 0x030e09f0 := rfl
  have hrow : (0x030e09f0 : BitVec 64) ∉ shipped.layouts := by simp [shipped]
  have halias : ∀ layout, (0x030e09f0, layout) ∉ shipped.aliases := by simp [shipped]
  refine (((resolve_sound shipped_wellFormed hv [] 7).2.2.1 hrow
    halias).1 .fallback 0x030e00f0).mpr ⟨rfl, ?_⟩
  exact (resolveFallbackLayout_eq_ok_iff hv hrow).mp (by decide)

/-- A word whose major and minor are both zero encodes no version and is refused, registered or
not. -/
theorem not_resolve_unversioned : (Registry.mk [0x000000f0] []).WellFormed ∧
    (0x000000f0 : BitVec 64) ∈ (Registry.mk [0x000000f0] []).layouts ∧
    (Registry.mk [0x000000f0] []).resolved [] 7 0x000000f0 =
      .error (.invalidVersion 0x000000f0) := by
  refine ⟨⟨by simp, by simp, by simp, by simp, by simp⟩, by simp, ?_⟩
  rfl

end Registry

end GcScope
