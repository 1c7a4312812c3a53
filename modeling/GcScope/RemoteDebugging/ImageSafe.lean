import Mathlib.Tactic.Common
import GcScope.RemoteDebugging.Image

/-!
# Looking into a module image does not panic

Every lookup in an image comes through whatever the parsers hand back, except for the alignment of a
loadable segment, which is divided by. The index arithmetic of the scan stays inside the image, the
read-only data is part of it, and both lookups in an ELF image move an address by the same bias.

* `scanForVersionStringChecked_eq`: the indexed scan is the scan.
* `isSome_roDataRange`, `exists_readOnlyData`: the one sum of file offsets fits, and what is cut out.
* `isSome_elfLoadBias_iff`: the division.
* **`image_inspected_iff`**: the images every lookup comes through.
* `zero_alignment_panics`: one that a lookup does not.
-/

set_option autoImplicit false

namespace GcScope

open LittleEndian MachineInt

/-! ## The scan -/

section Scan

variable {bytes : List UInt8} (hlen : bytes.length < 2 ^ 64)

include hlen

theorem runStop_eq {i : ℕ} (hi : i ≤ bytes.length) :
    runStop bytes i (bytes.drop i) =
      some (i + ((bytes.drop i).takeWhile isVersionChar).length) := by
  have htake : (bytes.drop i).takeWhile isVersionChar =
      (bytes.drop i).take ((bytes.drop i).findIdx fun b => !isVersionChar b) :=
    List.takeWhile_eq_take_findIdx_not
  have hle : (bytes.drop i).findIdx (fun b => !isVersionChar b) ≤ (bytes.drop i).length :=
    List.findIdx_le_length
  have hrun : ((bytes.drop i).takeWhile isVersionChar).length =
      (bytes.drop i).findIdx fun b => !isVersionChar b := by
    rw [htake, List.length_take, Nat.min_eq_left hle]
  rw [List.length_drop] at hle
  rw [hrun, runStop]
  cases hf : (bytes.drop i).findIdx? fun b => !isVersionChar b with
  | none =>
    have hall : (bytes.drop i).findIdx (fun b => !isVersionChar b) = (bytes.drop i).length :=
      List.findIdx_eq_length.mpr (List.findIdx?_eq_none_iff.mp hf)
    rw [hall, List.length_drop]
    exact congrArg some (by omega)
  | some n =>
    obtain ⟨hn, rfl⟩ := List.findIdx?_eq_some_iff_findIdx_eq.mp hf
    exact if_pos (by omega)

/-- **A candidate is read as it stands in the image.** -/
theorem candidateChecked_eq {i : ℕ} (hi : i ≤ bytes.length) :
    candidateChecked bytes i = some (candidateAt (bytes.drop i)) := by
  have hrest : sliceChecked bytes i bytes.length = some (bytes.drop i) := by
    rw [(guarded_sliceChecked _ _ _).of_holds ⟨hi, le_rfl⟩, List.take_of_length_le]
    exact List.length_drop.le
  have hrun := (List.takeWhile_prefix isVersionChar (l := bytes.drop i))
  have hcut := hrun.length_le
  rw [List.length_drop] at hcut
  have hslice : sliceChecked bytes i (i + ((bytes.drop i).takeWhile isVersionChar).length) =
      some ((bytes.drop i).takeWhile isVersionChar) := by
    rw [(guarded_sliceChecked _ _ _).of_holds ⟨Nat.le_add_right _ _, by omega⟩,
      Nat.add_sub_cancel_left, ← List.prefix_iff_eq_take.mp hrun]
  have hend : (bytes[i + ((bytes.drop i).takeWhile isVersionChar).length]?).getD 0 =
      ((bytes.drop i).dropWhile isVersionChar).headD 0 := by
    rw [← List.getElem?_drop, List.headD_eq_head?_getD]
    nth_rewrite 1 [← List.takeWhile_append_dropWhile (p := isVersionChar) (l := bytes.drop i)]
    rw [List.getElem?_append_right le_rfl, Nat.sub_self, List.head?_eq_getElem?]
  simp only [candidateChecked, hrest, runStop_eq hlen hi, hslice, hend, Option.bind_eq_bind,
    Option.bind_some, candidateAt]
  cases parseExact (asciiText ((bytes.drop i).takeWhile isVersionChar)) <;> rfl

/-- **The indexed scan is the scan.** -/
theorem scanLoop_eq {left i : ℕ} (h : i + left = bytes.length) :
    scanLoop bytes left i =
      some (scanFrom (if i = 0 then none else bytes[i - 1]?) (bytes.drop i)) := by
  induction left generalizing i with
  | zero =>
    rw [List.drop_of_length_le (by omega)]
    rfl
  | succ left ih =>
    have hi : i < bytes.length := by omega
    have hnext : checkedU64 (i + 1) = some (i + 1) := if_pos (by omega)
    have hrest := ih (i := i + 1) (by omega)
    rw [if_neg (Nat.succ_ne_zero i), Nat.add_sub_cancel] at hrest
    have hb : bytes[i]? = some bytes[i] := List.getElem?_eq_getElem hi
    rw [hb] at hrest
    have hprev : (if i = 0 then some false else bytes[i - 1]?.map isVersionChar) =
        some ((if i = 0 then none else bytes[i - 1]?).any isVersionChar) := by
      split_ifs with h0
      · rfl
      · rw [List.getElem?_eq_getElem (by omega)]
        rfl
    have hcand := candidateChecked_eq hlen hi.le
    rw [List.drop_eq_getElem_cons hi] at hcand ⊢
    simp only [scanLoop, hnext, hb, hprev, hcand, hrest, Option.bind_eq_bind, Option.bind_some]
    rw [scanFrom, isAnchor, List.head?_cons, List.tail_cons, List.head?_drop]
    by_cases hend : bytes.length ≤ i + 1
    · rw [if_pos hend, List.getElem?_eq_none hend, List.drop_of_length_le hend]
      simp [scanFrom]
    · rw [if_neg hend, List.getElem?_eq_getElem (Nat.not_le.mp hend), Option.bind_some]
      generalize (if i = 0 then none else bytes[i - 1]?).any isVersionChar = preceded
      by_cases h3 : bytes[i] = 0x33
      · have hlt : i + 1 < bytes.length := Nat.not_le.mp hend
        by_cases hdot : bytes[i + 1] = 0x2E
        · cases preceded with
          | true => simp
          | false => cases candidateAt (bytes[i] :: bytes.drop (i + 1)) <;> simp [h3, hdot]
        · simp [h3, hdot]
      · simp [h3]

theorem scanForVersionStringChecked_eq :
    scanForVersionStringChecked bytes = some (scanForVersionString bytes) :=
  scanLoop_eq hlen (Nat.zero_add _)

end Scan

/-! ## The read-only data -/

section ReadOnly

variable (G : Goblin) {bytes : List UInt8}

theorem fatSlice_lt {arches : List (Option FatArch)} {macho : MachO} {start : BitVec 64}
    (h : fatSlice G bytes arches = some (macho, start)) : start.toNat < 2 ^ 32 := by
  induction arches with
  | nil => cases h
  | cons arch rest ih =>
    cases arch with
    | none => cases h
    | some arch =>
      rw [fatSlice] at h
      split_ifs at h with hhost
      · exact ih h
      · obtain ⟨stop, -, h⟩ := Option.bind_eq_some_iff.mp h
        obtain ⟨slice, -, h⟩ := Option.bind_eq_some_iff.mp h
        split_ifs at h with hsafe
        obtain ⟨m, -, hm⟩ := Option.map_eq_some_iff.mp h
        rw [← (Prod.mk.inj hm).2, BitVec.toNat_setWidth, Nat.mod_eq_of_lt (by omega)]
        exact arch.offset.isLt

theorem parseMacho_lt {macho : MachO} {start : BitVec 64}
    (h : parseMacho G bytes = some (macho, start)) : start.toNat < 2 ^ 32 := by
  rw [parseMacho] at h
  split_ifs at h with hsafe
  split at h
  · cases h
  · rw [← (Prod.mk.inj (Option.some.inj h)).2]
    decide
  · split_ifs at h with harches
    exact fatSlice_lt G h

/-- **The one sum of two file offsets fits.** -/
theorem isSome_roDataRange (bytes : List UInt8) : (G.roDataRange bytes).isSome = true := by
  rw [Goblin.roDataRange]
  cases classify bytes with
  | none => rfl
  | some kind =>
    cases kind with
    | elf => rfl
    | pe => rfl
    | machO =>
      dsimp only
      cases hat : (parseMacho G bytes).bind fun p =>
          (Goblin.cstringInSegments p.1.segments).map fun s => (s, p.2) with
      | none => rfl
      | some at' =>
        obtain ⟨⟨macho, start⟩, hparse, hsect⟩ := Option.bind_eq_some_iff.mp hat
        obtain ⟨sect, -, rfl⟩ := Option.map_eq_some_iff.mp hsect
        have hstart := parseMacho_lt G hparse
        have hoffset : (sect.offset.setWidth 64).toNat < 2 ^ 32 := by
          rw [BitVec.toNat_setWidth, Nat.mod_eq_of_lt (by omega)]
          exact sect.offset.isLt
        have hfits : Fits start (sect.offset.setWidth 64) := by
          unfold Fits
          omega
        have hsum := (guarded_checkedAdd start (sect.offset.setWidth 64)).of_holds hfits
        simp only [Option.bind_eq_bind, hsum]
        rfl

/-- **The read-only data is cut out of the image.** -/
theorem exists_readOnlyData (bytes : List UInt8) :
    ∃ ro, G.readOnlyData bytes = some ro ∧ ∀ s ∈ ro, s <:+: bytes := by
  obtain ⟨range, hrange⟩ := Option.isSome_iff_exists.mp (isSome_roDataRange G bytes)
  rw [Goblin.readOnlyData, hrange, Option.bind_eq_bind, Option.bind_some]
  cases range with
  | none => exact ⟨none, rfl, fun s hs => nomatch hs⟩
  | some range =>
    dsimp only
    split_ifs with hcut
    · have hslice := (guarded_sliceChecked bytes range.1.toNat
        (min (min (range.1.toNat + range.2.toNat) (2 ^ 64 - 1)) bytes.length)).of_holds
          ⟨hcut.le, Nat.min_le_right _ _⟩
      refine ⟨some _, congrArg (Option.map some) hslice, fun s hs => ?_⟩
      exact Option.some.inj hs ▸ infix_of_sliceChecked hslice
    · exact ⟨none, rfl, fun s hs => nomatch hs⟩

theorem isSome_scanImageForVersion (hlen : bytes.length < 2 ^ 64) :
    (G.scanImageForVersion bytes).isSome = true := by
  obtain ⟨ro, hro, hcontained⟩ := exists_readOnlyData G bytes
  have hwhole := scanForVersionStringChecked_eq hlen
  rw [Goblin.scanImageForVersion, hro, Option.bind_eq_bind, Option.bind_some]
  cases ro with
  | none => exact Option.isSome_iff_exists.mpr ⟨_, hwhole⟩
  | some ro =>
    have hpart := scanForVersionStringChecked_eq ((hcontained ro rfl).length_le.trans_lt hlen)
    dsimp only
    rw [hpart, Option.bind_eq_bind, Option.bind_some, hwhole]
    cases scanForVersionString ro <;> rfl

end ReadOnly

/-! ## The load bias -/

/-- The first loadable segment claims an alignment of zero. -/
def Elf.ZeroAligned (elf : Elf) : Prop := ∃ ph, elf.firstLoad = some ph ∧ ph.pAlign = 0

/-- **The load bias is found where its division is one.** -/
theorem isSome_elfLoadBias_iff (elf : Elf) :
    (elfLoadBias elf).isSome = true ↔ ¬elf.ZeroAligned := by
  unfold elfLoadBias Elf.ZeroAligned
  cases elf.firstLoad with
  | none => simp
  | some ph =>
    have hbias := (guarded_checkedRem ph.pVaddr ph.pAlign).bind
      (f := fun below => (checkedSub ph.pVaddr below).bind fun bias => some (some bias))
      ((guarded_checkedSub _ _).bind (Guarded.pure (some (ph.pVaddr - ph.pVaddr % ph.pAlign))))
    have hle : ph.pVaddr % ph.pAlign ≤ ph.pVaddr := by
      rw [BitVec.le_def, BitVec.toNat_umod]
      exact Nat.mod_le _ _
    have hsome := hbias.isSome_iff
    rw [and_true, and_iff_left hle] at hsome
    simpa using hsome

/-- An image as a file yields it: its length is a word. -/
structure Image where
  bytes : List UInt8
  sized : bytes.length < 2 ^ 64

namespace Goblin

variable (G : Goblin)

/-- Every lookup in an image loaded at `base` comes through, the read-only data is part of the image,
and both lookups in an ELF image move an address by its bias. -/
structure Inspected (image : Image) (base : BitVec 64) : Prop where
  scanned : (G.scanImageForVersion image.bytes).isSome = true
  resolved : ∀ name, (G.resolveSymbolInBytes image.bytes base name).isSome = true
  located : (G.sectionAddr image.bytes base).isSome = true
  inside : ∃ ro, G.readOnlyData image.bytes = some ro ∧ ∀ s ∈ ro, s <:+: image.bytes
  moved : ∀ elf, classify image.bytes = some .elf → G.elf image.bytes = some elf →
    ∃ bias, elfLoadBias elf = some bias ∧
      G.sectionAddr image.bytes base = some (bias.bind fun b =>
        (elf.sectionNamed [".PyRuntime", "PyRuntime"]).map fun s => base + (s.shAddr - b)) ∧
      ∀ name, G.resolveSymbolInBytes image.bytes base name = some (bias.bind fun b =>
        (elf.symbolNamed name).map fun s => base + (s.stValue - b))

/-- The image is an ELF one whose first loadable segment claims an alignment of zero. -/
def ZeroAligned (bytes : List UInt8) : Prop :=
  classify bytes = some .elf ∧ ∃ elf, G.elf bytes = some elf ∧ elf.ZeroAligned

variable {G} {bytes : List UInt8} {base : BitVec 64}

theorem sectionAddr_elf {elf : Elf} {bias : Option (BitVec 64)} (hkind : classify bytes = some .elf)
    (hparse : G.elf bytes = some elf) (hbias : elfLoadBias elf = some bias) :
    G.sectionAddr bytes base = some (bias.bind fun b =>
      (elf.sectionNamed [".PyRuntime", "PyRuntime"]).map fun s => base + (s.shAddr - b)) := by
  simp only [sectionAddr, hkind, findSectionInElf, hparse, hbias]
  cases elf.sectionNamed [".PyRuntime", "PyRuntime"] <;> cases bias <;> rfl

theorem resolveSymbol_elf {elf : Elf} {bias : Option (BitVec 64)} (hkind : classify bytes = some .elf)
    (hparse : G.elf bytes = some elf) (hbias : elfLoadBias elf = some bias) (name : String) :
    G.resolveSymbolInBytes bytes base name = some (bias.bind fun b =>
      (elf.symbolNamed name).map fun s => base + (s.stValue - b)) := by
  simp only [resolveSymbolInBytes, hkind, resolveSymbolElf, hparse, hbias, Option.map_some]
  cases bias with
  | none => rfl
  | some b => cases elf.symbolNamed name <;> rfl

/-- Outside of ELF images, and in those that do not parse, both lookups are done without a bias. -/
theorem lookups_of_not_elf (h : ∀ elf, classify bytes = some .elf → G.elf bytes ≠ some elf) :
    (G.sectionAddr bytes base).isSome = true ∧
      ∀ name, (G.resolveSymbolInBytes bytes base name).isSome = true := by
  unfold sectionAddr resolveSymbolInBytes
  cases hkind : classify bytes with
  | none => exact ⟨rfl, fun _ => rfl⟩
  | some kind =>
    cases kind with
    | pe => exact ⟨rfl, fun _ => rfl⟩
    | machO => exact ⟨rfl, fun _ => rfl⟩
    | elf =>
      have hparse : G.elf bytes = none := Option.eq_none_iff_forall_ne_some.mpr fun elf => h elf hkind
      simp [findSectionInElf, resolveSymbolElf, hparse]

end Goblin

/-- **Every lookup in an image comes through unless its first loadable segment claims an alignment of
zero.** -/
theorem image_inspected_iff (G : Goblin) (image : Image) (base : BitVec 64) :
    G.Inspected image base ↔ ¬G.ZeroAligned image.bytes := by
  constructor
  · rintro h ⟨hkind, elf, hparse, hzero⟩
    obtain ⟨bias, hbias, -⟩ := h.moved elf hkind hparse
    have hsome : (elfLoadBias elf).isSome = true := by rw [hbias]; rfl
    exact (isSome_elfLoadBias_iff elf).mp hsome hzero
  · intro h
    have hbias : ∀ elf, classify image.bytes = some .elf → G.elf image.bytes = some elf →
        ∃ bias, elfLoadBias elf = some bias := fun elf hkind hparse =>
      Option.isSome_iff_exists.mp ((isSome_elfLoadBias_iff elf).mpr fun hzero =>
        h ⟨hkind, elf, hparse, hzero⟩)
    have hlookups : (G.sectionAddr image.bytes base).isSome = true ∧
        ∀ name, (G.resolveSymbolInBytes image.bytes base name).isSome = true := by
      by_cases helf : ∃ elf, classify image.bytes = some .elf ∧ G.elf image.bytes = some elf
      · obtain ⟨elf, hkind, hparse⟩ := helf
        obtain ⟨bias, hb⟩ := hbias elf hkind hparse
        rw [Goblin.sectionAddr_elf hkind hparse hb]
        exact ⟨rfl, fun name => by rw [Goblin.resolveSymbol_elf hkind hparse hb]; rfl⟩
      · exact Goblin.lookups_of_not_elf fun elf hkind hparse => helf ⟨elf, hkind, hparse⟩
    refine ⟨isSome_scanImageForVersion G image.sized, hlookups.2, hlookups.1,
      exists_readOnlyData G image.bytes, fun elf hkind hparse => ?_⟩
    obtain ⟨bias, hb⟩ := hbias elf hkind hparse
    exact ⟨bias, hb, Goblin.sectionAddr_elf hkind hparse hb,
      Goblin.resolveSymbol_elf hkind hparse hb⟩

/-- A header and one loadable segment of address and alignment zero, and nothing else. -/
def bareElf : List UInt8 :=
  [0x7F, 0x45, 0x4C, 0x46, 2, 1, 1, 0] ++ List.replicate 8 0 ++
    [3, 0, 0x3E, 0, 1, 0, 0, 0] ++ List.replicate 8 0 ++ [64, 0, 0, 0, 0, 0, 0, 0] ++
    List.replicate 12 0 ++ [64, 0, 56, 0, 1, 0, 64, 0, 0, 0, 0, 0] ++
    [1, 0, 0, 0, 5, 0, 0, 0] ++ List.replicate 24 0 ++ [120, 0, 0, 0, 0, 0, 0, 0] ++
    [120, 0, 0, 0, 0, 0, 0, 0] ++ List.replicate 8 0

def bareParsed : Elf where
  programHeaders := [{ pType := 1, pVaddr := 0, pAlign := 0 }]
  sectionHeaders := []
  shdrStrtab := fun _ => none
  dynsyms := []
  dynstrtab := fun _ => none
  syms := []
  strtab := fun _ => none

/-- Parsers that know the one image. -/
def bareGoblin : Goblin where
  elf := fun bytes => if bytes = bareElf then some bareParsed else none
  pe := fun _ => none
  mach := fun _ => none
  machO := fun _ => none
  magicAndCtx := fun _ => none
  loadCommand := fun _ _ _ => none
  hostCputype := 0x01000007

/-- The symbol lookup divides by the alignment. -/
theorem zero_alignment_panics :
    bareGoblin.resolveSymbolInBytes bareElf 0 "Py_Version" = none ∧
      ¬bareGoblin.Inspected ⟨bareElf, by decide⟩ 0 := by
  have hkind : classify bareElf = some .elf := by decide +kernel
  have hparse : bareGoblin.elf bareElf = some bareParsed := by simp [bareGoblin]
  have hbias : elfLoadBias bareParsed = none := by decide
  have hpanic : bareGoblin.resolveSymbolInBytes bareElf 0 "Py_Version" = none := by
    simp only [Goblin.resolveSymbolInBytes, hkind, Goblin.resolveSymbolElf, hparse, hbias,
      Option.map_none]
  refine ⟨hpanic, fun h => ?_⟩
  have hsome := h.resolved "Py_Version"
  rw [hpanic] at hsome
  exact absurd hsome (by decide)

end GcScope
