import Mathlib.Data.List.Dedup
import Mathlib.Data.List.Flatten
import Mathlib.Data.List.Lex
import Mathlib.Data.Prod.Lex
import Mathlib.Data.String.Basic
import GcScope.Lib.Grouping
import GcScope.Lib.StableSort

/-!
# The layout sweep

The generator groups source trees by layout. A release that shares its layout with a registered
release becomes an alias of it; a build no registered release describes fails the sweep.

* `layoutSignature`, `probe`, `scan`: what is found out about each tree.
* `groupAliases`, `groupSizes`, `groupUncovered`, `runSweep`: the tables and the verdict.
* `mem_aliases`: an alias is a release, for the smallest registered release of its layout.
* **`sweep_sound`**: the tables prove what they say, and the sweep passes when all builds are covered.
-/

set_option autoImplicit false

namespace GcScope.Sweep

open Grouping StableSort

/-- What `Include/patchlevel.h` says. -/
structure Version where
  major : ℕ
  minor : ℕ
  micro : ℕ
  level : ℕ
  serial : ℕ

/-- `PY_VERSION_HEX`. -/
def Version.hex (v : Version) : ℕ :=
  v.major <<< 24 ||| v.minor <<< 16 ||| v.micro <<< 8 ||| v.level <<< 4 ||| v.serial

/-- Before 3.13 there is no `_Py_DebugOffsets`. -/
def Version.BeforeBlock (v : Version) : Prop := v.major < 3 ∨ v.major = 3 ∧ v.minor < 13

instance (v : Version) : Decidable v.BeforeBlock := by unfold Version.BeforeBlock; infer_instance

/-- What the generated bindings say: the digests of the two structs, and the facts about the runtime. -/
structure Bindings where
  block : String
  stats : String
  inlineOff : Option ℕ
  grtSize : Option ℕ

/-- A directory, with what the readers find in it. -/
structure Tree where
  name : String
  hasPatchlevel : Bool
  /-- Nothing where `read_version` raises. -/
  version : Option Version
  /-- Whether the checkout is at a release tag; nothing where it is none. -/
  provenance : Option Bool
  /-- Nothing where no block could be extracted. -/
  bindings : Option Bindings

/-- What decides whether two builds share a layout. -/
structure Signature where
  hex : ℕ
  atTag : Bool
  block : String
  stats : String
  inlineOff : Option ℕ
  grtSize : Option ℕ

/-- Builds with the same triple decode identically. -/
def Signature.layout (s : Signature) : String × String × Option ℕ := (s.block, s.stats, s.inlineOff)

/-- The signature of a tree. -/
def layoutSignature (trustTags : Bool) (t : Tree) : Option Signature :=
  match t.version with
  | none => none
  | some v =>
    if v.BeforeBlock then none
    else t.bindings.map fun b =>
      ⟨v.hex, trustTags || t.provenance.getD false, b.block, b.stats, b.inlineOff, b.grtSize⟩

/-! ## The registry -/

/-- What is read off `mod.rs`: the rows of `LAYOUTS`, and the module of each variant. -/
structure ModRs where
  rows : List (ℕ × String)
  variantModule : String → Option String

/-- The module of each registered hex. -/
def registeredLayoutHexes (m : ModRs) : ℕ → Option String :=
  m.rows.foldl (fun out row => Function.update out row.1 (some ((m.variantModule row.2).getD "?")))
    fun _ => none

/-- The registry; without `mod.rs` it is empty. -/
def registry (modRs : Option ModRs) : ℕ → Option String :=
  (modRs.map registeredLayoutHexes).getD fun _ => none

/-! ## Probing the trees -/

inductive SkipReason where
  | noVersion
  | noDebugOffsets
deriving DecidableEq

/-- What has been found so far. -/
structure Scan where
  sigs : List Signature
  skipped : List (String × SkipReason)
  outOfScope : ℕ

/-- One tree. -/
def probe (trustTags : Bool) (s : Scan) (t : Tree) : Scan :=
  match t.version with
  | none => { s with skipped := s.skipped ++ [(t.name, .noVersion)] }
  | some v =>
    if v.BeforeBlock then { s with outOfScope := s.outOfScope + 1 }
    else match layoutSignature trustTags t with
      | none => { s with skipped := s.skipped ++ [(t.name, .noDebugOffsets)] }
      | some sig => { s with sigs := s.sigs ++ [sig] }

def scan (trustTags : Bool) (trees : List Tree) : Scan := trees.foldl (probe trustTags) ⟨[], [], 0⟩

/-- The trees of a directory. -/
def findTrees (tagsOnly trustTags : Bool) (dir : List Tree) : List Tree :=
  let trees := stableSort Tree.name (dir.filter Tree.hasPatchlevel)
  if tagsOnly && !trustTags then trees.filter fun t => t.provenance.getD false else trees

/-! ## The tables -/

section Group

variable (registered : ℕ → Option String)

/-- The registered releases of a group. -/
def taggedAnchors (members : List Signature) : List Signature :=
  (members.filter fun m => (registered m.hex).isSome).filter Signature.atTag

/-- The hex others of the group are aliases of. -/
def anchorHex (members : List Signature) : Option ℕ :=
  ((taggedAnchors registered members).map Signature.hex).min?

/-- The sizes of the releases of a group. -/
def taggedSizes (members : List Signature) : List ℕ :=
  stableSort id ((members.filter Signature.atTag).filterMap Signature.grtSize).dedup

/-- The aliases of a group. -/
def groupAliases (g : (String × String × Option ℕ) × List Signature) : List (ℕ × ℕ) :=
  match anchorHex registered g.2 with
  | none => []
  | some anchor =>
    (g.2.filter fun m => (registered m.hex).isNone && m.atTag).map fun m => (m.hex, anchor)

/-- The sizes the inline check accepts for a group. -/
def groupSizes (g : (String × String × Option ℕ) × List Signature) : List (ℕ × List ℕ) :=
  match anchorHex registered g.2 with
  | none => []
  | some anchor =>
    if g.1.2.2.isSome && !(taggedSizes g.2).isEmpty then [(anchor, taggedSizes g.2)] else []

/-- The builds of a group that nothing registered describes. -/
def groupUncovered (g : (String × String × Option ℕ) × List Signature) : List Signature :=
  g.2.filter fun m => (registered m.hex).isNone && (taggedAnchors registered g.2).isEmpty

/-- The tables, and what they leave out. -/
structure Report where
  aliases : List (ℕ × ℕ)
  verifiedSizes : List (ℕ × List ℕ)
  uncovered : List Signature

/-- One group. -/
def addGroup (r : Report) (g : (String × String × Option ℕ) × List Signature) : Report :=
  ⟨r.aliases ++ groupAliases registered g, r.verifiedSizes ++ groupSizes registered g,
    r.uncovered ++ groupUncovered registered g⟩

/-- The smallest hex of a group. -/
def minHex (g : (String × String × Option ℕ) × List Signature) : ℕ :=
  (g.2.map Signature.hex).min?.getD 0

/-- All groups, by their smallest hex. -/
def report (sigs : List Signature) : Report :=
  (stableSort minHex (groups Signature.layout sigs)).foldl (addGroup registered) ⟨[], [], []⟩

end Group

/-- The exit code, and the tables where they are printed. -/
structure Outcome where
  exitCode : ℕ
  tables : Option (List (ℕ × ℕ) × List (ℕ × List ℕ))

/-- Group the trees of a directory by layout. -/
def runSweep (modRs : Option ModRs) (emit tagsOnly trustTags : Bool) (dir : List Tree) : Outcome :=
  let trees := findTrees tagsOnly trustTags dir
  if trees.isEmpty then ⟨1, none⟩
  else
    let found := scan trustTags trees
    let r := report (registry modRs) found.sigs
    ⟨if r.uncovered.isEmpty && found.skipped.isEmpty then 0 else 1,
      if emit && !(r.aliases.isEmpty && r.verifiedSizes.isEmpty) then
        some (stableSort toLex r.aliases, stableSort toLex r.verifiedSizes)
      else none⟩

/-- The aliases that are printed. -/
def Outcome.aliases (o : Outcome) : List (ℕ × ℕ) := (o.tables.map Prod.fst).getD []

/-- The sizes that are printed. -/
def Outcome.verifiedSizes (o : Outcome) : List (ℕ × List ℕ) := (o.tables.map Prod.snd).getD []

/-- How a hex resolves: by its own row, or by the row it is an alias of. -/
def resolve (registered : ℕ → Option String) (aliases : List (ℕ × ℕ)) (hex : ℕ) : Option String :=
  match registered hex with
  | some mod => some mod
  | none => (aliases.find? fun a => a.1 = hex).bind fun a => registered a.2

/-! ## What a scan finds -/

/-- The tree is older than what the sweep is about. -/
def Tree.OutOfScope (t : Tree) : Prop := ∃ v, t.version = some v ∧ v.BeforeBlock

section Scan

variable (trustTags : Bool) (s : Scan) (t : Tree)

/-- **What a tree adds**: its signature, or itself where it should have one. -/
theorem probe_cases :
    (t.OutOfScope ∧ layoutSignature trustTags t = none ∧
      probe trustTags s t = { s with outOfScope := s.outOfScope + 1 }) ∨
    (¬t.OutOfScope ∧ layoutSignature trustTags t = none ∧
      ∃ why, probe trustTags s t = { s with skipped := s.skipped ++ [(t.name, why)] }) ∨
    ∃ sig, layoutSignature trustTags t = some sig ∧
      probe trustTags s t = { s with sigs := s.sigs ++ [sig] } := by
  cases hv : t.version with
  | none =>
    have hout : ¬t.OutOfScope := fun ⟨v, h, _⟩ => nomatch hv.symm.trans h
    exact Or.inr (Or.inl ⟨hout, by rw [layoutSignature, hv], .noVersion, by rw [probe, hv]⟩)
  | some v =>
    by_cases hb : v.BeforeBlock
    · exact Or.inl ⟨⟨v, hv, hb⟩, by simp [layoutSignature, hv, hb], by simp [probe, hv, hb]⟩
    · have hout : ¬t.OutOfScope := fun ⟨v', h, hb'⟩ => hb (Option.some.inj (hv.symm.trans h) ▸ hb')
      cases hsig : layoutSignature trustTags t with
      | none => exact Or.inr (Or.inl ⟨hout, rfl, .noDebugOffsets, by simp [probe, hv, hb, hsig]⟩)
      | some sig => exact Or.inr (Or.inr ⟨sig, rfl, by simp [probe, hv, hb, hsig]⟩)

theorem scan_concat (ts : List Tree) :
    scan trustTags (ts ++ [t]) = probe trustTags (scan trustTags ts) t := by
  rw [scan, List.foldl_append]; rfl

theorem sigs_scan (ts : List Tree) :
    (scan trustTags ts).sigs = ts.filterMap (layoutSignature trustTags) := by
  induction ts using List.reverseRecOn with
  | nil => rfl
  | append_singleton ts t ih =>
    rw [scan_concat, List.filterMap_append, ← ih]
    rcases probe_cases trustTags (scan trustTags ts) t with
      ⟨-, hsig, hp⟩ | ⟨-, hsig, _, hp⟩ | ⟨sig, hsig, hp⟩
    · simp [hp, hsig]
    · simp [hp, hsig]
    · simp [hp, hsig]

theorem layoutSignature_outOfScope {trustTags : Bool} {t : Tree} (h : t.OutOfScope) :
    layoutSignature trustTags t = none := by
  obtain ⟨v, hv, hb⟩ := h
  simp [layoutSignature, hv, hb]

theorem skipped_scan_eq_nil_iff (ts : List Tree) : (scan trustTags ts).skipped = [] ↔
    ∀ t ∈ ts, t.OutOfScope ∨ (layoutSignature trustTags t).isSome = true := by
  induction ts using List.reverseRecOn with
  | nil => simp [scan]
  | append_singleton ts t ih =>
    rw [scan_concat, List.forall_mem_append, List.forall_mem_singleton, ← ih]
    rcases probe_cases trustTags (scan trustTags ts) t with
      ⟨hout, -, hp⟩ | ⟨hout, hsig, _, hp⟩ | ⟨sig, hsig, hp⟩
    · simp [hp, hout]
    · simp [hp, hsig, hout]
    · simp [hp, hsig]

end Scan

/-! ## What a group gives -/

section Group

variable {registered : ℕ → Option String} {members : List Signature}

theorem mem_taggedAnchors {m : Signature} : m ∈ taggedAnchors registered members ↔
    m ∈ members ∧ (registered m.hex).isSome = true ∧ m.atTag = true := by
  rw [taggedAnchors, List.mem_filter, List.mem_filter, and_assoc]

theorem exists_of_anchorHex {anchor : ℕ} (h : anchorHex registered members = some anchor) :
    ∃ m ∈ members, m.hex = anchor ∧ (registered m.hex).isSome = true ∧ m.atTag = true := by
  obtain ⟨m, hm, hhex⟩ := List.mem_map.mp (List.min?_mem h)
  obtain ⟨hmem, hrest⟩ := mem_taggedAnchors.mp hm
  exact ⟨m, hmem, hhex, hrest⟩

/-- **An alias is an unregistered release, for a registered release of its group.** -/
theorem mem_groupAliases {g : (String × String × Option ℕ) × List Signature} {a : ℕ × ℕ}
    (h : a ∈ groupAliases registered g) : anchorHex registered g.2 = some a.2 ∧
      ∃ m ∈ g.2, m.hex = a.1 ∧ registered m.hex = none ∧ m.atTag = true := by
  unfold groupAliases at h
  cases hanchor : anchorHex registered g.2 with
  | none => simp [hanchor] at h
  | some anchor =>
    rw [hanchor] at h
    obtain ⟨m, hm, rfl⟩ := List.mem_map.mp h
    obtain ⟨hmem, hkeep⟩ := List.mem_filter.mp hm
    rw [Bool.and_eq_true, Option.isNone_iff_eq_none] at hkeep
    exact ⟨rfl, m, hmem, rfl, hkeep⟩

theorem mem_groupSizes {g : (String × String × Option ℕ) × List Signature} {v : ℕ × List ℕ}
    (h : v ∈ groupSizes registered g) : anchorHex registered g.2 = some v.1 := by
  unfold groupSizes at h
  cases hanchor : anchorHex registered g.2 with
  | none => simp [hanchor] at h
  | some anchor =>
    rw [hanchor] at h
    dsimp only at h
    split at h
    · obtain rfl := List.mem_singleton.mp h
      rfl
    · cases h

theorem map_fst_groupAliases_sublist (g : (String × String × Option ℕ) × List Signature) :
    ((groupAliases registered g).map Prod.fst).Sublist (g.2.map Signature.hex) := by
  unfold groupAliases
  cases anchorHex registered g.2 with
  | none => exact List.nil_sublist _
  | some anchor =>
    rw [List.map_map]
    exact List.filter_sublist.map _

theorem groupUncovered_eq_nil_iff {g : (String × String × Option ℕ) × List Signature} :
    groupUncovered registered g = [] ↔
      ∀ m ∈ g.2, (registered m.hex).isSome = true ∨
        ∃ m' ∈ g.2, m'.atTag = true ∧ (registered m'.hex).isSome = true := by
  have hanchors : (taggedAnchors registered g.2).isEmpty = false ↔
      ∃ m' ∈ g.2, m'.atTag = true ∧ (registered m'.hex).isSome = true := by
    rw [List.isEmpty_eq_false_iff_exists_mem]
    refine exists_congr fun m' => ?_
    rw [mem_taggedAnchors, and_comm (a := m'.atTag = true)]
  rw [groupUncovered, List.filter_eq_nil_iff]
  refine forall₂_congr fun m _ => ?_
  rw [← hanchors, Bool.and_eq_true, not_and_or, Bool.not_eq_true, Bool.not_eq_true,
    Option.isNone_eq_false_iff]

section Perm

variable {as bs : List Signature} (h : as.Perm bs)

include h

theorem anchorHex_perm : anchorHex registered as = anchorHex registered bs := by
  refine Option.ext fun a => ?_
  have hanchors : ((taggedAnchors registered as).map Signature.hex).Perm
      ((taggedAnchors registered bs).map Signature.hex) := ((h.filter _).filter _).map _
  rw [anchorHex, anchorHex, List.min?_eq_some_iff, List.min?_eq_some_iff]
  simp only [hanchors.mem_iff]

theorem taggedSizes_perm : taggedSizes as = taggedSizes bs :=
  stableSort_congr Function.injective_id ((h.filter _).filterMap _).dedup

variable (layout : String × String × Option ℕ)

theorem groupAliases_perm :
    (groupAliases registered (layout, as)).Perm (groupAliases registered (layout, bs)) := by
  rw [groupAliases, groupAliases, anchorHex_perm h]
  cases anchorHex registered bs with
  | none => exact List.Perm.refl _
  | some anchor => exact (h.filter _).map _

theorem groupSizes_perm : groupSizes registered (layout, as) = groupSizes registered (layout, bs) := by
  rw [groupSizes, groupSizes, anchorHex_perm h, taggedSizes_perm h]

theorem groupUncovered_perm :
    (groupUncovered registered (layout, as)).Perm (groupUncovered registered (layout, bs)) := by
  have hanchors : (taggedAnchors registered as).Perm (taggedAnchors registered bs) :=
    (h.filter _).filter _
  rw [groupUncovered, groupUncovered, hanchors.isEmpty_eq]
  exact h.filter _

end Perm

end Group

/-! ## The report -/

section Report

variable (registered : ℕ → Option String) (sigs : List Signature)

theorem foldl_addGroup (gs : List ((String × String × Option ℕ) × List Signature)) (r : Report) :
    gs.foldl (addGroup registered) r = ⟨r.aliases ++ gs.flatMap (groupAliases registered),
      r.verifiedSizes ++ gs.flatMap (groupSizes registered),
      r.uncovered ++ gs.flatMap (groupUncovered registered)⟩ := by
  induction gs generalizing r with
  | nil => simp
  | cons g gs ih => rw [List.foldl_cons, ih]; simp [addGroup]

/-- **What is reported is what the groups give.** -/
theorem report_perm :
    (report registered sigs).aliases.Perm
      ((groups Signature.layout sigs).flatMap (groupAliases registered)) ∧
    (report registered sigs).verifiedSizes.Perm
      ((groups Signature.layout sigs).flatMap (groupSizes registered)) ∧
    (report registered sigs).uncovered.Perm
      ((groups Signature.layout sigs).flatMap (groupUncovered registered)) := by
  have hsorted := stableSort_perm minHex (groups Signature.layout sigs)
  rw [report, foldl_addGroup]
  exact ⟨hsorted.flatMap_right _, hsorted.flatMap_right _, hsorted.flatMap_right _⟩

variable {registered sigs}

/-- **Nothing is uncovered when each build is registered or shares its layout with a registered
release.** -/
theorem uncovered_eq_nil_iff : (report registered sigs).uncovered = [] ↔
    ∀ s ∈ sigs, (registered s.hex).isSome = true ∨ ∃ s' ∈ sigs,
      s'.atTag = true ∧ (registered s'.hex).isSome = true ∧ s'.layout = s.layout := by
  have hnil := (report_perm registered sigs).2.2
  constructor
  · intro h s hs
    rw [h] at hnil
    have hgroup : (s.layout, sigs.filter fun a => a.layout = s.layout) ∈ groups Signature.layout sigs :=
      (mem_groups _).mpr ⟨⟨s, hs, rfl⟩, rfl⟩
    have hcovered := groupUncovered_eq_nil_iff.mp
      (List.flatMap_eq_nil_iff.mp hnil.nil_eq.symm _ hgroup) s (List.mem_filter.mpr ⟨hs, by simp⟩)
    refine hcovered.imp_right fun ⟨s', hs', htag, hreg⟩ => ?_
    obtain ⟨hmem, hlayout⟩ := List.mem_filter.mp hs'
    exact ⟨s', hmem, htag, hreg, of_decide_eq_true hlayout⟩
  · intro h
    have hempty : (groups Signature.layout sigs).flatMap (groupUncovered registered) = [] := by
      refine List.flatMap_eq_nil_iff.mpr fun g hg => groupUncovered_eq_nil_iff.mpr fun m hm => ?_
      obtain ⟨-, hmembers⟩ := (mem_groups _).mp hg
      have hin : ∀ m, m ∈ g.2 ↔ m ∈ sigs ∧ m.layout = g.1 := fun m => by
        rw [hmembers, List.mem_filter, decide_eq_true_iff]
      obtain ⟨hs, hlayout⟩ := (hin m).mp hm
      refine (h m hs).imp_right fun ⟨s', hs', htag, hreg, hsame⟩ => ?_
      exact ⟨s', (hin s').mpr ⟨hs', hsame.trans hlayout⟩, htag, hreg⟩
    rw [hempty] at hnil
    exact hnil.eq_nil

theorem mem_aliases {a : ℕ × ℕ} (h : a ∈ (report registered sigs).aliases) :
    ∃ s ∈ sigs, ∃ s' ∈ sigs, s.hex = a.1 ∧ s'.hex = a.2 ∧ s.layout = s'.layout ∧
      s.atTag = true ∧ s'.atTag = true ∧ registered s.hex = none ∧
      (registered s'.hex).isSome = true := by
  obtain ⟨g, hg, ha⟩ := List.mem_flatMap.mp ((report_perm registered sigs).1.mem_iff.mp h)
  obtain ⟨-, hmembers⟩ := (mem_groups _).mp hg
  have hin : ∀ m ∈ g.2, m ∈ sigs ∧ m.layout = g.1 := fun m hm => by
    rw [hmembers, List.mem_filter, decide_eq_true_iff] at hm
    exact hm
  obtain ⟨hanchor, s, hs, hhex, hreg, htag⟩ := mem_groupAliases ha
  obtain ⟨s', hs', hhex', hreg', htag'⟩ := exists_of_anchorHex hanchor
  exact ⟨s, (hin s hs).1, s', (hin s' hs').1, hhex, hhex', (hin s hs).2.trans (hin s' hs').2.symm,
    htag, htag', hreg, hreg'⟩

theorem mem_verifiedSizes {v : ℕ × List ℕ} (h : v ∈ (report registered sigs).verifiedSizes) :
    ∃ s ∈ sigs, s.hex = v.1 ∧ s.atTag = true := by
  obtain ⟨g, hg, hv⟩ := List.mem_flatMap.mp ((report_perm registered sigs).2.1.mem_iff.mp h)
  obtain ⟨-, hmembers⟩ := (mem_groups _).mp hg
  obtain ⟨s, hs, hhex, -, htag⟩ := exists_of_anchorHex (mem_groupSizes hv)
  rw [hmembers] at hs
  exact ⟨s, List.mem_of_mem_filter hs, hhex, htag⟩

theorem nodup_aliases (h : (sigs.map Signature.hex).Nodup) :
    ((report registered sigs).aliases.map Prod.fst).Nodup := by
  have hmembers : (((groups Signature.layout sigs).flatMap Prod.snd).map Signature.hex).Nodup :=
    (((flatMap_groups_perm Signature.layout sigs).map Signature.hex).nodup_iff).mpr h
  rw [((report_perm registered sigs).1.map Prod.fst).nodup_iff, List.map_flatMap]
  rw [List.map_flatMap] at hmembers
  exact hmembers.sublist (List.Sublist.flatMap_right _ fun g _ => map_fst_groupAliases_sublist g)

variable (registered) in
theorem report_congr {sigs' : List Signature} (h : sigs.Perm sigs') :
    (report registered sigs).aliases.Perm (report registered sigs').aliases ∧
    (report registered sigs).verifiedSizes.Perm (report registered sigs').verifiedSizes ∧
    (report registered sigs).uncovered.Perm (report registered sigs').uncovered := by
  obtain ⟨haliases, hsizes, huncovered⟩ := report_perm registered sigs
  obtain ⟨haliases', hsizes', huncovered'⟩ := report_perm registered sigs'
  exact ⟨(haliases.trans (perm_flatMap_groups _ h fun k _ _ hp => groupAliases_perm hp k)).trans
      haliases'.symm,
    (hsizes.trans (perm_flatMap_groups _ h fun k _ _ hp => List.Perm.of_eq (groupSizes_perm hp k))).trans
      hsizes'.symm,
    (huncovered.trans (perm_flatMap_groups _ h fun k _ _ hp => groupUncovered_perm hp k)).trans
      huncovered'.symm⟩

end Report

/-! ## The sweep -/

section Run

variable {modRs : Option ModRs} {emit tagsOnly trustTags : Bool} {dir : List Tree}

variable (tagsOnly trustTags) in
theorem findTrees_perm {dir' : List Tree} (h : dir.Perm dir') :
    (findTrees tagsOnly trustTags dir).Perm (findTrees tagsOnly trustTags dir') := by
  have hsorted : (stableSort Tree.name (dir.filter Tree.hasPatchlevel)).Perm
      (stableSort Tree.name (dir'.filter Tree.hasPatchlevel)) :=
    ((stableSort_perm _ _).trans (h.filter _)).trans (stableSort_perm _ _).symm
  unfold findTrees
  split
  · exact hsorted.filter _
  · exact hsorted

/-- What a sweep finds out about the trees of a directory. -/
def sigsOf (tagsOnly trustTags : Bool) (dir : List Tree) : List Signature :=
  (findTrees tagsOnly trustTags dir).filterMap (layoutSignature trustTags)

variable (tagsOnly trustTags) in
theorem sigsOf_perm {dir' : List Tree} (h : dir.Perm dir') :
    (sigsOf tagsOnly trustTags dir).Perm (sigsOf tagsOnly trustTags dir') :=
  (findTrees_perm tagsOnly trustTags h).filterMap _

theorem runSweep_nil (h : findTrees tagsOnly trustTags dir = []) :
    runSweep modRs emit tagsOnly trustTags dir = ⟨1, none⟩ := by simp [runSweep, h]

theorem runSweep_eq (h : findTrees tagsOnly trustTags dir ≠ []) :
    runSweep modRs emit tagsOnly trustTags dir =
      let r := report (registry modRs) (sigsOf tagsOnly trustTags dir)
      ⟨if r.uncovered.isEmpty && (scan trustTags (findTrees tagsOnly trustTags dir)).skipped.isEmpty
        then 0 else 1,
        if emit && !(r.aliases.isEmpty && r.verifiedSizes.isEmpty) then
          some (stableSort toLex r.aliases, stableSort toLex r.verifiedSizes) else none⟩ := by
  simp only [runSweep, List.isEmpty_iff, h, if_false, sigs_scan]
  rfl

theorem printed_subperm (modRs : Option ModRs) (emit tagsOnly trustTags : Bool) (dir : List Tree) :
    (runSweep modRs emit tagsOnly trustTags dir).aliases.Subperm
      (report (registry modRs) (sigsOf tagsOnly trustTags dir)).aliases ∧
    (runSweep modRs emit tagsOnly trustTags dir).verifiedSizes.Subperm
      (report (registry modRs) (sigsOf tagsOnly trustTags dir)).verifiedSizes := by
  by_cases h : findTrees tagsOnly trustTags dir = []
  · rw [runSweep_nil h]
    exact ⟨List.nil_subperm, List.nil_subperm⟩
  · rw [runSweep_eq h]
    dsimp only [Outcome.aliases, Outcome.verifiedSizes]
    split
    · exact ⟨(stableSort_perm _ _).subperm, (stableSort_perm _ _).subperm⟩
    · exact ⟨List.nil_subperm, List.nil_subperm⟩

/-- **The sweep passes when there is a tree, and each is too old, registered, or shares its layout with
a registered release.** -/
theorem exitCode_eq_zero_iff : (runSweep modRs emit tagsOnly trustTags dir).exitCode = 0 ↔
    findTrees tagsOnly trustTags dir ≠ [] ∧
    ∀ t ∈ findTrees tagsOnly trustTags dir, t.OutOfScope ∨ ∃ s, layoutSignature trustTags t = some s ∧
      ((registry modRs s.hex).isSome = true ∨ ∃ s' ∈ sigsOf tagsOnly trustTags dir,
        s'.atTag = true ∧ (registry modRs s'.hex).isSome = true ∧ s'.layout = s.layout) := by
  by_cases h : findTrees tagsOnly trustTags dir = []
  · simp [runSweep_nil h, h]
  · have hexit : (runSweep modRs emit tagsOnly trustTags dir).exitCode = 0 ↔
        (report (registry modRs) (sigsOf tagsOnly trustTags dir)).uncovered = [] ∧
          (scan trustTags (findTrees tagsOnly trustTags dir)).skipped = [] := by
      rw [runSweep_eq h]
      dsimp only
      rw [← List.isEmpty_iff, ← List.isEmpty_iff, ← Bool.and_eq_true]
      split <;> simp_all
    rw [hexit, uncovered_eq_nil_iff, skipped_scan_eq_nil_iff]
    constructor
    · rintro ⟨hcovered, hread⟩
      refine ⟨h, fun t ht => (hread t ht).imp_right fun hsig => ?_⟩
      obtain ⟨s, hs⟩ := Option.isSome_iff_exists.mp hsig
      exact ⟨s, hs, hcovered s (List.mem_filterMap.mpr ⟨t, ht, hs⟩)⟩
    · rintro ⟨-, hall⟩
      refine ⟨fun s hs => ?_, fun t ht => (hall t ht).imp_right fun ⟨s, hs, _⟩ => by rw [hs]; rfl⟩
      obtain ⟨t, ht, hsig⟩ := List.mem_filterMap.mp hs
      rcases hall t ht with hold | ⟨s', hs', hcovered⟩
      · exact absurd (layoutSignature_outOfScope hold) (by rw [hsig]; simp)
      · rwa [← Option.some.inj (hs'.symm.trans hsig)]

/-- The outcome does not depend on the order in which trees are found. -/
theorem runSweep_perm {dir' : List Tree} (h : dir.Perm dir') :
    runSweep modRs emit tagsOnly trustTags dir = runSweep modRs emit tagsOnly trustTags dir' := by
  have htrees := findTrees_perm tagsOnly trustTags h
  by_cases hnil : findTrees tagsOnly trustTags dir = []
  · rw [runSweep_nil hnil, runSweep_nil (hnil ▸ htrees).nil_eq.symm]
  · have hnil' : findTrees tagsOnly trustTags dir' ≠ [] := fun h' => hnil (h' ▸ htrees).eq_nil
    obtain ⟨haliases, hsizes, huncovered⟩ :=
      report_congr (registry modRs) (sigsOf_perm tagsOnly trustTags h)
    have hskipped : (scan trustTags (findTrees tagsOnly trustTags dir)).skipped.isEmpty =
        (scan trustTags (findTrees tagsOnly trustTags dir')).skipped.isEmpty := by
      rw [Bool.eq_iff_iff, List.isEmpty_iff, List.isEmpty_iff, skipped_scan_eq_nil_iff,
        skipped_scan_eq_nil_iff]
      simp only [htrees.mem_iff]
    rw [runSweep_eq hnil, runSweep_eq hnil']
    dsimp only
    rw [huncovered.isEmpty_eq, hskipped, haliases.isEmpty_eq, hsizes.isEmpty_eq,
      stableSort_congr toLex.injective haliases, stableSort_congr toLex.injective hsizes]

end Run

/-- What a hex resolves to is the module of a build with its layout. -/
theorem exists_of_resolve {registered : ℕ → Option String} {sigs : List Signature}
    {aliases : List (ℕ × ℕ)} (hhexes : (sigs.map Signature.hex).Nodup)
    (haliases : ∀ a ∈ aliases, a ∈ (report registered sigs).aliases) {s : Signature} (hs : s ∈ sigs)
    {mod : String} (h : resolve registered aliases s.hex = some mod) :
    ∃ s₀ ∈ sigs, registered s₀.hex = some mod ∧ s₀.layout = s.layout := by
  unfold resolve at h
  cases hreg : registered s.hex with
  | some m =>
    rw [hreg] at h
    exact ⟨s, hs, hreg.trans h, rfl⟩
  | none =>
    rw [hreg] at h
    obtain ⟨a, hfind, hmod⟩ := Option.bind_eq_some_iff.mp h
    obtain ⟨s₁, hs₁, s₀, hs₀, hhex₁, hhex₀, hlayout, -⟩ :=
      mem_aliases (haliases a (List.mem_of_find?_eq_some hfind))
    have hhex : a.1 = s.hex := by simpa using List.find?_some hfind
    obtain rfl : s₁ = s := List.inj_on_of_nodup_map hhexes hs₁ hs (hhex₁.trans hhex)
    exact ⟨s₀, hs₀, hhex₀ ▸ hmod, hlayout.symm⟩

/-- **The sweep's tables are sound.** Each hex has one alias at most. Builds that the registry and the
aliases resolve to one module have one layout. Only releases are aliased, and only releases are anchors.
The sweep passes exactly when there is a tree and each tree is too old, or can be analysed and is
registered or has the layout of a registered release. Nothing depends on the order of the trees. -/
theorem sweep_sound (modRs : Option ModRs) (emit tagsOnly trustTags : Bool) (dir : List Tree)
    (hhexes : ((sigsOf tagsOnly trustTags dir).map Signature.hex).Nodup)
    (hmodules : ∀ h h' mod, registry modRs h = some mod → registry modRs h' = some mod → h = h') :
    ((runSweep modRs emit tagsOnly trustTags dir).aliases.map Prod.fst).Nodup ∧
    (∀ s ∈ sigsOf tagsOnly trustTags dir, ∀ s' ∈ sigsOf tagsOnly trustTags dir, ∀ mod,
      resolve (registry modRs) (runSweep modRs emit tagsOnly trustTags dir).aliases s.hex = some mod →
      resolve (registry modRs) (runSweep modRs emit tagsOnly trustTags dir).aliases s'.hex = some mod →
      s.layout = s'.layout) ∧
    (∀ s ∈ sigsOf tagsOnly trustTags dir, s.atTag = false →
      (∀ a ∈ (runSweep modRs emit tagsOnly trustTags dir).aliases, a.1 ≠ s.hex ∧ a.2 ≠ s.hex) ∧
      ∀ v ∈ (runSweep modRs emit tagsOnly trustTags dir).verifiedSizes, v.1 ≠ s.hex) ∧
    ((runSweep modRs emit tagsOnly trustTags dir).exitCode = 0 ↔
      findTrees tagsOnly trustTags dir ≠ [] ∧
      ∀ t ∈ findTrees tagsOnly trustTags dir, t.OutOfScope ∨
        ∃ s, layoutSignature trustTags t = some s ∧
          ((registry modRs s.hex).isSome = true ∨ ∃ s' ∈ sigsOf tagsOnly trustTags dir,
            s'.atTag = true ∧ (registry modRs s'.hex).isSome = true ∧ s'.layout = s.layout)) ∧
    ∀ dir', dir'.Perm dir →
      runSweep modRs emit tagsOnly trustTags dir' = runSweep modRs emit tagsOnly trustTags dir := by
  obtain ⟨haliases, hsizes⟩ := printed_subperm modRs emit tagsOnly trustTags dir
  have hne : ∀ s₀ ∈ sigsOf tagsOnly trustTags dir, s₀.atTag = true →
      ∀ s ∈ sigsOf tagsOnly trustTags dir, s.atTag = false → s₀.hex ≠ s.hex := by
    intro s₀ hs₀ htag₀ s hs htag hhex
    obtain rfl := List.inj_on_of_nodup_map hhexes hs₀ hs hhex
    exact nomatch htag₀.symm.trans htag
  refine ⟨?_, fun s hs s' hs' mod h h' => ?_, fun s hs htag => ⟨fun a ha => ?_, fun v hv => ?_⟩,
    exitCode_eq_zero_iff, fun dir' h => runSweep_perm h⟩
  · obtain ⟨l, hperm, hsub⟩ := haliases
    exact ((hperm.map Prod.fst).nodup_iff).mp ((nodup_aliases hhexes).sublist (hsub.map Prod.fst))
  · obtain ⟨s₀, hs₀, hmod, hlayout⟩ := exists_of_resolve hhexes (fun a => (haliases.subset ·)) hs h
    obtain ⟨s₀', hs₀', hmod', hlayout'⟩ := exists_of_resolve hhexes (fun a => (haliases.subset ·)) hs' h'
    obtain rfl : s₀ = s₀' := List.inj_on_of_nodup_map hhexes hs₀ hs₀' (hmodules _ _ mod hmod hmod')
    exact hlayout.symm.trans hlayout'
  · obtain ⟨s₁, hs₁, s₀, hs₀, hhex₁, hhex₀, -, htag₁, htag₀, -⟩ := mem_aliases (haliases.subset ha)
    exact ⟨hhex₁ ▸ hne s₁ hs₁ htag₁ s hs htag, hhex₀ ▸ hne s₀ hs₀ htag₀ s hs htag⟩
  · obtain ⟨s₀, hs₀, hhex₀, htag₀⟩ := mem_verifiedSizes (hsizes.subset hv)
    exact hhex₀ ▸ hne s₀ hs₀ htag₀ s hs htag

/-- A release with a row, one more patch release of its layout, and a branch tip of its layout. -/
theorem sweep_sound_new_patch :
    let bindings := Bindings.mk "b0" "s0" (some 120) (some 240)
    let dir := [Tree.mk "3.14.1" true (some ⟨3, 14, 1, 0xf, 0⟩) (some true) (some bindings),
      Tree.mk "3.14.0" true (some ⟨3, 14, 0, 0xf, 0⟩) (some true) (some bindings),
      Tree.mk "main" true (some ⟨3, 14, 2, 0xa, 0⟩) (some false) (some bindings)]
    let o := runSweep (some ⟨[(0x030e00f0, "V3_14")], fun _ => some "v_3_14_0"⟩) true false false dir
    (o.aliases.map Prod.fst).Nodup ∧ o.aliases = [(0x030e01f0, 0x030e00f0)] := by
  refine ⟨(sweep_sound _ _ _ _ _ (by decide) ?_).1, by decide⟩
  intro h h' mod hmod hmod'
  have hrow : ∀ h, registry (some ⟨[(0x030e00f0, "V3_14")], fun _ => some "v_3_14_0"⟩) h = some mod →
      h = 0x030e00f0 := fun h hh => by
    by_contra hne
    simp [registry, registeredLayoutHexes, hne] at hh
  rw [hrow h hmod, hrow h' hmod']

end GcScope.Sweep
