import Mathlib.Tactic.Common
import GcScope.Lib.Outline

/-!
# The guides of the tree view

Each line of the tree starts with a prefix: four columns for each level above its node, with a guide
where that level goes on below, and a connector. Whether a level goes on is decided by looking for its
depth further down the list.

* `treePrefixes`, `hasSiblingAfter`: the prefixes.
* `guide_iff`: which columns hold a guide.
* **`guides_right_iff`**: the listings whose guides stand for the right ancestors.
* `guide_for_no_sibling`: one with a guide for an ancestor that has no later sibling.
-/

set_option autoImplicit false

namespace GcScope

/-- An entry of the tree; the prefixes go by its depth alone. -/
structure TreeEntry where
  depth : ℕ
  deriving DecidableEq

/-- The depth comes again behind entry `i`. -/
def hasSiblingAfter (entries : List TreeEntry) (i depth : ℕ) : Bool :=
  (entries.drop (i + 1)).any fun e => e.depth == depth

/-- The prefix of entry `i`. -/
def entryPrefix (entries : List TreeEntry) (i : ℕ) (e : TreeEntry) : String :=
  String.join ((List.range' 1 (e.depth - 1)).map fun d =>
      if hasSiblingAfter entries i d then "|   " else "    ") ++
    if 0 < e.depth then "+-- " else ""

def treePrefixes (entries : List TreeEntry) : List String :=
  entries.mapIdx fun i e => entryPrefix entries i e

/-- A tree listed in preorder, from its root on. -/
structure TreeListing where
  entries : List TreeEntry
  rooted : ∀ e ∈ entries.head?, e.depth = 0
  steps : ∀ i a b, entries[i]? = some a → entries[i + 1]? = some b → b.depth ≤ a.depth + 1

namespace TreeListing

variable (t : TreeListing)

/-- The tree, by the depths of the entries. -/
def outline : Outline where
  size := t.entries.length
  depth i := (t.entries[i]?.map TreeEntry.depth).getD 0
  rooted := by
    cases h : t.entries[0]? with
    | none => rfl
    | some e => exact t.rooted e (List.head?_eq_getElem? ▸ h)
  steps i hi := by
    have hb := List.getElem?_eq_getElem hi
    have ha := List.getElem?_eq_getElem ((Nat.lt_succ_self i).trans hi)
    rw [ha, hb]
    exact t.steps i _ _ ha hb

/-- Entry `i` has a guide in the columns of depth `d`. -/
def Guide (i d : ℕ) : Prop :=
  ∃ pfx, (treePrefixes t.entries)[i]? = some pfx ∧ pfx.toList[4 * (d - 1)]? = some '|'

variable {t} {i d : ℕ} {e : TreeEntry}

theorem outline_depth (he : t.entries[i]? = some e) : t.outline.depth i = e.depth :=
  congrArg (fun o => (o.map TreeEntry.depth).getD 0) he

theorem exists_drop_iff {k : ℕ} : (∃ e ∈ t.entries.drop k, e.depth = d) ↔
    ∃ s, k ≤ s ∧ s < t.outline.size ∧ t.outline.depth s = d := by
  constructor
  · rintro ⟨e, he, hed⟩
    obtain ⟨n, hn⟩ := List.mem_iff_getElem?.mp he
    rw [List.getElem?_drop] at hn
    have hlt := (List.getElem?_eq_some_iff.mp hn).1
    exact ⟨k + n, Nat.le_add_right k n, hlt, (outline_depth hn).trans hed⟩
  · rintro ⟨s, hks, hs, hds⟩
    have he := List.getElem?_eq_getElem hs
    have hmem : t.entries[s] ∈ t.entries.drop k := by
      refine List.mem_iff_getElem?.mpr ⟨s - k, ?_⟩
      rw [List.getElem?_drop, Nat.add_sub_cancel' hks]
      exact he
    exact ⟨_, hmem, (outline_depth he).symm.trans hds⟩

theorem hasSiblingAfter_iff : hasSiblingAfter t.entries i d = true ↔
    ∃ s, i < s ∧ s < t.outline.size ∧ t.outline.depth s = d := by
  simp only [hasSiblingAfter, List.any_eq_true, beq_iff_eq]
  exact exists_drop_iff

theorem getElem?_flatMap_block {α β : Type} {f : α → List β} {k : ℕ} (hk : ∀ a, (f a).length = k)
    (hpos : 0 < k) {l : List α} {n : ℕ} {a : α} (ha : l[n]? = some a) :
    (l.flatMap f)[k * n]? = (f a)[0]? := by
  induction l generalizing n with
  | nil => cases ha
  | cons b l ih =>
    cases n with
    | zero =>
      obtain rfl := Option.some.inj ha
      rw [List.flatMap_cons, Nat.mul_zero, List.getElem?_append_left (by rw [hk]; exact hpos)]
    | succ n =>
      rw [List.flatMap_cons, Nat.mul_succ, List.getElem?_append_right (by rw [hk]; omega), hk,
        Nat.add_sub_cancel]
      exact ih ha

/-- **An entry has a guide where the depth comes again.** -/
theorem guide_iff (he : t.entries[i]? = some e) (hpos : 0 < d) (hd : d < e.depth) :
    t.Guide i d ↔ hasSiblingAfter t.entries i d = true := by
  have hcol : (List.range' 1 (e.depth - 1))[d - 1]? = some d := by
    rw [List.getElem?_range' (by omega)]
    exact congrArg some (by omega)
  have hblock := getElem?_flatMap_block (k := 4)
    (f := fun d => (if hasSiblingAfter t.entries i d then "|   " else "    ").toList)
    (fun d => by split_ifs <;> rfl) (by decide) hcol
  have hlen : 4 * (d - 1) < ((List.range' 1 (e.depth - 1)).flatMap fun d =>
      (if hasSiblingAfter t.entries i d then "|   " else "    ").toList).length := by
    by_contra hle
    rw [List.getElem?_eq_none (by omega)] at hblock
    split_ifs at hblock <;> cases hblock
  have hchar : (entryPrefix t.entries i e).toList[4 * (d - 1)]? =
      (if hasSiblingAfter t.entries i d then "|   " else "    ").toList[0]? := by
    rw [entryPrefix, String.toList_append, String.toList_join, List.flatMap_map,
      List.getElem?_append_left hlen, hblock]
  have hpfx : (treePrefixes t.entries)[i]? = some (entryPrefix t.entries i e) := by
    rw [treePrefixes, List.getElem?_mapIdx, he, Option.map_some]
  have hguide : t.Guide i d ↔
      (if hasSiblingAfter t.entries i d then "|   " else "    ").toList[0]? = some '|' := by
    rw [← hchar]
    exact ⟨fun ⟨pfx, hp, hc⟩ => Option.some.inj (hpfx.symm.trans hp) ▸ hc, fun hc => ⟨_, hpfx, hc⟩⟩
  rw [hguide]
  cases hasSiblingAfter t.entries i d <;> decide

variable (t) in
/-- Each guide stands for an ancestor with a later sibling, and each such ancestor has its guide. -/
def GuidesRight : Prop :=
  ∀ i e d, t.entries[i]? = some e → 0 < d → d < e.depth →
    (t.Guide i d ↔ ∃ j, t.outline.Ancestor j i ∧ t.outline.depth j = d ∧
      ∃ s, j < s ∧ t.outline.Sibling j s)

theorem guidesRight_iff_noReturn : t.GuidesRight ↔ t.outline.NoReturn := by
  rw [← Outline.depth_returns_iff]
  constructor
  · intro h i d hi hpos hd
    have he := List.getElem?_eq_getElem hi
    rw [outline_depth he] at hd
    rw [← hasSiblingAfter_iff, ← guide_iff he hpos hd]
    exact h i _ d he hpos hd
  · intro h i e d he hpos hd
    rw [guide_iff he hpos hd, hasSiblingAfter_iff]
    exact h i d (List.getElem?_eq_some_iff.mp he).1 hpos (by rwa [outline_depth he])

/-- **Which listings are drawn right**: those in which no depth that is left behind by more than one
level at once is ever taken again. -/
theorem guides_right_iff (t : TreeListing) : t.GuidesRight ↔
    ∀ i a b d e, t.entries[i]? = some a → t.entries[i + 1]? = some b → b.depth < d → d < a.depth →
      e ∈ t.entries.drop (i + 2) → e.depth ≠ d := by
  rw [guidesRight_iff_noReturn]
  constructor
  · intro h i a b d e ha hb hlo hhi he hed
    obtain ⟨s, his, hs, hds⟩ := exists_drop_iff.mp ⟨e, he, hed⟩
    rw [← outline_depth ha] at hhi
    rw [← outline_depth hb] at hlo
    exact h i d s hlo hhi his hs hds
  · intro h i d s hlo hhi his hs hds
    have hi : i < t.entries.length := (Nat.lt_of_succ_lt his).trans hs
    have hi' : i + 1 < t.entries.length := his.trans hs
    have ha := List.getElem?_eq_getElem hi
    have hb := List.getElem?_eq_getElem hi'
    obtain ⟨e, he, hed⟩ := exists_drop_iff.mpr ⟨s, his, hs, hds⟩
    rw [outline_depth ha] at hhi
    rw [outline_depth hb] at hlo
    exact h i _ _ d e ha hb hlo hhi he hed

/-- A branch of three levels, and one of two behind it. -/
def twoBranches : TreeListing where
  entries := [⟨0⟩, ⟨1⟩, ⟨2⟩, ⟨3⟩, ⟨1⟩, ⟨2⟩]
  rooted := by simp
  steps i a b ha hb := by
    match i with
    | 0 | 1 | 2 | 3 | 4 =>
      cases ha
      cases hb
      decide
    | i + 5 => cases hb

/-- **The deepest entry has a guide for an ancestor without a later sibling.** -/
theorem guide_for_no_sibling : ¬twoBranches.GuidesRight := by
  rw [guidesRight_iff_noReturn]
  intro h
  exact h 3 2 5 (by decide) (by decide) (by decide) (by decide) rfl

end TreeListing

end GcScope
