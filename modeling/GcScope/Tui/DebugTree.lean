import Mathlib.Tactic.Common
import GcScope.Tui.Tree

/-!
# The tree of the debug offsets

The first panel lists the fields of `_Py_DebugOffsets` as a tree: a part every version has, the fields
of the `gc` sub-struct this version has, and below its last field the layout of one Entry.

* `gcDebugFields`, `debugOffsetsTree`: the rows.
* `treeOf`: they list a tree.
* `hangsBelow_of_split`: what a row hangs below.
* **`debug_tree_right`**: for every version the guides are right, and every row hangs where it belongs.
-/

set_option autoImplicit false

namespace GcScope

/-! ## The rows -/

inductive TreeEntryKind where
  | rawValue (offset : ℕ)
  | group
  | derived
  | layout (fieldOffset : UInt32)
  deriving DecidableEq

/-- An entry of the tree with all it shows. -/
structure FieldEntry extends TreeEntry where
  label : String
  kind : TreeEntryKind
  deriving DecidableEq

/-- The fields of the `gc` sub-struct, by their place in it. -/
def CANON : List (String × ℕ) :=
  [("size", 0), ("collecting", 8), ("frame", 16), ("generation_stats_size", 24),
    ("generation_stats", 32)]

/-- Those that a sub-struct of this size has, by their place in the whole. -/
def gcDebugFields (gcOff gcSize : ℕ) : List (String × ℕ) :=
  (CANON.filter fun f => f.2 < gcSize).map fun f => (f.1, gcOff + f.2)

/-- The part of the tree that every version has. -/
def fixedEntries : List FieldEntry :=
  [⟨⟨0⟩, "_Py_DebugOffsets", .group⟩,
    ⟨⟨1⟩, "cookie[8]", .rawValue 0⟩,
    ⟨⟨1⟩, "version", .rawValue 8⟩,
    ⟨⟨1⟩, "free_threaded", .rawValue 16⟩,
    ⟨⟨1⟩, "runtime_state", .group⟩,
    ⟨⟨2⟩, "size", .rawValue 24⟩,
    ⟨⟨2⟩, "finalizing", .rawValue 32⟩,
    ⟨⟨2⟩, "interpreters_head", .rawValue 40⟩,
    ⟨⟨1⟩, "interpreter_state", .group⟩,
    ⟨⟨2⟩, "size", .rawValue 48⟩,
    ⟨⟨2⟩, "id", .rawValue 56⟩,
    ⟨⟨2⟩, "next", .rawValue 64⟩,
    ⟨⟨2⟩, "threads_head", .rawValue 72⟩,
    ⟨⟨2⟩, "threads_main", .rawValue 80⟩,
    ⟨⟨2⟩, "gc", .rawValue 88⟩]

/-- The fields of the `gc` sub-struct. -/
def gcEntries (gcFields : List (String × ℕ)) : List FieldEntry :=
  gcFields.map fun f => ⟨⟨3⟩, f.1, .rawValue f.2⟩

/-- The fields of one Entry. -/
def layoutEntries (entryFields : Option (List (String × ℕ))) : List FieldEntry :=
  (entryFields.getD []).map fun f => ⟨⟨6⟩, f.1, .layout (UInt32.ofNat f.2)⟩

/-- The layout below `generation_stats`. -/
def derivedEntries (entryFields : Option (List (String × ℕ))) : List FieldEntry :=
  [⟨⟨4⟩, "item_size", .derived⟩, ⟨⟨4⟩, "young_entries (11)", .derived⟩, ⟨⟨5⟩, "entry", .group⟩] ++
    layoutEntries entryFields ++
    [⟨⟨4⟩, "index0", .derived⟩, ⟨⟨4⟩, "old0_entries (3)", .derived⟩, ⟨⟨4⟩, "index1", .derived⟩,
      ⟨⟨4⟩, "old1_entries (3)", .derived⟩, ⟨⟨4⟩, "index2", .derived⟩]

/-- The full tree; the derived layout comes only with a `generation_stats` field. -/
def debugOffsetsTree (gcFields : List (String × ℕ)) (entryFields : Option (List (String × ℕ))) :
    List FieldEntry :=
  fixedEntries ++ gcEntries gcFields ++
    if gcFields.any fun f => f.1 == "generation_stats" then derivedEntries entryFields else []

/-! ## They list a tree -/

section Depths

variable (gcFields : List (String × ℕ)) (entryFields : Option (List (String × ℕ)))

theorem depths_derived : (derivedEntries entryFields).map (·.depth) =
    [4, 4, 5] ++ List.replicate (entryFields.getD []).length 6 ++ [4, 4, 4, 4, 4] := by
  have hlayout : (layoutEntries entryFields).map (·.depth) =
      List.replicate (entryFields.getD []).length 6 := by
    rw [layoutEntries, List.map_map]
    exact List.map_const' ..
  rw [derivedEntries, List.map_append, List.map_append, hlayout]
  rfl

theorem depths_tree : (debugOffsetsTree gcFields entryFields).map (·.depth) =
    [0, 1, 1, 1, 1, 2, 2, 2, 1, 2, 2, 2, 2, 2, 2] ++ (List.replicate gcFields.length 3 ++
      if gcFields.any fun f => f.1 == "generation_stats" then
        (derivedEntries entryFields).map (·.depth) else []) := by
  have hgc : (gcEntries gcFields).map (·.depth) = List.replicate gcFields.length 3 := by
    rw [gcEntries, List.map_map]
    exact List.map_const' ..
  rw [debugOffsetsTree, List.map_append, List.map_append, hgc, List.append_assoc, apply_ite
    (List.map fun e : FieldEntry => e.depth), List.map_nil]
  rfl

theorem isChain_cons_replicate_append {R : ℕ → ℕ → Prop} {a b : ℕ} {l : List ℕ} (hab : R a b)
    (hbb : R b b) (ha : (a :: l).IsChain R) (hb : (b :: l).IsChain R) (n : ℕ) :
    (a :: (List.replicate n b ++ l)).IsChain R := by
  induction n generalizing a with
  | zero => exact ha
  | succ n ih =>
    rw [List.replicate_succ, List.cons_append, List.isChain_cons_cons]
    exact ⟨hab, ih hbb hb⟩

theorem isChain_depths :
    ((debugOffsetsTree gcFields entryFields).map (·.depth)).IsChain fun a b => b ≤ a + 1 := by
  have hderived : (3 :: (derivedEntries entryFields).map (·.depth)).IsChain fun a b => b ≤ a + 1 := by
    rw [depths_derived]
    simp only [List.cons_append, List.nil_append, List.isChain_cons_cons]
    exact ⟨by decide, by decide, by decide,
      isChain_cons_replicate_append (by decide) (by decide) (by simp) (by simp) _⟩
  rw [depths_tree]
  simp only [List.cons_append, List.nil_append, List.isChain_cons_cons]
  refine ⟨by decide, by decide, by decide, by decide, by decide, by decide, by decide, by decide,
    by decide, by decide, by decide, by decide, by decide, by decide, ?_⟩
  cases gcFields with
  | nil => simp
  | cons f gcFields =>
    rw [List.length_cons, List.replicate_succ, List.cons_append, List.isChain_cons_cons]
    refine ⟨by decide, ?_⟩
    split_ifs
    · exact isChain_cons_replicate_append (by decide) (by decide) hderived hderived _
    · exact isChain_cons_replicate_append (by decide) (by decide) (by simp) (by simp) _

/-- No depth is returned to that was left behind by more than one level at once: the fields of an Entry
are followed by fields two levels up, and by nothing in between. -/
theorem noReturnIn_depths :
    Outline.NoReturnIn ((debugOffsetsTree gcFields entryFields).map (·.depth)) := by
  have hlayout : ∀ n, Outline.NoReturnIn (List.replicate n 6 ++ [4, 4, 4, 4, 4]) := by
    intro n
    induction n with
    | zero => simp [Outline.NoReturnIn]
    | succ n ih =>
      cases n with
      | zero => simp [Outline.NoReturnIn]
      | succ n => exact Outline.noReturnIn_cons (fun b hb => by cases hb; decide) ih
  have hderived : Outline.NoReturnIn ((derivedEntries entryFields).map (·.depth)) := by
    rw [depths_derived, List.append_assoc]
    refine Outline.noReturnIn_append ?_ (hlayout _)
    cases (entryFields.getD []).length <;> simp [List.replicate_succ]
  rw [depths_tree]
  generalize hlast : (if gcFields.any fun f => f.1 == "generation_stats" then
    (derivedEntries entryFields).map (·.depth) else []) = last
  have hlast' : Outline.NoReturnIn last ∧ (last.take 1 = [] ∨ last.take 1 = [4]) := by
    subst hlast
    split_ifs
    · exact ⟨hderived, Or.inr (by rw [depths_derived]; rfl)⟩
    · exact ⟨trivial, Or.inl rfl⟩
  obtain ⟨hreturn, hhead⟩ := hlast'
  have hgc : Outline.NoReturnIn (List.replicate gcFields.length 3 ++ last) := by
    refine Outline.noReturnIn_append ?_ hreturn
    cases gcFields.length with
    | zero => rcases hhead with h | h <;> simp [h]
    | succ n =>
      rw [List.replicate_succ, List.cons_append]
      rcases hhead with h | h <;> rw [h] <;>
        exact isChain_cons_replicate_append (by decide) (by decide) (by simp) (by simp) n
  refine Outline.noReturnIn_append ?_ hgc
  cases gcFields.length with
  | zero => rcases hhead with h | h <;> simp [h]
  | succ n => simp [List.replicate_succ]

/-- The tree that is drawn. -/
def treeOf : TreeListing where
  entries := (debugOffsetsTree gcFields entryFields).map (·.toTreeEntry)
  rooted e he := by
    obtain rfl := Option.some.inj he
    rfl
  steps i a b ha hb := by
    have hchain := isChain_depths gcFields entryFields
    rw [List.getElem?_map] at ha hb
    obtain ⟨x, hx, rfl⟩ := Option.map_eq_some_iff.mp ha
    obtain ⟨y, hy, rfl⟩ := Option.map_eq_some_iff.mp hb
    obtain ⟨hi, rfl⟩ := List.getElem?_eq_some_iff.mp hx
    obtain ⟨hi', rfl⟩ := List.getElem?_eq_some_iff.mp hy
    have h := List.isChain_iff_getElem.mp hchain i (by rwa [List.length_map])
    rwa [List.getElem_map, List.getElem_map] at h

variable {gcFields entryFields}

theorem treeOf_depth (n : ℕ) : (treeOf gcFields entryFields).outline.depth n =
    ((debugOffsetsTree gcFields entryFields).map (·.depth)).getD n 0 := by
  rw [List.getD_eq_getElem?_getD, List.getElem?_map]
  change Option.getD (((debugOffsetsTree gcFields entryFields).map _)[n]?.map _) 0 = _
  rw [List.getElem?_map, Option.map_map]
  rfl

theorem treeOf_size : (treeOf gcFields entryFields).outline.size =
    ((debugOffsetsTree gcFields entryFields).map (·.depth)).length := by
  rw [List.length_map]
  exact List.length_map ..

/-- **Every guide of every such tree is right.** -/
theorem guidesRight_treeOf : (treeOf gcFields entryFields).GuidesRight :=
  TreeListing.guidesRight_iff_noReturn.mpr
    ((noReturnIn_depths gcFields entryFields).noReturn treeOf_size treeOf_depth)

variable (gcFields entryFields) in
/-- Row `j` hangs below a row with this label. -/
def HangsBelow (j : ℕ) (label : String) : Prop :=
  ∃ k row, (treeOf gcFields entryFields).outline.Parent k j ∧
    (debugOffsetsTree gcFields entryFields)[k]? = some row ∧ row.label = label

/-- **What the rows behind a row hang below**, as long as none of them is shallower. -/
theorem hangsBelow_of_split {pre l post : List FieldEntry} {p c : FieldEntry} {n : ℕ}
    (htree : debugOffsetsTree gcFields entryFields = pre ++ p :: (l ++ post)) (hc : l[n]? = some c)
    (hdepth : p.depth + 1 = c.depth) (hl : ∀ e ∈ l, c.depth ≤ e.depth) :
    HangsBelow gcFields entryFields (pre.length + 1 + n) p.label := by
  obtain ⟨hn, rfl⟩ := List.getElem?_eq_some_iff.mp hc
  have hsplit : l ++ post = l.take n ++ l[n] :: (l.drop (n + 1) ++ post) := by
    rw [← List.cons_append, ← List.append_assoc, ← List.drop_eq_getElem_cons hn,
      List.take_append_drop]
  have hdepths : (debugOffsetsTree gcFields entryFields).map (·.depth) = pre.map (·.depth) ++
      p.depth :: ((l.take n).map (·.depth) ++ l[n].depth :: (l.drop (n + 1) ++ post).map (·.depth)) := by
    rw [htree, hsplit]
    simp
  have hparent := Outline.parent_of_append (O := (treeOf gcFields entryFields).outline)
    (fun i _ => hdepths ▸ treeOf_depth i) (hdepths ▸ treeOf_size) hdepth (fun m hm => by
      obtain ⟨e, he, rfl⟩ := List.mem_map.mp hm
      exact hl e (List.mem_of_mem_take he))
  rw [List.length_map, List.length_map, List.length_take_of_le hn.le] at hparent
  refine ⟨pre.length, p, hparent, ?_, rfl⟩
  rw [htree, List.getElem?_append_right le_rfl, Nat.sub_self]
  rfl

theorem exists_of_split {pre l post : List FieldEntry} {p row : FieldEntry} {j : ℕ}
    (hrow : (pre ++ p :: (l ++ post))[j]? = some row) (hpre : row ∉ pre) (hp : row ≠ p)
    (hpost : row ∉ post) : ∃ n, j = pre.length + 1 + n ∧ l[n]? = some row := by
  rcases Nat.lt_or_ge j pre.length with h | h
  · rw [List.getElem?_append_left h] at hrow
    exact absurd (List.mem_of_getElem? hrow) hpre
  · obtain ⟨k, rfl⟩ := Nat.exists_eq_add_of_le h
    rw [List.getElem?_append_right h, Nat.add_sub_cancel_left] at hrow
    cases k with
    | zero => exact absurd (Option.some.inj hrow).symm hp
    | succ n =>
      rw [List.getElem?_cons_succ] at hrow
      rcases Nat.lt_or_ge n l.length with hn | hn
      · rw [List.getElem?_append_left hn] at hrow
        exact ⟨n, by omega, hrow⟩
      · rw [List.getElem?_append_right hn] at hrow
        exact absurd (List.mem_of_getElem? hrow) hpost

/-! ## Where the rows hang -/

theorem gcDebugFields_of_any {gcOff gcSize : ℕ}
    (h : (gcDebugFields gcOff gcSize).any (fun f => f.1 == "generation_stats") = true) :
    ∃ init, gcDebugFields gcOff gcSize = init ++ [("generation_stats", gcOff + 32)] := by
  have hsize : 32 < gcSize := by
    by_contra hsmall
    simp [gcDebugFields, CANON, hsmall] at h
  have hall : CANON.filter (fun f => f.2 < gcSize) = CANON :=
    List.filter_eq_self.mpr fun f hf => by
      simp only [CANON, List.mem_cons, List.not_mem_nil, or_false] at hf
      rcases hf with rfl | rfl | rfl | rfl | rfl <;> simp <;> omega
  exact ⟨(CANON.take 4).map fun f => (f.1, gcOff + f.2), by rw [gcDebugFields, hall]; rfl⟩

theorem mem_derived_depth {e : FieldEntry} (he : e ∈ derivedEntries entryFields) :
    4 ≤ e.depth ∧ (e.kind = .derived → e.depth = 4) := by
  simp only [derivedEntries, layoutEntries, List.mem_append, List.mem_cons, List.not_mem_nil,
    or_false, List.mem_map] at he
  rcases he with ((rfl | rfl | rfl) | ⟨f, -, rfl⟩) | (rfl | rfl | rfl | rfl | rfl) <;> simp

theorem kind_of_mem_fixed {e : FieldEntry} (he : e ∈ fixedEntries) :
    e.kind ≠ .derived ∧ (∀ off, e.kind ≠ .layout off) ∧ e.depth ≤ 2 := by
  simp only [fixedEntries, List.mem_cons, List.not_mem_nil, or_false] at he
  rcases he with rfl | rfl | rfl | rfl | rfl | rfl | rfl | rfl | rfl | rfl | rfl | rfl | rfl | rfl |
    rfl <;> simp

theorem kind_of_mem_gc {e : FieldEntry} {fields : List (String × ℕ)} (he : e ∈ gcEntries fields) :
    e.kind ≠ .derived ∧ (∀ off, e.kind ≠ .layout off) ∧ e.depth = 3 := by
  obtain ⟨f, -, rfl⟩ := List.mem_map.mp he
  simp

/-- A row of neither of the first two parts is there only with a `generation_stats` field. -/
theorem any_of_row {row : FieldEntry} {j : ℕ}
    (hrow : (debugOffsetsTree gcFields entryFields)[j]? = some row)
    (hfixed : ¬(row.kind ≠ .derived ∧ (∀ off, row.kind ≠ .layout off) ∧ row.depth ≤ 2))
    (hgc : ¬(row.kind ≠ .derived ∧ (∀ off, row.kind ≠ .layout off) ∧ row.depth = 3)) :
    gcFields.any (fun f => f.1 == "generation_stats") = true := by
  by_contra hnone
  have hmem := List.mem_of_getElem? hrow
  rw [debugOffsetsTree, if_neg hnone, List.append_nil, List.mem_append] at hmem
  exact hmem.elim (fun h => hfixed (kind_of_mem_fixed h)) fun h => hgc (kind_of_mem_gc h)

variable (entryFields) in
/-- **The tree of every version is drawn right**, whatever its `gc` sub-struct and its Entries look like:
each guide stands for an ancestor with a later sibling, the fields of the sub-struct hang below
`gc`, the derived layout below `generation_stats`, and the fields of an Entry below `entry`. -/
theorem debug_tree_right (gcOff gcSize : ℕ) :
    (treeOf (gcDebugFields gcOff gcSize) entryFields).GuidesRight ∧ ∀ j row,
      (debugOffsetsTree (gcDebugFields gcOff gcSize) entryFields)[j]? = some row →
        (row.depth = 3 → HangsBelow (gcDebugFields gcOff gcSize) entryFields j "gc") ∧
        (row.kind = .derived →
          HangsBelow (gcDebugFields gcOff gcSize) entryFields j "generation_stats") ∧
        ∀ off, row.kind = .layout off →
          HangsBelow (gcDebugFields gcOff gcSize) entryFields j "entry" := by
  refine ⟨guidesRight_treeOf, fun j row hrow => ⟨fun hdepth => ?_, fun hkind => ?_, fun off hkind => ?_⟩⟩
  · -- the fields of the sub-struct
    have htree : debugOffsetsTree (gcDebugFields gcOff gcSize) entryFields =
        fixedEntries.dropLast ++ ⟨⟨2⟩, "gc", .rawValue 88⟩ ::
          (gcEntries (gcDebugFields gcOff gcSize) ++
            if (gcDebugFields gcOff gcSize).any fun f => f.1 == "generation_stats" then
              derivedEntries entryFields else []) := by
      rw [debugOffsetsTree, List.append_assoc]
      rfl
    have hpost : row ∉ (if (gcDebugFields gcOff gcSize).any fun f => f.1 == "generation_stats" then
        derivedEntries entryFields else []) := by
      intro h
      split_ifs at h
      · have := (mem_derived_depth h).1
        omega
      · cases h
    obtain ⟨n, rfl, hn⟩ := exists_of_split (htree ▸ hrow) (fun h => by
      have := (kind_of_mem_fixed (List.dropLast_subset _ h)).2.2
      omega) (fun h => by rw [h] at hdepth; cases hdepth) hpost
    exact hangsBelow_of_split htree hn hdepth.symm fun e he => by
      rw [hdepth]
      exact (kind_of_mem_gc he).2.2.ge
  · -- the derived layout
    obtain ⟨init, hinit⟩ := gcDebugFields_of_any (any_of_row hrow (fun h => h.1 hkind) fun h => h.1 hkind)
    have htree : debugOffsetsTree (gcDebugFields gcOff gcSize) entryFields =
        fixedEntries ++ gcEntries init ++ ⟨⟨3⟩, "generation_stats", .rawValue (gcOff + 32)⟩ ::
          (derivedEntries entryFields ++ []) := by
      rw [debugOffsetsTree, hinit]
      simp [gcEntries]
    obtain ⟨n, rfl, hn⟩ := exists_of_split (htree ▸ hrow) (fun h => by
      rcases List.mem_append.mp h with h | h
      · exact (kind_of_mem_fixed h).1 hkind
      · exact (kind_of_mem_gc h).1 hkind) (fun h => by rw [h] at hkind; cases hkind) List.not_mem_nil
    have hfour := (mem_derived_depth (List.mem_of_getElem? hn)).2 hkind
    exact hangsBelow_of_split htree hn hfour.symm fun e he => hfour ▸ (mem_derived_depth he).1
  · -- the fields of an Entry
    obtain ⟨init, hinit⟩ := gcDebugFields_of_any (any_of_row hrow (fun h => h.2.1 off hkind)
      fun h => h.2.1 off hkind)
    have htree : debugOffsetsTree (gcDebugFields gcOff gcSize) entryFields =
        fixedEntries ++ gcEntries (gcDebugFields gcOff gcSize) ++
          [⟨⟨4⟩, "item_size", .derived⟩, ⟨⟨4⟩, "young_entries (11)", .derived⟩] ++
          ⟨⟨5⟩, "entry", .group⟩ :: (layoutEntries entryFields ++
            [⟨⟨4⟩, "index0", .derived⟩, ⟨⟨4⟩, "old0_entries (3)", .derived⟩,
              ⟨⟨4⟩, "index1", .derived⟩, ⟨⟨4⟩, "old1_entries (3)", .derived⟩,
              ⟨⟨4⟩, "index2", .derived⟩]) := by
      rw [debugOffsetsTree, hinit]
      simp [derivedEntries]
    have hlayout : ∀ e ∈ layoutEntries entryFields, e.depth = 6 := by
      intro e he
      obtain ⟨f, -, rfl⟩ := List.mem_map.mp he
      rfl
    obtain ⟨n, rfl, hn⟩ := exists_of_split (htree ▸ hrow) (fun h => by
      rcases List.mem_append.mp h with h | h
      · rcases List.mem_append.mp h with h | h
        · exact (kind_of_mem_fixed h).2.1 off hkind
        · exact (kind_of_mem_gc h).2.1 off hkind
      · simp only [List.mem_cons, List.not_mem_nil, or_false] at h
        rcases h with rfl | rfl <;> cases hkind) (fun h => by rw [h] at hkind; cases hkind) (fun h => by
      simp only [List.mem_cons, List.not_mem_nil, or_false] at h
      rcases h with rfl | rfl | rfl | rfl | rfl <;> cases hkind)
    have hsix := hlayout row (List.mem_of_getElem? hn)
    exact hangsBelow_of_split htree hn hsix.symm fun e he => by rw [hsix, hlayout e he]

end Depths

end GcScope
