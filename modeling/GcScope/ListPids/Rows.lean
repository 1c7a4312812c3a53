import GcScope.Lib.Forest
import GcScope.Lib.StableSort
import GcScope.ListPids.Table

/-!
# The rows of the process table

The table is shown as rows, one an entry, each below its parent and indented a level deeper. Roots are
the entries whose parent is not in the table or has a PID of 4 or below.

* `flattenNode`, `buildFlatRows`: the rows, `none` where the fuel does not take them to an end.
* `flatten_listing`, `exists_flatten`: they are a preorder listing of the table's entries.
* `Faithful`: the rows show the table as a forest.
* `ForestLike`: the parents in the table form a forest under the roots.
* **`buildFlatRows_faithful_iff`**: the rows are faithful exactly where the table is forest-like.
-/

set_option autoImplicit false

namespace GcScope

open Std (ExtTreeMap)
open Forest Relation StableSort

/-- One row of the tree. -/
structure FlatRow where
  pid : ℕ
  name : String
  treePrefix : String
  cmdline : String
  isPython : Bool
  version : Option String
  runtimeFound : Bool
  supportsStats : Bool

/-- The level a prefix indents to. -/
def prefixDepth (treePrefix : String) : ℕ := (treePrefix.utf8ByteSize - 4) / 4

/-- The PIDs of the entries with this parent. -/
def childPids (entries : ProcessTable) (ppid : ℕ) : List ℕ :=
  stableSort id ((entries.toList.filter fun e => e.2.ppid == ppid).map Prod.fst)

/-- The PIDs of the entries whose parent is not in the table or has a PID of 4 or below. -/
def rootPids (entries : ProcessTable) : List ℕ :=
  stableSort id ((entries.toList.filter fun e =>
    decide (e.2.ppid ≤ 4) || !entries.contains e.2.ppid).map Prod.fst)

/-- The guides of a row: for each ancestor whether it is the last of its siblings. -/
def treePrefix (ancestorIsLast : List Bool) : String :=
  ancestorIsLast.foldl (fun guides isLast => guides ++ if isLast then "    " else "|   ") "" ++ "+-- "

def ProcessEntry.row (entry : ProcessEntry) (ancestorIsLast : List Bool) : FlatRow where
  pid := entry.pid
  name := entry.name
  treePrefix := GcScope.treePrefix ancestorIsLast
  cmdline := entry.cmdline
  isPython := entry.isPython
  version := entry.version
  runtimeFound := entry.runtimeFound
  supportsStats := entry.supportsStats

/-- The rows of some nodes one after another, each told whether it is the last. -/
def eachLast {α β : Type} (rowsOf : α → Bool → Option (List β)) : List α → Option (List β)
  | [] => some []
  | x :: xs => do
    let rows ← rowsOf x xs.isEmpty
    let rest ← eachLast rowsOf xs
    return rows ++ rest

/-- A node's row and those below it. -/
def flattenNode (entries : ProcessTable) : ℕ → List Bool → ℕ → Bool → Option (List FlatRow)
  | 0, _, _, _ => none
  | fuel + 1, ancestorIsLast, pid, nodeIsLast => do
    let entry ← entries[pid]?
    let below ← eachLast (flattenNode entries fuel (ancestorIsLast ++ [nodeIsLast]))
      (childPids entries pid)
    return entry.row ancestorIsLast :: below

/-- The rows of the process table. -/
def buildFlatRows (processes : List ProcessInfo) (pidInfoMap : PidInfoMap) (fuel : ℕ) :
    Option (List FlatRow) := do
  let entries ← tableEntries processes pidInfoMap fuel
  eachLast (flattenNode entries fuel []) (rootPids entries)

/-! ## Levels -/

/-- Where a row stands: its PID and its level. -/
def FlatRow.place (row : FlatRow) : ℕ × ℕ := (row.pid, prefixDepth row.treePrefix)

theorem prefixDepth_treePrefix (ancestorIsLast : List Bool) :
    prefixDepth (treePrefix ancestorIsLast) = ancestorIsLast.length := by
  have hguides (l : List Bool) (s : String) :
      (l.foldl (fun guides isLast => guides ++ if isLast then "    " else "|   ") s).utf8ByteSize =
        s.utf8ByteSize + 4 * l.length := by
    induction l generalizing s with
    | nil => rfl
    | cons b l ih =>
      have hfour : (if b then "    " else "|   " : String).utf8ByteSize = 4 := by
        cases b <;> decide
      rw [List.foldl_cons, ih, String.utf8ByteSize_append, hfour, List.length_cons]
      omega
  have hsize : (treePrefix ancestorIsLast).utf8ByteSize = 4 * ancestorIsLast.length + 4 := by
    rw [treePrefix, String.utf8ByteSize_append, hguides]
    rw [show "".utf8ByteSize = 0 by decide, show "+-- ".utf8ByteSize = 4 by decide, Nat.zero_add]
  rw [prefixDepth, hsize]
  omega

/-! ## The rows are a listing -/

section Flatten

variable {entries : ProcessTable}

theorem flatten_listing (hpid : ∀ (q : ℕ) (e : ProcessEntry), entries[q]? = some e → e.pid = q)
    {fuel : ℕ} {ancestors : List Bool} {xs : List ℕ} {rows : List FlatRow}
    (h : eachLast (flattenNode entries fuel ancestors) xs = some rows) :
    Listing (childPids entries) ancestors.length xs (rows.map FlatRow.place) := by
  induction fuel generalizing ancestors xs rows with
  | zero =>
    cases xs with
    | nil =>
      obtain rfl := Option.some.inj h
      exact .nil _
    | cons x xs => cases h
  | succ fuel ihf =>
    induction xs generalizing rows with
    | nil =>
      obtain rfl := Option.some.inj h
      exact .nil _
    | cons x xs ihx =>
      obtain ⟨own, hown, h⟩ := Option.bind_eq_some_iff.mp h
      obtain ⟨rest, hrest, h⟩ := Option.bind_eq_some_iff.mp h
      obtain rfl := Option.some.inj h
      obtain ⟨entry, hentry, hown⟩ := Option.bind_eq_some_iff.mp hown
      obtain ⟨below, hbelow, hown⟩ := Option.bind_eq_some_iff.mp hown
      obtain rfl := Option.some.inj hown
      have hplace : (entry.row ancestors).place = (x, ancestors.length) := by
        rw [FlatRow.place, ProcessEntry.row, hpid x entry hentry, prefixDepth_treePrefix]
      have hb := ihf hbelow
      rw [List.length_append, List.length_singleton] at hb
      rw [List.cons_append, List.map_cons, List.map_append, hplace]
      exact .cons hb (ihx hrest)

/-- Where the forest under some nodes has a listing, their rows come out with enough fuel. -/
theorem exists_flatten {d : ℕ} {xs : List ℕ} {l : List (ℕ × ℕ)}
    (h : Listing (childPids entries) d xs l) (hxs : ∀ x ∈ xs, (entries[x]?).isSome)
    (hchild : ∀ x, ∀ c ∈ childPids entries x, (entries[c]?).isSome) :
    ∃ n, ∀ fuel, n ≤ fuel → ∀ ancestors,
      (eachLast (flattenNode entries fuel ancestors) xs).isSome := by
  induction h with
  | nil => exact ⟨0, fun _ _ _ => rfl⟩
  | @cons d x xs below rest _ _ ihb ihr =>
    obtain ⟨n, hn⟩ := ihb (hchild x)
    obtain ⟨m, hm⟩ := ihr fun y hy => hxs y (List.mem_cons_of_mem x hy)
    refine ⟨max (n + 1) m, fun fuel hfuel ancestors => ?_⟩
    obtain ⟨k, rfl⟩ := Nat.exists_eq_add_of_le' ((Nat.le_add_left 1 n).trans
      ((le_max_left (n + 1) m).trans hfuel))
    obtain ⟨entry, hentry⟩ := Option.isSome_iff_exists.mp (hxs x List.mem_cons_self)
    obtain ⟨own, hown⟩ := Option.isSome_iff_exists.mp
      (hn k (by omega) (ancestors ++ [xs.isEmpty]))
    obtain ⟨others, hothers⟩ := Option.isSome_iff_exists.mp
      (hm (k + 1) ((le_max_right (n + 1) m).trans hfuel) ancestors)
    have hnode : flattenNode entries (k + 1) ancestors x xs.isEmpty =
        some (entry.row ancestors :: own) := by
      simp [flattenNode, hentry, hown]
    simp [eachLast, hnode, hothers]

end Flatten

/-! ## The table as a forest -/

section Table

variable (processes : List ProcessInfo) (pidInfoMap : PidInfoMap)

/-- The rows show the table as a forest: every entry once, and below its parent, a level deeper, with
nothing but descendants of the parent between. -/
structure Faithful (rows : List FlatRow) : Prop where
  once : ∀ q, (entryOf processes pidInfoMap q).isSome → (rows.map FlatRow.pid).count q = 1
  below : ∀ q r, ParentOf processes pidInfoMap q r → ∃ pre level mid post,
    rows.map FlatRow.place = pre ++ (r, level) :: (mid ++ (q, level + 1) :: post) ∧
      ∀ m ∈ mid, level < m.2 ∧ TransGen (ParentOf processes pidInfoMap) m.1 r

/-- The parents in the table form no cycle, and none of them has a PID of 4 or below. -/
structure ForestLike : Prop where
  acyclic : ∀ q, ¬TransGen (ParentOf processes pidInfoMap) q q
  above : ∀ q r, ParentOf processes pidInfoMap q r → 4 < r

/-- The parent PID of an entry, which may have left the table. -/
def PpidOf (q r : ℕ) : Prop := (entryOf processes pidInfoMap q).map ProcessEntry.ppid = some r

end Table

variable {processes : List ProcessInfo} {pidInfoMap : PidInfoMap}

theorem PpidOf.inTable {q r : ℕ} (h : PpidOf processes pidInfoMap q r) :
    (entryOf processes pidInfoMap q).isSome := by
  obtain ⟨e, he, -⟩ := Option.map_eq_some_iff.mp h
  rw [he]
  rfl

theorem rightUnique_ppidOf : Relator.RightUnique (PpidOf processes pidInfoMap) :=
  fun _ _ _ h h' => Option.some.inj (h.symm.trans h')

theorem transGen_parentOf {q r : ℕ} (h : TransGen (PpidOf processes pidInfoMap) q r)
    (hr : (entryOf processes pidInfoMap r).isSome) :
    TransGen (ParentOf processes pidInfoMap) q r := by
  induction h with
  | single h => exact .single ⟨h, hr⟩
  | tail _ h ih => exact (ih h.inTable).tail ⟨h, hr⟩

theorem ForestLike.acyclic_ppidOf (h : ForestLike processes pidInfoMap) (q : ℕ) :
    ¬TransGen (PpidOf processes pidInfoMap) q q := fun hq => by
  obtain ⟨r, hqr, -⟩ := TransGen.head'_iff.mp hq
  exact h.acyclic q (transGen_parentOf hq hqr.inTable)

theorem entryOf_pid {q : ℕ} {e : ProcessEntry} (h : entryOf processes pidInfoMap q = some e) :
    e.pid = q := by
  rw [entryOf] at h
  split at h
  · next p hp =>
    obtain rfl := Option.some.inj h
    have hpid : p.pid = q := by simpa using List.find?_some hp
    exact hpid
  · split_ifs at h
    obtain ⟨info, -, rfl⟩ := Option.map_eq_some_iff.mp h
    rfl

section Built

variable {entries : ProcessTable}

/-- The table holds the entries told from the sample. -/
def Holds (processes : List ProcessInfo) (pidInfoMap : PidInfoMap) (entries : ProcessTable) : Prop :=
  ∀ q : ℕ, entries[q]? = entryOf processes pidInfoMap q

variable (hT : Holds processes pidInfoMap entries)

include hT

theorem mem_pids_iff (p : ProcessEntry → Bool) (q : ℕ) :
    q ∈ (entries.toList.filter fun e => p e.2).map Prod.fst ↔
      ∃ e, entryOf processes pidInfoMap q = some e ∧ p e = true := by
  simp only [List.mem_map, List.mem_filter, Prod.exists, exists_and_right, exists_eq_right,
    ExtTreeMap.mem_toList_iff_getElem?_eq_some, hT q]

theorem lists_childPids : Lists (childPids entries) (PpidOf processes pidInfoMap) := fun c x => by
  rw [childPids, mem_stableSort, mem_pids_iff hT fun e => e.ppid == x, PpidOf,
    Option.map_eq_some_iff]
  simp only [beq_iff_eq]

theorem mem_rootPids (q : ℕ) : q ∈ rootPids entries ↔
    ∃ r, PpidOf processes pidInfoMap q r ∧ (r ≤ 4 ∨ entryOf processes pidInfoMap r = none) := by
  have hlack (r : ℕ) : entries.contains r = false ↔ entryOf processes pidInfoMap r = none := by
    rw [ExtTreeMap.contains_eq_isSome_getElem?, hT r, Option.isSome_eq_false_iff,
      Option.isNone_iff_eq_none]
  rw [rootPids, mem_stableSort,
    mem_pids_iff hT fun e => decide (e.ppid ≤ 4) || !entries.contains e.ppid]
  simp only [PpidOf, Option.map_eq_some_iff, Bool.or_eq_true, decide_eq_true_eq,
    Bool.not_eq_true', hlack]
  constructor
  · rintro ⟨e, he, hroot⟩
    exact ⟨e.ppid, ⟨e, he, rfl⟩, hroot⟩
  · rintro ⟨r, ⟨e, he, rfl⟩, hroot⟩
    exact ⟨e, he, hroot⟩

omit hT in
theorem nodup_pids (p : ProcessEntry → Bool) :
    ((entries.toList.filter fun e => p e.2).map Prod.fst).Nodup := by
  have hkeys : (entries.toList.map Prod.fst).Nodup := by
    rw [ExtTreeMap.map_fst_toList_eq_keys]
    exact ExtTreeMap.nodup_keys
  exact hkeys.sublist (List.filter_sublist.map Prod.fst)

/-! ## What a listing says of the table -/

omit hT in
/-- A process is in the table where its chain of parents gets further than itself. -/
theorem inTable_of_chain {q x r : ℕ} (hqx : ReflTransGen (PpidOf processes pidInfoMap) q x)
    (hxr : PpidOf processes pidInfoMap x r) : (entryOf processes pidInfoMap q).isSome := by
  rcases hqx.cases_head with rfl | ⟨p, hqp, -⟩
  · exact hxr.inTable
  · exact hqp.inTable

theorem inTable_of_listed {rows : List (ℕ × ℕ)} {q : ℕ}
    (hl : Listing (childPids entries) 0 (rootPids entries) rows) (hq : q ∈ rows.map Prod.fst) :
    (entryOf processes pidInfoMap q).isSome := by
  obtain ⟨x, hx, hqx⟩ := (mem_listing_iff (lists_childPids hT) hl q).mp hq
  obtain ⟨r, hxr, -⟩ := (mem_rootPids hT x).mp hx
  exact inTable_of_chain hqx hxr

/-- A listing that reaches every entry reaches no cycle, where no root is an entry's child. -/
theorem not_cycle_of_listed {rows : List (ℕ × ℕ)} {q : ℕ}
    (hl : Listing (childPids entries) 0 (rootPids entries) rows) (hq : q ∈ rows.map Prod.fst)
    (habove : ∀ q r, ParentOf processes pidInfoMap q r → 4 < r) :
    ¬ TransGen (PpidOf processes pidInfoMap) q q := by
  intro hcycle
  -- a cycle is listed below a root, which is then on the cycle
  obtain ⟨x, hx, hqx⟩ := (mem_listing_iff (lists_childPids hT) hl q).mp hq
  obtain ⟨y, hxy, hyx⟩ := TransGen.head'_iff.mp (cycle_above rightUnique_ppidOf hcycle hqx)
  obtain ⟨y', hxy', hout⟩ := (mem_rootPids hT x).mp hx
  obtain rfl := rightUnique_ppidOf hxy hxy'
  have hy : (entryOf processes pidInfoMap y).isSome := inTable_of_chain hyx hxy
  rcases hout with h4 | hnone
  · exact absurd (habove x y ⟨hxy, hy⟩) (not_lt.mpr h4)
  · rw [hnone] at hy
    cases hy

/-- A listing of the table that names every entry once takes it for a forest. -/
theorem forestLike_of_once {rows : List FlatRow}
    (hl : Listing (childPids entries) 0 (rootPids entries) (rows.map FlatRow.place))
    (honce : ∀ q, (entryOf processes pidInfoMap q).isSome → (rows.map FlatRow.pid).count q = 1) :
    ForestLike processes pidInfoMap := by
  have hpids : (rows.map FlatRow.place).map Prod.fst = rows.map FlatRow.pid :=
    List.map_map.trans rfl
  have hin {q : ℕ} (hq : (entryOf processes pidInfoMap q).isSome) :
      q ∈ (rows.map FlatRow.place).map Prod.fst := by
    rw [hpids]
    exact List.count_pos_iff.mp (by rw [honce q hq]; exact Nat.one_pos)
  have hnodup : ((rows.map FlatRow.place).map Prod.fst).Nodup := by
    rw [List.nodup_iff_count_le_one]
    intro q
    by_cases hq : q ∈ (rows.map FlatRow.place).map Prod.fst
    · rw [hpids, honce q (inTable_of_listed hT hl hq)]
    · rw [List.count_eq_zero_of_not_mem hq]
      exact Nat.zero_le 1
  have habove (q r : ℕ) (hqr : ParentOf processes pidInfoMap q r) : 4 < r := by
    by_contra h4
    have hroot : q ∈ rootPids entries := (mem_rootPids hT q).mpr ⟨r, hqr.1, .inl (not_lt.mp h4)⟩
    exact not_nodup_of_root (lists_childPids hT) hl hroot (hin hqr.2) hqr.1 hnodup
  refine ⟨fun q hq => ?_, habove⟩
  have hcycle : TransGen (PpidOf processes pidInfoMap) q q := hq.lift id fun _ _ h => h.1
  obtain ⟨r, hqr, -⟩ := TransGen.head'_iff.mp hq
  exact not_cycle_of_listed hT hl (hin (PpidOf.inTable hqr.1)) habove hcycle

theorem exists_root (hwf : WellFounded fun r q => ParentOf processes pidInfoMap q r) (q : ℕ)
    (hq : (entryOf processes pidInfoMap q).isSome) :
    ∃ x ∈ rootPids entries, ReflTransGen (PpidOf processes pidInfoMap) q x := by
  induction q using hwf.induction with
  | _ q ih =>
    obtain ⟨e, he⟩ := Option.isSome_iff_exists.mp hq
    have hup : PpidOf processes pidInfoMap q e.ppid := by rw [PpidOf, he]; rfl
    cases hr : entryOf processes pidInfoMap e.ppid with
    | none => exact ⟨q, (mem_rootPids hT q).mpr ⟨e.ppid, hup, .inr hr⟩, .refl⟩
    | some e' =>
      have hsome : (entryOf processes pidInfoMap e.ppid).isSome := by rw [hr]; rfl
      obtain ⟨x, hx, hrx⟩ := ih e.ppid ⟨hup, hsome⟩ hsome
      exact ⟨x, hx, hrx.head hup⟩

theorem antichain_rootPids (hf : ForestLike processes pidInfoMap) :
    Antichain (PpidOf processes pidInfoMap) (rootPids entries) := by
  intro x hx y hy hyx
  rcases hyx.cases_head with rfl | ⟨r, hyr, hrx⟩
  · rfl
  · exfalso
    obtain ⟨r', hyr', hout⟩ := (mem_rootPids hT y).mp hy
    obtain rfl := rightUnique_ppidOf hyr hyr'
    have hr : (entryOf processes pidInfoMap r).isSome := by
      rcases hrx.cases_head with rfl | ⟨z, hrz, -⟩
      · obtain ⟨z, hrz, -⟩ := (mem_rootPids hT r).mp hx
        exact hrz.inTable
      · exact hrz.inTable
    rcases hout with h4 | hnone
    · exact absurd (hf.above y r ⟨hyr, hr⟩) (not_lt.mpr h4)
    · rw [hnone] at hr
      cases hr

/-- The rows of a forest-like table are faithful. -/
theorem faithful_of_listing (hf : ForestLike processes pidInfoMap)
    (hwf : WellFounded fun r q => ParentOf processes pidInfoMap q r) {rows : List FlatRow}
    (hl : Listing (childPids entries) 0 (rootPids entries) (rows.map FlatRow.place)) :
    Faithful processes pidInfoMap rows := by
  have hc := lists_childPids hT
  have hpids : (rows.map FlatRow.place).map Prod.fst = rows.map FlatRow.pid :=
    List.map_map.trans rfl
  have hin {q : ℕ} (hq : (entryOf processes pidInfoMap q).isSome) :
      q ∈ (rows.map FlatRow.place).map Prod.fst :=
    (mem_listing_iff hc hl q).mpr (exists_root hT hwf q hq)
  have hnodup : ((rows.map FlatRow.place).map Prod.fst).Nodup :=
    nodup_listing rightUnique_ppidOf hc hf.acyclic_ppidOf
      (fun x => (stableSort_perm id _).nodup_iff.mpr (nodup_pids fun e => e.ppid == x)) hl
      ((stableSort_perm id _).nodup_iff.mpr
        (nodup_pids fun e => decide (e.ppid ≤ 4) || !entries.contains e.ppid))
      (antichain_rootPids hT hf)
  refine ⟨fun q hq => ?_, fun q r hqr => ?_⟩
  · rw [← hpids]
    exact List.count_eq_one_of_mem hnodup (hin hq)
  · obtain ⟨pre, level, mid, post, heq, hmid⟩ := hl.child_below hc (hin hqr.2) hqr.1
    exact ⟨pre, level, mid, post, heq, fun m hm =>
      ⟨(hmid m hm).1, transGen_parentOf (hmid m hm).2 hqr.2⟩⟩

end Built

/-! ## The rows are faithful exactly where the table is forest-like -/

theorem mem_sample {q : ℕ} (hq : (entryOf processes pidInfoMap q).isSome) :
    q ∈ (processes.map ProcessInfo.pid ++ processes.map ProcessInfo.ppid).toFinset := by
  rw [List.mem_toFinset, List.mem_append]
  by_cases hpy : q ∈ pythonPids processes
  · exact .inl hpy
  · rw [entryOf_of_not_python hpy] at hq
    split_ifs at hq with hctx
    · obtain ⟨-, p, hp, rfl⟩ := hctx
      exact .inr (List.mem_map_of_mem hp)
    · cases hq

theorem ForestLike.wellFounded_up (hf : ForestLike processes pidInfoMap) :
    WellFounded fun r q => ParentOf processes pidInfoMap q r :=
  wellFounded_of_acyclic _ (fun _ _ h => mem_sample h.2) fun x hx =>
    hf.acyclic x (transGen_swap.mp hx)

theorem ForestLike.wellFounded_down (hf : ForestLike processes pidInfoMap) :
    WellFounded (PpidOf processes pidInfoMap) :=
  wellFounded_of_acyclic _ (fun _ _ h => mem_sample h.inTable) hf.acyclic_ppidOf

theorem listing_of_buildFlatRows (hn : (processes.map ProcessInfo.pid).Nodup) {fuel : ℕ}
    {rows : List FlatRow} (h : buildFlatRows processes pidInfoMap fuel = some rows) :
    ∃ entries, Holds processes pidInfoMap entries ∧
      Listing (childPids entries) 0 (rootPids entries) (rows.map FlatRow.place) := by
  obtain ⟨entries, hentries, hrows⟩ := Option.bind_eq_some_iff.mp h
  have hT : Holds processes pidInfoMap entries := tableEntries_eq hn hentries
  exact ⟨entries, hT, flatten_listing (fun q e he => entryOf_pid ((hT q).symm.trans he)) hrows⟩

/-- **The rows of a forest-like table come out**, with any fuel that is enough. -/
theorem exists_buildFlatRows (hn : (processes.map ProcessInfo.pid).Nodup)
    (hf : ForestLike processes pidInfoMap) :
    ∃ n, ∀ fuel, n ≤ fuel → (buildFlatRows processes pidInfoMap fuel).isSome := by
  obtain ⟨n, htable⟩ := exists_tableEntries hn hf.wellFounded_up
  obtain ⟨entries, hentries⟩ := Option.isSome_iff_exists.mp (htable n le_rfl)
  have hT : Holds processes pidInfoMap entries := tableEntries_eq hn hentries
  have hc := lists_childPids hT
  have hin {q r : ℕ} (h : PpidOf processes pidInfoMap q r) : (entries[q]?).isSome := by
    rw [hT q]
    exact h.inTable
  obtain ⟨l, hl⟩ := exists_listing hc hf.wellFounded_down 0 (rootPids entries)
  obtain ⟨m, hflatten⟩ := exists_flatten hl
    (fun x hx => hin ((mem_rootPids hT x).mp hx).choose_spec.1)
    (fun x c hcx => hin ((hc c x).mp hcx))
  refine ⟨max n m, fun fuel hfuel => ?_⟩
  -- more fuel builds the same table
  obtain ⟨entries', hentries'⟩ := Option.isSome_iff_exists.mp
    (htable fuel ((le_max_left n m).trans hfuel))
  obtain rfl : entries' = entries := ExtTreeMap.ext_getElem? fun q =>
    (tableEntries_eq hn hentries' q).trans (hT q).symm
  rw [buildFlatRows, hentries']
  exact hflatten fuel ((le_max_right n m).trans hfuel) []

/-- **The process table comes out as a faithful forest exactly where its parents form no cycle and
have PIDs above 4.** -/
theorem buildFlatRows_faithful_iff (processes : List ProcessInfo) (pidInfoMap : PidInfoMap)
    (hn : (processes.map ProcessInfo.pid).Nodup) :
    (∃ fuel rows, buildFlatRows processes pidInfoMap fuel = some rows ∧
      Faithful processes pidInfoMap rows) ↔ ForestLike processes pidInfoMap := by
  constructor
  · rintro ⟨fuel, rows, hrows, hfaithful⟩
    obtain ⟨entries, hT, hl⟩ := listing_of_buildFlatRows hn hrows
    exact forestLike_of_once hT hl hfaithful.once
  · intro hf
    obtain ⟨n, hn'⟩ := exists_buildFlatRows hn hf
    obtain ⟨rows, hrows⟩ := Option.isSome_iff_exists.mp (hn' n le_rfl)
    obtain ⟨entries, hT, hl⟩ := listing_of_buildFlatRows hn hrows
    exact ⟨n, rows, hrows, faithful_of_listing hT hf hf.wellFounded_up hl⟩

/-! ## A shell and a container -/

/-- A Python process as it is sampled. -/
def pythonProcess (pid ppid : ℕ) : ProcessInfo := ⟨pid, ppid, "python3", "", none, false, false⟩

/-- A Python process started from a shell, and its worker. -/
def shellProcesses : List ProcessInfo := [pythonProcess 20 10, pythonProcess 30 20]

def shellInfo : PidInfoMap := ExtTreeMap.ofList [(10, ("bash", 1)), (20, ("python3", 10)),
  (30, ("python3", 20))]

-- the shell is shown for context
example : (buildFlatRows shellProcesses shellInfo 4).map (List.map FlatRow.place) =
    some [(10, 0), (20, 1), (30, 2)] := by decide

theorem shell_faithful : ∃ fuel rows, buildFlatRows shellProcesses shellInfo fuel = some rows ∧
    Faithful shellProcesses shellInfo rows := by
  refine (buildFlatRows_faithful_iff shellProcesses shellInfo (by decide)).mpr ?_
  have hup (q r : ℕ) (h : ParentOf shellProcesses shellInfo q r) : r < q ∧ 4 < r := by
    obtain ⟨hppid, hr⟩ := h
    have hq := mem_sample (PpidOf.inTable hppid)
    simp only [shellProcesses, pythonProcess, List.map_cons, List.map_nil, List.cons_append,
      List.nil_append, List.mem_toFinset, List.mem_cons, List.not_mem_nil, or_false] at hq
    obtain rfl | rfl | rfl | rfl := hq
    · obtain rfl : r = 10 := Option.some.inj (hppid.symm.trans (by decide))
      decide
    · obtain rfl : r = 20 := Option.some.inj (hppid.symm.trans (by decide))
      decide
    · -- the parent of the shell is not in the table
      obtain rfl : r = 1 := Option.some.inj (hppid.symm.trans (by decide))
      exact absurd hr (by decide)
    · obtain rfl : r = 10 := Option.some.inj (hppid.symm.trans (by decide))
      decide
  refine ⟨fun q hq => ?_, fun q r h => (hup q r h).2⟩
  have hlt : TransGen (fun a b : ℕ => b < a) q q := hq.lift id fun a b h => (hup a b h).1
  rw [transGen_eq_self] at hlt
  exact lt_irrefl q hlt

/-- A container whose first process is a Python process, with its child. -/
def containerProcesses : List ProcessInfo := [pythonProcess 1 0, pythonProcess 7 1]

-- the child is listed below its parent and once more as a root
example : (buildFlatRows containerProcesses ∅ 3).map (List.map FlatRow.place) =
    some [(1, 0), (7, 1), (7, 0)] := by decide

theorem container_listed_twice : ¬∃ fuel rows,
    buildFlatRows containerProcesses ∅ fuel = some rows ∧ Faithful containerProcesses ∅ rows := by
  rintro ⟨fuel, rows, hrows, hfaithful⟩
  obtain ⟨entries, hT, hl⟩ := listing_of_buildFlatRows (by decide) hrows
  have hforest := forestLike_of_once hT hl hfaithful.once
  exact absurd (hforest.above 7 1 ⟨by decide, by decide⟩) (by decide)

end GcScope
