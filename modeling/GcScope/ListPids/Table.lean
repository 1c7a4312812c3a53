import Mathlib.Data.List.Nodup
import Mathlib.Order.Lattice
import Mathlib.Logic.Relation
import Std.Data.ExtTreeMap

/-!
# The process table

The table of the Python processes of a system keeps, beside each process, the nearest ancestor that
is no Python process, for context. Parents are sampled from a changing system.

* `ProcessInfo`, `ProcessEntry`: what is sampled, and what the table holds.
* `walkUp`, `addContext`, `tableEntries`: the table as it is built.
* `entryOf`: the entry of a PID, told from the sample alone.
* `tableEntries_eq`: the built table holds just these.
* `exists_tableEntries`: it is built where no chain of parents is infinite.
-/

set_option autoImplicit false

namespace GcScope

open Std (ExtTreeMap)

/-- PID to process name and parent PID, for every process on the system. -/
abbrev PidInfoMap := ExtTreeMap ℕ (String × ℕ)

structure ProcessInfo where
  pid : ℕ
  ppid : ℕ
  name : String
  cmdline : String
  version : Option String
  runtimeFound : Bool
  supportsStats : Bool

structure ProcessEntry where
  pid : ℕ
  ppid : ℕ
  name : String
  cmdline : String
  isPython : Bool
  version : Option String
  runtimeFound : Bool
  supportsStats : Bool

/-- The entry of a given process. -/
def ProcessEntry.of (p : ProcessInfo) : ProcessEntry :=
  ⟨p.pid, p.ppid, p.name, p.cmdline, true, p.version, p.runtimeFound, p.supportsStats⟩

/-- The entry of a process that is only there for context. -/
def ProcessEntry.context (pid : ℕ) (info : String × ℕ) : ProcessEntry :=
  ⟨pid, info.2, info.1, "", false, none, false, false⟩

abbrev ProcessTable := ExtTreeMap ℕ ProcessEntry

def pythonPids (processes : List ProcessInfo) : List ℕ := processes.map ProcessInfo.pid

/-- The entries of the given processes. -/
def pythonEntries (processes : List ProcessInfo) : ProcessTable :=
  processes.foldl (fun entries p => entries.insert p.pid (.of p)) ∅

/-- The walk up the Python parents, which need not end: `none` where `fuel` steps do not take it to an
end. -/
def walkUp (pythons : List ℕ) (entries : ProcessTable) : ℕ → ℕ → Option ℕ
  | 0, _ => none
  | fuel + 1, currentPpid =>
    if 4 < currentPpid ∧ currentPpid ∈ pythons then
      match entries[currentPpid]? with
      | some parent => walkUp pythons entries fuel parent.ppid
      | none => some currentPpid
    else some currentPpid

/-- A context entry for the first ancestor of the process that is no Python process. -/
def addContext (pythons : List ℕ) (pidInfoMap : PidInfoMap) (fuel : ℕ) (entries : ProcessTable)
    (p : ProcessInfo) : Option ProcessTable :=
  (walkUp pythons entries fuel p.ppid).map fun currentPpid =>
    if 4 < currentPpid ∧ ¬entries.contains currentPpid then
      match pidInfoMap[currentPpid]? with
      | some info => entries.insert currentPpid (.context currentPpid info)
      | none => entries
    else entries

/-- The entries of the table. -/
def tableEntries (processes : List ProcessInfo) (pidInfoMap : PidInfoMap) (fuel : ℕ) :
    Option ProcessTable :=
  processes.foldlM (addContext (pythonPids processes) pidInfoMap fuel) (pythonEntries processes)

/-! ## The table told from the sample -/

section Sample

variable (processes : List ProcessInfo) (pidInfoMap : PidInfoMap)

/-- The entry of a PID: of a given process, or of a known parent above 4 of one. -/
def entryOf (q : ℕ) : Option ProcessEntry :=
  match processes.find? fun p => p.pid == q with
  | some p => some (.of p)
  | none =>
    if 4 < q ∧ processes.any fun p => p.ppid == q then
      pidInfoMap[q]?.map (ProcessEntry.context q)
    else none

/-- `r` is the parent of `q`, both in the table. -/
def ParentOf (q r : ℕ) : Prop :=
  (entryOf processes pidInfoMap q).map ProcessEntry.ppid = some r ∧
    (entryOf processes pidInfoMap r).isSome

end Sample

variable {processes : List ProcessInfo} {pidInfoMap : PidInfoMap}

theorem getElem?_insert_entry (entries : ProcessTable) (pid q : ℕ) (e : ProcessEntry) :
    (entries.insert pid e)[q]? = if pid = q then some e else entries[q]? := by
  rw [ExtTreeMap.getElem?_insert]
  exact if_congr Std.LawfulEqCmp.compare_eq_iff_eq rfl rfl

/-- Of processes with one PID the last one counts, and PIDs are distinct. -/
theorem getElem?_pythonEntries (hn : (pythonPids processes).Nodup) (q : ℕ) :
    (pythonEntries processes)[q]? =
      (processes.find? fun p => p.pid == q).map ProcessEntry.of := by
  have hfold (ps : List ProcessInfo) (hn : (pythonPids ps).Nodup) (entries : ProcessTable) :
      (ps.foldl (fun entries p => entries.insert p.pid (.of p)) entries)[q]? =
        ((ps.find? fun p => p.pid == q).map ProcessEntry.of).or entries[q]? := by
    induction ps generalizing entries with
    | nil => rfl
    | cons p ps ih =>
      obtain ⟨hp, hps⟩ := List.nodup_cons.mp hn
      rw [List.foldl_cons, ih hps, getElem?_insert_entry, List.find?_cons]
      by_cases hq : p.pid = q
      · have hnone : ps.find? (fun p => p.pid == q) = none :=
          List.find?_eq_none.mpr fun p' hp' heq => hp (by
            rw [hq, ← beq_iff_eq.mp heq]
            exact List.mem_map_of_mem hp')
        simp [hq, hnone]
      · rw [if_neg hq, beq_eq_false_iff_ne.mpr hq]
  rw [pythonEntries, hfold processes hn]
  simp

theorem mem_pythonPids {q : ℕ} :
    q ∈ pythonPids processes ↔ ∃ p, processes.find? (fun p => p.pid == q) = some p := by
  rw [← Option.isSome_iff_exists, List.find?_isSome, pythonPids, List.mem_map]
  simp

theorem entryOf_of_find {q : ℕ} {p : ProcessInfo}
    (h : processes.find? (fun p => p.pid == q) = some p) :
    entryOf processes pidInfoMap q = some (.of p) := by
  rw [entryOf, h]

theorem entryOf_of_not_python {q : ℕ} (h : q ∉ pythonPids processes) :
    entryOf processes pidInfoMap q =
      if 4 < q ∧ ∃ p ∈ processes, p.ppid = q then pidInfoMap[q]?.map (ProcessEntry.context q)
      else none := by
  have hnone : processes.find? (fun p => p.pid == q) = none := by
    cases hf : processes.find? (fun p => p.pid == q) with
    | none => rfl
    | some p => exact absurd (mem_pythonPids.mpr ⟨p, hf⟩) h
  rw [entryOf, hnone]
  exact if_congr (by simp) rfl rfl

/-! ## The walk up -/

/-- Where the walk up from a process can end. -/
structure Ends (processes : List ProcessInfo) (p : ProcessInfo) (c : ℕ) : Prop where
  outside : ¬(4 < c ∧ c ∈ pythonPids processes)
  parent : ∃ p' ∈ processes, p'.ppid = c
  direct : ¬(4 < p.ppid ∧ p.ppid ∈ pythonPids processes) → c = p.ppid

/-- The entries of the given processes are in place. -/
def HasPythons (processes : List ProcessInfo) (pidInfoMap : PidInfoMap) (T : ProcessTable) : Prop :=
  ∀ q ∈ pythonPids processes, T[q]? = entryOf processes pidInfoMap q

theorem HasPythons.find {T : ProcessTable} (h : HasPythons processes pidInfoMap T) {q : ℕ}
    (hq : q ∈ pythonPids processes) :
    ∃ p ∈ processes, p.pid = q ∧ T[q]? = some (.of p) := by
  obtain ⟨p, hp⟩ := mem_pythonPids.mp hq
  refine ⟨p, List.mem_of_find?_eq_some hp, ?_, (h q hq).trans (entryOf_of_find hp)⟩
  simpa using List.find?_some hp

theorem walkUp_ends {T : ProcessTable} (hT : HasPythons processes pidInfoMap T) {p : ProcessInfo}
    (hp : p ∈ processes) {fuel c : ℕ}
    (h : walkUp (pythonPids processes) T fuel p.ppid = some c) : Ends processes p c := by
  induction fuel generalizing p with
  | zero => cases h
  | succ fuel ih =>
    rw [walkUp] at h
    split_ifs at h with hpy
    · obtain ⟨parent, hparent, -, hget⟩ := hT.find hpy.2
      rw [hget] at h
      have hends := ih hparent h
      exact ⟨hends.outside, hends.parent, fun hn => absurd hpy hn⟩
    · obtain rfl := Option.some.inj h
      exact ⟨hpy, ⟨p, hp, rfl⟩, fun _ => rfl⟩

/-! ## Building the table -/

/-- The table after the context of the processes `done`. -/
structure TableAfter (processes : List ProcessInfo) (pidInfoMap : PidInfoMap)
    (done : List ProcessInfo) (T : ProcessTable) : Prop where
  sound : ∀ q e, T[q]? = some e → entryOf processes pidInfoMap q = some e
  pythons : HasPythons processes pidInfoMap T
  parents : ∀ p ∈ done, T[p.ppid]? = entryOf processes pidInfoMap p.ppid

theorem tableAfter_pythonEntries (hn : (pythonPids processes).Nodup) :
    TableAfter processes pidInfoMap [] (pythonEntries processes) where
  sound q e he := by
    rw [getElem?_pythonEntries hn] at he
    obtain ⟨p, hp, rfl⟩ := Option.map_eq_some_iff.mp he
    exact entryOf_of_find hp
  pythons q hq := by
    obtain ⟨p, hp⟩ := mem_pythonPids.mp hq
    rw [getElem?_pythonEntries hn, hp, entryOf_of_find hp]
    rfl
  parents p hp := absurd hp List.not_mem_nil

theorem TableAfter.learn {done : List ProcessInfo} {T T' : ProcessTable}
    (hT : TableAfter processes pidInfoMap done T) {p : ProcessInfo} {c : ℕ}
    (hends : Ends processes p c)
    (hget : ∀ q, T'[q]? = if q = c then entryOf processes pidInfoMap q else T[q]?) :
    TableAfter processes pidInfoMap (done ++ [p]) T' where
  sound q e he := by
    rw [hget] at he
    split_ifs at he
    · exact he
    · exact hT.sound q e he
  pythons q hq := by
    rw [hget]
    split_ifs
    · rfl
    · exact hT.pythons q hq
  parents p' hp' := by
    rw [hget]
    split_ifs with hc
    · rfl
    · rcases List.mem_append.mp hp' with hp' | hp'
      · exact hT.parents p' hp'
      · obtain rfl := List.mem_singleton.mp hp'
        have hpy : 4 < p'.ppid ∧ p'.ppid ∈ pythonPids processes :=
          not_not.mp fun hn => hc (hends.direct hn).symm
        exact hT.pythons _ hpy.2

theorem entryOf_end {p : ProcessInfo} {c : ℕ} (hends : Ends processes p c) (h4 : 4 < c) :
    entryOf processes pidInfoMap c = pidInfoMap[c]?.map (ProcessEntry.context c) := by
  rw [entryOf_of_not_python fun hc => hends.outside ⟨h4, hc⟩, if_pos ⟨h4, hends.parent⟩]

theorem TableAfter.addContext {done : List ProcessInfo} {T T' : ProcessTable}
    (hT : TableAfter processes pidInfoMap done T) {p : ProcessInfo} (hp : p ∈ processes) {fuel : ℕ}
    (h : addContext (pythonPids processes) pidInfoMap fuel T p = some T') :
    TableAfter processes pidInfoMap (done ++ [p]) T' := by
  obtain ⟨c, hc, rfl⟩ := Option.map_eq_some_iff.mp h
  have hends := walkUp_ends hT.pythons hp hc
  refine hT.learn hends fun q => ?_
  -- a table that stays as it is knows the entry of `c`
  have hkeep (hc : T[c]? = entryOf processes pidInfoMap c) :
      T[q]? = if q = c then entryOf processes pidInfoMap q else T[q]? := by
    split_ifs with hq
    · rw [hq, hc]
    · rfl
  by_cases hnew : 4 < c ∧ ¬T.contains c
  · rw [if_pos hnew]
    have hnone : T[c]? = none :=
      ExtTreeMap.getElem?_eq_none_of_contains_eq_false (Bool.eq_false_iff.mpr hnew.2)
    cases hinfo : pidInfoMap[c]? with
    | none => exact hkeep (by rw [hnone, entryOf_end hends hnew.1, hinfo, Option.map_none])
    | some info =>
      by_cases hq : q = c
      · rw [getElem?_insert_entry, hq, if_pos rfl, if_pos rfl, entryOf_end hends hnew.1, hinfo,
          Option.map_some]
      · rw [getElem?_insert_entry, if_neg (Ne.symm hq), if_neg hq]
  · rw [if_neg hnew]
    refine hkeep ?_
    cases hget : T[c]? with
    | some e => exact (hT.sound c e hget).symm
    | none =>
      have h4 : ¬4 < c := fun h4 => hnew ⟨h4, by
        rw [ExtTreeMap.contains_eq_isSome_getElem?, hget]
        decide⟩
      by_cases hpy : c ∈ pythonPids processes
      · rw [← hget, hT.pythons c hpy]
      · rw [entryOf_of_not_python hpy, if_neg fun h => h4 h.1]

/-- **The built table holds the entries told from the sample.** -/
theorem tableEntries_eq (hn : (pythonPids processes).Nodup) {fuel : ℕ} {T : ProcessTable}
    (h : tableEntries processes pidInfoMap fuel = some T) (q : ℕ) :
    T[q]? = entryOf processes pidInfoMap q := by
  have hrun (todo done : List ProcessInfo) (hsub : ∀ p ∈ todo, p ∈ processes) (T₀ : ProcessTable)
      (hT : TableAfter processes pidInfoMap done T₀)
      (h : todo.foldlM (GcScope.addContext (pythonPids processes) pidInfoMap fuel) T₀ = some T) :
      TableAfter processes pidInfoMap (done ++ todo) T := by
    induction todo generalizing done T₀ with
    | nil =>
      obtain rfl := Option.some.inj h
      rwa [List.append_nil]
    | cons p todo ih =>
      rw [List.foldlM_cons] at h
      obtain ⟨T₁, h₁, h₂⟩ := Option.bind_eq_some_iff.mp h
      have := ih (done ++ [p]) (fun p' hp' => hsub p' (List.mem_cons_of_mem p hp')) T₁
        (hT.addContext (hsub p List.mem_cons_self) h₁) h₂
      rwa [List.append_assoc, List.singleton_append] at this
  have hT := hrun processes [] (fun _ hp => hp) _ (tableAfter_pythonEntries hn) h
  cases hget : T[q]? with
  | some e => exact (hT.sound q e hget).symm
  | none =>
    -- an entry the table lacks would be that of a given process or of a parent of one
    by_cases hpy : q ∈ pythonPids processes
    · rw [← hget, hT.pythons q hpy]
    · rw [entryOf_of_not_python hpy]
      split_ifs with hctx
      · obtain ⟨h4, p, hp, rfl⟩ := hctx
        rw [← hget, hT.parents p hp, entryOf_of_not_python hpy, if_pos ⟨h4, p, hp, rfl⟩]
      · rfl

/-! ## The walk ends -/

theorem find?_pid (hn : (pythonPids processes).Nodup) {p : ProcessInfo} (hp : p ∈ processes) :
    processes.find? (fun p' => p'.pid == p.pid) = some p := by
  obtain ⟨p', hp'⟩ := mem_pythonPids.mp (List.mem_map_of_mem (f := ProcessInfo.pid) hp)
  have hpid : p'.pid = p.pid := by simpa using List.find?_some hp'
  rw [hp', List.inj_on_of_nodup_map hn (List.mem_of_find?_eq_some hp') hp hpid]

/-- Where no chain of parents is infinite, the walk up from a process ends. -/
theorem exists_walkUp (hwf : WellFounded fun r q => ParentOf processes pidInfoMap q r) (q : ℕ) :
    ∀ p, processes.find? (fun p => p.pid == q) = some p →
      ∃ n, ∀ T, HasPythons processes pidInfoMap T → ∀ fuel, n ≤ fuel →
        (walkUp (pythonPids processes) T fuel p.ppid).isSome := by
  induction q using hwf.induction with
  | _ q ih =>
    intro p hp
    by_cases hpy : 4 < p.ppid ∧ p.ppid ∈ pythonPids processes
    · obtain ⟨parent, hparent⟩ := mem_pythonPids.mp hpy.2
      have hup : ParentOf processes pidInfoMap q p.ppid := by
        refine ⟨?_, ?_⟩
        · rw [entryOf_of_find hp]
          rfl
        · rw [entryOf_of_find hparent]
          rfl
      obtain ⟨n, hn⟩ := ih p.ppid hup parent hparent
      refine ⟨n + 1, fun T hT fuel hfuel => ?_⟩
      obtain ⟨m, rfl⟩ := Nat.exists_eq_add_of_le' (Nat.le_of_add_left_le hfuel)
      rw [walkUp, if_pos hpy, hT _ hpy.2, entryOf_of_find hparent]
      exact hn T hT m (by omega)
    · refine ⟨1, fun T _ fuel hfuel => ?_⟩
      obtain ⟨m, rfl⟩ := Nat.exists_eq_add_of_le' hfuel
      rw [walkUp, if_neg hpy]
      rfl

/-- **Where no chain of parents is infinite, the table is built**, with any fuel that is enough. -/
theorem exists_tableEntries (hn : (pythonPids processes).Nodup)
    (hwf : WellFounded fun r q => ParentOf processes pidInfoMap q r) :
    ∃ n, ∀ fuel, n ≤ fuel → (tableEntries processes pidInfoMap fuel).isSome := by
  have hall (ps : List ProcessInfo) (hsub : ∀ p ∈ ps, p ∈ processes) :
      ∃ n, ∀ p ∈ ps, ∀ T, HasPythons processes pidInfoMap T → ∀ fuel, n ≤ fuel →
        (walkUp (pythonPids processes) T fuel p.ppid).isSome := by
    induction ps with
    | nil => exact ⟨0, fun p hp => nomatch hp⟩
    | cons p ps ih =>
      obtain ⟨n, hn'⟩ := ih fun p' hp' => hsub p' (List.mem_cons_of_mem p hp')
      obtain ⟨m, hm⟩ := exists_walkUp hwf p.pid p (find?_pid hn (hsub p List.mem_cons_self))
      refine ⟨max m n, fun p' hp' T hT fuel hfuel => ?_⟩
      rcases List.mem_cons.mp hp' with rfl | hp'
      · exact hm T hT fuel ((le_max_left m n).trans hfuel)
      · exact hn' p' hp' T hT fuel ((le_max_right m n).trans hfuel)
  obtain ⟨n, hwalk⟩ := hall processes fun _ hp => hp
  refine ⟨n, fun fuel hfuel => ?_⟩
  have hrun (todo done : List ProcessInfo) (hsub : ∀ p ∈ todo, p ∈ processes) (T : ProcessTable)
      (hT : TableAfter processes pidInfoMap done T) :
      (todo.foldlM (GcScope.addContext (pythonPids processes) pidInfoMap fuel) T).isSome := by
    induction todo generalizing done T with
    | nil => rfl
    | cons p todo ih =>
      have hp := hsub p List.mem_cons_self
      have hsome : (GcScope.addContext (pythonPids processes) pidInfoMap fuel T p).isSome := by
        rw [GcScope.addContext, Option.isSome_map]
        exact hwalk p hp T hT.pythons fuel hfuel
      obtain ⟨T', hT'⟩ := Option.isSome_iff_exists.mp hsome
      rw [List.foldlM_cons, hT']
      exact ih (done ++ [p]) (fun p' hp' => hsub p' (List.mem_cons_of_mem p hp')) T'
        (hT.addContext hp hT')
  exact hrun processes [] (fun _ hp => hp) _ (tableAfter_pythonEntries hn)

end GcScope
