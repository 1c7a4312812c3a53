import GcScope.Lib.ListFacts
import GcScope.Lib.Recency
import GcScope.Monitor.Selection

/-!
# Eviction only costs interpreters that stopped appearing

The kept interpreters of a process are a bounded set that makes room by recency (`Recency`), one
round a poll.

* `kept_admitRecord`: an offered Record touches its interpreter.
* `window_run`: after any run, the kept set tells what the last two polls of the process named.
* **`persistent_not_evicted`**: an interpreter in every poll since its first one is never evicted
  while two consecutive polls name no more interpreters than are kept.
* **`persistent_exact`**: its accumulators therefore keep their first counter, and no Record of it
  is returned twice.
* `evicts_of_crowded`: a single poll of more interpreters than are kept evicts one of its own.
-/

set_option autoImplicit false

namespace GcScope

open Std (ExtTreeMap TransCmp LawfulEqCmp)
open HighWater Recency LittleEndian

/-- The interpreters a poll names. -/
def names (records : List GcStat) : Finset ℤ := (records.map GcStat.interpreterId).toFinset

@[simp] theorem mem_names {records : List GcStat} {i : ℤ} :
    i ∈ names records ↔ ∃ r ∈ records, r.interpreterId = i := by
  simp [names]

theorem names_append (a b : List GcStat) : names (a ++ b) = names a ∪ names b := by
  simp [names]

theorem names_concat (a : List GcStat) (r : GcStat) :
    names (a ++ [r]) = insert r.interpreterId (names a) := by
  rw [names_append, Finset.union_comm]; rfl

theorem names_sortCandidates (records : List GcStat) :
    names (sortCandidates records) = names records := by
  ext i
  simp [sortCandidates]

/-- The polls of one process among the operations. -/
def pollsOf (pid : ℕ) (ops : List CursorOp) : List (List GcStat) :=
  ops.filterMap fun
    | .admitRecords pid' records => if pid' = pid then some records else none
    | .forget _ => none

/-- No two consecutive polls together name more interpreters than are kept. -/
def Narrow (polls : List (List GcStat)) : Prop :=
  ∀ window, window <:+: polls → window.length ≤ 2 →
    (names window.flatten).card ≤ maxRetainedInterpreters

/-- The interpreter appears in every poll since its first one. -/
def Persistent (i : ℤ) (polls : List (List GcStat)) : Prop :=
  polls.Pairwise fun a b => i ∈ names a → i ∈ names b

instance (i : ℤ) (polls : List (List GcStat)) : Decidable (Persistent i polls) := by
  unfold Persistent; infer_instance

/-- The interpreters the latest of the polls names. -/
def latest (polls : List (List GcStat)) : Finset ℤ := (polls.getLast?.map names).getD ∅

@[simp] theorem latest_concat (polls : List (List GcStat)) (records : List GcStat) :
    latest (polls ++ [records]) = names records := by
  simp [latest]

theorem Narrow.of_append {a b : List (List GcStat)} (h : Narrow (a ++ b)) : Narrow a :=
  fun w hw => h w (hw.trans (List.infix_append' [] a b))

/-- The latest poll and the next fit together. -/
theorem Narrow.card_le {polls : List (List GcStat)} {records : List GcStat}
    (h : Narrow (polls ++ [records])) :
    (latest polls ∪ names records).card ≤ maxRetainedInterpreters := by
  rcases List.eq_nil_or_concat polls with rfl | ⟨polls, last, rfl⟩
  · have := h [records] (List.infix_refl _) (by simp)
    simpa [latest] using this
  · have := h [last, records] ⟨polls, [], by simp⟩ (by simp)
    simpa [names_append] using this

theorem narrow_of_subset {polls : List (List GcStat)} {S : Finset ℤ}
    (hS : S.card ≤ maxRetainedInterpreters) (h : ∀ records ∈ polls, names records ⊆ S) :
    Narrow polls := fun w hw _ => (Finset.card_le_card fun i hi => by
  obtain ⟨r, hr, rfl⟩ := mem_names.mp hi
  obtain ⟨records, hmem, hr⟩ := List.mem_flatten.mp hr
  exact h records (hw.subset hmem) (mem_names.mpr ⟨r, hr, rfl⟩)).trans hS

theorem narrow_of_card_le {polls : List (List GcStat)} {k : ℕ} (hk : 2 * k ≤ maxRetainedInterpreters)
    (h : ∀ records ∈ polls, (names records).card ≤ k) : Narrow polls := by
  have hcard : ∀ w : List (List GcStat), (∀ records ∈ w, (names records).card ≤ k) →
      (names w.flatten).card ≤ w.length * k := by
    intro w hw
    induction w with
    | nil => exact Nat.zero_le _
    | cons records w ih =>
      rw [List.flatten_cons, names_append, List.length_cons, Nat.succ_mul, Nat.add_comm]
      exact (Finset.card_union_le _ _).trans (Nat.add_le_add (hw _ List.mem_cons_self)
        (ih fun r hr => hw r (List.mem_cons_of_mem _ hr)))
  intro w hw hlen
  refine (hcard w fun records hr => h records (hw.subset hr)).trans (le_trans ?_ hk)
  exact Nat.mul_le_mul_right k hlen

/-- An interpreter that appears in every poll since its first is named by the latest one, if by
any. -/
theorem Persistent.mem_latest {polls : List (List GcStat)} {i : ℤ} (h : Persistent i polls)
    {records : List GcStat} (hr : records ∈ polls) (hi : i ∈ names records) : i ∈ latest polls := by
  rcases List.eq_nil_or_concat polls with rfl | ⟨polls, last, rfl⟩
  · cases hr
  · rw [List.concat_eq_append] at *
    rw [latest_concat]
    rcases List.mem_append.mp hr with hr | hr
    · exact (List.pairwise_append.mp h).2.2 records hr last (List.mem_singleton_self last) hi
    · rwa [← List.mem_singleton.mp hr]

namespace Cursor

variable {F : Type}

/-- The kept set of a process: the poll each of its interpreters was last seen in. -/
def kept (c : Cursor F) (pid : ℕ) (i : ℤ) : Option ℕ := (c.retainedOf pid)[i]?

theorem kept_congr {c c' : Cursor F} (h : c.retained = c'.retained) (pid : ℕ) :
    c.kept pid = c'.kept pid := by
  funext i; rw [kept, kept, retainedOf, retainedOf, h]

theorem kept_retain_ne (c : Cursor F) {pid pid' : ℕ} (h : pid' ≠ pid) (i : ℤ) :
    (c.retain pid i).kept pid' = c.kept pid' := by
  funext j; rw [kept, kept, c.retain_retainedOf_ne h]

theorem kept_retain (c : Cursor F) (pid : ℕ) (i j : ℤ) : (c.retain pid i).kept pid j =
    if j = i then some c.polls else if some j = c.evicts pid i then none else c.kept pid j := by
  rw [kept, retain_retainedOf_self]
  cases h : c.evicts pid i with
  | none => simp [ExtTreeMap.getElem?_insert, kept, @eq_comm _ j]
  | some s => simp [ExtTreeMap.getElem?_insert, ExtTreeMap.getElem?_erase, kept, @eq_comm _ j]

/-- The cursor's victims are the victims of a set that makes room by recency. -/
theorem evicts_recency (c : Cursor F) {pid : ℕ} {i s : ℤ} (h : c.evicts pid i = some s) :
    Evicts maxRetainedInterpreters (c.kept pid) i s := by
  obtain ⟨ha, hf, t, ht, ho⟩ := c.evicts_spec h
  refine ⟨ha, ⟨(c.retainedOf pid).keys.toFinset, fun j hj => ?_, ?_⟩, t, ht, ho⟩
  · rw [List.mem_toFinset, ExtTreeMap.mem_keys] at hj
    exact Option.isSome_iff_ne_none.mp (ExtTreeMap.isSome_getElem?_iff_mem.mpr hj)
  · have hn : (c.retainedOf pid).keys.Nodup := ExtTreeMap.nodup_keys
    rw [List.toFinset_card_of_nodup hn, ExtTreeMap.length_keys]
    exact hf

theorem kept_forget (c : Cursor F) {pid pid' : ℕ} (h : pid' ≠ pid) :
    (c.forget pid').kept pid = c.kept pid := by
  funext i
  simp [kept, retainedOf, forget, ExtTreeMap.getD_erase, h]

variable [F64 F]

theorem kept_admitRecord (c : Cursor F) (pid pid' : ℕ) (r : GcStat) :
    (admitRecord pid' c r).1.kept pid = (c.retain pid' r.interpreterId).kept pid :=
  kept_congr (c.admitRecord_retained pid' r) pid

/-- One Record moves the window by its interpreter, and evicts none of the window. -/
theorem window_admitRecord {c : Cursor F} {pid : ℕ} {prev cur : Finset ℤ} {q : ℕ}
    (h : Window prev cur q c.polls (c.kept pid)) (r : GcStat)
    (hcap : (prev ∪ insert r.interpreterId cur).card ≤ maxRetainedInterpreters) :
    Window prev (insert r.interpreterId cur) q c.polls ((admitRecord pid c r).1.kept pid) := by
  rw [kept_admitRecord]
  exact h.touch _ (c.evicts pid r.interpreterId)
    (fun s hs => h.not_mem_of_evicts hcap (c.evicts_recency hs)) (c.kept_retain pid _)

theorem window_offers {c : Cursor F} {pid : ℕ} {prev : Finset ℤ} {q : ℕ}
    (h : Window prev ∅ q c.polls (c.kept pid)) (records : List GcStat)
    (hcap : (prev ∪ names records).card ≤ maxRetainedInterpreters) :
    let c' := Mealy.exec (admitRecord pid) c records
    c'.polls = c.polls ∧ Window prev (names records) q c.polls (c'.kept pid) := by
  induction records using List.reverseRecOn with
  | nil => exact ⟨rfl, h⟩
  | append_singleton rs r ih =>
    rw [names_concat] at hcap ⊢
    obtain ⟨hp, hw⟩ := ih ((Finset.card_le_card
      (Finset.union_subset_union_right (Finset.subset_insert _ _))).trans hcap)
    simp only [Mealy.exec_concat]
    refine ⟨by rw [admitRecord_polls, hp], ?_⟩
    rw [← hp] at hw ⊢
    exact window_admitRecord hw r hcap

theorem kept_offers {c : Cursor F} {pid : ℕ} (records : List GcStat) {i : ℤ}
    (h : (Mealy.exec (admitRecord pid) c records).kept pid i ≠ none) :
    c.kept pid i ≠ none ∨ i ∈ names records := by
  induction records using List.reverseRecOn with
  | nil => exact Or.inl h
  | append_singleton rs r ih =>
    rw [Mealy.exec_concat, kept_admitRecord, kept_retain] at h
    rw [names_concat]
    split_ifs at h with h₁ h₂
    · exact Or.inr (h₁ ▸ Finset.mem_insert_self _ _)
    · exact absurd rfl h
    · exact (ih h).imp id Finset.mem_insert_of_mem

/-! ## Whole runs -/

theorem kept_admitRecords_ne (c : Cursor F) {pid pid' : ℕ} (h : pid' ≠ pid) (records : List GcStat) :
    (Mealy.exec (admitRecord pid') c records).kept pid = c.kept pid := by
  induction records generalizing c with
  | nil => rfl
  | cons r rs ih => rw [Mealy.exec_cons, ih, kept_admitRecord, kept_retain_ne _ h.symm]

theorem polls_offers (c : Cursor F) (pid : ℕ) (records : List GcStat) :
    (Mealy.exec (admitRecord pid) c records).polls = c.polls := by
  induction records generalizing c with
  | nil => rfl
  | cons r rs ih => rw [Mealy.exec_cons, ih, admitRecord_polls]

/-- **After any run, the kept set tells what the last two polls of the process named.** -/
theorem window_run {pid : ℕ} {ops : List CursorOp} (hf : .forget pid ∉ ops)
    (hn : Narrow (pollsOf pid ops)) :
    let c : Cursor F := Mealy.exec apply new ops
    (∃ q p, p ≤ c.polls ∧
      Window (latest (pollsOf pid ops).dropLast) (latest (pollsOf pid ops)) q p (c.kept pid)) ∧
      ∀ i, c.kept pid i ≠ none → ∃ records ∈ pollsOf pid ops, i ∈ names records := by
  induction ops using List.reverseRecOn with
  | nil => 
    have hk : ∀ i, (new : Cursor F).kept pid i = none := fun i => by simp [kept, retainedOf, new]
    exact ⟨⟨0, 0, le_rfl, Window.empty hk 0⟩, fun i hi => absurd (hk i) hi⟩
  | append_singleton ops op ih =>
    have hops : pollsOf pid (ops ++ [op]) = pollsOf pid ops ++ pollsOf pid [op] :=
      List.filterMap_append
    rw [hops] at hn ⊢
    obtain ⟨⟨q, p, hp, hw⟩, hm⟩ := ih (fun h => hf (List.mem_append_left _ h)) hn.of_append
    simp only [Mealy.exec_concat]
    generalize Mealy.exec apply (new : Cursor F) ops = c at hp hw hm ⊢
    cases op with
    | forget pid' =>
      have hne : pid' ≠ pid := fun h => hf (by simp [h])
      rw [show pollsOf pid [.forget pid'] = [] from rfl, List.append_nil]
      simp only [apply]
      rw [kept_forget c hne]
      exact ⟨⟨q, p, hp, hw⟩, hm⟩
    | admitRecords pid' records =>
      simp only [apply, admitRecords]
      by_cases hne : pid' = pid
      · subst hne
        have hsingle : pollsOf pid' [.admitRecords pid' records] = [records] := by simp [pollsOf]
        rw [hsingle] at hn ⊢
        have ht : Window (latest (pollsOf pid' ops)) ∅ p c.tick.polls (c.tick.kept pid') :=
          hw.tick (Nat.lt_succ_of_le hp)
        obtain ⟨hpolls, hw'⟩ := window_offers ht (sortCandidates records)
          (by rw [names_sortCandidates]; exact hn.card_le)
        rw [names_sortCandidates] at hw'
        rw [List.dropLast_concat, latest_concat]
        refine ⟨⟨p, c.tick.polls, hpolls.ge, hw'⟩, fun i hi => ?_⟩
        rcases kept_offers _ hi with h | h
        · obtain ⟨rs, hrs, hi⟩ := hm i h
          exact ⟨rs, List.mem_append_left _ hrs, hi⟩
        · exact ⟨records, by simp, names_sortCandidates records ▸ h⟩
      · have hsingle : pollsOf pid [.admitRecords pid' records] = [] := by simp [pollsOf, hne]
        rw [hsingle, List.append_nil, kept_admitRecords_ne _ hne, polls_offers]
        exact ⟨⟨q, p, hp.trans (Nat.le_succ _), hw⟩, hm⟩

/-- **An interpreter that appears in every poll since its first one is never evicted**, as long as
two consecutive polls name no more interpreters than are kept. -/
theorem persistent_not_evicted {pid : ℕ} {ops : List CursorOp} (hf : .forget pid ∉ ops)
    (hn : Narrow (pollsOf pid ops)) {i : ℤ} (hi : Persistent i (pollsOf pid ops))
    {pre post : List CursorStep} {r : GcStat}
    (hs : ops.flatMap CursorOp.steps = pre ++ .offer pid r :: post) :
    (Mealy.exec step (new : Cursor F) pre).evicts pid r.interpreterId ≠ some i := by
  obtain ⟨o₁, op, o₂, a, b, rfl, hop, rfl, -⟩ := ListFacts.exists_of_flatMap_eq hs
  cases op with
  | forget pid' => cases a <;> simp [CursorOp.steps] at hop
  | admitRecords pid' records =>
    obtain ⟨a, rfl, hc⟩ : ∃ a', a = .tick :: a' ∧
        (sortCandidates records).map (CursorStep.offer pid') = a' ++ .offer pid r :: b := by
      cases a with
      | nil => cases (List.cons.inj hop).1
      | cons t a => obtain ⟨rfl, h⟩ := List.cons.inj hop; exact ⟨a, rfl, h⟩
    obtain ⟨before, rest, hbr, rfl, hrest⟩ := List.map_eq_append_iff.mp hc
    obtain ⟨r', after, rfl, hr', -⟩ := List.map_eq_cons_iff.mp hrest
    obtain ⟨rfl, rfl⟩ := CursorStep.offer.inj hr'
    have hpolls : pollsOf pid' (o₁ ++ .admitRecords pid' records :: o₂) =
        pollsOf pid' o₁ ++ records :: pollsOf pid' o₂ := by simp [pollsOf]
    rw [hpolls] at hn hi
    have hn' : Narrow (pollsOf pid' o₁ ++ [records]) :=
      Narrow.of_append (b := pollsOf pid' o₂) (by simpa using hn)
    obtain ⟨⟨q, p, hp, hw⟩, hm⟩ := window_run (F := F)
      (fun h => hf (List.mem_append_left _ h)) hn'.of_append
    rw [Mealy.exec_append, exec_flatMap_steps, Mealy.exec_cons, exec_offers]
    simp only [step]
    generalize Mealy.exec apply (new : Cursor F) o₁ = c at hp hw hm ⊢
    have hsub : insert r'.interpreterId (names before) ⊆ names records := by
      rw [← names_concat, ← names_sortCandidates records, hbr,
        List.append_cons before r' after, names_append (before ++ [r'])]
      exact Finset.subset_union_left
    have hcap : (latest (pollsOf pid' o₁) ∪ insert r'.interpreterId (names before)).card ≤
        maxRetainedInterpreters :=
      (Finset.card_le_card (Finset.union_subset_union_right hsub)).trans hn'.card_le
    have ht : Window (latest (pollsOf pid' o₁)) ∅ p c.tick.polls (c.tick.kept pid') :=
      hw.tick (Nat.lt_succ_of_le hp)
    obtain ⟨hpolls', hw'⟩ := window_offers ht before
      ((Finset.card_le_card (Finset.union_subset_union_right (Finset.subset_insert _ _))).trans
        hcap)
    intro he
    rw [← hpolls'] at hw'
    obtain ⟨t, ht, -⟩ := (evicts_recency _ he).oldest
    -- the victim was kept, so it had been named; then it is in the window
    refine hw'.not_mem_of_evicts hcap (evicts_recency _ he) (Finset.mem_union.mpr ?_)
    refine (kept_offers before (by rw [ht]; exact Option.some_ne_none t)).imp (fun h => ?_) id
    obtain ⟨rs, hrs, hirs⟩ := hm i h
    exact Persistent.mem_latest (List.pairwise_append.mp hi).1 hrs hirs

/-- Where no step forgets the process or evicts the interpreter, its rings keep their
accumulators. -/
theorem keeps_of_not_evicted {c : Cursor F} {K : RingKey} {steps : List CursorStep}
    (hf : .forget K.pid ∉ steps)
    (he : ∀ pre r post, steps = pre ++ .offer K.pid r :: post →
      (Mealy.exec step c pre).evicts K.pid r.interpreterId ≠ some K.interpreter) :
    c.Keeps K steps := fun pre s post e hl => by
  rcases ((loses_iff _ _ _).mp hl).2 with rfl | ⟨r, rfl, hr, -⟩
  · exact hf (by rw [e]; simp)
  · exact he pre r post e hr

theorem forget_mem_steps {ops : List CursorOp} {pid : ℕ} :
    .forget pid ∈ ops.flatMap CursorOp.steps ↔ .forget pid ∈ ops := by
  simp only [List.mem_flatMap]
  constructor
  · rintro ⟨op, hop, h⟩
    cases op with
    | admitRecords pid' records => simp [CursorOp.steps] at h
    | forget pid' =>
      obtain rfl : pid = pid' := by simpa [CursorOp.steps] using h
      exact hop
  · exact fun h => ⟨_, h, List.mem_singleton_self _⟩

/-- The rings of an interpreter that appears in every poll since its first one keep their
accumulators. -/
theorem keeps_of_persistent {pid : ℕ} {ops : List CursorOp} (hf : .forget pid ∉ ops)
    (hn : Narrow (pollsOf pid ops)) {i : ℤ} (hi : Persistent i (pollsOf pid ops)) (g : ℕ) :
    (new : Cursor F).Keeps ⟨pid, i, g⟩ (ops.flatMap CursorOp.steps) :=
  keeps_of_not_evicted (fun h => hf (forget_mem_steps.mp h)) fun _ _ _ hs =>
    persistent_not_evicted hf hn hi hs

theorem pollsOf_map_admitRecords (pid : ℕ) (polls : List (List GcStat)) :
    pollsOf pid (polls.map (CursorOp.admitRecords pid)) = polls := by
  simp [pollsOf]

theorem keeps_of_names_eq {pid : ℕ} {i : ℤ} {polls : List (List GcStat)}
    (h : ∀ records ∈ polls, names records = {i}) (g : ℕ) :
    (new : Cursor F).Keeps ⟨pid, i, g⟩
      ((polls.map (CursorOp.admitRecords pid)).flatMap CursorOp.steps) := by
  refine keeps_of_persistent (by simp) ?_ ?_ g
  · rw [pollsOf_map_admitRecords]
    exact narrow_of_subset (S := {i}) (by simp [maxRetainedInterpreters])
      fun records hr => (h records hr).subset
  · rw [pollsOf_map_admitRecords]
    refine List.pairwise_of_forall_mem_list fun _ _ records hr _ => ?_
    rw [h records hr, Finset.mem_singleton]

theorem first_of_keeps {c : Cursor F} {K : RingKey} (h₀ : c.rings[K]? = none)
    {pre post : List CursorStep} (hk : c.Keeps K (pre ++ post)) {o : RingObservation F}
    (ho : (Mealy.exec step c pre).rings[K]? = some o) :
    ∃ o', (Mealy.exec step c (pre ++ post)).rings[K]? = some o' ∧ o'.first = o.first := by
  rw [ring_of_keeps h₀ hk.of_append] at ho
  rw [ring_of_keeps h₀ hk, offersOf, List.flatMap_append, climb_append]
  obtain ⟨hne, rfl⟩ := heldAfter_eq_some_iff.mp ho
  exact ⟨_, heldAfter_eq_some_iff.mpr ⟨List.append_ne_nil_of_left_ne_nil hne _, rfl⟩,
    RingObservation.ofRecords_append_first hne _⟩

/-- **Eviction only costs interpreters that are gone.** In a run that never forgets the process, an
interpreter that appears in every poll since its first one, while no two consecutive polls name more
interpreters than are kept:

1. is never evicted, so each of its rings keeps the accumulator it gets;
2. keeps the first counter each of its accumulators opened with;
3. has no Record returned twice. -/
theorem persistent_exact {pid : ℕ} {ops : List CursorOp} (hf : .forget pid ∉ ops)
    (hn : Narrow (pollsOf pid ops)) {i : ℤ} (hi : Persistent i (pollsOf pid ops)) :
    (∀ pre r post, ops.flatMap CursorOp.steps = pre ++ .offer pid r :: post →
      (Mealy.exec step (new : Cursor F) pre).evicts pid r.interpreterId ≠ some i) ∧
    (∀ g, (new : Cursor F).Keeps ⟨pid, i, g⟩ (ops.flatMap CursorOp.steps)) ∧
    (∀ g pre post, ops.flatMap CursorOp.steps = pre ++ post →
      ∀ o, (Mealy.exec step (new : Cursor F) pre).rings[(⟨pid, i, g⟩ : RingKey)]? = some o →
        ∃ o', (Mealy.exec apply (new : Cursor F) ops).rings[(⟨pid, i, g⟩ : RingKey)]? = some o' ∧
          o'.first = o.first) ∧
    ∀ g, ((returnedOf ⟨pid, i, g⟩ (new : Cursor F) ops).map GcStat.collections).Nodup := by
  have hk := keeps_of_persistent (F := F) hf hn hi
  refine ⟨fun _ _ _ hs => persistent_not_evicted hf hn hi hs, hk, fun g pre post hs o ho => ?_,
    fun g => ?_⟩
  · rw [← exec_flatMap_steps, hs]
    exact first_of_keeps (by simp [new]) (hs ▸ hk g) ho
  · exact nodup_returnedOf (by simp [new]) (hk g)

/-- One interpreter runs on, and another has come. -/
def churnPoll (n : ℕ) : List GcStat :=
  [timedEntry (10 * n + 1) (10 * n + 5) (n + 1), { timedEntry 1 2 1 with interpreterId := n + 1 }]

/-- One interpreter stays while more come and go than are kept. -/
def churn : List CursorOp := ((List.range 1100).map churnPoll).map (.admitRecords 7)

theorem names_churnPoll (n : ℕ) : names (churnPoll n) = {0, (n + 1 : ℤ)} := rfl

theorem persistent_exact_churn :
    maxRetainedInterpreters < (names (pollsOf 7 churn).flatten).card ∧
    (∀ pre r post, churn.flatMap CursorOp.steps = pre ++ .offer 7 r :: post →
      (Mealy.exec step (new : Cursor (Secs fun w => w.toInt)) pre).evicts 7 r.interpreterId ≠
        some 0) ∧
    ((returnedOf ⟨7, 0, 0⟩ (new : Cursor (Secs fun w => w.toInt)) churn).map
      GcStat.collections).Nodup := by
  have hpolls : pollsOf 7 churn = (List.range 1100).map churnPoll := pollsOf_map_admitRecords _ _
  have hforget : .forget 7 ∉ churn := by simp [churn]
  have hnarrow : Narrow (pollsOf 7 churn) := by
    rw [hpolls]
    refine narrow_of_card_le (k := 2) (by decide) fun records hr => ?_
    obtain ⟨n, -, rfl⟩ := List.mem_map.mp hr
    rw [names_churnPoll]
    exact Finset.card_le_two
  have hpersistent : Persistent 0 (pollsOf 7 churn) := by
    rw [hpolls]
    refine List.pairwise_of_forall_mem_list fun _ _ records hr _ => ?_
    obtain ⟨n, -, rfl⟩ := List.mem_map.mp hr
    rw [names_churnPoll]
    exact Finset.mem_insert_self _ _
  have h := @persistent_exact (Secs fun w => w.toInt) _ 7 churn hforget hnarrow 0 hpersistent
  refine ⟨?_, h.1, h.2.2.2 0⟩
  -- the interpreters that came are told apart by the poll they came in
  have hsub : (Finset.range 1100).image (fun n : ℕ => (n + 1 : ℤ)) ⊆
      names (pollsOf 7 churn).flatten := by
    intro i hi
    obtain ⟨n, hn, rfl⟩ := Finset.mem_image.mp hi
    rw [hpolls, mem_names]
    exact ⟨_, List.mem_flatten.mpr ⟨_, List.mem_map_of_mem (List.mem_range.mpr (Finset.mem_range.mp hn)),
      List.mem_cons_of_mem _ List.mem_cons_self⟩, rfl⟩
  refine lt_of_lt_of_le ?_ (Finset.card_le_card hsub)
  rw [Finset.card_image_of_injective _ fun a b hab => by simpa using hab, Finset.card_range]
  decide

/-- **A newcomer to a poll that already named as many interpreters as are kept evicts one of
them.** -/
theorem evicts_of_crowded {c : Cursor F} {pid : ℕ} (hc : ∀ i, c.kept pid i = none)
    {before : List GcStat} (hcard : (names before).card = maxRetainedInterpreters) {i : ℤ}
    (hi : i ∉ names before) : ∃ s ∈ names before,
      (Mealy.exec (admitRecord pid) c before).evicts pid i = some s := by
  have hw := (window_offers (Recency.Window.empty hc c.polls) before
    (by rw [Finset.empty_union, hcard])).2
  have hmem : ∀ j, (Mealy.exec (admitRecord pid) c before).kept pid j ≠ none → j ∈ names before :=
    fun j hj => (kept_offers before hj).resolve_left fun h => h (hc j)
  generalize Mealy.exec (admitRecord pid) c before = c' at hw hmem ⊢
  -- every interpreter named is kept, so the set is full
  have hsub : names before ⊆ (c'.retainedOf pid).keys.toFinset := fun j hj => by
    rw [List.mem_toFinset, ExtTreeMap.mem_keys, ← ExtTreeMap.isSome_getElem?_iff_mem]
    exact Option.isSome_iff_exists.mpr ⟨_, hw.keepsCur j hj⟩
  have hfull : maxRetainedInterpreters ≤ (c'.retainedOf pid).size := by
    rw [← hcard, ← ExtTreeMap.length_keys]
    exact (Finset.card_le_card hsub).trans (List.toFinset_card_le _)
  have habsent : (c'.retainedOf pid).contains i = false := by
    by_contra h
    rw [Bool.not_eq_false, ExtTreeMap.contains_eq_isSome_getElem?] at h
    exact hi (hmem i (Option.isSome_iff_ne_none.mp h))
  have hne : c'.retainedOf pid ≠ ∅ := fun h => by
    rw [h, ExtTreeMap.size_empty] at hfull
    exact absurd hfull (by decide)
  obtain ⟨s, hs⟩ := Option.isSome_iff_exists.mp (stalest_isSome hne)
  refine ⟨s, hmem s ?_, ?_⟩
  · obtain ⟨seen, h, -⟩ := stalest_spec hs
    rw [kept, h]
    exact Option.some_ne_none _
  · rw [evicts, habsent, if_neg Bool.false_ne_true, if_neg (not_lt.mpr hfull), hs]

/-- An Entry of an interpreter that has run one Collection, on a build that publishes its counter
alone. -/
def countedEntry (i : ℕ) : GcStat := ⟨0, 0, i, wordsBytes [1], ⟨8, [("collections", 0)]⟩⟩

/-- One poll of one interpreter more than are kept. -/
def crowd : List CursorOp :=
  [.admitRecords 7 ((List.range (maxRetainedInterpreters + 1)).map countedEntry)]

theorem names_counted (n : ℕ) :
    names ((List.range n).map countedEntry) = (Finset.range n).image (Nat.cast : ℕ → ℤ) := by
  ext i
  simp [countedEntry]

theorem sortCandidates_counted (n : ℕ) :
    sortCandidates ((List.range n).map countedEntry) = (List.range n).map countedEntry := by
  refine StableSort.stableSort_of_pairwise _ (List.pairwise_map.mpr ?_)
  refine List.pairwise_lt_range.imp fun hab => Prod.Lex.toLex_le_toLex.mpr (Or.inl ?_)
  exact Int.ofNat_lt.mpr hab

/-- **In a run of one such poll an interpreter that appears in every poll is evicted**, although no
two consecutive polls name too many. -/
theorem not_persistent_crowd :
    (∀ a b, [a, b] <:+: pollsOf 7 crowd → (names (a ++ b)).card ≤ maxRetainedInterpreters) ∧
    ∃ i pre r post, (∀ records ∈ pollsOf 7 crowd, i ∈ names records) ∧
      crowd.flatMap CursorOp.steps = pre ++ .offer 7 r :: post ∧
        (Mealy.exec step (new : Cursor (Secs fun w => w.toInt)) pre).evicts 7 r.interpreterId =
          some i := by
  have hpolls : pollsOf 7 crowd =
      [(List.range (maxRetainedInterpreters + 1)).map countedEntry] := rfl
  have hnew : ∀ i, (new : Cursor (Secs fun w => w.toInt)).tick.kept 7 i = none := fun i => by
    simp [kept, retainedOf, new, tick]
  have hcard : (names ((List.range maxRetainedInterpreters).map countedEntry)).card =
      maxRetainedInterpreters := by
    rw [names_counted, Finset.card_image_of_injective _ Nat.cast_injective, Finset.card_range]
  obtain ⟨i, hi, he⟩ := evicts_of_crowded hnew hcard (i := maxRetainedInterpreters)
    (by simp [names_counted])
  rw [hpolls]
  refine ⟨fun a b h => absurd h.length_le (by simp), i, .tick ::
    ((List.range maxRetainedInterpreters).map countedEntry).map (CursorStep.offer 7),
    countedEntry maxRetainedInterpreters, [], fun records hr => ?_, ?_, ?_⟩
  · rw [List.mem_singleton.mp hr, List.range_succ, List.map_append, names_append]
    exact Finset.mem_union_left _ hi
  · rw [crowd, List.flatMap_singleton, CursorOp.steps, sortCandidates_counted, List.range_succ,
      List.map_append, List.map_append]
    rfl
  · rw [Mealy.exec_cons, exec_offers]
    exact he

end Cursor

end GcScope
