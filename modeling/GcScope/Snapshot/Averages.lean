import Mathlib.Algebra.BigOperators.Intervals
import GcScope.Snapshot.Collect

/-!
# Averages and rates of a snapshot

A snapshot shows, a generation at a time, the mean pause and the rate of the Collections its ring still
holds. The ring wraps and may be partly unwritten, so the oldest and the newest Entry are found by
their counters.

* `entriesByGeneration`, `avgCollectionTimePerGen`, `collectionsRateFromEntries`: the computation.
* `minByKey_spec`, `maxByKey_spec`: what the two ends of the ring are.
* `generationAverage_congr`, `generationRate_congr`: both depend on the members of a ring only.
* `generationAverage_of_cumulative`: over a cumulative history the average is a mean.
* **`averages_exact`**: neither the order of the Entries nor unwritten or foreign ones matter, and the
  average is the mean pause of the Collections between the ends.
-/

set_option autoImplicit false

namespace GcScope

variable {F : Type} [F64 F]

/-- The first of the elements with the least key. -/
def minByKey {α : Type} (key : α → ℤ) : List α → Option α
  | [] => none
  | a :: l => some (l.foldl (fun best b => if key b < key best then b else best) a)

/-- The last of the elements with the greatest key. -/
def maxByKey {α : Type} (key : α → ℤ) : List α → Option α
  | [] => none
  | a :: l => some (l.foldl (fun best b => if key b < key best then best else b) a)

/-- The written Entries of each generation. -/
def entriesByGeneration (entries : List (GcEntry F)) (g : Fin 3) : List (GcEntry F) :=
  entries.filter fun e => decide (e.collections ≠ 0) && e.generation == g

/-- The mean pause between the oldest and the newest Entry of a generation. -/
def generationAverage (gentries : List (GcEntry F)) : F :=
  if gentries.length < 2 then F64.ofInt 0
  else
    match minByKey GcEntry.collections gentries, maxByKey GcEntry.collections gentries with
    | some minColl, some maxColl =>
      let collDelta := maxColl.collections - minColl.collections
      let durDelta := F64.sub maxColl.duration minColl.duration
      if 0 < collDelta then F64.div durDelta (F64.ofInt collDelta) else F64.ofInt 0
    | _, _ => F64.ofInt 0

/-- Collections a second between the oldest and the newest Entry of a generation. -/
def generationRate (gentries : List (GcEntry F)) : F :=
  if gentries.length < 2 then F64.ofInt 0
  else
    match minByKey GcEntry.collections gentries, maxByKey GcEntry.collections gentries,
      minByKey GcEntry.startTs gentries, maxByKey GcEntry.stopTs gentries with
    | some minColl, some maxColl, some minTs, some maxTs =>
      let collDelta := maxColl.collections - minColl.collections
      let tsDeltaNs := maxTs.stopTs - minTs.startTs
      if 0 < tsDeltaNs ∧ 0 < collDelta then
        F64.div (F64.ofInt collDelta) (F64.div (F64.ofInt tsDeltaNs) (F64.ofInt 1000000000))
      else F64.ofInt 0
    | _, _, _, _ => F64.ofInt 0

/-- The average pause of each generation, where the layout has durations. -/
def avgCollectionTimePerGen (entries : List (GcEntry F)) (hasDuration : Bool) (g : Fin 3) :
    Option F :=
  if !hasDuration then none else some (generationAverage (entriesByGeneration entries g))

/-- The rate of each generation, where the layout has timestamps. -/
def collectionsRateFromEntries (entries : List (GcEntry F)) (hasTimestamps : Bool) (g : Fin 3) :
    Option F :=
  if !hasTimestamps then none else some (generationRate (entriesByGeneration entries g))

/-! ## The ends of a ring -/

section Ends

variable {α : Type} {key : α → ℤ} {l : List α}

theorem foldl_best (le : α → α → Prop) {better : α → α → α} (hrefl : ∀ a, le a a)
    (htrans : ∀ a b c, le a b → le b c → le a c)
    (hbest : ∀ a b, (better a b = a ∨ better a b = b) ∧ le (better a b) a ∧ le (better a b) b)
    (a : α) : l.foldl better a ∈ a :: l ∧ ∀ b ∈ a :: l, le (l.foldl better a) b := by
  induction l generalizing a with
  | nil => exact ⟨List.mem_cons_self, fun b hb => List.mem_singleton.mp hb ▸ hrefl a⟩
  | cons c l ih =>
    obtain ⟨hmem, hle⟩ := ih (better a c)
    obtain ⟨hcase, hlea, hlec⟩ := hbest a c
    have hnew := hle (better a c) List.mem_cons_self
    refine ⟨?_, fun b hb => ?_⟩
    · rw [List.foldl_cons]
      rcases List.mem_cons.mp hmem with h | h
      · rw [h]
        rcases hcase with h | h <;> simp [h]
      · exact List.mem_cons_of_mem a (List.mem_cons_of_mem c h)
    · rcases List.mem_cons.mp hb with rfl | hb
      · exact htrans _ _ _ hnew hlea
      rcases List.mem_cons.mp hb with rfl | hb
      · exact htrans _ _ _ hnew hlec
      · exact hle b (List.mem_cons_of_mem _ hb)

theorem minByKey_spec {a : α} (h : minByKey key l = some a) :
    a ∈ l ∧ ∀ b ∈ l, key a ≤ key b := by
  cases l with
  | nil => cases h
  | cons b l =>
    obtain rfl := Option.some.inj h
    refine foldl_best (fun x y => key x ≤ key y) (fun _ => le_rfl) (fun _ _ _ => le_trans)
      (fun x y => ?_) b
    split_ifs with hlt
    · exact ⟨.inr rfl, hlt.le, le_rfl⟩
    · exact ⟨.inl rfl, le_rfl, not_lt.mp hlt⟩

theorem maxByKey_spec {a : α} (h : maxByKey key l = some a) :
    a ∈ l ∧ ∀ b ∈ l, key b ≤ key a := by
  cases l with
  | nil => cases h
  | cons b l =>
    obtain rfl := Option.some.inj h
    refine foldl_best (fun x y => key y ≤ key x) (fun _ => le_rfl)
      (fun _ _ _ h h' => h'.trans h) (fun x y => ?_) b
    split_ifs with hlt
    · exact ⟨.inl rfl, le_rfl, hlt.le⟩
    · exact ⟨.inr rfl, not_lt.mp hlt, le_rfl⟩

variable (key) in
theorem exists_minByKey (h : l ≠ []) : ∃ a, minByKey key l = some a := by
  cases l with
  | nil => exact absurd rfl h
  | cons a l => exact ⟨_, rfl⟩

variable (key) in
theorem exists_maxByKey (h : l ≠ []) : ∃ a, maxByKey key l = some a := by
  cases l with
  | nil => exact absurd rfl h
  | cons a l => exact ⟨_, rfl⟩

theorem minByKey_key_congr {l' : List α} (hm : ∀ a, a ∈ l ↔ a ∈ l') {a a' : α}
    (h : minByKey key l = some a) (h' : minByKey key l' = some a') : key a = key a' :=
  le_antisymm ((minByKey_spec h).2 a' ((hm a').mpr (minByKey_spec h').1))
    ((minByKey_spec h').2 a ((hm a).mp (minByKey_spec h).1))

theorem maxByKey_key_congr {l' : List α} (hm : ∀ a, a ∈ l ↔ a ∈ l') {a a' : α}
    (h : maxByKey key l = some a) (h' : maxByKey key l' = some a') : key a = key a' :=
  le_antisymm ((maxByKey_spec h').2 a ((hm a).mp (maxByKey_spec h).1))
    ((maxByKey_spec h).2 a' ((hm a').mpr (maxByKey_spec h').1))

end Ends

/-! ## One generation -/

/-- Entries of one generation with equal counters have equal durations. -/
def Consistent (entries : List (GcEntry F)) : Prop :=
  ∀ a ∈ entries, ∀ b ∈ entries, a.generation = b.generation → a.collections = b.collections →
    a.duration = b.duration

variable {gentries gentries' : List (GcEntry F)}

theorem generationAverage_congr (hp : gentries.Perm gentries')
    (hc : ∀ a ∈ gentries, ∀ b ∈ gentries, a.collections = b.collections → a.duration = b.duration) :
    generationAverage gentries = generationAverage gentries' := by
  have hm : ∀ a, a ∈ gentries ↔ a ∈ gentries' := fun a => hp.mem_iff
  unfold generationAverage
  rw [hp.length_eq]
  split_ifs with hlen
  · rfl
  have hne' : gentries' ≠ [] := fun h => hlen (by rw [h]; exact Nat.zero_lt_two)
  have hne : gentries ≠ [] := fun h => hne' (List.perm_nil.mp (h ▸ hp.symm))
  obtain ⟨lo, hlo⟩ := exists_minByKey GcEntry.collections hne
  obtain ⟨hi, hhi⟩ := exists_maxByKey GcEntry.collections hne
  obtain ⟨lo', hlo'⟩ := exists_minByKey GcEntry.collections hne'
  obtain ⟨hi', hhi'⟩ := exists_maxByKey GcEntry.collections hne'
  have hlow := minByKey_key_congr hm hlo hlo'
  have hhigh := maxByKey_key_congr hm hhi hhi'
  have hdlow := hc lo (minByKey_spec hlo).1 lo' ((hm lo').mpr (minByKey_spec hlo').1) hlow
  have hdhigh := hc hi (maxByKey_spec hhi).1 hi' ((hm hi').mpr (maxByKey_spec hhi').1) hhigh
  rw [hlo, hhi, hlo', hhi']
  simp only [hlow, hhigh, hdlow, hdhigh]

theorem generationRate_congr (hp : gentries.Perm gentries') :
    generationRate gentries = generationRate gentries' := by
  have hm : ∀ a, a ∈ gentries ↔ a ∈ gentries' := fun a => hp.mem_iff
  unfold generationRate
  rw [hp.length_eq]
  split_ifs with hlen
  · rfl
  have hne' : gentries' ≠ [] := fun h => hlen (by rw [h]; exact Nat.zero_lt_two)
  have hne : gentries ≠ [] := fun h => hne' (List.perm_nil.mp (h ▸ hp.symm))
  obtain ⟨lo, hlo⟩ := exists_minByKey GcEntry.collections hne
  obtain ⟨hi, hhi⟩ := exists_maxByKey GcEntry.collections hne
  obtain ⟨first, hfirst⟩ := exists_minByKey GcEntry.startTs hne
  obtain ⟨last, hlast⟩ := exists_maxByKey GcEntry.stopTs hne
  obtain ⟨lo', hlo'⟩ := exists_minByKey GcEntry.collections hne'
  obtain ⟨hi', hhi'⟩ := exists_maxByKey GcEntry.collections hne'
  obtain ⟨first', hfirst'⟩ := exists_minByKey GcEntry.startTs hne'
  obtain ⟨last', hlast'⟩ := exists_maxByKey GcEntry.stopTs hne'
  rw [hlo, hhi, hfirst, hlast, hlo', hhi', hfirst', hlast']
  simp only [minByKey_key_congr hm hlo hlo', maxByKey_key_congr hm hhi hhi',
    minByKey_key_congr hm hfirst hfirst', maxByKey_key_congr hm hlast hlast']

/-! ## Cumulative histories -/

section Cumulative

variable {ofBits : BitVec 64 → ℚ} {dur : ℕ → ℚ}

/-- Entries of one cumulative history, in which Collection `i` takes `dur i`: the `k`-th carries the
counter `k` and the total duration of the first `k` Collections. -/
def Cumulative (dur : ℕ → ℚ) (gentries : List (GcEntry (Secs ofBits))) : Prop :=
  ∀ e ∈ gentries, ∃ k : ℕ, e.collections = k ∧ e.duration = (∑ i ∈ Finset.Icc 1 k, dur i : ℚ)

theorem sum_Icc_sub (dur : ℕ → ℚ) {lo hi : ℕ} (h : lo ≤ hi) :
    (∑ i ∈ Finset.Icc 1 hi, dur i) - ∑ i ∈ Finset.Icc 1 lo, dur i =
      ∑ i ∈ Finset.Ioc lo hi, dur i := by
  have hsplit : (∑ i ∈ Finset.Ioc 0 lo, dur i) + ∑ i ∈ Finset.Ioc lo hi, dur i =
      ∑ i ∈ Finset.Ioc 0 hi, dur i := Finset.sum_Ioc_consecutive dur (Nat.zero_le lo) h
  have hIcc (n : ℕ) : Finset.Icc 1 n = Finset.Ioc 0 n := Finset.Icc_add_one_left_eq_Ioc 0 n
  rw [hIcc, hIcc, ← hsplit]
  exact add_sub_cancel_left _ _

/-- Over a cumulative history the average is the mean pause after the oldest retained Collection. -/
theorem generationAverage_of_cumulative {gentries : List (GcEntry (Secs ofBits))}
    (hc : Cumulative dur gentries)
    (htwo : ∃ a ∈ gentries, ∃ b ∈ gentries, a.collections ≠ b.collections) :
    ∃ lo hi : ℕ, lo < hi ∧ (∃ e ∈ gentries, e.collections = lo) ∧
      (∃ e ∈ gentries, e.collections = hi) ∧
      (∀ e ∈ gentries, (lo : ℤ) ≤ e.collections ∧ e.collections ≤ hi) ∧
      generationAverage gentries = ((∑ i ∈ Finset.Ioc lo hi, dur i) / (hi - lo : ℕ) : ℚ) := by
  obtain ⟨a, ha, b, hb, hab⟩ := htwo
  have hne : gentries ≠ [] := List.ne_nil_of_mem ha
  have hlen : ¬gentries.length < 2 := by
    match gentries, ha, hb with
    | [_], ha, hb => exact absurd (by rw [List.mem_singleton.mp ha, List.mem_singleton.mp hb]) hab
    | _ :: _ :: _, _, _ => simp
  obtain ⟨first, hfirst⟩ := exists_minByKey GcEntry.collections hne
  obtain ⟨last, hlast⟩ := exists_maxByKey GcEntry.collections hne
  obtain ⟨hfmem, hfle⟩ := minByKey_spec hfirst
  obtain ⟨hlmem, hlle⟩ := maxByKey_spec hlast
  obtain ⟨lo, hlo, hdlo⟩ := hc first hfmem
  obtain ⟨hi, hhi, hdhi⟩ := hc last hlmem
  have hlt : lo < hi := by
    have := hfle a ha
    have := hfle b hb
    have := hlle a ha
    have := hlle b hb
    omega
  refine ⟨lo, hi, hlt, ⟨first, hfmem, hlo⟩, ⟨last, hlmem, hhi⟩,
    fun e he => ⟨hlo ▸ hfle e he, hhi ▸ hlle e he⟩, ?_⟩
  have hdelta : last.collections - first.collections = ((hi - lo : ℕ) : ℤ) := by
    rw [hlo, hhi, Nat.cast_sub hlt.le]
  have hpos : (0 : ℤ) < ((hi - lo : ℕ) : ℤ) := by omega
  simp only [generationAverage, if_neg hlen, hfirst, hlast, hdelta, if_pos hpos]
  rw [hdlo, hdhi, ← sum_Icc_sub dur hlt.le]
  rfl

end Cumulative

/-! ## The write position -/

/-- What one generation shows depends on its written Entries only. -/
theorem average_rate_congr {entries entries' : List (GcEntry F)} (hc : Consistent entries)
    {g : Fin 3} (hp : (entriesByGeneration entries g).Perm (entriesByGeneration entries' g))
    (flag : Bool) :
    avgCollectionTimePerGen entries flag g = avgCollectionTimePerGen entries' flag g ∧
      collectionsRateFromEntries entries flag g = collectionsRateFromEntries entries' flag g := by
  have havg : generationAverage (entriesByGeneration entries g) =
      generationAverage (entriesByGeneration entries' g) := by
    refine generationAverage_congr hp fun a ha b hb hab => ?_
    simp only [entriesByGeneration, List.mem_filter, Bool.and_eq_true, beq_iff_eq] at ha hb
    exact hc a ha.1 b hb.1 (ha.2.2.trans hb.2.2.symm) hab
  unfold avgCollectionTimePerGen collectionsRateFromEntries
  rw [havg, generationRate_congr hp]
  exact ⟨rfl, rfl⟩

omit [F64 F] in
/-- Unwritten Entries fall out, and a permutation stays one. -/
theorem entriesByGeneration_perm {entries entries' unwritten : List (GcEntry F)}
    (hu : ∀ e ∈ unwritten, e.collections = 0) (hp : entries'.Perm (entries ++ unwritten))
    (g : Fin 3) : (entriesByGeneration entries g).Perm (entriesByGeneration entries' g) := by
  have hnil : entriesByGeneration unwritten g = [] :=
    List.filter_eq_nil_iff.mpr fun e he => by simp [hu e he]
  have hadd : entriesByGeneration (entries ++ unwritten) g = entriesByGeneration entries g := by
    unfold entriesByGeneration at hnil ⊢
    rw [List.filter_append, hnil, List.append_nil]
  rw [← hadd]
  exact (hp.filter _).symm

omit [F64 F] in
theorem entriesByGeneration_congr {entries entries' : List (GcEntry F)} {g : Fin 3}
    (h : entries'.filter (fun e => e.generation == (g : ℕ)) =
      entries.filter fun e => e.generation == (g : ℕ)) :
    entriesByGeneration entries g = entriesByGeneration entries' g := by
  unfold entriesByGeneration
  rw [← List.filter_filter, ← List.filter_filter, h]

/-- **Averages and rates do not depend on the write position.** Reordering a ring, inserting unwritten
Entries and changing another generation leave them as they are, in any arithmetic; and over a cumulative
history the average is the mean pause of the Collections after the oldest retained one. -/
theorem averages_exact :
    (∀ (F : Type) [F64 F] (entries : List (GcEntry F)), Consistent entries → ∀ flag : Bool,
      (∀ unwritten entries' : List (GcEntry F), (∀ e ∈ unwritten, e.collections = 0) →
        entries'.Perm (entries ++ unwritten) →
          avgCollectionTimePerGen entries' flag = avgCollectionTimePerGen entries flag ∧
          collectionsRateFromEntries entries' flag = collectionsRateFromEntries entries flag) ∧
      ∀ (g : Fin 3) (entries' : List (GcEntry F)),
        entries'.filter (fun e => e.generation == (g : ℕ)) =
          entries.filter (fun e => e.generation == (g : ℕ)) →
        avgCollectionTimePerGen entries' flag g = avgCollectionTimePerGen entries flag g ∧
        collectionsRateFromEntries entries' flag g =
          collectionsRateFromEntries entries flag g) ∧
    ∀ (ofBits : BitVec 64 → ℚ) (dur : ℕ → ℚ) (entries : List (GcEntry (Secs ofBits))) (g : Fin 3),
      Cumulative dur (entriesByGeneration entries g) →
      (∃ a ∈ entriesByGeneration entries g, ∃ b ∈ entriesByGeneration entries g,
        a.collections ≠ b.collections) →
      ∃ lo hi : ℕ, lo < hi ∧
        (∃ e ∈ entriesByGeneration entries g, e.collections = lo) ∧
        (∃ e ∈ entriesByGeneration entries g, e.collections = hi) ∧
        (∀ e ∈ entriesByGeneration entries g, (lo : ℤ) ≤ e.collections ∧ e.collections ≤ hi) ∧
        avgCollectionTimePerGen entries true g =
          some ((∑ i ∈ Finset.Ioc lo hi, dur i) / (hi - lo : ℕ) : ℚ) := by
  refine ⟨fun F _ entries hc flag => ⟨?_, ?_⟩, ?_⟩
  · intro unwritten entries' hu hp
    have hg (g : Fin 3) := average_rate_congr hc (entriesByGeneration_perm hu hp g) flag
    exact ⟨funext fun g => (hg g).1.symm, funext fun g => (hg g).2.symm⟩
  · intro g entries' h
    have heq := average_rate_congr hc (.of_eq (entriesByGeneration_congr h)) flag
    exact ⟨heq.1.symm, heq.2.symm⟩
  · intro ofBits dur entries g hc htwo
    obtain ⟨lo, hi, hlt, hlo, hhi, hall, havg⟩ := generationAverage_of_cumulative hc htwo
    exact ⟨lo, hi, hlt, hlo, hhi, hall, congrArg some havg⟩

/-! ## A wrapped ring -/

/-- An Entry of generation 0 of a history in which Collection `i` takes `i` seconds. -/
def wrappedEntry (collections : ℤ) (duration : ℚ) : GcEntry (Secs fun _ => 0) where
  generation := 0
  index := 0
  byteOffset := 0
  startTs := 0
  stopTs := 0
  collections := collections
  collected := 0
  uncollectable := 0
  candidates := 0
  duration := duration
  heapSize := 0

/-- The newest Entry first, then an unwritten one, then the two before it. -/
def wrappedRing : List (GcEntry (Secs fun _ => 0)) :=
  [wrappedEntry 3 6, wrappedEntry 0 0, wrappedEntry 1 1, wrappedEntry 2 3]

theorem wrapped_average :
    avgCollectionTimePerGen wrappedRing true =
      avgCollectionTimePerGen [wrappedEntry 1 1, wrappedEntry 2 3, wrappedEntry 3 6] true ∧
    avgCollectionTimePerGen wrappedRing true 0 = some (5 / 2 : ℚ) := by
  constructor
  · have hconsistent : Consistent [wrappedEntry 1 1, wrappedEntry 2 3, wrappedEntry 3 6] := by
      simp [Consistent, wrappedEntry]
      exact ⟨rfl, rfl, rfl⟩
    exact ((averages_exact.1 _ _ hconsistent true).1 [wrappedEntry 0 0] wrappedRing
      (by simp [wrappedEntry])
      (show ([wrappedEntry 3 6, wrappedEntry 0 0] ++ [wrappedEntry 1 1, wrappedEntry 2 3]).Perm _ from
        List.perm_append_comm)).1
  · have hring : entriesByGeneration wrappedRing 0 =
        [wrappedEntry 3 6, wrappedEntry 1 1, wrappedEntry 2 3] := by
      simp [entriesByGeneration, wrappedRing, wrappedEntry]
    obtain ⟨lo, hi, -, ⟨e, he, hlo⟩, ⟨e', he', hhi⟩, hall, havg⟩ :=
      averages_exact.2 (fun _ => 0) (fun i => i) wrappedRing 0
        (by
          rw [hring]
          intro e he
          simp only [List.mem_cons, List.not_mem_nil, or_false] at he
          obtain rfl | rfl | rfl := he
          · exact ⟨3, rfl, show (6 : ℚ) = _ by norm_num [Finset.sum_Icc_succ_top]⟩
          · exact ⟨1, rfl, show (1 : ℚ) = _ by norm_num⟩
          · exact ⟨2, rfl, show (3 : ℚ) = _ by norm_num [Finset.sum_Icc_succ_top]⟩)
        ⟨wrappedEntry 3 6, by simp [hring], wrappedEntry 1 1, by simp [hring], by decide⟩
    rw [hring] at he he' hall
    simp only [List.mem_cons, List.not_mem_nil, or_false, forall_eq_or_imp, forall_eq,
      wrappedEntry] at he he' hall
    have h1 : lo = 1 := by
      obtain rfl | rfl | rfl := he <;> simp at hlo <;> omega
    have h3 : hi = 3 := by
      obtain rfl | rfl | rfl := he' <;> simp at hhi <;> omega
    subst h1 h3
    exact havg.trans (congrArg some (show (_ : ℚ) = 5 / 2 by
      norm_num [Finset.sum_Ioc_succ_top]))

end GcScope
