import GcScope.Monitor.History
import GcScope.Monitor.Statistics

/-!
# The summary against the Records returned

Every row of the summary is about one accumulator, and every accumulator was made from Records the
cursor returned. Without an eviction nothing else was returned, so the rows of a ring add up to its
Records.

* `Folds.account_counts`: the counts of an account, from the Records folded.
* `rowsOf`: the rows of one ring, over all blocks.
* **`rowsOf_perm`**: they are one for each accumulator the ring has had.
* **`summary_reconciles`**: their sums.
-/

set_option autoImplicit false

namespace GcScope

open Std (ExtTreeMap)
open MachineInt Ledger

/-! ## The account of what was folded -/

theorem length_le_of_pairwise {r : GcStat} {l : List GcStat}
    (h : (r :: l).Pairwise fun a b => a.collections < b.collections) :
    (l.length : ℤ) ≤
      ((r :: l).getLast (List.cons_ne_nil r l)).collections - r.collections := by
  induction l using List.reverseRecOn with
  | nil => simp
  | append_singleton l x ih =>
    rw [← List.cons_append] at h
    have ih := ih (List.pairwise_append.mp h).1
    have hx := (List.pairwise_append.mp h).2.2 _ (List.getLast_mem (List.cons_ne_nil r l)) x
      (List.mem_singleton_self x)
    simp only [← List.cons_append, List.getLast_append_singleton, List.length_append,
      List.length_singleton]
    push_cast
    omega

/-- A list of Records one accumulator is made from. -/
structure Folds (r : GcStat) (l : List GcStat) : Prop where
  increasing : (r :: l).Pairwise fun a b => a.collections < b.collections
  eligible : ∀ x ∈ r :: l, x.Eligible

/-- The rise of the counter over an accumulator, beside the number of its Records. -/
theorem Folds.rise {r : GcStat} {l : List GcStat} (h : Folds r l) :
    let d := ((r :: l).getLast (List.cons_ne_nil r l)).collections - r.collections
    (l.length : ℤ) ≤ d ∧ d + 1 < 2 ^ 63 := by
  intro d
  refine ⟨length_le_of_pairwise h.increasing, ?_⟩
  have h₁ := (h.eligible r List.mem_cons_self).2
  have h₂ := ((r :: l).getLast (List.cons_ne_nil r l)).inI64_collections
  rw [inI64_iff] at h₂
  omega

/-- **The counts of the account of an accumulator**: no word overflows on the way to them. -/
theorem Folds.account_counts {F : Type} [F64 F] {r : GcStat} {l : List GcStat} (h : Folds r l) :
    let a : LossAccount F := account (.ofRecords (r :: l))
    let rise := ((r :: l).getLast (List.cons_ne_nil r l)).collections - r.collections
    a.exactCollections = rise + (if r.hasTiming then 1 else 0) ∧
      a.observedCollections = (if r.hasTiming then (l.length : ℤ) + 1 else 0) ∧
      a.lostCollections = a.exactCollections - a.observedCollections ∧
      a.measuredPauseNs = if r.hasTiming then
        some (((r :: l).map pauseNs).foldl (fun s p => wrap64 (s + p)) 0) else none := by
  intro a rise
  obtain ⟨hlen, hmax⟩ := h.rise
  have hne : (RingObservation.ofRecords (r :: l) : RingObservation F).isEmpty = false := by
    rw [RingObservation.isEmpty_ofRecords]; rfl
  have hrise : wrap64 (((r :: l).getLast (List.cons_ne_nil r l)).collections - r.collections) =
      rise := wrap64_of_inI64 ((inI64_iff _).mpr ⟨by omega, by omega⟩)
  have ha : a = account (.ofRecords (r :: l)) := rfl
  rw [account, hne, if_neg Bool.false_ne_true, RingObservation.ofRecords_cons] at ha
  simp only [Lifetime.of, hrise] at ha
  cases ht : r.hasTiming with
  | false =>
    simp only [ht, Bool.false_eq_true, if_false, Bool.not_false, if_true, add_zero, sub_zero] at ha
    rw [wrap64_of_inI64 (x := rise) ((inI64_iff _).mpr ⟨by omega, by omega⟩)] at ha
    rw [ha]
    simp [wrap64_of_inI64 (x := rise) ((inI64_iff _).mpr ⟨by omega, by omega⟩), unobserved]
  | true =>
    simp only [ht, if_true, Bool.not_true, Bool.false_eq_true, if_false] at ha
    rw [wrap64_of_inI64 (x := rise + 1) ((inI64_iff _).mpr ⟨by omega, by omega⟩),
      wrap64_of_inI64 (x := ((l.length + 1 : ℕ) : ℤ))
        ((inI64_iff _).mpr ⟨by omega, by push_cast; omega⟩),
      wrap64_of_inI64 (x := rise + 1 - ((l.length + 1 : ℕ) : ℤ))
        ((inI64_iff _).mpr ⟨by push_cast; omega, by push_cast; omega⟩)] at ha
    rw [ha]
    cases r.has "duration" <;> simp

theorem pause_pos_of_timed {r : GcStat} (he : r.Eligible) (ht : r.hasTiming = true) :
    0 < r.pause := by
  have := he.1
  rw [GcStat.isComplete_of_hasTiming r ht, decide_eq_true_eq] at this
  exact Int.sub_pos.mpr this

theorem map_pauseNs_eq {l : List GcStat} (hpos : ∀ r ∈ l, 0 < r.pause)
    (hfit : InI64 (l.map GcStat.pause).sum) : l.map pauseNs = l.map GcStat.pause := by
  refine List.map_congr_left fun r hr => ?_
  have hle : r.pause ≤ (l.map GcStat.pause).sum := by
    refine List.single_le_sum (fun x hx => ?_) _ (List.mem_map_of_mem hr)
    obtain ⟨r', hr', rfl⟩ := List.mem_map.mp hx
    exact (hpos r' hr').le
  have hr₀ := hpos r hr
  have hin : InI64 r.pause := by
    rw [inI64_iff] at hfit ⊢
    omega
  rw [pauseNs, show r.tsStop - r.tsStart = r.pause from rfl, wrap64_of_inI64 hin,
    max_eq_left hr₀.le]

theorem folds_of_offers {offers : List GcStat} (hne : offers ≠ [])
    (he : ∀ r ∈ offers, r.Eligible) : ∃ r l, folded offers = r :: l ∧ Folds r l := by
  obtain ⟨r, l, hf⟩ := List.exists_cons_of_ne_nil (mt folded_eq_nil.mp hne)
  refine ⟨r, l, hf, hf ▸ pairwise_folded offers, fun x hx => he x ?_⟩
  exact (folded_sublist offers).subset (hf ▸ hx)

/-! ## The rows of a ring -/

section Rows

variable {F : Type} [F64 F]

/-- The rows of one ring, over all blocks. -/
def rowsOf (K : RingKey) (blocks : List (InterpreterSummary F)) : List (GenerationSummary F) :=
  blocks.flatMap fun b =>
    if b.pid = K.pid ∧ b.interpreter = K.interpreter then
      b.generations.filter fun g => g.generation = K.generation
    else []

/-- The row of an accumulator that was offered these Records. -/
def rowOf (K : RingKey) (offers : List GcStat) : GenerationSummary F :=
  generationSummary K (.ofRecords (folded offers))

/-- The rows of a ring are those of the accumulators under its key. -/
theorem rowsOf_covers {K : RingKey} {blocks : List (InterpreterSummary F)}
    {parts : List (List (TaggedObservation F))} (h : List.Forall₂ Covers blocks parts) :
    rowsOf K blocks = (parts.flatten.filter fun e => e.key = K).map TaggedObservation.row := by
  induction h with
  | nil => rfl
  | @cons b p blocks parts hb _ ih =>
    rw [rowsOf, List.flatMap_cons, ← rowsOf, ih, List.flatten_cons, List.filter_append,
      List.map_append]
    refine congrArg (· ++ _) ?_
    have hkey : ∀ e ∈ p, e.key = K ↔ (b.pid = K.pid ∧ b.interpreter = K.interpreter) ∧
        e.key.generation = K.generation := fun e he => by
      rw [← hb.pid e he, ← hb.interpreter e he, and_assoc]
      exact ⟨fun h => h ▸ ⟨rfl, rfl, rfl⟩, fun ⟨h₁, h₂, h₃⟩ => by
        cases K; obtain ⟨⟨_, _, _⟩, _, _⟩ := e; simp_all⟩
    split_ifs with hK
    · rw [hb.rows, List.filter_map]
      refine congrArg _ (List.filter_congr fun e he => ?_)
      simp only [Function.comp_apply, decide_eq_decide, hkey e he, hK, true_and]
      rfl
    · rw [List.filter_eq_nil_iff.mpr fun e he => by simp [hkey e he, hK]]
      rfl

/-- **The rows of a ring are one for each accumulator it has had.** -/
theorem rowsOf_perm {L : Ledger} {c : Cursor F} (h : L.Backs c) (K : RingKey) :
    (rowsOf K (summarize c)).Perm ((L.spansOf K).map (rowOf K)) := by
  rw [rowsOf_covers (summarize_covers c), Blocks.flatten_blocks]
  refine ((StableSort.stableSort_perm _ c.tagged).filter _).map _ |>.trans (List.Perm.of_eq ?_)
  rw [Cursor.tagged, List.filter_append, List.map_append, spansOf, List.map_append]
  refine congrArg₂ (· ++ ·) ?_ ?_
  · rw [h.retired, List.map_map, List.filter_map, List.map_map, List.map_map]
    refine List.map_congr_left fun e he => ?_
    have hK : e.1 = K := of_decide_eq_true (List.mem_filter.mp he).2
    rw [← hK]
    rfl
  · by_cases hl : L.live K = []
    · rw [hl, List.filter_eq_nil_iff.mpr]
      · rfl
      · intro e he hK
        obtain ⟨⟨K', o⟩, hm, rfl⟩ := List.mem_map.mp he
        obtain rfl : K' = K := of_decide_eq_true hK
        rw [ExtTreeMap.mem_toList_iff_getElem?_eq_some, h.ring_eq_none_iff.mpr hl] at hm
        cases hm
    · have hd : (c.rings.toList.map Prod.fst).Nodup := by
        rw [ExtTreeMap.map_fst_toList_eq_keys]; exact ExtTreeMap.nodup_keys
      have hm : (K, RingObservation.ofRecords (folded (L.live K))) ∈ c.rings.toList := by
        rw [ExtTreeMap.mem_toList_iff_getElem?_eq_some, h.rings]
        exact Cursor.heldAfter_eq_some_iff.mpr ⟨mt folded_eq_nil.mp hl, rfl⟩
      have hf := ListFacts.filter_eq_singleton hd hm
      rw [List.filter_map, List.filter_cons_of_pos (by simpa using hl)]
      exact congrArg (fun l => List.map TaggedObservation.row (List.map
        (fun e : RingKey × RingObservation F => (⟨e.1, ⊤, e.2⟩ : TaggedObservation F)) l)) hf

/-! ## The sums -/

/-- What is measured of Records of one build is the pauses of the timed ones. -/
theorem Folds.sum_measured {r : GcStat} {l : List GcStat} (h : Folds r l)
    (hone : ∀ x ∈ r :: l, x.hasTiming = r.hasTiming) (he : ∀ x ∈ r :: l, x.Eligible)
    (hfit : InI64 (((r :: l).filter GcStat.hasTiming).map GcStat.pause).sum) :
    ((account (.ofRecords (r :: l) : RingObservation F)).measuredPauseNs.toList).sum =
      (((r :: l).filter GcStat.hasTiming).map GcStat.pause).sum := by
  obtain ⟨-, -, -, hmeasured⟩ := h.account_counts (F := F)
  rw [hmeasured]
  cases ht : r.hasTiming with
  | false =>
    rw [List.filter_eq_nil_iff.mpr fun x hx => by simp [hone x hx, ht]]
    rfl
  | true =>
    have hfilter : (r :: l).filter GcStat.hasTiming = r :: l :=
      List.filter_eq_self.mpr fun x hx => by rw [hone x hx, ht]
    rw [hfilter] at hfit ⊢
    have hpause := map_pauseNs_eq (fun x hx => pause_pos_of_timed (he x hx)
      (by rw [hone x hx, ht])) hfit
    rw [if_pos rfl, hpause, foldl_wrap64_eq_sum hfit]
    exact List.sum_singleton

theorem rowOf_figures (K : RingKey) {offers : List GcStat} (hne : offers ≠ [])
    (he : ∀ r ∈ offers, r.Eligible) :
    let g : GenerationSummary F := rowOf K offers
    g.records = (folded offers).length ∧ g.collections = g.observed + g.lost ∧
      ((∀ r ∈ offers, r.hasTiming = true) → g.observed = g.records) ∧
      ((∀ r ∈ offers, r.hasTiming = false) → g.observed = 0) ∧
      ((∀ r ∈ offers, ∀ r' ∈ offers, r.hasTiming = r'.hasTiming) →
        InI64 (((folded offers).filter GcStat.hasTiming).map GcStat.pause).sum →
        (g.pauseMeasuredNs.toList).sum =
          (((folded offers).filter GcStat.hasTiming).map GcStat.pause).sum) := by
  obtain ⟨r, l, hf, hfolds⟩ := folds_of_offers hne he
  have hmem : ∀ x ∈ r :: l, x ∈ offers := fun x hx =>
    (folded_sublist offers).subset (hf ▸ hx)
  have hr : r ∈ offers := hmem r List.mem_cons_self
  obtain ⟨-, hobs, hlost, -⟩ := hfolds.account_counts (F := F)
  intro g
  have hg : g = generationSummary K (.ofRecords (r :: l)) := by rw [← hf]; rfl
  have hrecords : g.records = l.length + 1 := by
    rw [hg, generationSummary, RingObservation.ofRecords_cons]
  rw [hf]
  refine ⟨hrecords, ?_, fun ht => ?_, fun ht => ?_, fun hone hfit => ?_⟩
  · rw [hg]
    simp only [generationSummary, hlost]
    ring
  · rw [hrecords, hg]
    simp only [generationSummary, hobs, ht r hr, if_true]
    push_cast
    rfl
  · rw [hg]
    simp only [generationSummary, hobs, ht r hr, Bool.false_eq_true, if_false]
  · rw [hg]
    exact hfolds.sum_measured (fun x hx => hone x (hmem x hx) r hr) (fun x hx => he x (hmem x hx))
      hfit

theorem sum_measured {K : RingKey} {spans : List (List GcStat)}
    (h : ∀ offers ∈ spans, ((rowOf K offers : GenerationSummary F).pauseMeasuredNs.toList).sum =
      (((folded offers).filter GcStat.hasTiming).map GcStat.pause).sum) :
    (spans.filterMap fun offers => (rowOf K offers : GenerationSummary F).pauseMeasuredNs).sum =
      (((spans.flatMap folded).filter GcStat.hasTiming).map GcStat.pause).sum := by
  induction spans with
  | nil => rfl
  | cons offers spans ih =>
    have ih := ih fun o ho => h o (List.mem_cons_of_mem _ ho)
    have ho := h offers List.mem_cons_self
    rw [List.flatMap_cons, List.filter_append, List.map_append, List.sum_append, ← ih, ← ho,
      List.filterMap_cons]
    cases (rowOf K offers : GenerationSummary F).pauseMeasuredNs <;> simp

/-- **Without an eviction the rows of a ring count the Records returned of it.** -/
theorem sum_records_eq (K : RingKey) {ops : List CursorOp}
    (h : NeverEvicts F (ops.flatMap CursorOp.steps)) :
    ((rowsOf K (summarize (Mealy.exec Cursor.apply (Cursor.new : Cursor F) ops))).map
      fun g => g.records).sum = (Cursor.returnedOf K (Cursor.new : Cursor F) ops).length := by
  have hb := backs_ledger (F := F) (ops.flatMap CursorOp.steps)
  rw [Cursor.exec_flatMap_steps] at hb
  have hreturned : (Cursor.returnedOf K (Cursor.new : Cursor F) ops).Perm _ :=
    (folded_spansOf K h).symm ▸ Cursor.returnedOf_perm K _ ops
  rw [((rowsOf_perm hb K).map _).sum_eq, hreturned.length_eq, List.length_flatMap, List.map_map]
  refine congrArg _ (List.map_congr_left fun offers hm => ?_)
  exact (rowOf_figures (F := F) K (hb.span_offers hm).1
    fun r hr => ((hb.span_offers hm).2 r hr).2).1

/-- **The summary reconciles with what was returned.** After every history without an eviction, and
for every ring, the Records of its rows are as many as were returned of it; where each accumulator is
of one build and its pauses stay in range, the measured pauses add up to those of its timed Records.
In every row, Collections are observed or lost, and the observed are the Records of a timed build,
or none. -/
theorem summary_reconciles (K : RingKey) {ops : List CursorOp}
    (h : NeverEvicts F (ops.flatMap CursorOp.steps)) :
    let L := ledger F (ops.flatMap CursorOp.steps)
    let rows := rowsOf K (summarize (Mealy.exec Cursor.apply (Cursor.new : Cursor F) ops))
    let returned := Cursor.returnedOf K (Cursor.new : Cursor F) ops
    (rows.map fun g => g.records).sum = returned.length ∧
    ((∀ offers ∈ L.spansOf K, (∀ r ∈ offers, ∀ r' ∈ offers, r.hasTiming = r'.hasTiming) ∧
        InI64 (((folded offers).filter GcStat.hasTiming).map GcStat.pause).sum) →
      (rows.filterMap fun g => g.pauseMeasuredNs).sum =
        ((returned.filter GcStat.hasTiming).map GcStat.pause).sum) ∧
    ∀ g ∈ rows, g.collections = g.observed + g.lost ∧ ∃ offers ∈ L.spansOf K,
      g.records = (folded offers).length ∧
      ((∀ r ∈ offers, r.hasTiming = true) → g.observed = g.records) ∧
      ((∀ r ∈ offers, r.hasTiming = false) → g.observed = 0) := by
  intro L rows returned
  have hb := backs_ledger (F := F) (ops.flatMap CursorOp.steps)
  rw [Cursor.exec_flatMap_steps] at hb
  have hrows : rows.Perm ((L.spansOf K).map (rowOf K)) := rowsOf_perm hb K
  have hreturned : returned.Perm ((L.spansOf K).flatMap folded) :=
    (folded_spansOf K h).symm ▸ Cursor.returnedOf_perm K _ ops
  have hfig : ∀ offers ∈ L.spansOf K, _ := fun offers hm => rowOf_figures (F := F) K
    (hb.span_offers hm).1 fun r hr => ((hb.span_offers hm).2 r hr).2
  refine ⟨sum_records_eq K h, fun hfit => ?_, fun g hg => ?_⟩
  · rw [(hrows.filterMap _).sum_eq, ((hreturned.filter _).map _).sum_eq, List.filterMap_map]
    exact sum_measured fun offers hm =>
      (hfig offers hm).2.2.2.2 (hfit offers hm).1 (hfit offers hm).2
  · obtain ⟨offers, hm, rfl⟩ := List.mem_map.mp (hrows.mem_iff.mp hg)
    obtain ⟨hr, hc, ht, hn, -⟩ := hfig offers hm
    exact ⟨hc, offers, hm, hr, ht, hn⟩

end Rows

/-- A ring watched in two lives of its process, a Record of the first overwritten unread. -/
def twoLives : List CursorOp :=
  [.admitRecords 7 [Cursor.timedEntry 5 9 1], .admitRecords 7 [Cursor.timedEntry 20 26 3],
    .forget 7, .admitRecords 7 [Cursor.timedEntry 30 31 1]]

/-- Over the two lives the summary has the three Records, and their pauses. -/
theorem summary_reconciles_twoLives :
    ((rowsOf ⟨7, 0, 0⟩ (summarize (Mealy.exec Cursor.apply
      (Cursor.new : Cursor (Secs fun w => w.toInt)) twoLives))).filterMap
        fun g => g.pauseMeasuredNs).sum =
      (((Cursor.returnedOf ⟨7, 0, 0⟩ (Cursor.new : Cursor (Secs fun w => w.toInt))
        twoLives).filter GcStat.hasTiming).map GcStat.pause).sum :=
  have hsteps : NeverEvicts (Secs fun w => w.toInt) (twoLives.flatMap CursorOp.steps) := by
    decide +kernel
  (summary_reconciles (F := Secs fun w => w.toInt) ⟨7, 0, 0⟩ hsteps).2.1 (by decide +kernel)

end GcScope
