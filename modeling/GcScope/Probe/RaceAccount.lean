import GcScope.Probe.Complete

/-!
# The loss account of a racing reader

The account the monitor keeps of a generation, when the copies it reads fall between any two stores
of the writer, against the Collections that really ran.

* `seenOf`: the Collections of a generation that took time and that some copy held whole.
* `acceptedOf_polls`: the cursor folds one Record of each into the accumulator, in order.
* **`race_account`**: so the account counts what ran, what was read and what was lost.
-/

set_option autoImplicit false

namespace GcScope.Probe

open MachineInt HighWater StableSort

variable (fadd : BitVec 64 → BitVec 64 → BitVec 64) (d : Depths) (calls : List Call)

/-- The Collections of a generation that took time and that some copy held whole, in the order they
ran. -/
def seenOf (g : Fin 3) (ts : List ℕ) : List (Fin calls.length) :=
  (seenWhole fadd d calls ts).filter fun q => (calls.get q).gen = g

/-- How long a Collection took. -/
def pauseOf (q : Fin calls.length) : ℤ := (calls.get q).tsStop.toInt - (calls.get q).tsStart.toInt

variable {fadd d calls} {F : Type} [F64 F] {iid : ℤ} {g : Fin 3} {ts : List ℕ}

theorem gen_of_mem_seenOf {q : Fin calls.length} (hq : q ∈ seenOf fadd d calls g ts) :
    (calls.get q).gen = g := of_decide_eq_true (List.mem_filter.mp hq).2

theorem pairwise_rank_seenOf :
    ((seenOf fadd d calls g ts).map (rank calls)).Pairwise (· < ·) := by
  refine List.pairwise_map.mpr ?_
  refine (((List.pairwise_lt_finRange _).filter _).filter _).imp_of_mem fun ha hb hab => ?_
  exact rank_lt_of_lt ((gen_of_mem_seenOf ha).trans (gen_of_mem_seenOf hb).symm) hab

section Accepted

variable (hs : Sequential calls) (hl : calls.length < 2 ^ 63)

include hs hl in
/-- **The cursor folds one Record of each Collection seen into the ring's accumulator**, in order. -/
theorem acceptedOf_polls (pid : ℕ) (hts : ts.Pairwise (· ≤ ·)) :
    List.Forall₂ (Describes fadd calls iid)
      (Cursor.acceptedOf ⟨pid, iid, g⟩ (Cursor.new : Cursor F)
        ((polls fadd d calls pid iid ts).flatMap CursorOp.steps))
      (seenOf fadd d calls g ts) := by
  have hk := @keeps_polls fadd d calls F _ iid pid g ts
  have hperm := Cursor.returnedOf_perm (F := F) ⟨pid, iid, g⟩ Cursor.new
    (polls fadd d calls pid iid ts)
  have hret : Cursor.returnedOf (F := F) ⟨pid, iid, g⟩ Cursor.new (polls fadd d calls pid iid ts) =
      (Mealy.outs Cursor.apply (Cursor.new : Cursor F) (polls fadd d calls pid iid ts)).filter
        fun r => r.ring pid = ⟨pid, iid, g⟩ :=
    Cursor.returnedOf_polls (F := F) ⟨pid, iid, g⟩ Cursor.new _
  have hfilter : List.Forall₂ (Describes fadd calls iid)
      (Cursor.returnedOf (F := F) ⟨pid, iid, g⟩ Cursor.new (polls fadd d calls pid iid ts))
      (seenOf fadd d calls g ts) := by
    rw [hret]
    refine List.rel_filter (fun r q hd => ?_) (@outs_polls fadd d calls F _ hs hl pid iid ts hts)
    simp [hd.ring pid, Fin.ext_iff]
  -- both are in the order of their counters
  have hcol : (Cursor.returnedOf (F := F) ⟨pid, iid, g⟩ Cursor.new
      (polls fadd d calls pid iid ts)).Pairwise fun a b => a.collections < b.collections := by
    refine ListFacts.pairwise_of_forall₂ hfilter (List.pairwise_map.mp pairwise_rank_seenOf)
      fun ha hb hab => ?_
    rw [ha.collections hl, hb.collections hl]
    omega
  have hacc := Cursor.pairwise_acceptedOf (F := F) (K := ⟨pid, iid, g⟩) (c := Cursor.new)
    (by simp [Cursor.new]) hk
  have heq := (stableSort_eq_of_perm GcStat.collections hperm hacc).symm.trans
    (stableSort_of_pairwise GcStat.collections (hcol.imp le_of_lt))
  exact heq ▸ hfilter

theorem observation_polls (pid : ℕ) (ts : List ℕ) :
    (cursorAfter fadd d calls F pid iid ts).observation ⟨pid, iid, g⟩ =
      Cursor.heldAfter (Cursor.acceptedOf ⟨pid, iid, g⟩ (Cursor.new : Cursor F)
        ((polls fadd d calls pid iid ts).flatMap CursorOp.steps)) := by
  have hnone : (Cursor.new : Cursor F).rings[(⟨pid, iid, g⟩ : RingKey)]? = none := by
    simp [Cursor.new]
  have hk := @keeps_polls fadd d calls F _ iid pid g ts
  rw [Cursor.observation, cursorAfter, ← Cursor.exec_flatMap_steps, Cursor.ring_of_keeps hnone hk,
    ← Cursor.acceptedOf_of_keeps hnone hk]

/-- Pauses that do not overlap fit between the first start and the last stop. -/
theorem sum_pause_le {l : List (Fin calls.length)} {m B : ℤ} (hm : m ≤ B)
    (hstart : ∀ q ∈ l, m ≤ calls[q].tsStart.toInt) (hstop : ∀ q ∈ l, calls[q].tsStop.toInt ≤ B)
    (hl : l.Pairwise fun a b => calls[a].tsStop.toInt ≤ calls[b].tsStart.toInt) :
    (l.map (pauseOf calls)).sum ≤ B - m := by
  induction l generalizing m with
  | nil => simpa using hm
  | cons q l ih =>
    obtain ⟨hq, hl⟩ := List.pairwise_cons.mp hl
    have hrest := ih (hstop q List.mem_cons_self) hq
      (fun x hx => hstop x (List.mem_cons_of_mem q hx)) hl
    have hpause : pauseOf calls q = calls[q].tsStop.toInt - calls[q].tsStart.toInt := rfl
    have := hstart q List.mem_cons_self
    rw [List.map_cons, List.sum_cons, hpause]
    omega

include hs in
theorem stamps_nonneg (q : Fin calls.length) :
    0 ≤ (calls.get q).tsStart.toInt ∧ (calls.get q).tsStart.toInt ≤ (calls.get q).tsStop.toInt :=
  hs.1 _ (List.getElem_mem q.isLt)

include hs in
theorem inI64_sum_pause (ts : List ℕ) :
    InI64 ((seenOf fadd d calls g ts).map (pauseOf calls)).sum := by
  have hle : ((seenOf fadd d calls g ts).map (pauseOf calls)).sum ≤ 2 ^ 63 - 1 - 0 :=
    sum_pause_le (by norm_num) (fun q _ => (stamps_nonneg hs q).1)
      (fun q _ => Int.le_sub_one_of_lt BitVec.toInt_lt) ((pairwise_seenWhole hs ts).filter _)
  have hnonneg : 0 ≤ ((seenOf fadd d calls g ts).map (pauseOf calls)).sum := by
    refine List.sum_nonneg fun x hx => ?_
    obtain ⟨q, -, rfl⟩ := List.mem_map.mp hx
    exact Int.sub_nonneg.mpr (stamps_nonneg hs q).2
  exact (inI64_iff _).mpr ⟨by omega, by omega⟩

include hs in
theorem pauseNs_of_describes {r : GcStat} {q : Fin calls.length}
    (hd : Describes fadd calls iid r q) : pauseNs r = pauseOf calls q := by
  obtain ⟨h₀, hle⟩ := stamps_nonneg hs q
  have hlt := BitVec.toInt_lt (x := (calls.get q).tsStop)
  have hstart : r.tsStart = (calls.get q).tsStart.toInt := hd.tsStart
  have hstop : r.tsStop = (calls.get q).tsStop.toInt := hd.tsStop
  rw [pauseNs, hstart, hstop, pauseOf, wrap64_of_inI64 ((inI64_iff _).mpr ⟨by omega, by omega⟩)]
  exact max_eq_left (by omega)

end Accepted

theorem ofRecords_describes (hs : Sequential calls) (hl : calls.length < 2 ^ 63) {r : GcStat}
    {l : List GcStat} {q : Fin calls.length} {qs : List (Fin calls.length)}
    (h : List.Forall₂ (Describes fadd calls iid) (r :: l) (q :: qs))
    (hr : InI64 ((q :: qs).map (pauseOf calls)).sum) :
    let o : RingObservation F := .ofRecords (r :: l)
    o.isEmpty = false ∧ o.timed = true ∧ o.pricesPause = true ∧
      o.first.collections = rank calls q + 1 ∧
      o.last.collections = rank calls ((q :: qs).getLast (List.cons_ne_nil q qs)) + 1 ∧
      o.sampled = (q :: qs).length ∧ o.measuredPauseNs = ((q :: qs).map (pauseOf calls)).sum := by
  have hlen := h.length_eq
  have hd := (List.forall₂_cons.mp h).1
  have hlast : Describes fadd calls iid ((r :: l).getLast (List.cons_ne_nil r l))
      ((q :: qs).getLast (List.cons_ne_nil q qs)) := by
    rw [List.getLast_eq_getElem, List.getLast_eq_getElem]
    simp only [hlen]
    exact h.get _ _
  have hmap : (r :: l).map pauseNs = (q :: qs).map (pauseOf calls) := by
    rw [← List.forall₂_eq_eq_eq, List.forall₂_map_left_iff, List.forall₂_map_right_iff]
    exact h.imp fun _ _ hd => pauseNs_of_describes hs hd
  intro o
  have ho : o = RingObservation.ofRecords (r :: l) := rfl
  rw [RingObservation.ofRecords_cons, hmap, foldl_wrap64_eq_sum hr] at ho
  rw [ho]
  refine ⟨rfl, ?_, ?_, hd.collections hl, hlast.collections hl, ?_, rfl⟩
  · rw [hd]; rfl
  · rw [hd]; rfl
  · exact hlen

theorem card_filter_not_mem {l : List ℕ} {first last : ℕ} (hn : l.Nodup)
    (hl : ∀ k ∈ l, k ∈ Finset.Icc first last) :
    l.length + ((Finset.Icc first last).filter (· ∉ l)).card = (Finset.Icc first last).card := by
  have hmem : (Finset.Icc first last).filter (· ∈ l) = l.toFinset := by
    ext k
    rw [Finset.mem_filter, List.mem_toFinset]
    exact ⟨And.right, fun hk => ⟨hl k hk, hk⟩⟩
  rw [← List.toFinset_card_of_nodup hn, ← hmem]
  exact Finset.card_filter_add_card_filter_not _

/-- **The loss account of a racing reader.** Over any copies of the region taken between two stores,
the monitor knows nothing of a generation exactly when it saw none of its Collections: none that took
time was held whole by a copy. Otherwise its account says how many ran from the first one seen to the
last, how many of these were seen and how many were not, and what the ones seen paused. -/
theorem race_account (hs : Sequential calls) (hl : calls.length < 2 ^ 63) (pid : ℕ) (iid : ℤ)
    (g : Fin 3) (hts : ts.Pairwise (· ≤ ·)) :
    let seen := (seenOf fadd d calls g ts).map (rank calls)
    let observation := (cursorAfter fadd d calls F pid iid ts).observation ⟨pid, iid, g⟩
    (observation = none ↔ seen = []) ∧
    ∀ o, observation = some o → ∃ first ∈ seen, ∃ last ∈ seen,
      (∀ k ∈ seen, k ∈ Finset.Icc first last) ∧
      (account o).exactCollections = (Finset.Icc first last).card ∧
      (account o).observedCollections = seen.length ∧
      (account o).lostCollections = ((Finset.Icc first last).filter (· ∉ seen)).card ∧
      (account o).measuredPauseNs = some ((seenOf fadd d calls g ts).map (pauseOf calls)).sum := by
  intro seen observation
  have hacc := @acceptedOf_polls fadd d calls F _ iid g ts hs hl pid hts
  have hobs : observation = _ := observation_polls pid ts
  have hp : seen.Pairwise (· < ·) := pairwise_rank_seenOf
  have hr := @inI64_sum_pause fadd d calls g hs ts
  cases hq : seenOf fadd d calls g ts with
  | nil =>
    rw [hq, List.forall₂_nil_right_iff] at hacc
    rw [hacc, Cursor.heldAfter, if_pos rfl] at hobs
    have hseen : seen = [] := congrArg (List.map (rank calls)) hq
    exact ⟨iff_of_true hobs hseen, fun o ho => by rw [hobs] at ho; cases ho⟩
  | cons q qs =>
    rw [hq] at hacc hr
    obtain ⟨r, l, hd, htl, he⟩ := List.forall₂_cons_right_iff.mp hacc
    rw [he, Cursor.heldAfter, if_neg (List.cons_ne_nil r l)] at hobs
    have hseen : seen = rank calls q :: qs.map (rank calls) := congrArg (List.map (rank calls)) hq
    refine ⟨iff_of_false (by rw [hobs]; exact Option.some_ne_none _) (by rw [hseen]; simp), ?_⟩
    intro o ho
    rw [hobs] at ho
    obtain rfl := Option.some.inj ho
    obtain ⟨last, hlast⟩ : ∃ last, rank calls ((q :: qs).getLast (List.cons_ne_nil q qs)) = last :=
      ⟨_, rfl⟩
    have hgl : (rank calls q :: qs.map (rank calls)).getLast (List.cons_ne_nil _ _) = last := by
      rw [← hlast]
      exact List.getLast_map (l := q :: qs) (by simp)
    rw [hseen] at hp ⊢
    have hmem := History.mem_Icc_of_pairwise hp hgl
    obtain ⟨hne, ht, hprice, hfirst, hlast', hsampled, hmeasured⟩ :=
      ofRecords_describes (F := F) hs hl (List.Forall₂.cons hd htl) hr
    obtain ⟨hexact, hread, hlost, hpause, -⟩ := account_of_priced hne ht hprice
    have hfl : rank calls q ≤ last := (Finset.mem_Icc.mp (hmem _ List.mem_cons_self)).2
    have hin : InI64 ((last : ℤ) + 1) := by
      have := rank_lt ((q :: qs).getLast (List.cons_ne_nil q qs))
      exact (inI64_iff _).mpr ⟨by omega, by omega⟩
    have hcard := card_filter_not_mem (hp.imp ne_of_lt) hmem
    have hspan := Nat.card_Icc (rank calls q) last
    have hlen : (q :: qs).length = (rank calls q :: qs.map (rank calls)).length := by simp
    obtain ⟨hcount, hrest⟩ := History.wrap64_rest (n := (q :: qs).length) hfl hin (by omega)
    rw [hfirst, hlast', hlast, History.wrap64_span hfl hin] at hexact hlost
    rw [hsampled, hcount] at hread hlost
    have hZ : ((Finset.Icc (rank calls q) last).card : ℤ) = (last : ℤ) - rank calls q + 1 := by
      rw [hspan, Nat.cast_sub (hfl.trans last.le_succ)]
      push_cast
      ring
    refine ⟨rank calls q, List.mem_cons_self, last, hgl ▸ List.getLast_mem _, hmem,
      hexact.trans hZ.symm, hread.trans (by rw [hlen]), ?_, hpause.trans (congrArg some hmeasured)⟩
    rw [hlost, hrest, ← hZ, hlen, ← hcard]
    push_cast
    ring

/-- Three Collections through a ring of one, read after the first and after the last: two of the three
were seen, and they paused for eight nanoseconds. -/
theorem race_account_lapped : ∃ o,
    (cursorAfter (· + ·) ⟨1, 1, by decide, by decide, by decide⟩
      [⟨0, 5, 9, 0, 7, 0, 40⟩, ⟨0, 20, 23, 0, 3, 0, 38⟩, ⟨0, 30, 34, 0, 4, 0, 37⟩]
      (Secs fun _ => 0) 7 0 [10, 30]).observation ⟨7, 0, (0 : Fin 3)⟩ = some o ∧
    (account o).exactCollections = 3 ∧ (account o).observedCollections = 2 ∧
    (account o).lostCollections = 1 ∧ (account o).measuredPauseNs = some 8 := by
  have h := @race_account (· + ·) ⟨1, 1, by decide, by decide, by decide⟩
    [⟨0, 5, 9, 0, 7, 0, 40⟩, ⟨0, 20, 23, 0, 3, 0, 38⟩, ⟨0, 30, 34, 0, 4, 0, 37⟩]
    (Secs fun _ => 0) _ [10, 30] (by decide) (by decide) 7 0 0 (by decide)
  have hseen : (seenOf (· + ·) ⟨1, 1, by decide, by decide, by decide⟩
      [⟨0, 5, 9, 0, 7, 0, 40⟩, ⟨0, 20, 23, 0, 3, 0, 38⟩, ⟨0, 30, 34, 0, 4, 0, 37⟩] 0 [10, 30]) =
        [0, 2] := by decide
  have hranks : List.map (rank [⟨0, 5, 9, 0, 7, 0, 40⟩, ⟨0, 20, 23, 0, 3, 0, 38⟩,
      ⟨0, 30, 34, 0, 4, 0, 37⟩]) [0, 2] = [0, 2] := by decide
  simp only [hseen, hranks] at h
  obtain ⟨o, ho⟩ := Option.ne_none_iff_exists'.mp (h.1.not.mpr (by decide))
  obtain ⟨first, hfirst, last, hlast, hmem, hexact, hread, hlost, hpause⟩ := h.2 o ho
  -- the span of the two that were seen is the whole run
  have hspan : first = 0 ∧ last = 2 := by
    have h0 := Finset.mem_Icc.mp (hmem 0 (by decide))
    have h2 := Finset.mem_Icc.mp (hmem 2 (by decide))
    simp only [List.mem_cons, List.not_mem_nil, or_false] at hfirst hlast
    omega
  obtain ⟨rfl, rfl⟩ := hspan
  exact ⟨o, ho, hexact, hread, hlost, hpause⟩

end GcScope.Probe
