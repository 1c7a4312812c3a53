import GcScope.Lib.OverwritingRing
import GcScope.Monitor.Eviction
import GcScope.Monitor.Loss

/-!
# What the account says of the history that really ran

A watched program runs Collections one after another and publishes each in the next slot of a ring;
the monitor snapshots the ring now and then. The account reconstructs the history between the first
Record read and the last.

* `History`: what ran, and the Records that describe it.
* `offersOf_poll`: the cursor is offered exactly the Collections a snapshot still holds.
* **`acceptedOf_run`**: over a schedule of polls it accepts exactly those some snapshot held.
* **`account_reconstructs`**: the account of the accumulator that leaves.
-/

set_option autoImplicit false

namespace GcScope

open StableSort MachineInt HighWater OverwritingRing

/-- The pause of the Collection a Record describes. -/
def GcStat.pause (r : GcStat) : ℤ := r.tsStop - r.tsStart

/-- Everything one generation of one interpreter ran, and the ring it published it through.
Nothing is asked of the gaps between Collections. -/
structure History (ofBits : BitVec 64 → ℚ) where
  slots : ℕ
  slots_pos : 1 ≤ slots
  interpreter : ℤ
  generation : ℕ
  /-- How many Collections ran. -/
  length : ℕ
  /-- The Record of each Collection, counted from zero. -/
  record : ℕ → GcStat
  /-- What a slot reads as before a Collection was written into it. -/
  blank : ℕ → GcStat
  record_ring : ∀ k, (record k).interpreterId = interpreter ∧ (record k).generation = generation
  blank_ring : ∀ i, (blank i).interpreterId = interpreter ∧ (blank i).generation = generation
  blank_zero : ∀ i, (blank i).tsStart = 0 ∧ (blank i).tsStop = 0 ∧ (blank i).collections = 0
  timed : ∀ k < length, (record k).hasTiming = true
  priced : ∀ k < length, (record k).has "duration" = true
  stops : ∀ k < length, (record k).tsStart < (record k).tsStop
  counter : ∀ k < length, (record k).collections = k + 1
  cumulative : ∀ k < length, ((record k).duration : Secs ofBits) =
    (((∑ j ∈ Finset.range (k + 1), (record j).pause : ℤ) : ℚ) / 10 ^ 9 : ℚ)
  inRange : InI64 (∑ j ∈ Finset.range length, (record j).pause)

/-- An Entry of generation 0 that also publishes the cumulative pause. -/
def pricedEntry (start stop counter duration : ℕ) : GcStat :=
  ⟨0, 0, 0, LittleEndian.wordsBytes
    (([start, stop, counter, duration] : List ℕ).map (BitVec.ofNat 64)),
    ⟨32, [("ts_start", 0), ("ts_stop", 8), ("collections", 16), ("duration", 24)]⟩⟩

namespace History

variable {ofBits : BitVec 64 → ℚ} (h : History ofBits)

/-- The ring after `k` Collections. -/
def snapshot (k : ℕ) : List GcStat := ringAfter h.slots h.blank h.record k

/-- The Collections that some snapshot of a schedule held. -/
def Seen (schedule : List ℕ) (k : ℕ) : Prop := ∃ t ∈ schedule, Present h.slots t k

instance (schedule : List ℕ) (k : ℕ) : Decidable (h.Seen schedule k) := by
  unfold Seen; infer_instance

/-- The ring's key in the cursor. -/
def key (pid : ℕ) : RingKey := ⟨pid, h.interpreter, h.generation⟩

/-- A schedule of polls, as operations of the cursor. -/
def polls (pid : ℕ) (schedule : List ℕ) : List CursorOp :=
  schedule.map fun t => .admitRecords pid (h.snapshot t)

/-! ## What a poll offers -/

theorem ring_of_mem_snapshot (pid : ℕ) {t : ℕ} {r : GcStat} (hr : r ∈ h.snapshot t) :
    r.ring pid = h.key pid := by
  rw [snapshot, ringAfter_eq, List.mem_map] at hr
  obtain ⟨i, -, rfl⟩ := hr
  cases latestIn h.slots t i with
  | none => exact congrArg₂ (RingKey.mk pid) (h.blank_ring i).1 (h.blank_ring i).2
  | some j => exact congrArg₂ (RingKey.mk pid) (h.record_ring j).1 (h.record_ring j).2

theorem eligible_record {k : ℕ} (hk : k < h.length) : (h.record k).Eligible := by
  refine ⟨?_, by rw [h.counter k hk]; omega⟩
  rw [GcStat.isComplete_of_hasTiming _ (h.timed k hk), decide_eq_true_eq]
  exact h.stops k hk

theorem not_eligible_blank (i : ℕ) : ¬ (h.blank i).Eligible := fun he => by
  have := he.2
  rw [(h.blank_zero i).2.2] at this
  exact lt_irrefl _ this

/-- The Collections a snapshot holds, in order. -/
def held (t : ℕ) : List ℕ := (List.range t).filter fun k => Present h.slots t k

theorem mem_held {t k : ℕ} : k ∈ h.held t ↔ Present h.slots t k := by
  simp only [held, List.mem_filter, List.mem_range, decide_eq_true_eq, and_iff_right_iff_imp]
  exact fun hp => hp.1

theorem pairwise_collections {l : List ℕ} (hl : l.Pairwise (· < ·)) (hle : ∀ k ∈ l, k < h.length) :
    (l.map h.record).Pairwise fun a b => a.collections < b.collections := by
  refine List.pairwise_map.mpr (hl.imp_of_mem fun ha hb hab => ?_)
  rw [h.counter _ (hle _ ha), h.counter _ (hle _ hb)]
  omega

theorem pairwise_held (t : ℕ) : (h.held t).Pairwise (· < ·) := List.pairwise_lt_range.filter _

theorem eligible_snapshot_perm {t : ℕ} (ht : t ≤ h.length) :
    ((h.snapshot t).filter fun r => r.Eligible).Perm ((h.held t).map h.record) := by
  have hfm : (h.snapshot t).filter (fun r => r.Eligible) =
      ((List.range h.slots).filterMap (latestIn h.slots t)).map h.record := by
    rw [snapshot, ringAfter_eq, List.filter_map, List.map_filterMap]
    induction List.range h.slots with
    | nil => rfl
    | cons i l ih =>
      rw [List.filter_cons, List.filterMap_cons]
      cases hi : latestIn h.slots t i with
      | none => simpa [hi, h.not_eligible_blank i] using ih
      | some j =>
        have := h.eligible_record ((latestIn_eq_some_iff.mp hi).2.1.trans_le ht)
        simpa [hi, this] using ih
  rw [hfm]
  exact (filterMap_latestIn_perm h.slots t).map _

/-- **The cursor is offered exactly the Collections a snapshot still holds**, oldest first. -/
theorem offersOf_poll (pid : ℕ) {t : ℕ} (ht : t ≤ h.length) :
    offersOf (h.key pid) (CursorOp.admitRecords pid (h.snapshot t)).steps = (h.held t).map h.record := by
  have hall : ∀ r ∈ sortCandidates (h.snapshot t), r.ring pid = h.key pid := fun r hr =>
    h.ring_of_mem_snapshot pid ((mem_stableSort _).mp hr)
  have hcap : ∀ k ∈ h.held t, k < h.length := fun k hk => ((h.mem_held.mp hk).1).trans_le ht
  refine (Cursor.offersOf_admitRecords (h.key pid) (h.snapshot t)).trans ?_
  rw [List.filter_congr (q := fun r => decide r.Eligible) fun r hr => by
    rw [show (h.key pid).pid = pid from rfl, hall r hr]; simp, sortCandidates, filter_stableSort]
  refine stableSort_eq_of_perm _ (h.eligible_snapshot_perm ht) (List.pairwise_map.mpr ?_)
  refine (List.pairwise_map.mp (h.pairwise_collections (h.pairwise_held t) hcap)).imp fun hab => ?_
  rw [(h.record_ring _).1, (h.record_ring _).1, (h.record_ring _).2, (h.record_ring _).2]
  exact Prod.Lex.toLex_lt_toLex.mpr (Or.inr ⟨rfl, Prod.Lex.toLex_lt_toLex.mpr (Or.inr ⟨rfl, hab⟩)⟩)

/-! ## What a schedule of polls accepts -/

/-- The last instant of a schedule. -/
def lastInstant (schedule : List ℕ) : ℕ := schedule.getLast?.getD 0

/-- The Collections some snapshot of the schedule held, in order. -/
def seen (schedule : List ℕ) : List ℕ :=
  (List.range (lastInstant schedule)).filter fun k => h.Seen schedule k

theorem le_lastInstant {schedule : List ℕ} (hs : schedule.Pairwise (· ≤ ·)) {t : ℕ}
    (ht : t ∈ schedule) : t ≤ lastInstant schedule := by
  rcases List.eq_nil_or_concat schedule with rfl | ⟨l, u, rfl⟩
  · cases ht
  · rw [List.concat_eq_append] at hs ht ⊢
    rw [lastInstant, List.getLast?_concat, Option.getD_some]
    rcases List.mem_append.mp ht with ht | ht
    · exact (List.pairwise_append.mp hs).2.2 t ht u (List.mem_singleton_self u)
    · exact (List.mem_singleton.mp ht).le

theorem mem_seen {schedule : List ℕ} (hs : schedule.Pairwise (· ≤ ·)) {k : ℕ} :
    k ∈ h.seen schedule ↔ h.Seen schedule k := by
  simp only [seen, List.mem_filter, List.mem_range, decide_eq_true_eq, and_iff_right_iff_imp]
  rintro ⟨t, ht, hk, -⟩
  exact hk.trans_le (le_lastInstant hs ht)

theorem pairwise_seen (schedule : List ℕ) : (h.seen schedule).Pairwise (· < ·) :=
  List.pairwise_lt_range.filter _

theorem lastInstant_le {schedule : List ℕ} {t : ℕ} (hs : (schedule ++ [t]).Pairwise (· ≤ ·)) :
    lastInstant schedule ≤ t := by
  rcases List.eq_nil_or_concat schedule with rfl | ⟨l, u, rfl⟩
  · exact Nat.zero_le t
  · simpa [lastInstant] using (List.pairwise_append.mp hs).2.2 u (by simp) t (by simp)

/-- What a snapshot holds of the time before the last one, the last one held too. -/
theorem seen_of_present {schedule : List ℕ} {t k : ℕ} (hs : (schedule ++ [t]).Pairwise (· ≤ ·))
    (hk : k < lastInstant schedule) (hp : Present h.slots t k) : h.Seen schedule k := by
  refine ⟨lastInstant schedule, ?_, hk, (lastInstant_le hs).trans hp.2⟩
  rcases List.eq_nil_or_concat schedule with rfl | ⟨l, u, rfl⟩
  · exact absurd hk (Nat.not_lt_zero k)
  · simp [lastInstant]

theorem lt_lastInstant {schedule : List ℕ} (hs : schedule.Pairwise (· ≤ ·)) {k : ℕ}
    (hk : h.Seen schedule k) : k < lastInstant schedule :=
  List.mem_range.mp (List.mem_of_mem_filter ((h.mem_seen hs).mpr hk))

/-- A poll adds to what was seen the Collections it holds that ran since the poll before. -/
theorem seen_concat {schedule : List ℕ} {t : ℕ} (hs : (schedule ++ [t]).Pairwise (· ≤ ·)) :
    h.seen (schedule ++ [t]) =
      h.seen schedule ++ (h.held t).filter fun k => k ∉ h.seen schedule := by
  have hs' := (List.pairwise_append.mp hs).1
  have hsplit : List.range t = List.range (lastInstant schedule) ++
      List.range' (lastInstant schedule) (t - lastInstant schedule) := by
    have := List.range'_append_1 (s := 0) (m := lastInstant schedule)
      (n := t - lastInstant schedule)
    rwa [Nat.zero_add, Nat.add_sub_cancel' (lastInstant_le hs), ← List.range_eq_range',
      ← List.range_eq_range', eq_comm] at this
  have hseen : ∀ k, h.Seen (schedule ++ [t]) k ↔ h.Seen schedule k ∨ Present h.slots t k := by
    intro k
    simp only [Seen, List.mem_append, List.mem_singleton, or_and_right, exists_or, exists_eq_left]
  rw [seen, show lastInstant (schedule ++ [t]) = t by simp [lastInstant], held, hsplit,
    List.filter_append, List.filter_append, List.filter_append, List.filter_filter,
    List.filter_filter]
  have hleft : (List.range (lastInstant schedule)).filter (fun k => h.Seen (schedule ++ [t]) k) =
      h.seen schedule := List.filter_congr fun k hk => by
    have := h.seen_of_present hs (List.mem_range.mp hk)
    simp only [hseen, decide_eq_decide]
    tauto
  have hmid : (List.range (lastInstant schedule)).filter
      (fun k => decide (k ∉ h.seen schedule) && decide (Present h.slots t k)) = [] :=
    List.filter_eq_nil_iff.mpr fun k hk => by
      have := h.seen_of_present hs (List.mem_range.mp hk)
      simp only [h.mem_seen hs', Bool.and_eq_true, decide_eq_true_eq]
      tauto
  rw [hleft, hmid, List.nil_append]
  refine congrArg _ (List.filter_congr fun k hk => ?_)
  have : ¬ h.Seen schedule k := fun hk' =>
    absurd (h.lt_lastInstant hs' hk') (not_lt.mpr (List.mem_range'_1.mp hk).1)
  simp only [hseen, h.mem_seen hs']
  simp [this]

theorem flatMap_steps_concat (pid : ℕ) (schedule : List ℕ) (t : ℕ) :
    (h.polls pid (schedule ++ [t])).flatMap CursorOp.steps =
      (h.polls pid schedule).flatMap CursorOp.steps ++
        (CursorOp.admitRecords pid (h.snapshot t)).steps := by
  simp [polls]

theorem keeps_polls {F : Type} [F64 F] (pid : ℕ) (schedule : List ℕ) :
    (Cursor.new : Cursor F).Keeps (h.key pid) ((h.polls pid schedule).flatMap CursorOp.steps) := by
  have hnames : ∀ t, names (h.snapshot t) = {h.interpreter} := fun t => by
    ext i
    rw [mem_names, Finset.mem_singleton]
    constructor
    · rintro ⟨r, hr, rfl⟩
      exact congrArg RingKey.interpreter (h.ring_of_mem_snapshot pid hr)
    · rintro rfl
      have hpos : 0 < (h.snapshot t).length := by
        rw [snapshot, length_ringAfter]; exact h.slots_pos
      exact ⟨_, List.getElem_mem hpos, congrArg RingKey.interpreter
        (h.ring_of_mem_snapshot pid (List.getElem_mem hpos))⟩
  have hpolls : h.polls pid schedule = (schedule.map h.snapshot).map (CursorOp.admitRecords pid) :=
    (List.map_map ..).symm
  rw [hpolls]
  refine Cursor.keeps_of_names_eq (fun records hr => ?_) _
  obtain ⟨t, -, rfl⟩ := List.mem_map.mp hr
  exact hnames t

/-- **Over a schedule of polls the cursor accepts exactly the Collections some snapshot held.** -/
theorem acceptedOf_run {F : Type} [F64 F] (pid : ℕ) {schedule : List ℕ}
    (hs : schedule.Pairwise (· ≤ ·)) (hle : ∀ t ∈ schedule, t ≤ h.length) :
    Cursor.acceptedOf (h.key pid) (Cursor.new : Cursor F)
      ((h.polls pid schedule).flatMap CursorOp.steps) = (h.seen schedule).map h.record := by
  induction schedule using List.reverseRecOn with
  | nil => rfl
  | append_singleton schedule t ih =>
    have hnone : (Cursor.new : Cursor F).rings[h.key pid]? = none := by simp [Cursor.new]
    have hk := h.keeps_polls (F := F) pid (schedule ++ [t])
    have ht : t ≤ h.length := hle t (by simp)
    have ih := ih (List.pairwise_append.mp hs).1 fun u hu => hle u (List.mem_append_left _ hu)
    have hlen : ∀ k ∈ h.seen schedule, k < h.length := fun k hk => by
      obtain ⟨u, hu, hp⟩ := (h.mem_seen (List.pairwise_append.mp hs).1).mp hk
      exact hp.1.trans_le (hle u (List.mem_append_left _ hu))
    rw [flatMap_steps_concat] at hk ⊢
    have hk' := hk.of_append
    rw [Cursor.acceptedOf_of_keeps hnone hk, offersOf, List.flatMap_append, climb_append]
    rw [Cursor.acceptedOf_of_keeps hnone hk'] at ih
    rw [show List.flatMap _ ((h.polls pid schedule).flatMap CursorOp.steps) =
      offersOf (h.key pid) ((h.polls pid schedule).flatMap CursorOp.steps) from rfl,
      show List.flatMap _ (CursorOp.admitRecords pid (h.snapshot t)).steps =
        offersOf (h.key pid) (CursorOp.admitRecords pid (h.snapshot t)).steps from rfl, ih,
      h.offersOf_poll pid ht, h.seen_concat hs, List.map_append, climb_of_pairwise _ _
        (h.pairwise_collections (h.pairwise_held t) fun k hk => (h.mem_held.mp hk).1.trans_le ht),
      List.filter_map]
    refine congrArg _ (congrArg _ (List.filter_congr fun k hk => ?_))
    have hkt := h.mem_held.mp hk
    have hs' := (List.pairwise_append.mp hs).1
    simp only [Function.comp_apply, decide_eq_decide]
    rw [← mark_climb, ih, mark_bot_lt_iff,
      h.counter k (hkt.1.trans_le ht)]
    constructor
    · intro hall hmem
      have := hall _ (List.mem_map_of_mem hmem)
      rw [h.counter k (hlen k hmem)] at this
      exact lt_irrefl _ this
    · -- an unseen Collection of this snapshot ran after the last instant
      intro hmem x hx
      obtain ⟨j, hj, rfl⟩ := List.mem_map.mp hx
      have hj' := h.lt_lastInstant hs' ((h.mem_seen hs').mp hj)
      have hk' : lastInstant schedule ≤ k := not_lt.mp fun hlt =>
        hmem ((h.mem_seen hs').mpr (h.seen_of_present hs hlt hkt))
      rw [h.counter j (hlen j hj)]
      omega

/-! ## The account -/

theorem pause_pos {k : ℕ} (hk : k < h.length) : 0 < (h.record k).pause :=
  Int.sub_pos.mpr (h.stops k hk)

theorem inI64_sum {S : Finset ℕ} (hS : ∀ k ∈ S, k < h.length) :
    0 ≤ ∑ k ∈ S, (h.record k).pause ∧ InI64 (∑ k ∈ S, (h.record k).pause) := by
  have h₀ : 0 ≤ ∑ k ∈ S, (h.record k).pause :=
    Finset.sum_nonneg fun k hk => (h.pause_pos (hS k hk)).le
  have hle : ∑ k ∈ S, (h.record k).pause ≤ ∑ k ∈ Finset.range h.length, (h.record k).pause :=
    Finset.sum_le_sum_of_subset_of_nonneg (fun k hk => Finset.mem_range.mpr (hS k hk))
      fun k hk _ => (h.pause_pos (Finset.mem_range.mp hk)).le
  have hr := (inI64_iff _).mp h.inRange
  exact ⟨h₀, (inI64_iff _).mpr ⟨by omega, by omega⟩⟩

theorem pauseNs_record {k : ℕ} (hk : k < h.length) : pauseNs (h.record k) = (h.record k).pause := by
  have hp := h.inI64_sum (S := {k}) (by simpa using hk)
  rw [Finset.sum_singleton] at hp
  rw [pauseNs, show (h.record k).tsStop - (h.record k).tsStart = (h.record k).pause from rfl,
    wrap64_of_inI64 hp.2, max_eq_left hp.1]

theorem foldl_pauseNs {l : List ℕ} (hn : l.Nodup) (hl : ∀ k ∈ l, k < h.length) :
    ((l.map h.record).map pauseNs).foldl (fun s p => wrap64 (s + p)) 0 =
      ∑ k ∈ l.toFinset, (h.record k).pause := by
  have hmap : (l.map h.record).map pauseNs = l.map fun k => (h.record k).pause := by
    rw [List.map_map]
    exact List.map_congr_left fun k hk => h.pauseNs_record (hl k hk)
  have hsum : (l.map fun k => (h.record k).pause).sum = ∑ k ∈ l.toFinset, (h.record k).pause :=
    (List.sum_toFinset _ hn).symm
  have hr := h.inI64_sum (S := l.toFinset) (by simpa using hl)
  rw [hmap, foldl_wrap64_eq_sum (hsum ▸ hr.2), hsum]

end History

theorem secsToNs_exact (ofBits : BitVec 64 → ℚ) {n : ℤ} (h₀ : 0 ≤ n) (hn : InI64 n) :
    secsToNs (F := Secs ofBits) ((n : ℚ) / 10 ^ 9 : ℚ) = n := by
  have hn₀ : (0 : ℚ) ≤ n := by exact_mod_cast h₀
  have hmul : F64.mul (F := Secs ofBits) ((n : ℚ) / 10 ^ 9 : ℚ) (F64.ofInt 1000000000) =
      (n : ℚ) := by
    change (n : ℚ) / 10 ^ 9 * ((1000000000 : ℤ) : ℚ) = n
    push_cast
    ring
  have hround : F64.round (F := Secs ofBits) (n : ℚ) = (n : ℚ) := by
    refine congrArg (Int.cast : ℤ → ℚ) ((if_pos hn₀).trans ?_)
    rw [Int.floor_eq_iff]
    constructor <;> linarith
  have hto : F64.toI64 (F := Secs ofBits) (n : ℚ) = clamp64 n :=
    congrArg clamp64 ((if_pos hn₀).trans (Int.floor_intCast n))
  calc secsToNs (F := Secs ofBits) ((n : ℚ) / 10 ^ 9 : ℚ)
      = F64.toI64 (F64.round (F64.mul (F := Secs ofBits) ((n : ℚ) / 10 ^ 9 : ℚ)
          (F64.ofInt 1000000000))) := rfl
    _ = n := by rw [hmul, hround, hto, clamp64_of_inI64 hn]

namespace History

variable {ofBits : BitVec 64 → ℚ} (h : History ofBits)

/-- The Collections from one to another, both included, that some snapshot held. -/
def seenIn (schedule : List ℕ) (first last : ℕ) : Finset ℕ :=
  (Finset.Icc first last).filter fun k => h.Seen schedule k

/-- Those that were overwritten and that no snapshot held. -/
def overwrittenIn (schedule : List ℕ) (first last : ℕ) : Finset ℕ :=
  (Finset.Icc first last).filter fun k =>
    (∃ t ∈ schedule, k + h.slots < t) ∧ ¬ h.Seen schedule k

section Account

variable {first last : ℕ}

/-- The cumulative totals at the two ends, and the first pause, give the pause of the span. -/
theorem sum_Icc (hle : first ≤ last) : ∑ j ∈ Finset.range (last + 1), (h.record j).pause -
    ∑ j ∈ Finset.range (first + 1), (h.record j).pause + (h.record first).pause =
      ∑ k ∈ Finset.Icc first last, (h.record k).pause := by
  rw [Finset.sum_range_succ _ first, ← Finset.Ico_succ_right_eq_Icc, Order.succ_eq_add_one,
    Finset.sum_Ico_eq_sub _ (by omega)]
  ring

theorem delta_duration (hle : first ≤ last) (hlast : last < h.length) :
    secsToNs (F64.sub ((h.record last).duration : Secs ofBits) (h.record first).duration) =
      ∑ k ∈ Finset.Icc first last, (h.record k).pause - (h.record first).pause := by
  have hd : (∑ j ∈ Finset.range (last + 1), (h.record j).pause) -
      ∑ j ∈ Finset.range (first + 1), (h.record j).pause =
        ∑ k ∈ Finset.Ico (first + 1) (last + 1), (h.record k).pause :=
    (Finset.sum_Ico_eq_sub _ (by omega)).symm
  have hr := h.inI64_sum (S := Finset.Ico (first + 1) (last + 1)) fun k hk => by
    rw [Finset.mem_Ico] at hk; omega
  have hsub : F64.sub ((h.record last).duration : Secs ofBits) (h.record first).duration =
      ((∑ k ∈ Finset.Ico (first + 1) (last + 1), (h.record k).pause : ℤ) / 10 ^ 9 : ℚ) := by
    rw [h.cumulative last hlast, h.cumulative first (by omega), ← hd, Int.cast_sub, sub_div]
    rfl
  rw [hsub, secsToNs_exact ofBits hr.1 hr.2, ← h.sum_Icc hle, ← hd]
  ring

theorem mem_Icc_of_pairwise {rest : List ℕ} (hp : (first :: rest).Pairwise (· < ·))
    (hlast : (first :: rest).getLast (List.cons_ne_nil _ _) = last) :
    ∀ k ∈ first :: rest, k ∈ Finset.Icc first last := by
  intro k hk
  rw [Finset.mem_Icc]
  constructor
  · rcases List.mem_cons.mp hk with rfl | hk
    · exact le_rfl
    · exact (List.rel_of_pairwise_cons hp hk).le
  · have he := List.dropLast_concat_getLast (List.cons_ne_nil first rest)
    rw [hlast] at he
    rw [← he] at hp hk
    rcases List.mem_append.mp hk with hk | hk
    · exact ((List.pairwise_append.mp hp).2.2 k hk last (List.mem_singleton_self _)).le
    · exact (List.mem_singleton.mp hk).le

theorem wrap64_span (hfl : first ≤ last) (hr : InI64 ((last : ℤ) + 1)) :
    wrap64 (wrap64 ((last : ℤ) + 1 - (first + 1)) + 1) = (last : ℤ) - first + 1 := by
  rw [inI64_iff] at hr
  have hin : InI64 ((last : ℤ) - first) := (inI64_iff _).mpr ⟨by omega, by omega⟩
  rw [add_sub_add_right_eq_sub, wrap64_of_inI64 hin]
  exact wrap64_of_inI64 ((inI64_iff _).mpr ⟨by omega, by omega⟩)

theorem wrap64_rest {n : ℕ} (hfl : first ≤ last) (hr : InI64 ((last : ℤ) + 1))
    (hn : n ≤ last + 1 - first) :
    wrap64 (n : ℤ) = n ∧ wrap64 ((last : ℤ) - first + 1 - n) = (last : ℤ) - first + 1 - n := by
  rw [inI64_iff] at hr
  exact ⟨wrap64_of_inI64 ((inI64_iff _).mpr ⟨by omega, by omega⟩),
    wrap64_of_inI64 ((inI64_iff _).mpr ⟨by omega, by omega⟩)⟩

/-- What the accumulator holds that an increasing list of Collections leaves. -/
theorem ofRecords_history {rest : List ℕ} (hp : (first :: rest).Pairwise (· < ·))
    (hlast : (first :: rest).getLast (List.cons_ne_nil _ _) = last) (hl : last < h.length) :
    let o : RingObservation (Secs ofBits) := .ofRecords ((first :: rest).map h.record)
    o.isEmpty = false ∧ o.timed = true ∧ o.pricesPause = true ∧
      o.first = Lifetime.of (h.record first) ∧ o.last = Lifetime.of (h.record last) ∧
      o.firstPauseNs = (h.record first).pause ∧ o.sampled = (first :: rest).length ∧
      o.measuredPauseNs = ∑ k ∈ (first :: rest).toFinset, (h.record k).pause := by
  have hlt : ∀ k ∈ first :: rest, k < h.length := fun k hk =>
    (Finset.mem_Icc.mp (mem_Icc_of_pairwise hp hlast k hk)).2.trans_lt hl
  have hfirst := hlt first List.mem_cons_self
  have hgl : (h.record first :: rest.map h.record).getLast (List.cons_ne_nil _ _) =
      h.record last := by
    rw [← hlast]
    exact List.getLast_map (l := first :: rest) (by simp)
  have hmeasured := h.foldl_pauseNs (hp.imp ne_of_lt) hlt
  intro o
  have ho : o = RingObservation.ofRecords ((first :: rest).map h.record) := rfl
  rw [List.map_cons, RingObservation.ofRecords_cons] at ho
  rw [ho]
  refine ⟨rfl, h.timed first hfirst, h.priced first hfirst, rfl, ?_, h.pauseNs_record hfirst, ?_,
    hmeasured⟩
  · exact congrArg Lifetime.of hgl
  · simp

/-- **The account of the accumulator that an increasing list of Collections leaves.** -/
theorem account_ofRecords {rest : List ℕ} (hp : (first :: rest).Pairwise (· < ·))
    (hlast : (first :: rest).getLast (List.cons_ne_nil _ _) = last) (hl : last < h.length) :
    let a : LossAccount (Secs ofBits) := account (.ofRecords ((first :: rest).map h.record))
    a.exactCollections = (last : ℤ) - first + 1 ∧
      a.observedCollections = (first :: rest).length ∧
      a.lostCollections = (last : ℤ) - first + 1 - (first :: rest).length ∧
      a.exactPauseNs = some (∑ k ∈ Finset.Icc first last, (h.record k).pause) ∧
      a.measuredPauseNs = some (∑ k ∈ (first :: rest).toFinset, (h.record k).pause) := by
  have hmem := mem_Icc_of_pairwise hp hlast
  have hfl : first ≤ last := (Finset.mem_Icc.mp (hmem first List.mem_cons_self)).2
  have hsub : (first :: rest).toFinset ⊆ Finset.Icc first last := fun k hk =>
    hmem k (List.mem_toFinset.mp hk)
  have hlen : (first :: rest).length ≤ last + 1 - first := by
    rw [← List.toFinset_card_of_nodup (hp.imp ne_of_lt), ← Nat.card_Icc]
    exact Finset.card_le_card hsub
  have hsum := h.inI64_sum (S := Finset.Icc first last) fun k hk =>
    (Finset.mem_Icc.mp hk).2.trans_lt hl
  have hle : ∑ k ∈ (first :: rest).toFinset, (h.record k).pause ≤
      ∑ k ∈ Finset.Icc first last, (h.record k).pause :=
    Finset.sum_le_sum_of_subset_of_nonneg hsub fun k hk _ =>
      (h.pause_pos ((Finset.mem_Icc.mp hk).2.trans_lt hl)).le
  obtain ⟨hne, ht, hd, hfirst, hlast', hpause, hsampled, hmeasured⟩ :=
    h.ofRecords_history hp hlast hl
  intro a
  obtain ⟨he, ho, hlost, hm, hx⟩ := account_of_priced hne ht hd
  simp only [hfirst, hlast', hpause, hsampled, hmeasured, Lifetime.of, h.counter last hl,
    h.counter first (hfl.trans_lt hl)] at he ho hlost hm hx
  have hr : InI64 ((last : ℤ) + 1) := h.counter last hl ▸ (h.record last).inI64_collections
  obtain ⟨hcount, hrest⟩ := wrap64_rest hfl hr hlen
  rw [wrap64_span hfl hr] at he hlost
  rw [hcount] at ho hlost
  refine ⟨he, ho, hlost.trans hrest, ?_, hm⟩
  refine hx.trans (congrArg some ?_)
  have hfinite : F64.isFinite (F64.sub ((h.record last).duration : Secs ofBits)
    (h.record first).duration) = true := rfl
  rw [if_pos hfinite, h.delta_duration hfl hl,
    saturatingAdd64_of_inI64 (by rw [sub_add_cancel]; exact hsum.2), sub_add_cancel,
    max_eq_left hle]

end Account

/-- Up to the time of a poll, what no snapshot held was overwritten. -/
theorem card_overwrittenIn {schedule : List ℕ} {first last u : ℕ} (hu : u ∈ schedule)
    (hl : last < u) : (h.seenIn schedule first last).card +
      (h.overwrittenIn schedule first last).card = (Finset.Icc first last).card := by
  have hover : h.overwrittenIn schedule first last =
      (Finset.Icc first last).filter fun k => ¬ h.Seen schedule k := by
    refine Finset.filter_congr fun k hk => and_iff_right_of_imp fun hns => ⟨u, hu, ?_⟩
    by_contra hnot
    exact hns ⟨u, hu, (Finset.mem_Icc.mp hk).2.trans_lt hl, not_lt.mp hnot⟩
  rw [hover]
  exact Finset.card_filter_add_card_filter_not _

theorem observation_run {F : Type} [F64 F] (pid : ℕ) {schedule : List ℕ}
    (hs : schedule.Pairwise (· ≤ ·)) (hle : ∀ t ∈ schedule, t ≤ h.length) :
    (Mealy.exec Cursor.apply (Cursor.new : Cursor F) (h.polls pid schedule)).observation
      (h.key pid) = Cursor.heldAfter ((h.seen schedule).map h.record) := by
  have hnone : (Cursor.new : Cursor F).rings[h.key pid]? = none := by simp [Cursor.new]
  have hk := h.keeps_polls (F := F) pid schedule
  rw [Cursor.observation, ← Cursor.exec_flatMap_steps, Cursor.ring_of_keeps hnone hk,
    ← Cursor.acceptedOf_of_keeps hnone hk, h.acceptedOf_run pid hs hle]

/-- **The account reconstructs the history that really ran.** Over any schedule of polls of the
ring, nothing is known of it exactly when no snapshot held a Collection; otherwise, between the
first and the last Collection some snapshot held, the account gives how many ran, how many some
snapshot held, how many were overwritten unread, and what they all paused, of which it measured what
the snapshots held. -/
theorem account_reconstructs (pid : ℕ) {schedule : List ℕ} (hs : schedule.Pairwise (· ≤ ·))
    (hle : ∀ t ∈ schedule, t ≤ h.length) :
    let c : Cursor (Secs ofBits) := Mealy.exec Cursor.apply Cursor.new (h.polls pid schedule)
    (c.observation (h.key pid) = none ↔ ∀ k, ¬ h.Seen schedule k) ∧
      ∀ o, c.observation (h.key pid) = some o → ∃ first last,
        (h.Seen schedule first ∧ h.Seen schedule last ∧
          ∀ k, h.Seen schedule k → first ≤ k ∧ k ≤ last) ∧
        (o.first.collections = first + 1 ∧ o.last.collections = last + 1) ∧
        (account o).exactCollections = (Finset.Icc first last).card ∧
        (account o).observedCollections = (h.seenIn schedule first last).card ∧
        (account o).lostCollections = (h.overwrittenIn schedule first last).card ∧
        (account o).exactPauseNs = some (∑ k ∈ Finset.Icc first last, (h.record k).pause) ∧
        (account o).measuredPauseNs =
          some (∑ k ∈ h.seenIn schedule first last, (h.record k).pause) ∧
        ∑ k ∈ h.seenIn schedule first last, (h.record k).pause ≤
          ∑ k ∈ Finset.Icc first last, (h.record k).pause := by
  intro c
  have hc := h.observation_run (F := Secs ofBits) pid hs hle
  have hseen : ∀ k, k ∈ h.seen schedule ↔ h.Seen schedule k := fun k => h.mem_seen hs
  have hp := h.pairwise_seen schedule
  rw [show c.observation (h.key pid) = _ from hc]
  refine ⟨?_, fun o ho => ?_⟩
  · rw [Cursor.heldAfter_eq_none_iff, List.map_eq_nil_iff, List.eq_nil_iff_forall_not_mem]
    simp only [hseen]
  · obtain ⟨hne, rfl⟩ := Cursor.heldAfter_eq_some_iff.mp ho
    cases hl : h.seen schedule with
    | nil => exact absurd (by rw [hl]; rfl) hne
    | cons first rest =>
      obtain ⟨last, hlast⟩ : ∃ last, (first :: rest).getLast (List.cons_ne_nil _ _) = last :=
        ⟨_, rfl⟩
      rw [hl] at hseen hp
      have hmem := mem_Icc_of_pairwise hp hlast
      have hsl : h.Seen schedule last := (hseen last).mp (hlast ▸ List.getLast_mem _)
      obtain ⟨u, hu, hlu⟩ := hsl
      have hlt : last < h.length := hlu.1.trans_le (hle u hu)
      have hset : (first :: rest).toFinset = h.seenIn schedule first last := by
        ext k
        simp only [List.mem_toFinset, seenIn, Finset.mem_filter, ← hseen]
        exact ⟨fun hk => ⟨hmem k hk, hk⟩, fun hk => hk.2⟩
      have hcard : (h.seenIn schedule first last).card = (first :: rest).length := by
        rw [← hset, List.toFinset_card_of_nodup (hp.imp ne_of_lt)]
      obtain ⟨he, ho, hlost, hx, hm⟩ := h.account_ofRecords hp hlast hlt
      obtain ⟨-, -, -, hf, hla, -⟩ := h.ofRecords_history hp hlast hlt
      have hspan : ((Finset.Icc first last).card : ℤ) = (last : ℤ) - first + 1 := by
        have := (Finset.mem_Icc.mp (hmem first List.mem_cons_self)).2
        rw [Nat.card_Icc]
        omega
      rw [hset] at hm
      refine ⟨first, last, ⟨(hseen first).mp List.mem_cons_self, ⟨u, hu, hlu⟩, fun k hk =>
        Finset.mem_Icc.mp (hmem k ((hseen k).mpr hk))⟩, ⟨?_, ?_⟩, he.trans hspan.symm,
        ho.trans (by rw [hcard]), ?_, hx, hm, ?_⟩
      · rw [hf]
        exact h.counter first ((Finset.mem_Icc.mp (hmem first List.mem_cons_self)).2.trans_lt hlt)
      · rw [hla]
        exact h.counter last hlt
      · have := @card_overwrittenIn _ h schedule first last u hu hlu.1
        rw [hlost, ← hspan, ← hcard]
        omega
      · exact Finset.sum_le_sum_of_subset_of_nonneg (Finset.filter_subset _ _) fun k hk _ =>
          (h.pause_pos ((Finset.mem_Icc.mp hk).2.trans_lt hlt)).le

/-- Three Collections of four nanoseconds each, through a single slot, with the cumulative pause
published as a count of nanoseconds. -/
def singleSlot : History (fun w => (w.toInt : ℚ) / 10 ^ 9) where
  slots := 1
  slots_pos := le_rfl
  interpreter := 0
  generation := 0
  length := 3
  record k := pricedEntry (10 * k + 1) (10 * k + 5) (k + 1) (4 * (k + 1))
  blank _ := pricedEntry 0 0 0 0
  record_ring _ := ⟨rfl, rfl⟩
  blank_ring _ := ⟨rfl, rfl⟩
  blank_zero _ := by decide
  timed _ _ := rfl
  priced _ _ := rfl
  stops := by decide
  counter := by decide
  cumulative k hk := by
    have : k = 0 ∨ k = 1 ∨ k = 2 := by omega
    obtain rfl | rfl | rfl := this
    · rfl
    · rfl
    · rfl
  inRange := by decide

/-- Of three Collections two were read: the one between was overwritten, and the account says so. -/
theorem account_reconstructs_lapped : ∃ o,
    (Mealy.exec Cursor.apply (Cursor.new : Cursor (Secs fun w => (w.toInt : ℚ) / 10 ^ 9))
      (singleSlot.polls 7 [1, 3])).observation (singleSlot.key 7) = some o ∧
    (account o).exactCollections = 3 ∧ (account o).observedCollections = 2 ∧
    (account o).lostCollections = 1 ∧
    (account o).exactPauseNs = some 12 ∧ (account o).measuredPauseNs = some 8 := by
  have h := @account_reconstructs (fun w => (w.toInt : ℚ) / 10 ^ 9) singleSlot 7 [1, 3] (by decide)
    (by decide)
  obtain ⟨o, ho⟩ := Option.ne_none_iff_exists'.mp fun hn => h.1.mp hn 0 (by decide)
  obtain ⟨first, last, ⟨hfirst, hlast, hall⟩, -, hexact, hread, hlost, hpause, hmeasured, -⟩ := h.2 o ho
  -- the first and the third were read
  have hseen : ∀ k, singleSlot.Seen [1, 3] k ↔ k = 0 ∨ k = 2 := fun k => by
    rw [← singleSlot.mem_seen (by decide), show singleSlot.seen [1, 3] = [0, 2] by decide]
    simp
  have h0 := hall 0 ((hseen 0).mpr (Or.inl rfl))
  have h2 := hall 2 ((hseen 2).mpr (Or.inr rfl))
  rw [hseen] at hfirst hlast
  obtain ⟨rfl, rfl⟩ : first = 0 ∧ last = 2 := by omega
  exact ⟨o, ho, hexact, hread, hlost, hpause, hmeasured⟩

end History

end GcScope
