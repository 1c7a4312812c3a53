import GcScope.Monitor.History
import GcScope.Probe.Race

/-!
# A racing reader misses only what is overwritten

What a reader of the Probe's region reports when its copies fall between any two stores of the
writer, Collection by Collection: every Collection whose Entry some copy held whole, once, in the
order they ran, and nothing else.

* `HeldWhole`: some slot of the copy holds the Entry of a Collection; **`heldWhole_iff`** says when,
  by how many Collections of its generation have run since.
* `seenWhole`: what a reader that saw the Collections themselves would report.
* **`outs_polls`**: the racing reader reports just that.
* **`reads_all_iff`**: how often it has to poll to miss nothing.
-/

set_option autoImplicit false

namespace GcScope.Probe

open LittleEndian MachineInt OverwritingRing HighWater StableSort

/-- The Collections of one interpreter: none runs backwards, none starts before an earlier one has
stopped. -/
def Sequential (l : List Call) : Prop :=
  (∀ c ∈ l, 0 ≤ c.tsStart.toInt ∧ c.tsStart.toInt ≤ c.tsStop.toInt) ∧
    l.Pairwise fun a b => a.tsStop.toInt ≤ b.tsStart.toInt

instance (l : List Call) : Decidable (Sequential l) := by unfold Sequential; infer_instance

theorem Sequential.serial {l : List Call} (h : Sequential l) (g : Fin 3) : Serial (callsOf g l) :=
  ⟨fun c hc => (h.1 c (List.mem_of_mem_filter hc)).1, (h.2.filter _).isChain⟩

/-! ## The region at a moment, ring by ring -/

section Writer

variable (fadd : BitVec 64 → BitVec 64 → BitVec 64) {d : Depths}

theorem length_historyStores (s : Stats d) (calls : List Call) :
    (historyStores fadd s calls).length = 10 * calls.length := by
  induction calls generalizing s with
  | nil => rfl
  | cons c calls ih =>
    rw [historyStores, List.length_append, length_stores, ih, List.length_cons]
    ring

theorem historyStores_append (s : Stats d) (l₁ l₂ : List Call) : historyStores fadd s (l₁ ++ l₂) =
    historyStores fadd s l₁ ++ historyStores fadd (l₁.foldl (addStats fadd) s) l₂ := by
  induction l₁ generalizing s with
  | nil => rfl
  | cons c l₁ ih =>
    rw [List.cons_append, historyStores, ih, historyStores, List.append_assoc, List.foldl_cons]

theorem foldl_historyStores_all (s : Stats d) (calls : List Call) :
    (historyStores fadd s calls).foldl (fun s f => f s) s = calls.foldl (addStats fadd) s := by
  induction calls generalizing s with
  | nil => rfl
  | cons c calls ih =>
    rw [historyStores, List.foldl_append, List.foldl_cons, ← ih (addStats fadd s c)]
    rfl

theorem regionAt_of_done {calls : List Call} {t : ℕ} (h : calls.length ≤ t / 10) :
    regionAt fadd d calls t = run fadd d calls := by
  rw [regionAt, List.take_of_length_le, foldl_historyStores_all, run]
  rw [length_historyStores]
  omega

/-- Inside a call it is that, with the first stores of the call on top. -/
theorem regionAt_of_inside {calls : List Call} {t : ℕ} (h : t / 10 < calls.length) :
    regionAt fadd d calls t =
      partialAdd fadd (run fadd d (writtenAt calls t)) calls[t / 10] (t % 10) := by
  have hsplit : calls = writtenAt calls t ++ calls[t / 10] :: calls.drop (t / 10 + 1) := by
    rw [writtenAt, ← List.drop_eq_getElem_cons h, List.take_append_drop]
  have hlen : (historyStores fadd (.zero d) (writtenAt calls t)).length = 10 * (t / 10) := by
    rw [length_historyStores, writtenAt, List.length_take, min_eq_left h.le]
  have ht : t = (historyStores fadd (.zero d) (writtenAt calls t)).length + t % 10 := by omega
  have hstores : historyStores fadd (.zero d) calls =
      historyStores fadd (.zero d) (writtenAt calls t) ++ (stores fadd (run fadd d
        (writtenAt calls t)) calls[t / 10] ++ historyStores fadd (addStats fadd (run fadd d
          (writtenAt calls t)) calls[t / 10]) (calls.drop (t / 10 + 1))) := by
    conv_lhs => rw [hsplit]
    rw [historyStores_append, historyStores]
    rfl
  have htake : (historyStores fadd (.zero d) calls).take t =
      historyStores fadd (.zero d) (writtenAt calls t) ++
        (stores fadd (run fadd d (writtenAt calls t)) calls[t / 10]).take (t % 10) := by
    conv_lhs => rw [ht, hstores]
    rw [List.take_length_add_append, List.take_append_of_le_length]
    rw [length_stores]
    omega
  rw [regionAt, htake, List.foldl_append, foldl_historyStores_all]
  rfl

/-- The call that is being written has taken a slot of the ring. -/
def Overwriting (calls : List Call) (t : ℕ) (g : Fin 3) : Prop :=
  ∃ h : t / 10 < calls.length, calls[t / 10].gen = g ∧ 2 ≤ t % 10

instance (calls : List Call) (t : ℕ) (g : Fin 3) : Decidable (Overwriting calls t g) := by
  unfold Overwriting; infer_instance

theorem items_of_not_overwriting {calls : List Call} {t : ℕ} {g : Fin 3}
    (h : ¬ Overwriting calls t g) (i : Fin (d.of g)) :
    ((regionAt fadd d calls t).buffer g).items i =
      slotAt fadd (d.of g) (callsOf g (writtenAt calls t)) i := by
  have hrun := (buffer_run fadd (d := d) (writtenAt calls t) g).1 i
  rcases Nat.lt_or_ge (t / 10) calls.length with ht | ht
  · rw [regionAt_of_inside fadd ht, ← hrun]
    by_cases hg : g = calls[t / 10].gen
    · subst hg
      have hm : t % 10 < 2 := not_le.mp fun hm => h ⟨ht, rfl, hm⟩
      interval_cases hm' : t % 10
      · rfl
      · rw [partialAdd_one, Stats.modify_buffer_self]
    · match hm : t % 10 with
      | 0 => rfl
      | 1 => rw [partialAdd_one, Stats.modify_buffer_of_ne _ hg]
      | m + 2 => rw [partialAdd_add_two, Stats.modify_buffer_of_ne _ hg]
  · rw [regionAt_of_done fadd ht, ← hrun, writtenAt, List.take_of_length_le ht]

/-- A ring a call is writing holds what the calls before left, and in its next slot the last Entry
with the fields of this call stored so far. -/
theorem items_of_overwriting {calls : List Call} {t : ℕ} {g : Fin 3} (h : t / 10 < calls.length)
    (hg : calls[t / 10].gen = g) (hm : 2 ≤ t % 10) (i : Fin (d.of g)) :
    ((regionAt fadd d calls t).buffer g).items i =
      let l := callsOf g (writtenAt calls t)
      if (i : ℕ) = (l.length + 1) % d.of g then
        ((fieldStores fadd calls[t / 10]).take (t % 10 - 2)).foldl (fun e f => f e) (totals fadd l)
      else slotAt fadd (d.of g) l i := by
  subst hg
  obtain ⟨hitems, hindex⟩ :=
    buffer_run fadd (d := d) (writtenAt calls t) calls[t / 10].gen
  obtain ⟨m, hm⟩ := Nat.exists_eq_add_of_le' hm
  rw [regionAt_of_inside fadd h, hm, partialAdd_add_two, Stats.modify_buffer_self,
    Nat.add_sub_cancel]
  have hlast : ((run fadd d (writtenAt calls t)).buffer calls[t / 10].gen).items
      ((run fadd d (writtenAt calls t)).buffer calls[t / 10].gen).index =
        totals fadd (callsOf calls[t / 10].gen (writtenAt calls t)) := by
    rw [hitems, hindex, slotAt_last fadd (d.of_pos _)]
  have hnext : (((run fadd d (writtenAt calls t)).buffer calls[t / 10].gen).nextIndex : ℕ) =
      ((callsOf calls[t / 10].gen (writtenAt calls t)).length + 1) % d.of calls[t / 10].gen := by
    rw [StatsBuffer.nextIndex_val, hindex, Nat.mod_add_mod]
  simp only [hlast, Function.update_apply, hitems, ← hnext, Fin.ext_iff]

/-! ## Which Collections a copy holds whole -/

section Held

variable (calls : List Call)

/-- How many Collections of its generation ran before a Collection. -/
def rank (q : Fin calls.length) : ℕ := (callsOf calls[q].gen (calls.take q)).length

/-- The Entry a Collection leaves. -/
def entryOf (q : Fin calls.length) : GenerationStats :=
  totals fadd (callsOf calls[q].gen (calls.take (q + 1)))

variable (d) in
/-- Some slot of the copy holds the Entry of the Collection, every field of it. -/
def HeldWhole (t : ℕ) (q : Fin calls.length) : Prop :=
  ∃ i : Fin (d.of calls[q].gen),
    ((regionAt fadd d calls t).buffer calls[q].gen).items i = entryOf fadd calls q

instance (t : ℕ) (q : Fin calls.length) : Decidable (HeldWhole fadd d calls t q) := by
  unfold HeldWhole; infer_instance

variable (d) in
/-- How many Collections of a generation a copy can hold: one less from when a call has marked the
slot it is about to write. -/
def capacity (t : ℕ) (g : Fin 3) : ℕ :=
  if Overwriting calls t g ∧ (2 < t % 10 ∨ 1 < d.of g) then d.of g - 1 else d.of g

variable {calls}

theorem callsOf_take_succ (q : Fin calls.length) : callsOf calls[q].gen (calls.take (q + 1)) =
    callsOf calls[q].gen (calls.take q) ++ [calls[q]] := by
  rw [List.take_succ_eq_append_getElem q.isLt]
  exact callsOf_concat_self (calls.take q) calls[q]

theorem entryOf_eq (q : Fin calls.length) : entryOf fadd calls q =
    (totals fadd (callsOf calls[q].gen (calls.take q))).next fadd calls[q] := by
  rw [entryOf, callsOf_take_succ, totals_concat]

theorem tsStart_entryOf (q : Fin calls.length) : (entryOf fadd calls q).tsStart = calls[q].tsStart :=
  by rw [entryOf_eq, GenerationStats.next_eq]

theorem tsStop_entryOf (q : Fin calls.length) : (entryOf fadd calls q).tsStop = calls[q].tsStop :=
  by rw [entryOf_eq, GenerationStats.next_eq]

theorem collections_totals (l : List Call) : (totals fadd l).collections = BitVec.ofNat 64 l.length :=
  by rw [totals_eq]

theorem collections_entryOf (q : Fin calls.length) :
    (entryOf fadd calls q).collections = BitVec.ofNat 64 (rank calls q + 1) := by
  rw [entryOf, collections_totals, callsOf_take_succ, List.length_append]
  rfl

theorem isPrefix_callsOf_take (l : List Call) (g : Fin 3) {a b : ℕ} (h : a ≤ b) :
    callsOf g (l.take a) <+: callsOf g (l.take b) :=
  (List.take_prefix_take_left h).filter _

theorem length_callsOf_le (g : Fin 3) (l : List Call) : (callsOf g l).length ≤ l.length :=
  List.length_filter_le _ _

theorem rank_lt (q : Fin calls.length) : rank calls q < calls.length :=
  (length_callsOf_le _ _).trans_lt (by rw [List.length_take]; omega)

theorem rank_lt_iff (q : Fin calls.length) (t : ℕ) :
    rank calls q < (callsOf calls[q].gen (writtenAt calls t)).length ↔ (q : ℕ) < t / 10 := by
  constructor
  · intro h
    by_contra hq
    exact absurd h (not_lt.mpr (isPrefix_callsOf_take calls calls[q].gen (not_lt.mp hq)).length_le)
  · intro h
    have := (isPrefix_callsOf_take calls calls[q].gen h).length_le
    rw [callsOf_take_succ, List.length_append, List.length_singleton] at this
    exact this

theorem exists_rank {t j : ℕ} {g : Fin 3} : j < (callsOf g (writtenAt calls t)).length →
    ∃ q : Fin calls.length, calls[q].gen = g ∧ (q : ℕ) < t / 10 ∧ rank calls q = j := by
  intro hj
  obtain ⟨q, hq, hg, hrank⟩ := ListFacts.exists_take_filter hj
  rw [writtenAt, List.length_take] at hq
  have hqt : q < t / 10 := hq.trans_le (min_le_left _ _)
  simp only [writtenAt, List.getElem_take, decide_eq_true_eq, List.take_take,
    min_eq_left hqt.le] at hg hrank
  subst hg
  exact ⟨⟨q, hq.trans_le (min_le_right _ _)⟩, rfl, hqt, hrank⟩

theorem entryOf_of_lt {q : Fin calls.length} {t : ℕ} (h : (q : ℕ) < t / 10) : entryOf fadd calls q =
    totals fadd ((callsOf calls[q].gen (writtenAt calls t)).take (rank calls q + 1)) := by
  have hpre := List.prefix_iff_eq_take.mp (isPrefix_callsOf_take calls calls[q].gen h)
  have hlen : (callsOf calls[q].gen (calls.take (q + 1))).length = rank calls q + 1 := by
    rw [callsOf_take_succ, List.length_append]
    rfl
  rw [hlen] at hpre
  rw [entryOf, hpre]
  rfl

theorem totals_take_eq_entryOf_iff (hl : calls.length < 2 ^ 63) (q : Fin calls.length) {t j : ℕ}
    (hj : j ≤ (callsOf calls[q].gen (writtenAt calls t)).length) :
    totals fadd ((callsOf calls[q].gen (writtenAt calls t)).take j) = entryOf fadd calls q ↔
      j = rank calls q + 1 := by
  have hN : (callsOf calls[q].gen (writtenAt calls t)).length ≤ calls.length :=
    (length_callsOf_le _ _).trans (by rw [writtenAt, List.length_take]; omega)
  have hq := rank_lt q
  constructor
  · intro h
    have hc := congrArg (fun e => e.collections.toNat) h
    simp only [collections_totals, collections_entryOf, BitVec.toNat_ofNat, List.length_take] at hc
    omega
  · rintro rfl
    exact (entryOf_of_lt fadd ((rank_lt_iff q t).mp hj)).symm

theorem slotAt_eq_entryOf_iff (hl : calls.length < 2 ^ 63) (q : Fin calls.length) (t : ℕ) {i : ℕ} :
    slotAt fadd (d.of calls[q].gen) (callsOf calls[q].gen (writtenAt calls t)) i =
        entryOf fadd calls q ↔
      latestIn (d.of calls[q].gen) ((callsOf calls[q].gen (writtenAt calls t)).length + 1) i =
        some (rank calls q + 1) := by
  rw [slotAt]
  cases hlat : latestIn (d.of calls[q].gen)
      ((callsOf calls[q].gen (writtenAt calls t)).length + 1) i with
  | none =>
    have := totals_take_eq_entryOf_iff fadd hl q (t := t) (Nat.zero_le _)
    simp only [Option.map_none, Option.getD_none, reduceCtorEq, iff_false]
    exact fun h => absurd (this.mp h) (Nat.succ_ne_zero _).symm
  | some j =>
    have hj := (latestIn_eq_some_iff.mp hlat).2.1
    rw [Option.map_some, Option.getD_some, Option.some_inj,
      totals_take_eq_entryOf_iff fadd hl q (by omega)]

/-- What a call has stored so far is the Entry of a Collection only before its start is, when it is
still the Entry before. -/
theorem stored_eq_entryOf_iff (hs : Sequential calls) (hl : calls.length < 2 ^ 63)
    {q : Fin calls.length} (hq : calls[q].tsStart.toInt < calls[q].tsStop.toInt) {t : ℕ}
    (ht : t / 10 < calls.length) (hg : calls[t / 10].gen = calls[q].gen) (hm : 2 ≤ t % 10) :
    ((fieldStores fadd calls[t / 10]).take (t % 10 - 2)).foldl (fun e f => f e)
        (totals fadd (callsOf calls[q].gen (writtenAt calls t))) = entryOf fadd calls q ↔
      t % 10 = 2 ∧ (callsOf calls[q].gen (writtenAt calls t)).length = rank calls q + 1 := by
  rcases hm.eq_or_lt with hm | hm
  · have := totals_take_eq_entryOf_iff fadd hl q (t := t) le_rfl
    rw [List.take_length] at this
    rw [← hm, Nat.sub_self, List.take_zero, List.foldl_nil, this]
    simp
  · refine iff_of_false (fun he => ?_) fun h => hm.ne' h.1
    -- its start is the new one, its stop the previous one
    obtain ⟨h₁, h₂⟩ := stamps_midway fadd
      (totals fadd (callsOf calls[q].gen (writtenAt calls t))) calls[t / 10]
      (k := t % 10 - 2) (by omega) (by omega)
    have hsplit : calls = writtenAt calls t ++ calls[t / 10] :: calls.drop (t / 10 + 1) := by
      rw [writtenAt, ← List.drop_eq_getElem_cons ht, List.take_append_drop]
    have hcut : callsOf calls[q].gen calls = callsOf calls[q].gen (writtenAt calls t) ++
        calls[t / 10] :: callsOf calls[q].gen (calls.drop (t / 10 + 1)) := by
      rw [callsOf, callsOf, callsOf, ← List.filter_cons_of_pos (by simp [hg]), ← List.filter_append,
        ← hsplit]
    have hle := (hcut ▸ hs.serial calls[q].gen).stop_le fadd
    rw [he, tsStart_entryOf] at h₁
    rw [he, tsStop_entryOf] at h₂
    rw [h₁, h₂] at hq
    exact absurd hle (not_le.mpr hq)

/-- **A copy holds a Collection whole exactly when it has run and fewer Collections of its generation
than the copy has room for have run after it.** -/
theorem heldWhole_iff (hs : Sequential calls) (hl : calls.length < 2 ^ 63) {q : Fin calls.length}
    (hq : calls[q].tsStart.toInt < calls[q].tsStop.toInt) (t : ℕ) :
    HeldWhole fadd d calls t q ↔ (q : ℕ) < t / 10 ∧
      (callsOf calls[q].gen (writtenAt calls t)).length ≤ rank calls q + capacity d calls t
        calls[q].gen := by
  have hn := d.of_pos calls[q].gen
  rw [← rank_lt_iff]
  by_cases ho : Overwriting calls t calls[q].gen
  · obtain ⟨ht, hg, hm⟩ := id ho
    have hstored := stored_eq_entryOf_iff fadd hs hl hq ht hg hm
    simp only [HeldWhole, items_of_overwriting fadd ht hg hm]
    constructor
    · rintro ⟨i, hi⟩
      rw [capacity]
      split_ifs at hi with hnext
      · obtain ⟨h₂, hlast⟩ := hstored.mp hi
        split_ifs <;> omega
      · obtain ⟨hslot, hp⟩ :=
          latestIn_eq_some_iff.mp ((slotAt_eq_entryOf_iff fadd hl q t).mp hi)
        have hold := (slot_eq_next_iff hp).not.mp fun h => hnext (hslot.symm.trans h)
        unfold Present at hp
        split_ifs <;> omega
    · rintro ⟨h₁, h₂⟩
      rw [capacity] at h₂
      by_cases hroom : 2 < t % 10 ∨ 1 < d.of calls[q].gen
      · -- it is not in the slot the call has taken
        rw [if_pos ⟨ho, hroom⟩] at h₂
        have hp : Present (d.of calls[q].gen)
            ((callsOf calls[q].gen (writtenAt calls t)).length + 1) (rank calls q + 1) := by
          unfold Present; omega
        have hold := (slot_eq_next_iff hp).not.mpr (by omega)
        refine ⟨⟨(rank calls q + 1) % d.of calls[q].gen, Nat.mod_lt _ hn⟩, ?_⟩
        rw [if_neg hold]
        exact (slotAt_eq_entryOf_iff fadd hl q t).mpr (latestIn_eq_some_iff.mpr ⟨rfl, hp⟩)
      · -- the only slot still holds the copy of the Entry before
        rw [if_neg fun h => hroom h.2] at h₂
        refine ⟨⟨_, Nat.mod_lt _ hn⟩, (if_pos rfl).trans (hstored.mpr ?_)⟩
        omega
  · simp only [HeldWhole, items_of_not_overwriting fadd ho, slotAt_eq_entryOf_iff fadd hl,
      latestIn_eq_some_iff]
    rw [capacity, if_neg fun h => ho h.1]
    constructor
    · rintro ⟨i, -, hp⟩
      unfold Present at hp
      omega
    · rintro ⟨h₁, h₂⟩
      exact ⟨⟨(rank calls q + 1) % d.of calls[q].gen, Nat.mod_lt _ hn⟩, rfl, by
        unfold Present; omega⟩

end Held

end Writer

/-! ## What the reader reports -/

section Reader

variable (fadd : BitVec 64 → BitVec 64 → BitVec 64) (d : Depths) (calls : List Call)

/-- The Record describes the Collection: it reads its Entry, in some slot of its ring. -/
def Describes (iid : ℤ) (r : GcStat) (q : Fin calls.length) : Prop :=
  r = recordOf calls[q].gen r.index iid (entryOf fadd calls q)

instance (iid : ℤ) (r : GcStat) (q : Fin calls.length) : Decidable (Describes fadd calls iid r q) := by
  unfold Describes; infer_instance

/-- The Collection took time. One whose clock readings agree is published as still in flight. -/
def TookTime (q : Fin calls.length) : Prop := calls[q].tsStart.toInt < calls[q].tsStop.toInt

instance (q : Fin calls.length) : Decidable (TookTime calls q) := by
  unfold TookTime; infer_instance

/-- The Collections some copy held whole, in the order they ran. -/
def seenWhole (ts : List ℕ) : List (Fin calls.length) :=
  (List.finRange calls.length).filter fun q =>
    TookTime calls q ∧ ∃ t ∈ ts, HeldWhole fadd d calls t q

variable {fadd d calls} {F : Type} [F64 F] {iid : ℤ} {r : GcStat} {q : Fin calls.length}

theorem Describes.tsStart (h : Describes fadd calls iid r q) :
    r.tsStart = calls[q].tsStart.toInt := by
  rw [h, tsStart_recordOf, tsStart_entryOf]

theorem Describes.tsStop (h : Describes fadd calls iid r q) : r.tsStop = calls[q].tsStop.toInt := by
  rw [h, tsStop_recordOf, tsStop_entryOf]

theorem Describes.collections (hl : calls.length < 2 ^ 63) (h : Describes fadd calls iid r q) :
    r.collections = rank calls q + 1 := by
  have hq := rank_lt q
  have hc : (BitVec.ofNat 64 (rank calls q + 1)).toInt = ((rank calls q + 1 : ℕ) : ℤ) := by
    rw [BitVec.toInt_ofNat']
    exact wrap64_of_inI64 ⟨by omega, by omega⟩
  rw [h, GcStat.collections, get_recordOf (k := 2) (by decide)]
  rw [show (entryOf fadd calls q).words[2]? = some (entryOf fadd calls q).collections from rfl,
    collections_entryOf, Option.map_some, Option.getD_some, hc]
  push_cast
  rfl

theorem Describes.ring (h : Describes fadd calls iid r q) (pid : ℕ) :
    r.ring pid = ⟨pid, iid, calls[q].gen⟩ := by rw [h]; rfl

theorem Describes.eligible_iff (hl : calls.length < 2 ^ 63) (h : Describes fadd calls iid r q) :
    r.Eligible ↔ TookTime calls q := by
  have ht : r.hasTiming = true := by rw [h]; rfl
  rw [GcStat.Eligible, GcStat.isComplete_of_hasTiming _ ht, decide_eq_true_eq, h.tsStart, h.tsStop,
    h.collections hl, TookTime]
  exact and_iff_left (by omega)

variable (hs : Sequential calls) (hl : calls.length < 2 ^ 63)

include hs in
/-- What the cursor may take of a copy describes a Collection the copy holds whole. -/
theorem describes_of_eligible {t : ℕ} (hr : r ∈ snapshotAt fadd d calls iid t) (he : r.Eligible) :
    ∃ q, Describes fadd calls iid r q ∧ HeldWhole fadd d calls t q := by
  obtain ⟨g, i, rfl⟩ := mem_snapshotAt.mp hr
  rcases entry_regionAt fadd hs.serial t g i with ⟨j, hj, hi⟩ | hi
  · cases j with
    | zero =>
      -- the zero Entry reads as never written
      rw [hi] at he
      exact absurd (le_refl (0 : ℤ)) (not_inFlight_of_eligible he)
    | succ j =>
      obtain ⟨q, rfl, hq, rfl⟩ := exists_rank hj
      have hi := hi.trans (entryOf_of_lt fadd hq).symm
      exact ⟨q, congrArg (recordOf _ i iid) hi, i, hi⟩
  · exact absurd hi (not_inFlight_of_eligible he)

/-- A Collection held whole is described by some Record of the copy. -/
theorem exists_describes {t : ℕ} (h : HeldWhole fadd d calls t q) (iid : ℤ) :
    ∃ r ∈ snapshotAt fadd d calls iid t, Describes fadd calls iid r q := by
  obtain ⟨i, hi⟩ := h
  exact ⟨_, mem_snapshotAt.mpr ⟨calls[q].gen, i, rfl⟩, congrArg (recordOf _ i iid) hi⟩

theorem rank_lt_of_lt {q q' : Fin calls.length} (hg : calls[q].gen = calls[q'].gen) (h : q < q') :
    rank calls q < rank calls q' := by
  have := (isPrefix_callsOf_take calls calls[q].gen (Nat.succ_le_of_lt h)).length_le
  rw [callsOf_take_succ, List.length_append, List.length_singleton] at this
  rw [rank, rank, ← hg]
  exact this

theorem rank_injective {q q' : Fin calls.length} (hg : calls[q].gen = calls[q'].gen)
    (h : rank calls q = rank calls q') : q = q' := by
  rcases lt_trichotomy q q' with hq | hq | hq
  · exact absurd h (rank_lt_of_lt hg hq).ne
  · exact hq
  · exact absurd h (rank_lt_of_lt hg.symm hq).ne'

variable (d) in
/-- As the writer goes on, a copy loses room for a Collection at most as fast as Collections run. -/
theorem capacity_le {s t : ℕ} (hst : s ≤ t) (g : Fin 3) :
    (callsOf g (writtenAt calls s)).length + capacity d calls t g ≤
      (callsOf g (writtenAt calls t)).length + capacity d calls s g := by
  have hn := d.of_pos g
  rcases (Nat.div_le_div_right hst : s / 10 ≤ t / 10).eq_or_lt with he | hlt
  · have hcap : capacity d calls t g ≤ capacity d calls s g := by
      have hover : Overwriting calls s g → Overwriting calls t g := by
        rintro ⟨h, hg, hm⟩
        simp only [he] at h hg
        exact ⟨h, hg, by omega⟩
      unfold capacity
      split_ifs with h₁ h₂ h₂
      · exact le_rfl
      · omega
      · exact absurd ⟨hover h₂.1, by omega⟩ h₁
      · exact le_rfl
    rw [writtenAt, writtenAt, he]
    exact Nat.add_le_add_left hcap _
  · have hle := (isPrefix_callsOf_take calls g hlt.le).length_le
    by_cases ho : Overwriting calls s g
    · -- the call under way at the first moment has ended by the second
      obtain ⟨h, rfl, -⟩ := ho
      have hone : (callsOf calls[s / 10].gen (calls.take (s / 10))).length <
          (callsOf calls[s / 10].gen (writtenAt calls t)).length :=
        (rank_lt_iff ⟨s / 10, h⟩ t).mpr hlt
      unfold capacity
      rw [writtenAt]
      split_ifs <;> omega
    · have hcap : capacity d calls s g = d.of g := if_neg fun h => ho h.1
      have : capacity d calls t g ≤ d.of g := by unfold capacity; split_ifs <;> omega
      rw [hcap]
      exact Nat.add_le_add hle this

include hs hl in
/-- **What a copy no longer holds is not held by a later one**, and what a later one holds that this
one lacks had not run yet. -/
theorem HeldWhole.of_le {s t : ℕ} (hst : s ≤ t) (hq : TookTime calls q)
    (h : HeldWhole fadd d calls t q) (hrun : (q : ℕ) < s / 10) : HeldWhole fadd d calls s q := by
  rw [heldWhole_iff fadd hs hl hq] at h ⊢
  refine ⟨hrun, ?_⟩
  have := @capacity_le d calls s t hst calls[q].gen
  omega

/-! ### One poll -/

theorem interpreterId_of_mem_snapshotAt {t : ℕ} (hr : r ∈ snapshotAt fadd d calls iid t) :
    r.interpreterId = iid := by
  obtain ⟨g, i, rfl⟩ := mem_snapshotAt.mp hr
  rfl

theorem mem_offersOf_polls {pid g : ℕ} {ts : List ℕ} :
    r ∈ offersOf ⟨pid, iid, g⟩ ((polls fadd d calls pid iid ts).flatMap CursorOp.steps) ↔
      (∃ t ∈ ts, r ∈ snapshotAt fadd d calls iid t) ∧ r.generation = g ∧ r.Eligible := by
  have hsteps : .offer pid r ∈ (polls fadd d calls pid iid ts).flatMap CursorOp.steps ↔
      ∃ t ∈ ts, r ∈ snapshotAt fadd d calls iid t := by
    simp [polls, CursorOp.steps, sortCandidates]
  rw [Cursor.mem_offersOf, hsteps]
  refine and_congr_right fun h => ?_
  obtain ⟨t, -, hr⟩ := h
  simp [GcStat.ring, interpreterId_of_mem_snapshotAt hr]

include hs hl in
theorem mark_polls_lt_iff {pid : ℕ} {g : Fin 3} {ts : List ℕ} (n : ℤ) :
    mark GcStat.collections ⊥ (offersOf ⟨pid, iid, g⟩
        ((polls fadd d calls pid iid ts).flatMap CursorOp.steps)) < n ↔
      ∀ t ∈ ts, ∀ q, calls[q].gen = g → TookTime calls q → HeldWhole fadd d calls t q →
        (rank calls q : ℤ) + 1 < n := by
  rw [mark_bot_lt_iff]
  constructor
  · intro h t ht q hg hq hw
    obtain ⟨r, hr, hd⟩ := exists_describes hw iid
    rw [← hd.collections hl]
    refine h r (mem_offersOf_polls.mpr ⟨⟨t, ht, hr⟩, ?_, (hd.eligible_iff hl).mpr hq⟩)
    exact (congrArg RingKey.generation (hd.ring pid)).trans (congrArg Fin.val hg)
  · intro h r hr
    obtain ⟨⟨t, ht, hr⟩, hg, he⟩ := mem_offersOf_polls.mp hr
    obtain ⟨q, hd, hw⟩ := describes_of_eligible hs hr he
    rw [hd.collections hl]
    refine h t ht q (Fin.ext ?_) ((hd.eligible_iff hl).mp he) hw
    rw [← hg]
    exact (congrArg RingKey.generation (hd.ring pid)).symm

variable (fadd d calls F) in
/-- The cursor after the polls at the given moments. -/
def cursorAfter (pid : ℕ) (iid : ℤ) (ts : List ℕ) : Cursor F :=
  Mealy.exec Cursor.apply Cursor.new (polls fadd d calls pid iid ts)

variable (fadd d calls F) in
/-- What one more poll returns. -/
def returnedAt (pid : ℕ) (iid : ℤ) (ts : List ℕ) (t : ℕ) : List GcStat :=
  ((cursorAfter fadd d calls F pid iid ts).admitRecords pid (snapshotAt fadd d calls iid t)).2

theorem polls_concat (pid : ℕ) (ts : List ℕ) (t : ℕ) : polls fadd d calls pid iid (ts ++ [t]) =
    polls fadd d calls pid iid ts ++ [.admitRecords pid (snapshotAt fadd d calls iid t)] := by
  simp [polls]

theorem keeps_polls (pid g : ℕ) (ts : List ℕ) : (Cursor.new : Cursor F).Keeps ⟨pid, iid, g⟩
    ((polls fadd d calls pid iid ts).flatMap CursorOp.steps) :=
  Cursor.keeps_of_names_eq (F := F) (fun records hr => by
    obtain ⟨t, -, rfl⟩ := List.mem_map.mp hr
    exact names_snapshotAt iid t) g

theorem returnedAt_perm (pid : ℕ) (g : ℕ) (ts : List ℕ) (t : ℕ) :
    ((returnedAt fadd d calls F pid iid ts t).filter fun r => r.ring pid = ⟨pid, iid, g⟩).Perm
      (climb GcStat.collections (mark GcStat.collections ⊥ (offersOf ⟨pid, iid, g⟩
          ((polls fadd d calls pid iid ts).flatMap CursorOp.steps)))
        ((sortCandidates (snapshotAt fadd d calls iid t)).filter fun r =>
          r.ring pid = ⟨pid, iid, g⟩ ∧ r.Eligible)) := by
  have hnone : (Cursor.new : Cursor F).rings[(⟨pid, iid, g⟩ : RingKey)]? = none := by
    simp [Cursor.new]
  have hk := @keeps_polls fadd d calls F _ iid pid g (ts ++ [t])
  rw [polls_concat, List.flatMap_append, List.flatMap_singleton] at hk
  have hring : (cursorAfter fadd d calls F pid iid ts).rings[(⟨pid, iid, g⟩ : RingKey)]? = _ :=
    Cursor.exec_flatMap_steps (F := F) _ _ ▸ Cursor.ring_of_keeps hnone hk.of_append
  have hpoll : (cursorAfter fadd d calls F pid iid ts).Keeps ⟨pid, iid, g⟩
      (CursorOp.admitRecords pid (snapshotAt fadd d calls iid t)).steps := by
    rw [cursorAfter, ← Cursor.exec_flatMap_steps]
    exact hk.of_append_right
  have hperm := Cursor.returnedOf_perm ⟨pid, iid, g⟩ (cursorAfter fadd d calls F pid iid ts)
    [.admitRecords pid (snapshotAt fadd d calls iid t)]
  rw [List.flatMap_singleton, Cursor.acceptedOf_of_climb hring hpoll,
    Cursor.offersOf_admitRecords ⟨pid, iid, g⟩, Cursor.returnedOf, Mealy.outs_cons, Mealy.outs_nil,
    List.append_nil] at hperm
  exact hperm

theorem pairwise_ring_sortCandidates (K : RingKey) (records : List GcStat) :
    ((sortCandidates records).filter fun r => r.ring K.pid = K ∧ r.Eligible).Pairwise
      fun a b => a.collections ≤ b.collections := by
  refine ((pairwise_stableSort _ records).filter _).imp_of_mem fun {a b} ha hb hab => ?_
  have hring : a.ring K.pid = b.ring K.pid :=
    (of_decide_eq_true (List.mem_filter.mp ha).2).1.trans
      (of_decide_eq_true (List.mem_filter.mp hb).2).1.symm
  obtain ⟨-, hi, hg⟩ := RingKey.mk.inj hring
  rw [hi, hg] at hab
  simpa [Prod.Lex.toLex_le_toLex] using hab

include hs in
theorem start_lt {q q' : Fin calls.length} (hq : TookTime calls q) (h : q < q') :
    calls[q].tsStart.toInt < calls[q'].tsStart.toInt :=
  hq.trans_le (List.pairwise_iff_getElem.mp hs.2 q q' q.isLt q'.isLt h)

variable (fadd d calls) in
/-- The Collections a copy holds whole that no earlier one did, in the order they ran. -/
def freshWhole (ts : List ℕ) (t : ℕ) : List (Fin calls.length) :=
  (List.finRange calls.length).filter fun q =>
    TookTime calls q ∧ HeldWhole fadd d calls t q ∧ ∀ s ∈ ts, ¬ HeldWhole fadd d calls s q

include hs hl in
/-- A poll returns Records of Collections that no earlier copy held whole. -/
theorem exists_fresh_of_returned {pid : ℕ} {ts : List ℕ} {t : ℕ}
    (hr : r ∈ returnedAt fadd d calls F pid iid ts t) :
    ∃ q ∈ freshWhole fadd d calls ts t, Describes fadd calls iid r q := by
  obtain ⟨hmem, he⟩ := Cursor.mem_admitRecords hr
  obtain ⟨q, hd, hw⟩ := describes_of_eligible hs hmem he
  have hq := (hd.eligible_iff hl).mp he
  refine ⟨q, ?_, hd⟩
  simp only [freshWhole, List.mem_filter, List.mem_finRange, true_and, decide_eq_true_eq]
  refine ⟨hq, hw, fun s hst hws => ?_⟩
  -- it stands above the mark that an earlier copy of it would have left
  have hclimb := (returnedAt_perm pid calls[q].gen ts t).subset (List.mem_filter.mpr
    ⟨hr, decide_eq_true (hd.ring pid)⟩)
  have hlt := (mark_polls_lt_iff hs hl _).mp (lt_of_mem_climb _ hclimb) s hst q rfl hq hws
  rw [hd.collections hl] at hlt
  exact lt_irrefl _ hlt

include hs hl in
/-- A poll returns a Record of every Collection that its copy holds whole and no earlier one did. -/
theorem exists_returned_of_fresh {ts : List ℕ} {t : ℕ} (hle : ∀ s ∈ ts, s ≤ t)
    (hq : q ∈ freshWhole fadd d calls ts t) (pid : ℕ) :
    ∃ r ∈ returnedAt fadd d calls F pid iid ts t, Describes fadd calls iid r q := by
  simp only [freshWhole, List.mem_filter, List.mem_finRange, true_and, decide_eq_true_eq] at hq
  obtain ⟨hq, hw, hnew⟩ := hq
  obtain ⟨r, hr, hd⟩ := exists_describes hw iid
  -- what the earlier copies held had all run before it
  have hmark : mark GcStat.collections ⊥ (offersOf ⟨pid, iid, calls[q].gen⟩
      ((polls fadd d calls pid iid ts).flatMap CursorOp.steps)) < r.collections := by
    rw [mark_polls_lt_iff hs hl, hd.collections hl]
    intro s hst q' hg hq' hw'
    have hrun : s / 10 ≤ q := not_lt.mp fun h => hnew s hst (hw.of_le hs hl (hle s hst) hq h)
    have hlt := ((heldWhole_iff fadd hs hl hq' s).mp hw').1.trans_le hrun
    have := rank_lt_of_lt hg hlt
    omega
  have hoffer : r ∈ (sortCandidates (snapshotAt fadd d calls iid t)).filter fun r =>
      r.ring pid = ⟨pid, iid, calls[q].gen⟩ ∧ r.Eligible :=
    List.mem_filter.mpr ⟨(mem_stableSort _).mpr hr,
      decide_eq_true ⟨hd.ring pid, (hd.eligible_iff hl).mpr hq⟩⟩
  obtain ⟨r', hr', hcol⟩ := exists_mem_climb GcStat.collections
    (pairwise_ring_sortCandidates ⟨pid, iid, calls[q].gen⟩ _) hoffer hmark
  -- the Record taken for this counter describes the same Collection
  obtain ⟨hret, hring⟩ :=
    List.mem_filter.mp ((returnedAt_perm (F := F) pid calls[q].gen ts t).mem_iff.mpr hr')
  obtain ⟨q', -, hd'⟩ := exists_fresh_of_returned hs hl hret
  have hgen : calls[q'].gen = calls[q].gen := Fin.ext (congrArg RingKey.generation
    ((hd'.ring pid).symm.trans (of_decide_eq_true hring)))
  rw [hd'.collections hl, hd.collections hl] at hcol
  obtain rfl := rank_injective hgen (by omega)
  exact ⟨r', hret, hd'⟩

theorem nodup_returnedAt (pid : ℕ) (ts : List ℕ) (t : ℕ) :
    ((returnedAt fadd d calls F pid iid ts t).map fun r => (r.generation, r.collections)).Nodup := by
  refine ListFacts.nodup_map_pair fun g => ?_
  have hring : (returnedAt fadd d calls F pid iid ts t).filter (fun r => r.generation = g) =
      (returnedAt fadd d calls F pid iid ts t).filter fun r => r.ring pid = ⟨pid, iid, g⟩ :=
    List.filter_congr fun r hr => by
      simp [GcStat.ring, interpreterId_of_mem_snapshotAt (Cursor.mem_admitRecords hr).1]
  rw [hring]
  exact ((returnedAt_perm pid g ts t).map _).nodup_iff.mpr
    (List.pairwise_map.mpr ((pairwise_climb _ _ _).imp fun h => h.ne))

include hs hl in
/-- **A poll returns one Record of each Collection it is the first to hold whole**, in the order they
ran. -/
theorem forall₂_returnedAt {ts : List ℕ} {t : ℕ} (hle : ∀ s ∈ ts, s ≤ t) (pid : ℕ) :
    List.Forall₂ (Describes fadd calls iid) (returnedAt fadd d calls F pid iid ts t)
      (freshWhole fadd d calls ts t) := by
  have htook : ∀ q ∈ freshWhole fadd d calls ts t, TookTime calls q := fun q hq =>
    (of_decide_eq_true (List.mem_filter.mp hq).2).1
  have hstart : (freshWhole fadd d calls ts t).Pairwise fun a b =>
      calls[a].tsStart.toInt < calls[b].tsStart.toInt :=
    ((List.pairwise_lt_finRange _).filter _).imp_of_mem fun ha _ hab =>
      start_lt hs (htook _ ha) hab
  refine ListFacts.forall₂_of_keys (f := GcStat.tsStart) (g := fun q => calls[q].tsStart.toInt)
    (fun _ _ _ _ hd => hd.tsStart) ?_ hstart (fun r hr => exists_fresh_of_returned hs hl hr)
    fun q hq => exists_returned_of_fresh hs hl hle hq pid
  -- Records that started together describe one Collection, and that is returned once
  refine (List.Pairwise.and (pairwise_stableSort _ _)
    (List.pairwise_map.mp (nodup_returnedAt pid ts t))).imp_of_mem fun {a b} ha hb hab => ?_
  obtain ⟨q, hq, hd⟩ := exists_fresh_of_returned hs hl ha
  obtain ⟨q', hq', hd'⟩ := exists_fresh_of_returned hs hl hb
  refine lt_of_le_of_ne hab.1 fun he => hab.2 ?_
  rw [hd.tsStart, hd'.tsStart] at he
  obtain rfl : q = q' := by
    rcases lt_trichotomy q q' with h | h | h
    · exact absurd he (start_lt hs (htook q hq) h).ne
    · exact h
    · exact absurd he (start_lt hs (htook q' hq') h).ne'
  exact Prod.ext (congrArg RingKey.generation ((hd.ring pid).trans (hd'.ring pid).symm))
    ((hd.collections hl).trans (hd'.collections hl).symm)

/-! ### Whole runs -/

include hs hl in
theorem seenWhole_concat {ts : List ℕ} {t : ℕ} (hle : ∀ s ∈ ts, s ≤ t) :
    seenWhole fadd d calls (ts ++ [t]) =
      seenWhole fadd d calls ts ++ freshWhole fadd d calls ts t := by
  rw [seenWhole, seenWhole, freshWhole, ← ListFacts.filter_or_of_lt (List.pairwise_lt_finRange _)]
  · refine List.filter_congr fun q _ => ?_
    simp only [List.mem_append, List.mem_singleton, or_and_right, exists_or, exists_eq_left,
      ← Bool.decide_or, decide_eq_decide, ← and_or_left]
    refine and_congr_right fun _ => ⟨fun h => ?_, Or.imp_right And.left⟩
    by_cases hseen : ∃ s ∈ ts, HeldWhole fadd d calls s q
    · exact Or.inl hseen
    · exact Or.inr ⟨h.resolve_left hseen, fun s hst hw => hseen ⟨s, hst, hw⟩⟩
  · intro a _ b _ ha hb
    simp only [decide_eq_true_eq] at ha hb
    obtain ⟨ha, s, hst, hwa⟩ := ha
    obtain ⟨hb, hwb, hnew⟩ := hb
    -- the copy that held the one, but not the other, came between them
    have hrun : s / 10 ≤ b := not_lt.mp fun h => hnew s hst (hwb.of_le hs hl (hle s hst) hb h)
    exact Fin.lt_def.mpr (((heldWhole_iff fadd hs hl ha s).mp hwa).1.trans_le hrun)

include hs hl in
/-- **A racing reader reports exactly the Collections that some copy held whole**, one Record each,
in the order they ran. -/
theorem outs_polls (pid : ℕ) (iid : ℤ) {ts : List ℕ} (hts : ts.Pairwise (· ≤ ·)) :
    List.Forall₂ (Describes fadd calls iid)
      (Mealy.outs Cursor.apply (Cursor.new : Cursor F) (polls fadd d calls pid iid ts))
      (seenWhole fadd d calls ts) := by
  induction ts using List.reverseRecOn with
  | nil =>
    rw [show seenWhole fadd d calls [] = [] from List.filter_eq_nil_iff.mpr fun q _ => by simp]
    exact List.Forall₂.nil
  | append_singleton ts t ih =>
    obtain ⟨hts, -, hle⟩ := List.pairwise_append.mp hts
    have hle : ∀ s ∈ ts, s ≤ t := fun s hst => hle s hst t (List.mem_singleton_self t)
    rw [polls_concat, Mealy.outs_concat, seenWhole_concat hs hl hle]
    exact List.rel_append (ih hts) (forall₂_returnedAt hs hl hle pid)

include hs in
theorem pairwise_seenWhole (ts : List ℕ) : (seenWhole fadd d calls ts).Pairwise fun a b =>
    calls[a].tsStop.toInt ≤ calls[b].tsStart.toInt := by
  refine List.Pairwise.imp (fun {a b} (hab : a < b) => ?_) ((List.pairwise_lt_finRange _).filter _)
  exact List.pairwise_iff_getElem.mp hs.2 a b a.isLt b.isLt hab

/-- **A racing reader misses only what no copy held whole.** Over any copies of the region taken
between two stores, the cursor returns one Record of each Collection that some copy held whole, in the
order the Collections ran, and nothing else; so what it reports of one interpreter is in time order
and never overlaps, across all its generations. -/
theorem race_complete (hs : Sequential calls) (hl : calls.length < 2 ^ 63) (pid : ℕ) (iid : ℤ)
    {ts : List ℕ} (hts : ts.Pairwise (· ≤ ·)) :
    List.Forall₂ (Describes fadd calls iid)
        (Mealy.outs Cursor.apply (Cursor.new : Cursor F) (polls fadd d calls pid iid ts))
        (seenWhole fadd d calls ts) ∧
      (Mealy.outs Cursor.apply (Cursor.new : Cursor F) (polls fadd d calls pid iid ts)).Pairwise
        fun a b => a.tsStop ≤ b.tsStart := by
  have h := @outs_polls fadd d calls F _ hs hl pid iid ts hts
  refine ⟨h, ListFacts.pairwise_of_forall₂ h (pairwise_seenWhole hs ts) fun ha hb hab => ?_⟩
  rw [ha.tsStop, hb.tsStart]
  exact hab

/-! ### Polling often enough -/

variable (d) in
/-- Between two copies no generation runs more Collections than the later copy has room for. -/
def KeepsUp (calls : List Call) (s t : ℕ) : Prop :=
  ∀ g, (callsOf g (writtenAt calls t)).length ≤
    (callsOf g (writtenAt calls s)).length + capacity d calls t g

instance (s t : ℕ) : Decidable (KeepsUp d calls s t) := by unfold KeepsUp; infer_instance

variable (fadd) in
include hs hl in
theorem isChain_keepsUp_iff (htime : ∀ q, TookTime calls q) {s : ℕ} {ts : List ℕ}
    (hts : (s :: ts).Pairwise (· ≤ ·)) : (s :: ts).IsChain (KeepsUp d calls) ↔
      ∀ q : Fin calls.length, s / 10 ≤ q → (q : ℕ) < ts.getLastD s / 10 →
        ∃ t ∈ ts, HeldWhole fadd d calls t q := by
  induction ts generalizing s with
  | nil =>
    simp only [List.isChain_singleton, List.getLastD_nil, true_iff]
    exact fun q h₁ h₂ => absurd h₂ (not_lt.mpr h₁)
  | cons t ts ih =>
    obtain ⟨hst, htt⟩ := List.pairwise_cons.mp hts
    have hle := (List.pairwise_cons.mp htt).1
    rw [List.isChain_cons_cons, ih htt, List.getLastD_cons]
    constructor
    · rintro ⟨hup, hrest⟩ q hsq hq
      rcases Nat.lt_or_ge q (t / 10) with hqt | hqt
      · refine ⟨t, List.mem_cons_self, (heldWhole_iff fadd hs hl (htime q) t).mpr ⟨hqt, ?_⟩⟩
        have := hup calls[q].gen
        have := (rank_lt_iff q s).not.mpr (not_lt.mpr hsq)
        omega
      · obtain ⟨u, hu, hw⟩ := hrest q hqt hq
        exact ⟨u, List.mem_cons_of_mem t hu, hw⟩
    · intro h
      constructor
      · intro g
        by_contra hlost
        -- the first Collection to run after the one copy is gone by the other
        obtain ⟨q, rfl, hqt, hrank⟩ := @exists_rank calls t
          (callsOf g (writtenAt calls s)).length g (by omega)
        have hsq : s / 10 ≤ q := not_lt.mp fun h => by
          have := (rank_lt_iff q s).mpr h
          omega
        have hlast : t ≤ ts.getLastD t := by
          rcases List.eq_nil_or_concat ts with rfl | ⟨l, u, rfl⟩
          · exact le_rfl
          · simpa using hle u (by simp)
        obtain ⟨u, hu, hw⟩ := h q hsq (hqt.trans_le (Nat.div_le_div_right hlast))
        have htu : t ≤ u := by
          rcases List.mem_cons.mp hu with rfl | hu
          · exact le_rfl
          · exact hle u hu
        have := ((heldWhole_iff fadd hs hl (htime q) t).mp
          (hw.of_le hs hl htu (htime q) hqt)).2
        omega
      · intro q hqt hq
        obtain ⟨u, hu, hw⟩ := h q ((Nat.div_le_div_right (hst t List.mem_cons_self)).trans hqt) hq
        rcases List.mem_cons.mp hu with rfl | hu
        · exact absurd ((heldWhole_iff fadd hs hl (htime q) u).mp hw).1 (not_lt.mpr hqt)
        · exact ⟨u, hu, hw⟩

variable (calls) in
/-- The Collections that had run by a moment. -/
def ranBy (t : ℕ) : List (Fin calls.length) :=
  (List.finRange calls.length).filter fun q => q < t / 10

/-- **How often a reader has to poll.** Where every Collection takes time, the cursor returns a Record
of every Collection that had run by the last copy exactly when between any two copies, and before the
first, no generation ran more Collections than the later copy has room for. -/
theorem race_reads_all_iff (hs : Sequential calls) (hl : calls.length < 2 ^ 63)
    (htime : ∀ q, TookTime calls q) (pid : ℕ) (iid : ℤ) {ts : List ℕ} (hts : ts.Pairwise (· ≤ ·)) :
    List.Forall₂ (Describes fadd calls iid)
        (Mealy.outs Cursor.apply (Cursor.new : Cursor F) (polls fadd d calls pid iid ts))
        (ranBy calls (History.lastInstant ts)) ↔
      (0 :: ts).IsChain (KeepsUp d calls) := by
  have hseen := @outs_polls fadd d calls F _ hs hl pid iid ts hts
  have himp : ∀ q, (TookTime calls q ∧ ∃ t ∈ ts, HeldWhole fadd d calls t q) →
      (q : ℕ) < History.lastInstant ts / 10 := by
    rintro q ⟨hq, t, ht, hw⟩
    exact ((heldWhole_iff fadd hs hl hq t).mp hw).1.trans_le
      (Nat.div_le_div_right (History.le_lastInstant hts ht))
  have hpos : (0 :: ts).Pairwise (· ≤ ·) := List.pairwise_cons.mpr ⟨fun t _ => t.zero_le, hts⟩
  rw [isChain_keepsUp_iff fadd hs hl htime hpos, List.getLastD_eq_getLast?]
  constructor
  · intro h q _ hq
    have hsub : (seenWhole fadd d calls ts).Sublist (ranBy calls (History.lastInstant ts)) :=
      List.monotone_filter_right _ fun q => by simpa using himp q
    have heq := hsub.eq_of_length (hseen.length_eq.symm.trans h.length_eq)
    have hmem : q ∈ ranBy calls (History.lastInstant ts) :=
      List.mem_filter.mpr ⟨List.mem_finRange q, decide_eq_true hq⟩
    rw [← heq, seenWhole, List.mem_filter, decide_eq_true_eq] at hmem
    exact hmem.2.2
  · intro h
    have heq : seenWhole fadd d calls ts = ranBy calls (History.lastInstant ts) :=
      List.filter_congr fun q _ => decide_eq_decide.mpr
        ⟨himp q, fun hlt => ⟨htime q, h q (Nat.zero_le _) hlt⟩⟩
    exact heq ▸ hseen

end Reader

/-- Three young Collections through a ring of two, read in the middle of the second and at the end:
the first is gone when the last copy is taken, and the first copy held it. -/
theorem race_complete_lapped :
    (Mealy.outs Cursor.apply (Cursor.new : Cursor (Secs fun _ => 0))
      (polls (· + ·) ⟨2, 1, by decide, by decide, by decide⟩
        [⟨0, 5, 9, 0, 7, 0, 40⟩, ⟨0, 20, 23, 0, 3, 0, 38⟩, ⟨0, 30, 34, 0, 4, 0, 37⟩] 7 0 [15, 30])).Pairwise
      fun a b => a.tsStop ≤ b.tsStart :=
  (@race_complete (· + ·) ⟨2, 1, by decide, by decide, by decide⟩
    [⟨0, 5, 9, 0, 7, 0, 40⟩, ⟨0, 20, 23, 0, 3, 0, 38⟩, ⟨0, 30, 34, 0, 4, 0, 37⟩]
    (Secs fun _ => 0) _ (by decide) (by decide) 7 0 [15, 30] (by decide)).2

/-- Polled so, the reader misses nothing. -/
theorem race_reads_all_iff_lapped :
    List.Forall₂ (Describes (· + ·)
        [⟨0, 5, 9, 0, 7, 0, 40⟩, ⟨0, 20, 23, 0, 3, 0, 38⟩, ⟨0, 30, 34, 0, 4, 0, 37⟩] 0)
      (Mealy.outs Cursor.apply (Cursor.new : Cursor (Secs fun _ => 0))
        (polls (· + ·) ⟨2, 1, by decide, by decide, by decide⟩
          [⟨0, 5, 9, 0, 7, 0, 40⟩, ⟨0, 20, 23, 0, 3, 0, 38⟩, ⟨0, 30, 34, 0, 4, 0, 37⟩] 7 0 [15, 30]))
      (ranBy _ (History.lastInstant [15, 30])) :=
  (@race_reads_all_iff (· + ·) ⟨2, 1, by decide, by decide, by decide⟩
    [⟨0, 5, 9, 0, 7, 0, 40⟩, ⟨0, 20, 23, 0, 3, 0, 38⟩, ⟨0, 30, 34, 0, 4, 0, 37⟩]
    (Secs fun _ => 0) _ (by decide) (by decide) (by decide) 7 0 [15, 30] (by decide)).mpr (by decide)

end GcScope.Probe
