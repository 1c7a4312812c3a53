import GcScope.Lib.ListFacts
import GcScope.Monitor.Eviction
import GcScope.Probe.Decode

/-!
# A reader racing the Probe's writer

The writer's stores land one by one; the reader copies the whole region between any two of them and
hands what it decodes to the cursor. Nothing locks the region: what keeps a half-written Entry out
is that its start is stored first and its stop last.

* `regionAt`: the region once the first `t` stores of a history of calls have landed.
* **`entry_regionAt`**: at any moment each slot holds totals completely written before, or an Entry
  that reads as in flight.
* **`race_exact`**: so what the cursor returns was completely written, and is returned once.
-/

set_option autoImplicit false

namespace GcScope.Probe

open LittleEndian OverwritingRing

/-- Start times are non-negative, and no start precedes the previous stop. -/
def Serial (l : List Call) : Prop :=
  (∀ c ∈ l, 0 ≤ c.tsStart.toInt) ∧ l.IsChain fun a b => a.tsStop.toInt ≤ b.tsStart.toInt

instance (l : List Call) : Decidable (Serial l) := by unfold Serial; infer_instance

/-- The Entry reads as in flight, or as never written. -/
def GenerationStats.InFlight (e : GenerationStats) : Prop := e.tsStop.toInt ≤ e.tsStart.toInt

section Writer

variable (fadd : BitVec 64 → BitVec 64 → BitVec 64) {d : Depths}

/-- The stores of a history of calls, in program order. -/
def historyStores (s : Stats d) : List Call → List (Stats d → Stats d)
  | [] => []
  | c :: calls => stores fadd s c ++ historyStores (addStats fadd s c) calls

variable (d) in
/-- The region once the first `t` stores of a history of calls have landed. -/
def regionAt (calls : List Call) (t : ℕ) : Stats d :=
  ((historyStores fadd (.zero d) calls).take t).foldl (fun s f => f s) (.zero d)

/-- The calls whose stores have all landed, ten a call. -/
def writtenAt (calls : List Call) (t : ℕ) : List Call := calls.take (t / 10)

/-- At any moment the writer is in the middle of one call, or has finished them all. -/
theorem foldl_historyStores (s : Stats d) (calls : List Call) (t : ℕ) :
    ((historyStores fadd s calls).take t).foldl (fun s f => f s) s =
        (writtenAt calls t).foldl (addStats fadd) s ∨
      ∃ c rest, calls = writtenAt calls t ++ c :: rest ∧
        ((historyStores fadd s calls).take t).foldl (fun s f => f s) s =
          partialAdd fadd ((writtenAt calls t).foldl (addStats fadd) s) c (t % 10) := by
  induction calls generalizing s t with
  | nil => exact Or.inl (by simp [historyStores, writtenAt])
  | cons c calls ih =>
    rcases Nat.lt_or_ge t 10 with ht | ht
    · -- inside the first call
      right
      have hw : writtenAt (c :: calls) t = [] := by rw [writtenAt, Nat.div_eq_of_lt ht]; rfl
      have htake : (historyStores fadd s (c :: calls)).take t = (stores fadd s c).take t :=
        List.take_append_of_le_length (by rw [length_stores]; omega)
      rw [hw, htake, Nat.mod_eq_of_lt ht]
      exact ⟨c, calls, rfl, rfl⟩
    · obtain ⟨u, rfl⟩ := Nat.exists_eq_add_of_le ht
      have hw : writtenAt (c :: calls) (10 + u) = c :: writtenAt calls u := by
        rw [writtenAt, Nat.add_div_left u (by decide)]; rfl
      have htake : ((historyStores fadd s (c :: calls)).take (10 + u)).foldl (fun s f => f s) s =
          ((historyStores fadd (addStats fadd s c) calls).take u).foldl (fun s f => f s)
            (addStats fadd s c) := by
        have hcut : (stores fadd s c ++ historyStores fadd (addStats fadd s c) calls).take
            ((stores fadd s c).length + u) =
              stores fadd s c ++ (historyStores fadd (addStats fadd s c) calls).take u :=
          List.take_length_add_append u
        rw [length_stores] at hcut
        rw [historyStores, hcut, List.foldl_append, ← addStats]
      rw [hw, htake, List.foldl_cons, Nat.add_mod_left]
      refine (ih (addStats fadd s c) u).imp id ?_
      rintro ⟨c', rest, hc, hs⟩
      exact ⟨c', rest, by rw [List.cons_append, ← hc], hs⟩

theorem stamps_midway (e : GenerationStats) (c : Call) {k : ℕ} (h₀ : 0 < k) (h₈ : k < 8) :
    (((fieldStores fadd c).take k).foldl (fun e f => f e) e).tsStart = c.tsStart ∧
      (((fieldStores fadd c).take k).foldl (fun e f => f e) e).tsStop = e.tsStop := by
  interval_cases k <;> exact ⟨rfl, rfl⟩

/-- Inside a call each slot still holds an Entry of its ring, or the start of this call over the
stop of the previous one. -/
theorem entry_partialAdd (s : Stats d) (c : Call) {m : ℕ} (hm : m < 10) (g : Fin 3)
    (i : Fin (d.of g)) :
    (∃ j, ((partialAdd fadd s c m).buffer g).items i = (s.buffer g).items j) ∨
      c.gen = g ∧ (((partialAdd fadd s c m).buffer g).items i).tsStart = c.tsStart ∧
        (((partialAdd fadd s c m).buffer g).items i).tsStop =
          ((s.buffer g).items (s.buffer g).index).tsStop := by
  match m with
  | 0 => exact Or.inl ⟨i, rfl⟩
  | 1 =>
    rw [partialAdd_one]
    by_cases hg : g = c.gen
    · subst hg
      rw [Stats.modify_buffer_self]
      exact Or.inl ⟨i, rfl⟩
    · rw [Stats.modify_buffer_of_ne s hg]
      exact Or.inl ⟨i, rfl⟩
  | k + 2 =>
    rw [partialAdd_add_two]
    by_cases hg : g = c.gen
    · subst hg
      simp only [Stats.modify_buffer_self, Function.update_apply, true_and]
      split_ifs with hi
      · rcases Nat.eq_zero_or_pos k with rfl | hk
        · exact Or.inl ⟨_, rfl⟩
        · exact Or.inr (stamps_midway fadd _ c hk (by omega))
      · exact Or.inl ⟨i, rfl⟩
    · rw [Stats.modify_buffer_of_ne s hg]
      exact Or.inl ⟨i, rfl⟩

theorem exists_slotAt (n : ℕ) (l : List Call) (i : ℕ) :
    ∃ j ≤ l.length, slotAt fadd n l i = totals fadd (l.take j) := by
  rw [slotAt]
  cases h : latestIn n (l.length + 1) i with
  | none => exact ⟨0, Nat.zero_le _, rfl⟩
  | some j => exact ⟨j, Nat.lt_succ_iff.mp (latestIn_eq_some_iff.mp h).2.1, rfl⟩

theorem Serial.stop_le {l rest : List Call} {c : Call} (h : Serial (l ++ c :: rest)) :
    (totals fadd l).tsStop.toInt ≤ c.tsStart.toInt := by
  rw [totals_eq]
  rcases List.eq_nil_or_concat l with rfl | ⟨l, last, rfl⟩
  · exact h.1 c (by simp)
  · rw [List.concat_eq_append] at h ⊢
    have hc := h.2
    rw [List.append_assoc, List.singleton_append] at hc
    simpa using (List.isChain_append_cons_cons.mp hc).2.1

/-- **At any moment each slot holds totals completely written before, or an Entry that reads as in
flight.** -/
theorem entry_regionAt {calls : List Call} (h : ∀ g, Serial (callsOf g calls)) (t : ℕ) (g : Fin 3)
    (i : Fin (d.of g)) :
    (∃ j ≤ (callsOf g (writtenAt calls t)).length, ((regionAt fadd d calls t).buffer g).items i =
        totals fadd ((callsOf g (writtenAt calls t)).take j)) ∨
      (((regionAt fadd d calls t).buffer g).items i).InFlight := by
  obtain ⟨hitems, hindex⟩ := buffer_run fadd (d := d) (writtenAt calls t) g
  have hslot : ∀ i, ∃ j ≤ (callsOf g (writtenAt calls t)).length,
      ((run fadd d (writtenAt calls t)).buffer g).items i =
        totals fadd ((callsOf g (writtenAt calls t)).take j) := fun i => by
    rw [hitems]
    exact exists_slotAt fadd _ _ _
  rcases foldl_historyStores fadd (.zero d) calls t with hr | ⟨c, rest, hc, hr⟩
  · rw [regionAt, hr]
    exact Or.inl (hslot i)
  · rw [regionAt, hr]
    rcases entry_partialAdd fadd ((writtenAt calls t).foldl (addStats fadd) (.zero d)) c
      (Nat.mod_lt t (by decide)) g i with ⟨j, hj⟩ | ⟨rfl, hstart, hstop⟩
    · rw [hj]
      exact Or.inl (hslot j)
    · right
      have hlast : ((run fadd d (writtenAt calls t)).buffer c.gen).items
          ((run fadd d (writtenAt calls t)).buffer c.gen).index =
            totals fadd (callsOf c.gen (writtenAt calls t)) := by
        rw [hitems, hindex, slotAt_last fadd (d.of_pos _)]
      have hs := h c.gen
      rw [hc, callsOf, List.filter_append, List.filter_cons_of_pos (by simp)] at hs
      rw [GenerationStats.InFlight, hstart, hstop]
      exact hlast ▸ hs.stop_le fadd

end Writer

/-! ## The reader -/

section Reader

variable (fadd : BitVec 64 → BitVec 64 → BitVec 64) (d : Depths) (calls : List Call)

/-- What the reader decodes of a copy of the region taken at moment `t`. -/
def snapshotAt (iid : ℤ) (t : ℕ) : List GcStat :=
  (probeTable d).decodeGcStats (regionAt fadd d calls t).bytes iid

/-- The reader's polls: a copy at each of the given moments. -/
def polls (pid : ℕ) (iid : ℤ) (ts : List ℕ) : List CursorOp :=
  (ts.map (snapshotAt fadd d calls iid)).map (CursorOp.admitRecords pid)

variable {fadd d calls} {F : Type} [F64 F]

theorem mem_snapshotAt {iid : ℤ} {t : ℕ} {r : GcStat} : r ∈ snapshotAt fadd d calls iid t ↔
    ∃ g : Fin 3, ∃ i : Fin (d.of g),
      recordOf g i iid (((regionAt fadd d calls t).buffer g).items i) = r := by
  rw [snapshotAt, decode_bytes]
  simp

theorem names_snapshotAt (iid : ℤ) (t : ℕ) : names (snapshotAt fadd d calls iid t) = {iid} := by
  ext i
  rw [mem_names, Finset.mem_singleton]
  constructor
  · rintro ⟨r, hr, rfl⟩
    obtain ⟨g, i, rfl⟩ := mem_snapshotAt.mp hr
    rfl
  · rintro rfl
    exact ⟨_, mem_snapshotAt.mpr ⟨0, ⟨0, d.of_pos 0⟩, rfl⟩, rfl⟩

/-- What the cursor takes has a start before its stop. -/
theorem not_inFlight_of_eligible {g : Fin 3} {i : ℕ} {iid : ℤ} {e : GenerationStats}
    (h : (recordOf g i iid e).Eligible) : ¬ e.InFlight := by
  have hc := h.1
  rw [GcStat.isComplete_of_hasTiming _ (by rfl), decide_eq_true_eq, tsStart_recordOf,
    tsStop_recordOf] at hc
  exact not_le.mpr hc

/-- **An eligible Record of any copy was completely written before the copy was taken.** -/
theorem written_of_eligible (h : ∀ g, Serial (callsOf g calls)) {iid : ℤ} {t : ℕ} {r : GcStat}
    (hr : r ∈ snapshotAt fadd d calls iid t) (he : r.Eligible) :
    ∃ g : Fin 3, ∃ j < (callsOf g (writtenAt calls t)).length, ∃ i,
      r = recordOf g i iid (totals fadd ((callsOf g (writtenAt calls t)).take (j + 1))) := by
  obtain ⟨g, i, rfl⟩ := mem_snapshotAt.mp hr
  rcases entry_regionAt fadd h t g i with ⟨j, hj, hi⟩ | hi
  · cases j with
    | zero =>
      -- the zero Entry reads as never written
      rw [hi] at he
      exact absurd (le_refl (0 : ℤ)) (not_inFlight_of_eligible he)
    | succ j => exact ⟨g, j, hj, i, by rw [hi]⟩
  · exact absurd hi (not_inFlight_of_eligible he)

/-- **A racing reader never takes a torn Record.** Over any history of calls and any copies of the
region taken between two stores, every Record the cursor returns was completely written before its
copy was taken, and no counter of a generation is returned twice. -/
theorem race_exact (h : ∀ g, Serial (callsOf g calls)) (pid : ℕ) (iid : ℤ) (ts : List ℕ) :
    (∀ pre t post, ts = pre ++ t :: post →
      ∀ r ∈ ((Mealy.exec Cursor.apply (Cursor.new : Cursor F)
        (polls fadd d calls pid iid pre)).admitRecords pid (snapshotAt fadd d calls iid t)).2,
        ∃ g : Fin 3, ∃ j < (callsOf g (writtenAt calls t)).length, ∃ i,
          r = recordOf g i iid (totals fadd ((callsOf g (writtenAt calls t)).take (j + 1)))) ∧
    ((Mealy.outs Cursor.apply (Cursor.new : Cursor F) (polls fadd d calls pid iid ts)).map
      fun r => (r.generation, r.collections)).Nodup := by
  constructor
  · rintro pre t post - r hr
    obtain ⟨hmem, he⟩ := Cursor.mem_admitRecords hr
    exact written_of_eligible h hmem he
  · refine ListFacts.nodup_map_pair fun g => ?_
    have hk : (Cursor.new : Cursor F).Keeps ⟨pid, iid, g⟩
        ((polls fadd d calls pid iid ts).flatMap CursorOp.steps) :=
      Cursor.keeps_of_names_eq (F := F) (fun records hr => by
        obtain ⟨t, -, rfl⟩ := List.mem_map.mp hr
        exact names_snapshotAt iid t) g
    have hring : (Mealy.outs Cursor.apply (Cursor.new : Cursor F)
        (polls fadd d calls pid iid ts)).filter (fun r => r.generation = g) =
          Cursor.returnedOf ⟨pid, iid, g⟩ (Cursor.new : Cursor F)
            (polls fadd d calls pid iid ts) := by
      refine Eq.trans ?_ (Cursor.returnedOf_polls (F := F) ⟨pid, iid, g⟩ Cursor.new _).symm
      refine List.filter_congr fun r hr => ?_
      -- every Record returned is one of the reader's own interpreter
      obtain ⟨pre, op, post, hops, hr⟩ := (Mealy.mem_outs _).mp hr
      have hop : op ∈ polls fadd d calls pid iid ts := by rw [hops]; simp
      obtain ⟨records, hrec, rfl⟩ := List.mem_map.mp hop
      obtain ⟨t, -, rfl⟩ := List.mem_map.mp hrec
      obtain ⟨g', i, rfl⟩ := mem_snapshotAt.mp (Cursor.mem_admitRecords hr).1
      rw [decide_eq_decide]
      simp [GcStat.ring, recordOf]
    rw [hring]
    exact Cursor.nodup_returnedOf (F := F) (by simp [Cursor.new]) hk

end Reader

/-- A ring of one, read in the middle of the second call and after it. -/
theorem race_exact_single_slot :
    ((Mealy.outs Cursor.apply (Cursor.new : Cursor (Secs fun _ => 0))
      (polls (· + ·) ⟨1, 1, by decide, by decide, by decide⟩ [⟨0, 5, 9, 0, 7, 0, 40⟩, ⟨0, 20, 23, 0, 3, 0, 38⟩]
        7 0 [10, 12, 15, 20])).map fun r => (r.generation, r.collections)).Nodup :=
  (@race_exact (· + ·) ⟨1, 1, by decide, by decide, by decide⟩ [⟨0, 5, 9, 0, 7, 0, 40⟩, ⟨0, 20, 23, 0, 3, 0, 38⟩]
    (Secs fun _ => 0) _ (by decide) 7 0 [10, 12, 15, 20]).2

end GcScope.Probe
