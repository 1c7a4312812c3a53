import GcScope.Probe.Region

/-!
# Decoding the Probe's region

The region's bytes, decoded with the ring geometry of its depths, read back Entry by Entry.

* `probeTable`: the table a reader resolves for a Probe of these depths.
* **`decode_bytes`**: the decoder yields the Entry of every slot, generation by generation.
* `cumulative`: what one Record should say, from the calls alone; `published` is what it says.
* **`decode_run`**: after any run of calls each ring reads as its last cumulative Records.
-/

set_option autoImplicit false

namespace GcScope.Probe

open LittleEndian MachineInt OverwritingRing OffsetTable

/-- The table a reader resolves for the region: the ring geometry, at these depths. -/
def probeTable (d : Depths) : OffsetTable :=
  { OffsetTable.blank with
    gcStatsKind := .ringBuffer
    gcLayout := some ringLayout
    gcItemSize := some ringLayout.itemSize
    gcEntriesPerGen := some d.of
    gcGenBaseOffsets := some (computeRingBaseOffsets ringLayout.itemSize d.of)
    gcStatsAddrIsPerInterp := true }

/-- The Record an Entry decodes to. -/
def recordOf (g : Fin 3) (i : ℕ) (iid : ℤ) (e : GenerationStats) : GcStat :=
  ⟨g, i, iid, wordsBytes e.words, ringLayout⟩

section Decoder

variable {d : Depths}

theorem probeTable_decodes (d : Depths) :
    (probeTable d).Decodes 64 d.of (computeRingBaseOffsets 64 d.of) ringLayout :=
  ⟨rfl, by decide, rfl, rfl, rfl⟩

theorem StatsBuffer.length_itemWords {n : ℕ} (b : StatsBuffer n) : b.itemWords.length = 8 * n :=
  length_flatMap_chunks fun i => (b.items i).length_words

theorem Stats.words_eq (s : Stats d) :
    s.words = (s.buffer 0).words ++ ((s.buffer 1).words ++ (s.buffer 2).words) := by
  simp [Stats.words, List.finRange_succ]

theorem computeRingBaseOffsets_of (d : Depths) : computeRingBaseOffsets 64 d.of =
    ![0, d.young * 64 + 8, d.young * 64 + 8 + d.old * 64 + 8] := by
  have := d.fits
  rw [computeRingBaseOffsets, wrapU64_of_lt, wrapU64_of_lt]
  · rfl
  all_goals
    simp only [Depths.of, Matrix.cons_val_zero, Matrix.cons_val_one]
    omega

theorem Stats.words_split (s : Stats d) (g : Fin 3) : ∃ pre post,
    s.words = pre ++ ((s.buffer g).itemWords ++ post) ∧
      8 * pre.length = computeRingBaseOffsets 64 d.of g := by
  have hring : ∀ g, (s.buffer g).words =
      (s.buffer g).itemWords ++ [BitVec.ofNat 64 (s.buffer g).index] := fun g => rfl
  have hlen : ∀ g, (s.buffer g).words.length = 8 * d.of g + 1 := fun g => by
    rw [hring, List.length_append, StatsBuffer.length_itemWords, List.length_singleton]
  rw [Stats.words_eq, computeRingBaseOffsets_of]
  fin_cases g
  · exact ⟨[], _, by rw [hring 0, List.append_assoc]; rfl, rfl⟩
  · refine ⟨(s.buffer 0).words, _, by rw [hring 1, List.append_assoc]; rfl, ?_⟩
    rw [hlen]
    simp [Depths.of]
    ring
  · refine ⟨(s.buffer 0).words ++ (s.buffer 1).words, _,
      by rw [← List.append_assoc, hring 2]; rfl, ?_⟩
    rw [List.length_append, hlen, hlen]
    simp [Depths.of]
    ring

/-- **The decoder yields the Entry of every slot**, generation by generation. -/
theorem decode_bytes (s : Stats d) (iid : ℤ) : (probeTable d).decodeGcStats s.bytes iid =
    (List.finRange 3).flatMap fun g =>
      (List.finRange (d.of g)).map fun i : Fin (d.of g) =>
        recordOf g i iid ((s.buffer g).items i) := by
  have hfit : ∀ g : Fin 3, computeRingBaseOffsets 64 d.of g + d.of g * 64 ≤ s.bytes.length := by
    intro g
    obtain ⟨pre, post, hw, hb⟩ := s.words_split g
    rw [Stats.bytes, hw, length_wordsBytes, List.length_append, List.length_append,
      StatsBuffer.length_itemWords, ← hb]
    ring_nf
    omega
  rw [(probeTable_decodes d).decodeGcStats ((wrapU64_le _).trans (hfit 2))]
  refine List.flatMap_congr fun g _ => ?_
  obtain ⟨pre, post, hw, hb⟩ := s.words_split g
  have hall : ((List.range (d.of g)).filter fun i =>
      computeRingBaseOffsets 64 d.of g + i * 64 + 64 ≤ s.bytes.length) = List.range (d.of g) := by
    refine List.filter_eq_self.mpr fun i hi => ?_
    have := hfit g
    have := List.mem_range.mp hi
    rw [decide_eq_true_eq]
    omega
  rw [decodeGeneration_eq_filter, hall, ← List.map_coe_finRange_eq_range, List.map_map]
  refine List.map_congr_left fun i _ => ?_
  -- the window of Entry `i` is cut at word boundaries
  have hwin : (s.bytes.drop (computeRingBaseOffsets 64 d.of g + i * 64)).take 64 =
      wordsBytes ((s.buffer g).items i).words := by
    rw [← hb, Stats.bytes, show 8 * pre.length + i * 64 = 8 * (pre.length + 8 * i) by ring,
      wordsBytes_drop]
    refine (wordsBytes_take _ 8).trans ?_
    rw [hw, ← List.drop_drop, List.drop_left]
    exact congrArg wordsBytes (flatMap_chunk (fun j => ((s.buffer g).items j).length_words) post i)
  rw [Function.comp_apply, entryAt, hwin, recordOf]

end Decoder

/-! ## What a Record says -/

section Published

variable {F : Type} [F64 F] {d : Depths}

/-- The fields of a Record, as the typed accessors read them. -/
structure Published (F : Type) where
  collections : ℤ
  collected : ℤ
  uncollectable : ℤ
  candidates : ℤ
  duration : F
  tsStart : ℤ
  tsStop : ℤ
  heapSize : ℤ
  deriving DecidableEq

variable (F) in
/-- What a Record says. -/
def published (s : GcStat) : Published F where
  collections := s.collections
  collected := s.collected
  uncollectable := s.uncollectable
  candidates := s.candidates
  duration := s.duration
  tsStart := s.tsStart
  tsStop := s.tsStop
  heapSize := s.heapSize

/-- The all-zero Record. -/
def Published.zero : Published F := ⟨0, 0, 0, 0, F64.ofBits 0, 0, 0, 0⟩

-- `fadd` is the addition of doubles, on the words that hold them
variable (fadd : BitVec 64 → BitVec 64 → BitVec 64)

/-- What the Record of a generation's latest call should say: the running totals of its calls, and
the start, stop and heap size of the latest. -/
def cumulative (l : List Call) : Published F where
  collections := l.length
  collected := (l.map fun c => c.collected.toInt).sum
  uncollectable := (l.map fun c => c.uncollectable.toInt).sum
  candidates := 0
  duration := F64.ofBits ((l.map Call.duration).foldl fadd 0)
  tsStart := (l.getLast?.map fun c => c.tsStart.toInt).getD 0
  tsStop := (l.getLast?.map fun c => c.tsStop.toInt).getD 0
  heapSize := (l.getLast?.map fun c => c.heapSize.toInt).getD 0

/-- Every running total of a generation's calls is a signed 64-bit integer. -/
def TotalsInRange (l : List Call) : Prop := ∀ j ≤ l.length,
  InI64 j ∧ InI64 ((l.take j).map fun c => c.collected.toInt).sum ∧
    InI64 ((l.take j).map fun c => c.uncollectable.toInt).sum

instance (l : List Call) : Decidable (TotalsInRange l) :=
  inferInstanceAs (Decidable (∀ j ≤ l.length, _))

theorem cumulative_nil : cumulative (F := F) fadd [] = .zero := rfl

theorem get_recordOf {g : Fin 3} {i : ℕ} {iid : ℤ} {e : GenerationStats} {name : String} {k : ℕ}
    (h : ringLayout.fieldOffset name = some (8 * k)) :
    (recordOf g i iid e).get name = e.words[k]?.map BitVec.toInt := by
  rw [GcStat.get, recordOf, h, Option.bind_some, GcStat.rawAt, readWord_wordsBytes]

theorem getF64_recordOf {g : Fin 3} {i : ℕ} {iid : ℤ} {e : GenerationStats} :
    (recordOf g i iid e).getF64 "duration" = some (F64.ofBits e.duration : F) := by
  have h : ringLayout.fieldOffset "duration" = some (8 * 6) := by decide
  rw [GcStat.getF64, recordOf, h, Option.bind_some, GcStat.rawAt, readWord_wordsBytes]
  rfl

theorem published_recordOf (g : Fin 3) (i : ℕ) (iid : ℤ) (e : GenerationStats) :
    published F (recordOf g i iid e) =
      ⟨e.collections.toInt, e.collected.toInt, e.uncollectable.toInt, e.candidates.toInt,
        F64.ofBits e.duration, e.tsStart.toInt, e.tsStop.toInt, e.heapSize.toInt⟩ := by
  rw [published, GcStat.collections, GcStat.collected, GcStat.uncollectable, GcStat.candidates,
    GcStat.duration, GcStat.tsStart, GcStat.tsStop, GcStat.heapSize, getF64_recordOf,
    get_recordOf (k := 2) (by decide), get_recordOf (k := 3) (by decide),
    get_recordOf (k := 4) (by decide), get_recordOf (k := 5) (by decide),
    get_recordOf (k := 0) (by decide), get_recordOf (k := 1) (by decide),
    get_recordOf (k := 7) (by decide)]
  rfl

theorem tsStart_recordOf (g : Fin 3) (i : ℕ) (iid : ℤ) (e : GenerationStats) :
    (recordOf g i iid e).tsStart = e.tsStart.toInt := by
  rw [GcStat.tsStart, get_recordOf (k := 0) (by decide)]
  rfl

theorem tsStop_recordOf (g : Fin 3) (i : ℕ) (iid : ℤ) (e : GenerationStats) :
    (recordOf g i iid e).tsStop = e.tsStop.toInt := by
  rw [GcStat.tsStop, get_recordOf (k := 1) (by decide)]
  rfl

theorem toInt_sum (l : List (BitVec 64)) : l.sum.toInt = wrap64 (l.map BitVec.toInt).sum := by
  induction l with
  | nil => rfl
  | cons w l ih =>
    rw [List.sum_cons, List.map_cons, List.sum_cons, BitVec.toInt_add, ih, add_comm, add_comm w.toInt]
    exact wrap64_add_wrap64 _ _

/-- **The Entry of a run of calls says what it should**, as long as its totals are in range. -/
theorem published_totals (g : Fin 3) (i : ℕ) (iid : ℤ) {l : List Call} (h : TotalsInRange l) :
    published F (recordOf g i iid (totals fadd l)) = cumulative fadd l := by
  obtain ⟨hlen, hcol, hunc⟩ := h l.length le_rfl
  rw [List.take_length] at hcol hunc
  have hcount : (BitVec.ofNat 64 l.length).toInt = l.length := by
    rw [BitVec.toInt_ofNat']
    exact wrap64_of_inI64 hlen
  have hlast : ∀ f : Call → BitVec 64, ((l.getLast?.map f).getD 0).toInt =
      (l.getLast?.map fun c => (f c).toInt).getD 0 := fun f => by cases l.getLast? <;> rfl
  rw [published_recordOf, totals_eq, cumulative]
  simp only [hcount, hlast, toInt_sum, List.map_map, Function.comp_def, wrap64_of_inI64 hcol,
    wrap64_of_inI64 hunc]
  rfl

theorem TotalsInRange.take {l : List Call} (h : TotalsInRange l) (j : ℕ) :
    TotalsInRange (l.take j) := by
  intro i hi
  rw [List.length_take] at hi
  rw [List.take_take, min_eq_left (by omega)]
  exact h i (by omega)

/-! ## Whole regions -/

variable (F) in
/-- The last cumulative Records of a generation's calls, at most `n` of them. -/
def lastCumulative (n : ℕ) (l : List Call) : List (Published F) :=
  (List.range' (l.length - min l.length n + 1) (min l.length n)).map fun j =>
    cumulative fadd (l.take j)

theorem published_slotAt (g : Fin 3) (i n : ℕ) (iid : ℤ) {l : List Call} (h : TotalsInRange l) :
    published F (recordOf g i iid (slotAt fadd n l i)) =
      (latestIn n (l.length + 1) i).elim .zero fun j => cumulative fadd (l.take j) := by
  rw [slotAt]
  cases latestIn n (l.length + 1) i with
  | none => exact published_totals fadd g i iid (l := []) (by simpa using h.take 0)
  | some j => exact published_totals fadd g i iid (h.take j)

/-- **A ring reads as its last cumulative Records**, and zeros where no call has written. -/
theorem slots_perm (g : Fin 3) (n : ℕ) (iid : ℤ) {l : List Call}
    (h : TotalsInRange l) :
    ((List.range n).map fun i => published F (recordOf g i iid (slotAt fadd n l i))).Perm
      (lastCumulative F fadd n l ++ List.replicate (n - min l.length n) .zero) := by
  have hread : ((List.range n).map fun i =>
      published F (recordOf g i iid (slotAt fadd n l i))) = (List.range n).map fun i =>
        (latestIn n (l.length + 1) i).elim .zero fun j => cumulative (F := F) fadd (l.take j) :=
    List.map_congr_left fun i _ => published_slotAt fadd g i n iid h
  have hitems := filterMap_latestIn_perm n (l.length + 1)
  rw [filter_present] at hitems
  rw [hread]
  refine (map_elim_perm _ _ _ _).trans ?_
  rw [hitems.length_eq, List.length_range, List.length_range']
  refine ((hitems.map _).append_right _).trans ?_
  rcases Nat.lt_or_ge l.length n with hk | hk
  · -- the zero Record before the first call is still there
    rw [lastCumulative, min_eq_left (Nat.succ_le_of_lt hk), min_eq_left hk.le, Nat.sub_self,
      Nat.sub_self, List.range'_succ, List.map_cons, List.take_zero, cumulative_nil,
      show n - l.length = n - (l.length + 1) + 1 by omega, List.replicate_succ]
    exact List.perm_middle.symm
  · rw [lastCumulative, min_eq_right (Nat.le_succ_of_le hk), min_eq_right hk,
      Nat.succ_sub hk]

/-- The Records of one generation are those of its own ring. -/
theorem decode_generation (s : Stats d) (iid : ℤ) (g : Fin 3) :
    ((probeTable d).decodeGcStats s.bytes iid).filter (fun r => r.generation = g.val) =
      (List.finRange (d.of g)).map fun i : Fin (d.of g) =>
        recordOf g i iid ((s.buffer g).items i) := by
  have hone : ∀ g' : Fin 3, ((List.finRange (d.of g')).map fun i : Fin (d.of g') =>
      recordOf g' i iid ((s.buffer g').items i)).filter (fun r => r.generation = g.val) =
        if g' = g then (List.finRange (d.of g')).map fun i : Fin (d.of g') =>
          recordOf g' i iid ((s.buffer g').items i) else [] := by
    intro g'
    rw [List.filter_map]
    split_ifs with hg
    · subst hg
      rw [List.filter_eq_self.mpr fun i _ => by simp [recordOf]]
    · rw [List.filter_eq_nil_iff.mpr fun i _ => by simpa [recordOf, Fin.ext_iff] using hg]
      rfl
  rw [decode_bytes, List.filter_flatMap, List.flatMap_congr fun g' _ => hone g']
  fin_cases g <;> simp [List.finRange_succ]

/-- **After any run of calls the region decodes to each generation's last cumulative Records**, in
generation-major order, the remaining slots all zero. -/
theorem decode_run (d : Depths) (calls : List Call) (iid : ℤ)
    (h : ∀ g, TotalsInRange (callsOf g calls)) :
    ((probeTable d).decodeGcStats (run fadd d calls).bytes iid).map
        (fun r => (r.generation, r.index)) =
      ((List.finRange 3).flatMap fun g => (List.range (d.of g)).map fun i => ((g : ℕ), i)) ∧
    ∀ g, ((((probeTable d).decodeGcStats (run fadd d calls).bytes iid).filter
        fun r => r.generation = g.val).map (published F)).Perm
      (lastCumulative F fadd (d.of g) (callsOf g calls) ++
        List.replicate (d.of g - min (callsOf g calls).length (d.of g)) .zero) := by
  constructor
  · rw [decode_bytes, List.map_flatMap]
    refine List.flatMap_congr fun g _ => ?_
    rw [← List.map_coe_finRange_eq_range, List.map_map, List.map_map]
    rfl
  · intro g
    rw [decode_generation, List.map_map, List.map_congr_left fun i _ => by
      rw [Function.comp_apply, (buffer_run fadd calls g).1 i]]
    have hring := slots_perm (F := F) fadd g (d.of g) iid (h g)
    rwa [← List.map_coe_finRange_eq_range, List.map_map] at hring

end Published

/-- Three young Collections in a ring of two, and an old one in a ring of one. -/
theorem decode_run_lapped :
    ((((probeTable ⟨2, 1, by decide, by decide, by decide⟩).decodeGcStats
      (run (· + ·) ⟨2, 1, by decide, by decide, by decide⟩
        [⟨0, 5, 9, 0x3FF0000000000000, 7, 1, 40⟩, ⟨1, 10, 12, 0, 2, 0, 39⟩, ⟨0, 20, 23, 0, 3, 0, 38⟩,
          ⟨0, 30, 34, 0, 4, 2, 37⟩]).bytes 0).filter fun r => r.generation = (0 : Fin 3).val).map
            (published (Secs fun w => if w = 0x3FF0000000000000 then 1 else 0))).Perm
      [⟨2, 10, 1, 0, (1 : ℚ), 20, 23, 38⟩, ⟨3, 14, 3, 0, (1 : ℚ), 30, 34, 37⟩] :=
  (decode_run (F := Secs fun w => if w = 0x3FF0000000000000 then 1 else 0) (· + ·)
    ⟨2, 1, by decide, by decide, by decide⟩ [⟨0, 5, 9, 0x3FF0000000000000, 7, 1, 40⟩, ⟨1, 10, 12, 0, 2, 0, 39⟩,
      ⟨0, 20, 23, 0, 3, 0, 38⟩, ⟨0, 30, 34, 0, 4, 2, 37⟩] 0 (by decide)).2 0

end GcScope.Probe
