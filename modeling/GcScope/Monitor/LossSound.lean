import GcScope.Monitor.Checked

/-!
# When loss accounting is sound

An account is consistent as soon as the pauses it is made from fit a word. The counters fit by
themselves: the cursor accepts positive ones that increase. The totals of objects are not counters
it looks at.

* `RoundedF64`: double-precision arithmetic as rounded rational arithmetic.
* `SoundAccount`: what holds of the account of a timed ring.
* **`Folds.soundAccount`**: it holds where the pauses fit.
* `LossSound`, `LossInRange`: the whole run, and the condition on its Records.
* **`lossSound_iff`**: the one holds exactly when the other does.
-/

set_option autoImplicit false

namespace GcScope

open MachineInt Ledger

/-! ## The operations of an account -/

section Pause

variable {F : Type} [F64 F]

theorem account_coverage {o : RingObservation F} (he : o.isEmpty = false) (ht : o.timed = true) :
    (account o).coverage =
      F64.div (F64.ofInt (account o).observedCollections) (F64.ofInt (account o).exactCollections)
    := by
  cases hp : o.pricesPause <;> simp [account, he, ht, hp]

/-- The pause of a span, floored at the measured one. -/
def exactPause (o : RingObservation F) : ℤ :=
  max (if F64.isFinite (F64.sub o.last.duration o.first.duration) then
    saturatingAdd64 (secsToNs (F64.sub o.last.duration o.first.duration)) o.firstPauseNs
    else o.measuredPauseNs) o.measuredPauseNs

theorem inI64_exactPause {o : RingObservation F} (hm : InI64 o.measuredPauseNs) :
    InI64 (exactPause o) := by
  unfold exactPause
  rcases max_choice (if F64.isFinite (F64.sub o.last.duration o.first.duration) = true then
    saturatingAdd64 (secsToNs (F64.sub o.last.duration o.first.duration)) o.firstPauseNs
    else o.measuredPauseNs) o.measuredPauseNs with h | h
  · rw [h]
    split_ifs
    · exact inI64_clamp64 _
    · exact hm
  · rw [h]
    exact hm

theorem account_measured {o : RingObservation F} (he : o.isEmpty = false) (ht : o.timed = true) :
    (account o).measuredPauseNs = some o.measuredPauseNs := by
  cases hp : o.pricesPause <;> simp [account, he, ht, hp]

/-- Where a pause total exists, it is the exact pause, and what is above the measured one is
lost. -/
theorem account_pause {o : RingObservation F} {exact : ℤ}
    (h : (account o).exactPauseNs = some exact) : exact = exactPause o ∧
      (account o).lostPauseNs = some (wrap64 (exact - o.measuredPauseNs)) := by
  cases he : o.isEmpty with
  | true => simp [account, he, unobserved] at h
  | false =>
    cases ht : o.timed with
    | false => simp [account, he, ht, unobserved] at h
    | true =>
      cases hp : o.pricesPause with
      | false => simp [account, he, ht, hp, unobserved] at h
      | true =>
        simp only [account, he, ht, hp, Bool.false_eq_true, if_false, if_true, Bool.not_true] at h ⊢
        obtain rfl := Option.some.inj h
        exact ⟨rfl, rfl⟩

/-- An account whose differences fit overflows nowhere. -/
theorem accountChecked_eq {o : RingObservation F}
    (hrise : InI64 (o.last.collections - o.first.collections))
    (hexact : InI64 (wrap64 (o.last.collections - o.first.collections) + if o.timed then 1 else 0))
    (hlost : InI64 (wrap64 (wrap64 (o.last.collections - o.first.collections) +
      if o.timed then 1 else 0) - if o.timed then wrap64 o.sampled else 0))
    (hpause : InI64 (exactPause o - o.measuredPauseNs)) : accountChecked o = some (account o) := by
  unfold accountChecked account
  cases he : o.isEmpty with
  | true => rfl
  | false =>
    simp only [Bool.false_eq_true, if_false, Option.bind_eq_bind, checked64_of_inI64 hrise,
      Option.bind_some, checked64_of_inI64 hexact, checked64_of_inI64 hlost]
    cases ht : o.timed with
    | false => rfl
    | true =>
      cases hp : o.pricesPause with
      | false => rfl
      | true =>
        simp only [Bool.not_true, Bool.false_eq_true, if_false, if_true]
        rw [show (max _ _ : ℤ) = exactPause o from rfl, checked64_of_inI64 hpause]
        rfl

end Pause

/-! ## The account of a timed ring -/

/-- Double-precision arithmetic on values: an operation rounds its exact result, to the nearest, and
the powers of two in the range of a word are doubles. -/
class RoundedF64 (F : Type) [F64 F] where
  value : F → ℚ
  rounded : ℚ → ℚ
  rounded_mono : Monotone rounded
  rounded_two_pow : ∀ k : ℕ, k ≤ 63 → rounded (2 ^ k) = 2 ^ k ∧ rounded (1 / 2 ^ k) = 1 / 2 ^ k
  ofInt : ∀ n : ℤ, InI64 n →
    F64.isFinite (F64.ofInt n : F) = true ∧ value (F64.ofInt n : F) = rounded n
  div : ∀ a b : F, F64.isFinite a = true → F64.isFinite b = true → value b ≠ 0 →
    |value a| ≤ |value b| →
      F64.isFinite (F64.div a b) = true ∧ value (F64.div a b) = rounded (value a / value b)

/-- Rationals round to themselves. -/
instance (ofBits : BitVec 64 → ℚ) : RoundedF64 (Secs ofBits) where
  value x := x
  rounded x := x
  rounded_mono := monotone_id
  rounded_two_pow _ _ := ⟨rfl, rfl⟩
  ofInt _ _ := ⟨rfl, rfl⟩
  div a b _ _ _ _ := ⟨rfl, (Rat.div_def a b).symm ▸ rfl⟩

section Account

variable {F : Type} [F64 F] [RoundedF64 F]

/-- **A positive count over one that reaches it is in the unit interval**, above zero. -/
theorem ratio_mem_unit {m n : ℤ} (hm : 1 ≤ m) (hmn : m ≤ n) (hn : n < 2 ^ 63) :
    let ratio : F := F64.div (F64.ofInt m) (F64.ofInt n)
    F64.isFinite ratio = true ∧ 0 < RoundedF64.value ratio ∧ RoundedF64.value ratio ≤ 1 := by
  obtain ⟨hfm, hvm⟩ := RoundedF64.ofInt (F := F) m ((inI64_iff m).mpr ⟨by omega, by omega⟩)
  obtain ⟨hfn, hvn⟩ := RoundedF64.ofInt (F := F) n ((inI64_iff n).mpr ⟨by omega, by omega⟩)
  have hone : (RoundedF64.rounded F 1 : ℚ) = 1 := by
    simpa using (RoundedF64.rounded_two_pow (F := F) 0 (by omega)).1
  obtain ⟨hbig, hsmall⟩ := RoundedF64.rounded_two_pow (F := F) 63 le_rfl
  have hmono := RoundedF64.rounded_mono (F := F)
  have h₁ : 1 ≤ RoundedF64.value (F64.ofInt m : F) := by
    rw [hvm, ← hone]
    exact hmono (by exact_mod_cast hm)
  have h₂ : RoundedF64.value (F64.ofInt m : F) ≤ RoundedF64.value (F64.ofInt n : F) := by
    rw [hvm, hvn]
    exact hmono (by exact_mod_cast hmn)
  have h₃ : RoundedF64.value (F64.ofInt n : F) ≤ 2 ^ 63 := by
    rw [hvn, ← hbig]
    exact hmono (by exact_mod_cast hn.le)
  have hpos : 0 < RoundedF64.value (F64.ofInt n : F) := by linarith
  obtain ⟨hfinite, hvalue⟩ := RoundedF64.div (F64.ofInt m : F) (F64.ofInt n) hfm hfn hpos.ne'
    (by rw [abs_of_pos (by linarith), abs_of_pos hpos]; exact h₂)
  refine ⟨hfinite, ?_, ?_⟩
  · have hle : (1 / 2 ^ 63 : ℚ) ≤
        RoundedF64.value (F64.ofInt m : F) / RoundedF64.value (F64.ofInt n : F) :=
      div_le_div₀ (by linarith) h₁ hpos h₃
    rw [hvalue]
    calc (0 : ℚ) < 1 / 2 ^ 63 := by positivity
      _ = RoundedF64.rounded F (1 / 2 ^ 63) := hsmall.symm
      _ ≤ _ := hmono hle
  · rw [hvalue, ← hone]
    exact hmono ((div_le_one hpos).mpr h₂)

/-- What holds of the account of a ring with a Record of a timed build. -/
structure SoundAccount (a : LossAccount F) : Prop where
  total : a.observedCollections + a.lostCollections = a.exactCollections
  observed : 1 ≤ a.observedCollections ∧ a.observedCollections ≤ a.exactCollections
  coverage : F64.isFinite a.coverage = true ∧ 0 < RoundedF64.value a.coverage ∧
    RoundedF64.value a.coverage ≤ 1
  measured : ∃ measured, a.measuredPauseNs = some measured ∧ 0 < measured ∧
    ∀ exact, a.exactPauseNs = some exact →
      ∃ lost, a.lostPauseNs = some lost ∧ 0 ≤ lost ∧ exact = measured + lost

omit [RoundedF64 F] in
theorem ofRecords_words {r : GcStat} {l : List GcStat} (hp : ∀ x ∈ r :: l, InI64 x.pause)
    (hs : InI64 ((r :: l).map fun x => max x.pause 0).sum) :
    let o : RingObservation F := .ofRecords (r :: l)
    o.isEmpty = false ∧ o.timed = r.hasTiming ∧ InI64 o.measuredPauseNs ∧
      max r.pause 0 ≤ o.measuredPauseNs := by
  intro o
  have hm : o.measuredPauseNs = ((r :: l).map fun x => max x.pause 0).sum :=
    (ofRecords_sums (F := F) hp hs).2
  have hpos : ∀ x ∈ (r :: l).map fun x => max x.pause 0, 0 ≤ x := fun x hx => by
    obtain ⟨y, -, rfl⟩ := List.mem_map.mp hx
    exact le_max_right _ _
  refine ⟨by rw [RingObservation.isEmpty_ofRecords]; rfl, by
    rw [show o = .ofRecords (r :: l) from rfl, RingObservation.ofRecords_cons], hm ▸ hs, ?_⟩
  rw [hm]
  exact List.single_le_sum hpos _ (by simp)

omit [RoundedF64 F] in
theorem inI64_lostPause {o : RingObservation F} (hm : InI64 o.measuredPauseNs)
    (h₀ : 0 ≤ o.measuredPauseNs) :
    0 ≤ exactPause o - o.measuredPauseNs ∧ InI64 (exactPause o - o.measuredPauseNs) := by
  have hle : o.measuredPauseNs ≤ exactPause o := le_max_right _ _
  have hin := inI64_exactPause hm
  rw [inI64_iff] at hin ⊢
  omega

omit [RoundedF64 F] in
/-- **An account whose pauses fit overflows nowhere.** -/
theorem Folds.accountChecked {r : GcStat} {l : List GcStat} (h : Folds r l)
    (hp : ∀ x ∈ r :: l, InI64 x.pause) (hs : InI64 ((r :: l).map fun x => max x.pause 0).sum) :
    GcScope.accountChecked (.ofRecords (r :: l) : RingObservation F) =
      some (account (.ofRecords (r :: l))) := by
  obtain ⟨-, -, hm, hle⟩ := ofRecords_words (F := F) hp hs
  obtain ⟨hlen, hmax⟩ := h.rise
  have hrise : InI64 (((r :: l).getLast (List.cons_ne_nil r l)).collections - r.collections) :=
    (inI64_iff _).mpr ⟨by omega, by omega⟩
  have hpause := (inI64_lostPause hm ((le_max_right _ _).trans hle)).2
  refine accountChecked_eq ?_ ?_ ?_ hpause
  · rw [RingObservation.ofRecords_cons]
    exact hrise
  · rw [RingObservation.ofRecords_cons]
    simp only [Lifetime.of, wrap64_of_inI64 hrise]
    split_ifs
    · exact (inI64_iff _).mpr ⟨by omega, by omega⟩
    · rwa [add_zero]
  · rw [RingObservation.ofRecords_cons]
    simp only [Lifetime.of, wrap64_of_inI64 hrise]
    split_ifs
    · have hcount : InI64 ((l.length + 1 : ℕ) : ℤ) := (inI64_iff _).mpr
        ⟨by push_cast; omega, by push_cast; omega⟩
      have hexact : InI64 (((r :: l).getLast (List.cons_ne_nil r l)).collections -
          r.collections + 1) := (inI64_iff _).mpr ⟨by omega, by omega⟩
      rw [wrap64_of_inI64 hcount, wrap64_of_inI64 hexact, inI64_iff]
      push_cast
      omega
    · rwa [add_zero, sub_zero, wrap64_of_inI64 hrise]

/-- **The account of a timed ring is sound where the pauses fit.** -/
theorem Folds.soundAccount {r : GcStat} {l : List GcStat} (h : Folds r l)
    (ht : r.hasTiming = true) (hp : ∀ x ∈ r :: l, InI64 x.pause)
    (hs : InI64 ((r :: l).map fun x => max x.pause 0).sum) :
    SoundAccount (account (.ofRecords (r :: l) : RingObservation F)) := by
  obtain ⟨he, hto, hm, hle⟩ := ofRecords_words (F := F) hp hs
  obtain ⟨hlen, hmax⟩ := h.rise
  obtain ⟨hexact, hobs, hlost, hmeasured⟩ := h.account_counts (F := F)
  rw [if_pos ht] at hexact hobs
  have hobserved : 1 ≤ (account (.ofRecords (r :: l) : RingObservation F)).observedCollections ∧
      (account (.ofRecords (r :: l) : RingObservation F)).observedCollections ≤
        (account (.ofRecords (r :: l) : RingObservation F)).exactCollections := by
    rw [hexact, hobs]
    omega
  refine ⟨by rw [hlost]; ring, hobserved, ?_, ?_⟩
  · rw [account_coverage he (hto.trans ht)]
    exact ratio_mem_unit hobserved.1 hobserved.2 (by rw [hexact]; exact hmax)
  · have hpos : 0 < r.pause := pause_pos_of_timed (h.eligible r List.mem_cons_self) ht
    have hmpos : 0 < (RingObservation.ofRecords (r :: l) : RingObservation F).measuredPauseNs :=
      (hpos.trans_le (le_max_left _ _)).trans_le hle
    refine ⟨_, account_measured he (hto.trans ht), hmpos, fun exact hx => ?_⟩
    obtain ⟨rfl, hlostp⟩ := account_pause hx
    obtain ⟨h₀, hin⟩ := inI64_lostPause hm hmpos.le
    exact ⟨_, hlostp, by rw [wrap64_of_inI64 hin]; exact h₀, by rw [wrap64_of_inI64 hin]; ring⟩

end Account

/-! ## The run -/

section Run

variable (F : Type) [F64 F] [RoundedF64 F]

/-- Nothing overflows while Records are folded, accounted for and summarised, and the account of
every accumulator opened by a Record with timestamps is sound. -/
def LossSound (ops : List CursorOp) : Prop :=
  ∃ c : Cursor F, Cursor.runChecked F ops = some c ∧ (summarizeChecked c).isSome = true ∧
    ∀ e ∈ c.observations, (accountChecked e.2).isSome = true ∧
      (e.2.timed = true → SoundAccount (account e.2))

variable {F}

/-- The object totals of the first and the last Record folded differ by machine integers. -/
def TotalsFit (offers : List GcStat) : Prop :=
  ∀ first ∈ (folded offers).head?, ∀ last ∈ (folded offers).getLast?,
    InI64 (last.collected - first.collected) ∧ InI64 (last.uncollectable - first.uncollectable)

variable (F) in
/-- At every moment the pauses of the Records folded into an accumulator fit, one by one and
together, and at the end the object totals each accumulator spans do. -/
def LossInRange (ops : List CursorOp) : Prop :=
  (∀ pre post, ops.flatMap CursorOp.steps = pre ++ post →
    ∀ K, ∀ offers ∈ (ledger F pre).spansOf K, PausesFit offers) ∧
  ∀ K, ∀ offers ∈ (ledger F (ops.flatMap CursorOp.steps)).spansOf K, TotalsFit offers

omit [RoundedF64 F] in
/-- The row of an accumulator whose account is there overflows nowhere else exactly when its totals
fit. -/
theorem isSome_generationSummaryChecked {K : RingKey} {o : RingObservation F} {a : LossAccount F}
    (ha : accountChecked o = some a) : (generationSummaryChecked K o).isSome = true ↔
      InI64 (o.last.collected - o.first.collected) ∧
        InI64 (o.last.uncollectable - o.first.uncollectable) := by
  simp only [generationSummaryChecked, ha, Option.bind_eq_bind, Option.bind_some]
  by_cases h₁ : InI64 (o.last.collected - o.first.collected)
  · by_cases h₂ : InI64 (o.last.uncollectable - o.first.uncollectable)
    · simp [checked64_of_inI64 h₁, checked64_of_inI64 h₂, h₁, h₂]
    · simp [checked64_of_inI64 h₁, checked64_eq_none h₂, h₂]
  · simp [checked64_eq_none h₁, h₁]

/-- **The figures of one accumulator whose pauses fit.** -/
theorem figures_of_pausesFit {K : RingKey} {offers : List GcStat} (hne : offers ≠ [])
    (he : ∀ r ∈ offers, r.Eligible) (hfit : PausesFit offers) :
    let o : RingObservation F := .ofRecords (folded offers)
    (accountChecked o).isSome = true ∧ (o.timed = true → SoundAccount (account o)) ∧
      ((generationSummaryChecked K o).isSome = true ↔ TotalsFit offers) := by
  obtain ⟨r, l, hf, hfolds⟩ := folds_of_offers hne he
  rw [PausesFit, hf] at hfit
  have ha := hfolds.accountChecked (F := F) hfit.1 hfit.2
  obtain ⟨-, ht, -, -⟩ := ofRecords_words (F := F) hfit.1 hfit.2
  intro o
  have ho : o = .ofRecords (r :: l) := by rw [← hf]
  rw [ho]
  refine ⟨by rw [ha]; rfl, fun h => hfolds.soundAccount (ht.symm.trans h) hfit.1 hfit.2, ?_⟩
  rw [isSome_generationSummaryChecked ha, TotalsFit, hf, RingObservation.ofRecords_cons]
  simp [Lifetime.of, List.getLast?_eq_some_getLast (List.cons_ne_nil r l)]

/-- **Loss accounting is sound exactly when the Records are in range.** Over every run of polls and
forgettings, whatever the Records carry, nothing overflows and every account of a timed ring is
consistent exactly when the pauses folded into each accumulator fit a word, alone and together, and
the object totals each accumulator spans do. -/
theorem lossSound_iff (ops : List CursorOp) : LossSound F ops ↔ LossInRange F ops := by
  have hrun := Cursor.foldlM_stepChecked (Cursor.new : Cursor F) (ops.flatMap CursorOp.steps)
  have hb := backs_ledger (F := F) (ops.flatMap CursorOp.steps)
  rw [LossSound, LossInRange, ← along_fits_iff, Cursor.runChecked, hrun]
  have hfig : Mealy.Along Cursor.step Cursor.Fits (.new : Cursor F) (ops.flatMap CursorOp.steps) →
      ∀ K, ∀ offers ∈ (ledger F (ops.flatMap CursorOp.steps)).spansOf K, _ := fun hfits K offers hm =>
    figures_of_pausesFit (F := F) (K := K) (hb.span_offers hm).1
      (fun r hr => ((hb.span_offers hm).2 r hr).2)
      ((along_fits_iff _).mp hfits _ [] (List.append_nil _).symm K offers hm)
  constructor
  · rintro ⟨c, hc, hsum, -⟩
    split_ifs at hc with hfits
    obtain rfl := Option.some.inj hc
    rw [summarizeChecked, ListFacts.isSome_foldlM_map] at hsum
    refine ⟨hfits, fun K offers hm => (hfig hfits K offers hm).2.2.mp ?_⟩
    exact hsum (K, _) ((mem_observations hb).mpr ⟨offers, hm, rfl⟩)
  · rintro ⟨hfits, htotals⟩
    refine ⟨_, if_pos hfits, ?_, fun e he => ?_⟩
    · rw [summarizeChecked, ListFacts.isSome_foldlM_map]
      rintro ⟨K, o⟩ he
      obtain ⟨offers, hm, rfl⟩ := (mem_observations hb).mp he
      exact (hfig hfits K offers hm).2.2.mpr (htotals K offers hm)
    · obtain ⟨offers, hm, ho⟩ := (mem_observations (K := e.1) (o := e.2) hb).mp he
      rw [ho]
      exact ⟨(hfig hfits e.1 offers hm).1, (hfig hfits e.1 offers hm).2.1⟩

/-- A poll of one Entry that starts at the least word and stops at the greatest. -/
def widePoll : List CursorOp :=
  [.admitRecords 7 [Cursor.timedEntry (2 ^ 63) (2 ^ 63 - 1) 1]]

/-- **The Record is admitted, and its pause overflows**; where the operation wraps, the measured
pause is zero. -/
theorem not_lossSound_widePoll :
    Cursor.returnedOf ⟨7, 0, 0⟩ (Cursor.new : Cursor (Secs fun w => w.toInt)) widePoll =
      [Cursor.timedEntry (2 ^ 63) (2 ^ 63 - 1) 1] ∧
    ¬ LossSound (Secs fun w => w.toInt) widePoll ∧
    ((Mealy.exec Cursor.apply (Cursor.new : Cursor (Secs fun w => w.toInt))
      widePoll).observations.map fun e => (account e.2).measuredPauseNs) = [some 0] := by
  refine ⟨by decide +kernel, ?_, by decide +kernel⟩
  rintro ⟨c, hc, -⟩
  have hnone : Cursor.runChecked (Secs fun w => w.toInt) widePoll = none := by decide +kernel
  rw [hnone] at hc
  cases hc

end Run

end GcScope
