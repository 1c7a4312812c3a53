import GcScope.Lib.ListFacts
import GcScope.Monitor.Selection

/-!
# What the accumulators of a cursor were made from

The ledger of a run keeps, for every accumulator the cursor holds or has retired, the eligible
Records it was offered. Nothing is added to it but what the steps offer; what the accumulators hold
is then read off it.

* `Ledger.step`, `ledger`: one step, and a run from nothing.
* `Ledger.folded`: of the Records offered to an accumulator, those folded into it.
* `Ledger.Backs`: every accumulator is the fold of its Records.
* **`backs_ledger`**: after any run the ledger backs the cursor.
* **`folded_spansOf`**: without an eviction, what was folded into the accumulators of a ring, one
  after another, is what was accepted from it.
-/

set_option autoImplicit false

namespace GcScope

open Std (ExtTreeMap)
open StableSort HighWater

/-- Per ring the eligible Records offered since its accumulator was last lost, and those of each
retired accumulator with the eviction that retired it. -/
structure Ledger where
  live : RingKey → List GcStat
  retired : List (RingKey × ℕ × List GcStat)

namespace Ledger

/-- Of the Records offered to an accumulator, those folded into it. -/
def folded (offers : List GcStat) : List GcStat := climb GcStat.collections ⊥ offers

@[simp] theorem folded_nil : folded [] = [] := rfl

theorem folded_eq_nil {offers : List GcStat} : folded offers = [] ↔ offers = [] := by
  constructor
  · intro h
    cases offers with
    | nil => rfl
    | cons r rs => rw [folded, climb_cons_of_lt _ (WithBot.bot_lt_coe _)] at h; cases h
  · rintro rfl
    rfl

theorem folded_sublist (offers : List GcStat) : (folded offers).Sublist offers :=
  climb_sublist _ _ _

theorem pairwise_folded (offers : List GcStat) :
    (folded offers).Pairwise fun a b => a.collections < b.collections := pairwise_climb _ _ _

/-- The accumulators a ring has had and still has, in order, each by what it was offered. -/
def spansOf (L : Ledger) (K : RingKey) : List (List GcStat) :=
  ((L.retired.filter fun e => e.1 = K).map fun e => e.2.2) ++ [L.live K].filter fun l => l ≠ []

def empty : Ledger := ⟨fun _ => [], []⟩

variable {F : Type} [F64 F]

/-- What a step of the cursor retires. -/
def retiredBy (L : Ledger) (c : Cursor F) : CursorStep → List (RingKey × ℕ × List GcStat)
  | .forget pid => (c.rings.toList.filter fun e => e.1.pid == pid).map fun e =>
      (e.1, c.evictions, L.live e.1)
  | _ => []

/-- What a step of the cursor does to the ledger. -/
def step (L : Ledger) (c : Cursor F) (s : CursorStep) : Ledger where
  live K := if c.Loses K s then [] else L.live K ++ offersOf K [s]
  retired := L.retired ++ L.retiredBy c s

theorem live_step (L : Ledger) (c : Cursor F) (s : CursorStep) (K : RingKey) :
    (L.step c s).live K = if c.Loses K s then [] else L.live K ++ offersOf K [s] := rfl

end Ledger

/-- The ledger of a run from nothing, beside the cursor it leaves. -/
def ledgerRun (F : Type) [F64 F] (steps : List CursorStep) : Cursor F × Ledger :=
  steps.foldl (fun s i => ((s.1.step i).1, s.2.step s.1 i)) (.new, .empty)

/-- The ledger of a run from nothing. -/
def ledger (F : Type) [F64 F] (steps : List CursorStep) : Ledger := (ledgerRun F steps).2

section Run

variable {F : Type} [F64 F]

theorem ledgerRun_fst (steps : List CursorStep) :
    (ledgerRun F steps).1 = Mealy.exec Cursor.step .new steps := by
  induction steps using List.reverseRecOn with
  | nil => rfl
  | append_singleton steps s ih =>
    rw [ledgerRun, List.foldl_append, Mealy.exec_concat, ← ih]
    rfl

theorem ledger_concat (steps : List CursorStep) (s : CursorStep) : ledger F (steps ++ [s]) =
    (ledger F steps).step (Mealy.exec Cursor.step (.new : Cursor F) steps) s := by
  rw [ledger, ledgerRun, List.foldl_append, ← ledgerRun_fst]
  rfl

end Run

namespace Ledger

/-! ## The ledger backs the cursor -/

/-- Every accumulator is the fold of its Records, under keys that tell them apart. -/
structure Backs {F : Type} [F64 F] (L : Ledger) (c : Cursor F) : Prop where
  rings : ∀ K, c.rings[K]? = Cursor.heldAfter (folded (L.live K))
  retired : c.retired = L.retired.map fun e => (e.1, e.2.1, .ofRecords (folded e.2.2))
  live_offers : ∀ K, ∀ r ∈ L.live K, r.ring K.pid = K ∧ r.Eligible
  retired_offers : ∀ e ∈ L.retired, e.2.2 ≠ [] ∧ ∀ r ∈ e.2.2, r.ring e.1.pid = e.1 ∧ r.Eligible
  earlier : ∀ e ∈ L.retired, e.2.1 < c.evictions
  nodup : (L.retired.map fun e => (e.1, e.2.1)).Nodup

variable {F : Type} [F64 F]

theorem backs_empty : empty.Backs (.new : Cursor F) where
  rings K := by simp [Cursor.new, empty, Cursor.heldAfter]
  retired := rfl
  live_offers _ _ h := absurd h List.not_mem_nil
  retired_offers _ h := absurd h List.not_mem_nil
  earlier _ h := absurd h List.not_mem_nil
  nodup := List.nodup_nil

theorem Backs.ring_eq_none_iff {L : Ledger} {c : Cursor F} (h : L.Backs c) {K : RingKey} :
    c.rings[K]? = none ↔ L.live K = [] := by
  rw [h.rings, Cursor.heldAfter_eq_none_iff, folded_eq_nil]

theorem Backs.span_offers {L : Ledger} {c : Cursor F} (h : L.Backs c) {K : RingKey}
    {offers : List GcStat} (hm : offers ∈ L.spansOf K) :
    offers ≠ [] ∧ ∀ r ∈ offers, r.ring K.pid = K ∧ r.Eligible := by
  rcases List.mem_append.mp hm with hm | hm
  · obtain ⟨e, he, rfl⟩ := List.mem_map.mp hm
    obtain ⟨he, hK⟩ := List.mem_filter.mp he
    rw [← of_decide_eq_true hK]
    exact h.retired_offers e he
  · obtain ⟨hm, hne⟩ := List.mem_filter.mp hm
    rw [List.mem_singleton.mp hm] at hne ⊢
    exact ⟨of_decide_eq_true hne, h.live_offers K⟩

theorem step_retired (c : Cursor F) (s : CursorStep) :
    (∃ pid, s = .forget pid) ∨ ((c.step s).1.retired = c.retired ∧
      (c.step s).1.evictions = c.evictions ∧ ∀ L : Ledger, L.retiredBy c s = []) := by
  cases s with
  | tick => exact Or.inr ⟨rfl, rfl, fun _ => rfl⟩
  | forget pid => exact Or.inl ⟨pid, rfl⟩
  | offer pid r =>
    have hretain : (c.retain pid r.interpreterId).retired = c.retired ∧
        (c.retain pid r.interpreterId).evictions = c.evictions := by
      unfold Cursor.retain
      cases c.evicts pid r.interpreterId <;> exact ⟨rfl, rfl⟩
    have hraise : ∀ (c' : Cursor F) (m : ℤ),
        (c'.raiseCertainty pid r.interpreterId m).retired = c'.retired ∧
          (c'.raiseCertainty pid r.interpreterId m).evictions = c'.evictions := fun c' m => by
      unfold Cursor.raiseCertainty
      split_ifs <;> exact ⟨rfl, rfl⟩
    refine Or.inr ⟨?_, ?_, fun _ => rfl⟩
    · simp only [Cursor.step, Cursor.admitRecord]
      split_ifs <;> simp [hraise, hretain]
    · simp only [Cursor.step, Cursor.admitRecord]
      split_ifs <;> simp [hraise, hretain]

omit [F64 F] in
theorem mem_retiredBy_forget {L : Ledger} {c : Cursor F} {pid : ℕ}
    {e : RingKey × ℕ × List GcStat} : e ∈ L.retiredBy c (.forget pid) ↔
      e.1.pid = pid ∧ e.2 = (c.evictions, L.live e.1) ∧ (c.rings[e.1]?).isSome := by
  simp only [retiredBy, List.mem_map, List.mem_filter, beq_iff_eq]
  constructor
  · rintro ⟨⟨K, o⟩, ⟨hm, hp⟩, rfl⟩
    exact ⟨hp, rfl, by rw [ExtTreeMap.mem_toList_iff_getElem?_eq_some.mp hm]; rfl⟩
  · rintro ⟨hp, he, hs⟩
    obtain ⟨o, ho⟩ := Option.isSome_iff_exists.mp hs
    exact ⟨(e.1, o), ⟨ExtTreeMap.mem_toList_iff_getElem?_eq_some.mpr ho, hp⟩,
      Prod.ext rfl he.symm⟩

omit [F64 F] in
theorem nodup_retiredBy_forget (L : Ledger) (c : Cursor F) (pid : ℕ) :
    ((L.retiredBy c (.forget pid)).map Prod.fst).Nodup := by
  have hd : (c.rings.toList.map Prod.fst).Nodup := by
    rw [ExtTreeMap.map_fst_toList_eq_keys]; exact ExtTreeMap.nodup_keys
  rw [retiredBy, List.map_map]
  exact (List.filter_sublist.map Prod.fst).nodup hd

/-- The live part of a step: what is not lost goes on, what is lost starts over. -/
theorem Backs.step_rings {L : Ledger} {c : Cursor F} (h : L.Backs c) (s : CursorStep)
    (K : RingKey) : (c.step s).1.rings[K]? = Cursor.heldAfter (folded ((L.step c s).live K)) := by
  simp only [step]
  split_ifs with hl
  · exact hl.2
  · exact (Cursor.stepOf_climb (h.rings K) hl).1

theorem Backs.step_live_offers {L : Ledger} {c : Cursor F} (h : L.Backs c) (s : CursorStep)
    (K : RingKey) {r : GcStat} (hr : r ∈ (L.step c s).live K) : r.ring K.pid = K ∧ r.Eligible := by
  simp only [step] at hr
  split_ifs at hr with hl
  · cases hr
  · rcases List.mem_append.mp hr with hr | hr
    · exact h.live_offers K r hr
    · exact (Cursor.mem_offersOf.mp hr).2

/-- Forgetting moves the accumulators of the process, with what they were offered. -/
theorem Backs.step_forget {L : Ledger} {c : Cursor F} (h : L.Backs c) (pid : ℕ) :
    (L.step c (.forget pid)).Backs (c.step (.forget pid)).1 where
  rings := h.step_rings _
  live_offers K _ hr := h.step_live_offers _ K hr
  retired := by
    simp only [step, Cursor.step, Cursor.forget, retiredBy, List.map_append, List.map_map]
    refine congrArg₂ (· ++ ·) h.retired (List.map_congr_left fun e he => ?_)
    have hm := ExtTreeMap.mem_toList_iff_getElem?_eq_some.mp (List.mem_filter.mp he).1
    rw [h.rings] at hm
    rw [(Cursor.heldAfter_eq_some_iff.mp hm).2]
    rfl
  retired_offers e he := by
    rcases List.mem_append.mp he with he | he
    · exact h.retired_offers e he
    · obtain ⟨-, he, hs⟩ := mem_retiredBy_forget.mp he
      rw [congrArg Prod.snd he]
      refine ⟨fun hn => ?_, h.live_offers e.1⟩
      rw [h.ring_eq_none_iff.mpr hn] at hs
      cases hs
  earlier e he := by
    refine lt_of_lt_of_eq ?_ (show c.evictions + 1 = _ from rfl)
    rcases List.mem_append.mp he with he | he
    · exact (h.earlier e he).trans (Nat.lt_succ_self _)
    · rw [congrArg Prod.fst (mem_retiredBy_forget.mp he).2.1]
      exact Nat.lt_succ_self _
  nodup := by
    rw [step, List.map_append]
    refine List.nodup_append.mpr ⟨h.nodup, ?_, ?_⟩
    · refine List.Nodup.of_map Prod.fst ?_
      rw [List.map_map]
      exact L.nodup_retiredBy_forget c pid
    · intro a ha b hb hab
      obtain ⟨e, he, rfl⟩ := List.mem_map.mp ha
      obtain ⟨e', he', rfl⟩ := List.mem_map.mp hb
      have := h.earlier e he
      rw [(Prod.mk.inj hab).2, congrArg Prod.fst (mem_retiredBy_forget.mp he').2.1] at this
      exact lt_irrefl _ this

/-- **Every step keeps the cursor backed.** -/
theorem Backs.step {L : Ledger} {c : Cursor F} (h : L.Backs c) (s : CursorStep) :
    (L.step c s).Backs (c.step s).1 := by
  rcases step_retired c s with ⟨pid, rfl⟩ | ⟨hr, he, hn⟩
  · exact h.step_forget pid
  · have hL : (L.step c s).retired = L.retired := by
      rw [Ledger.step, hn L, List.append_nil]
    exact ⟨h.step_rings s, by rw [hr, hL, h.retired], fun K _ hr => h.step_live_offers s K hr,
      hL ▸ h.retired_offers, by rw [hL, he]; exact h.earlier, hL ▸ h.nodup⟩

/-- After a step a ring has the accumulators it had, and the one it goes on with. -/
theorem mem_spansOf_step {L : Ledger} {c : Cursor F} (h : L.Backs c) {s : CursorStep} {K : RingKey}
    {offers : List GcStat} : offers ∈ (L.step c s).spansOf K →
      offers ∈ L.spansOf K ∨ offers ≠ [] ∧ offers = (L.step c s).live K := by
  intro hm
  rcases List.mem_append.mp hm with hm | hm
  · obtain ⟨e, he, rfl⟩ := List.mem_map.mp hm
    obtain ⟨hmem, hK⟩ := List.mem_filter.mp he
    obtain rfl : e.1 = K := of_decide_eq_true hK
    refine Or.inl (List.mem_append.mpr ?_)
    rcases List.mem_append.mp hmem with he | he
    · exact Or.inl (List.mem_map.mpr ⟨e, List.mem_filter.mpr ⟨he, hK⟩, rfl⟩)
    · cases s with
      | tick => cases he
      | offer pid r => cases he
      | forget pid =>
        obtain ⟨-, he, hs⟩ := mem_retiredBy_forget.mp he
        rw [congrArg Prod.snd he]
        refine Or.inr (List.mem_filter.mpr ⟨List.mem_singleton_self _, decide_eq_true fun hn => ?_⟩)
        rw [h.ring_eq_none_iff.mpr hn] at hs
        cases hs
  · obtain ⟨hm, hne⟩ := List.mem_filter.mp hm
    exact Or.inr ⟨of_decide_eq_true hne, List.mem_singleton.mp hm⟩

theorem step_live_offer (L : Ledger) (c : Cursor F) {pid : ℕ} {r : GcStat} (he : r.Eligible) :
    (L.step c (.offer pid r)).live (r.ring pid) = L.live (r.ring pid) ++ [r] := by
  have hk : ¬ c.Loses (r.ring pid) (.offer pid r) := fun hl => by
    have := hl.2
    rw [Cursor.step, Cursor.admitRecord_ring, if_pos ⟨rfl, he⟩] at this
    cases this
  simp [step, hk, offersOf, he]

/-- A Record is folded exactly when its counter is past those folded. -/
theorem folded_concat {L : Ledger} {c : Cursor F} (h : L.Backs c) {K : RingKey} {r : GcStat} :
    folded (L.live K ++ [r]) =
      if (c.observationOrDefault K).admits r.collections then folded (L.live K) ++ [r]
      else folded (L.live K) := by
  have hadmits := RingObservation.admits_ofRecords_climb (F := F) (L.live K) r.collections
  have happend : folded (L.live K ++ [r]) = folded (L.live K) ++
      climb GcStat.collections (mark GcStat.collections ⊥ (L.live K)) [r] := climb_append _ _ _ _
  rw [Cursor.observationOrDefault_eq, h.rings, Cursor.getD_heldAfter, happend]
  by_cases ha : mark GcStat.collections ⊥ (L.live K) < r.collections
  · rw [climb_cons_of_lt _ ha, climb_nil]
    exact (if_pos (hadmits.mpr ha)).symm
  · rw [climb_cons_of_not_lt _ ha, climb_nil, List.append_nil]
    exact (if_neg fun hn => ha (hadmits.mp hn)).symm

end Ledger

open Ledger

variable {F : Type} [F64 F]

/-- **After any run the ledger backs the cursor.** -/
theorem backs_ledger (steps : List CursorStep) :
    (ledger F steps).Backs (Mealy.exec Cursor.step (.new : Cursor F) steps) := by
  induction steps using List.reverseRecOn with
  | nil => exact backs_empty
  | append_singleton steps s ih => rw [ledger_concat, Mealy.exec_concat]; exact ih.step s

/-- The step evicts no interpreter. -/
def Cursor.Spares (c : Cursor F) : CursorStep → Prop
  | .offer pid r => c.evicts pid r.interpreterId = none
  | _ => True

instance (c : Cursor F) (s : CursorStep) : Decidable (c.Spares s) := by
  cases s <;> unfold Cursor.Spares <;> infer_instance

/-- The steps of a run evict nothing. -/
def NeverEvicts (F : Type) [F64 F] (steps : List CursorStep) : Prop :=
  Mealy.Along Cursor.step Cursor.Spares (.new : Cursor F) steps

instance (steps : List CursorStep) : Decidable (NeverEvicts F steps) := by
  unfold NeverEvicts; infer_instance

/-- Forgetting a process retires the accumulator of each of its rings, where there is one. -/
theorem filter_retiredBy_forget {L : Ledger} {c : Cursor F} (h : L.Backs c) (K : RingKey) :
    ((L.retiredBy c (.forget K.pid)).filter fun e => e.1 = K).map (fun e => e.2.2) =
      [L.live K].filter fun l => l ≠ [] := by
  by_cases hl : L.live K = []
  · rw [List.filter_eq_nil_iff.mpr, hl]
    · rfl
    · intro e he hK
      have hs := (mem_retiredBy_forget.mp he).2.2
      rw [of_decide_eq_true hK, h.ring_eq_none_iff.mpr hl] at hs
      cases hs
  · have hs : (c.rings[K]?).isSome := by
      rw [Option.isSome_iff_ne_none, ne_eq, h.ring_eq_none_iff]; exact hl
    have hm : (K, c.evictions, L.live K) ∈ L.retiredBy c (.forget K.pid) :=
      mem_retiredBy_forget.mpr ⟨rfl, rfl, hs⟩
    rw [ListFacts.filter_eq_singleton (L.nodup_retiredBy_forget c K.pid) hm]
    simp [hl]

theorem filter_retiredBy_of_not_loses {L : Ledger} {c : Cursor F} {K : RingKey} {s : CursorStep}
    (hk : ¬ c.Loses K s) : ((L.retiredBy c s).filter fun e => e.1 = K) = [] := by
  refine List.filter_eq_nil_iff.mpr fun e he hK => ?_
  obtain rfl := of_decide_eq_true hK
  cases s with
  | tick => cases he
  | offer pid r => cases he
  | forget pid =>
    obtain ⟨rfl, -, hs⟩ := mem_retiredBy_forget.mp he
    exact hk ((Cursor.loses_iff _ _ _).mpr ⟨hs, Or.inl rfl⟩)

/-- **Without an eviction, what was folded into the accumulators of a ring, one after another, is
what was accepted from it.** -/
theorem folded_spansOf (K : RingKey) {steps : List CursorStep} (h : NeverEvicts F steps) :
    ((ledger F steps).spansOf K).flatMap folded = Cursor.acceptedOf K (.new : Cursor F) steps := by
  have hlive : ∀ L : Ledger, (L.spansOf K).flatMap folded =
      ((L.retired.filter fun e => e.1 = K).map fun e => e.2.2).flatMap folded ++
        folded (L.live K) := fun L => by
    rw [spansOf, List.flatMap_append]
    refine congrArg _ ?_
    by_cases hl : L.live K = [] <;> simp [hl]
  induction steps using List.reverseRecOn with
  | nil => rfl
  | append_singleton steps s ih =>
    obtain ⟨h, hspare⟩ := (Mealy.along_concat _).mp h
    have ih := ih h
    have hb := backs_ledger (F := F) steps
    rw [Cursor.acceptedOf_append, ← ih, hlive, ledger_concat, hlive]
    generalize ledger F steps = L at hb
    generalize hc : Mealy.exec Cursor.step (.new : Cursor F) steps = c at hb
    simp only [Ledger.step, List.filter_append, List.map_append, List.flatMap_append]
    by_cases hk : c.Loses K s
    · rcases ((Cursor.loses_iff _ _ _).mp hk).2 with rfl | ⟨r, rfl, he, -⟩
      · rw [if_pos hk, filter_retiredBy_forget hb]
        by_cases hl : L.live K = [] <;> simp [hl, Cursor.acceptedOf, Cursor.stepOf]
      · rw [hc] at hspare
        rw [hspare] at he
        cases he
    · rw [if_neg hk, filter_retiredBy_of_not_loses hk, folded, climb_append, ← folded,
        ← (Cursor.stepOf_climb (hb.rings K) hk).2]
      simp [Cursor.acceptedOf]

end GcScope
