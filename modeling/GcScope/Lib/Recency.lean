import Mathlib.Data.Finset.Card
import Mathlib.Tactic.Linarith

/-!
# Bounded sets that make room by recency

A kept set is a partial map from items to the tick each was last touched at. Touching an item stamps
it with the present tick; when the set is full and lacks the item, the one touched least recently
goes.

* `Evicts`: what a victim is.
* `Window`: the set agrees with what was touched in the present round and in the round before.
* **`Window.not_mem_of_evicts`**: while two consecutive rounds touch no more items than the set
  holds, no item of either round is a victim.
* `Window.touch`, `Window.tick`: the window moves with the run.
-/

set_option autoImplicit false

namespace Recency

variable {α : Type*} [DecidableEq α]

/-- `s` goes to make room for `i`: the set is full, lacks `i`, and `s` was touched least
recently. -/
structure Evicts (cap : ℕ) (m : α → Option ℕ) (i s : α) : Prop where
  absent : m i = none
  full : ∃ S : Finset α, (∀ j ∈ S, m j ≠ none) ∧ cap ≤ S.card
  oldest : ∃ t, m s = some t ∧ ∀ j t', m j = some t' → t ≤ t'

/-- `prev` was touched in the round of tick `q`, `cur` so far in the round of tick `p`, and the set
tells. -/
structure Window (prev cur : Finset α) (q p : ℕ) (m : α → Option ℕ) : Prop where
  ordered : q ≤ p
  bounded : ∀ i t, m i = some t → t ≤ p
  now : ∀ i, m i = some p → i ∈ cur
  recent : ∀ i t, m i = some t → q ≤ t → i ∈ prev ∪ cur
  keepsCur : ∀ i ∈ cur, m i = some p
  keepsPrev : ∀ i ∈ prev, ∃ t, m i = some t ∧ q ≤ t

namespace Window

variable {prev cur : Finset α} {q p cap : ℕ} {m : α → Option ℕ}

theorem empty (h : ∀ i, m i = none) (p : ℕ) : Window ∅ ∅ p p m where
  ordered := le_rfl
  bounded i t hi := by rw [h i] at hi; cases hi
  now i hi := by rw [h i] at hi; cases hi
  recent i t hi := by rw [h i] at hi; cases hi
  keepsCur i hi := absurd hi (Finset.notMem_empty i)
  keepsPrev i hi := absurd hi (Finset.notMem_empty i)

theorem exists_of_mem (h : Window prev cur q p m) {i : α} (hi : i ∈ prev ∪ cur) :
    ∃ t, m i = some t ∧ q ≤ t :=
  (Finset.mem_union.mp hi).elim (h.keepsPrev i) fun hc => ⟨p, h.keepsCur i hc, h.ordered⟩

/-- **No item of the window is a victim while the window fits.** -/
theorem not_mem_of_evicts (h : Window prev cur q p m) {i s : α}
    (hcap : (prev ∪ insert i cur).card ≤ cap) (he : Evicts cap m i s) : s ∉ prev ∪ cur := by
  intro hs
  obtain ⟨t, hst, hqt⟩ := h.exists_of_mem hs
  obtain ⟨S, hS, hfull⟩ := he.full
  obtain ⟨t', hst', hold⟩ := he.oldest
  obtain rfl : t = t' := Option.some.inj (hst.symm.trans hst')
  -- then every kept item is at least as recent, hence in the window, and the newcomer besides
  have hsub : insert i S ⊆ prev ∪ insert i cur := fun j hj => by
    rcases Finset.mem_insert.mp hj with rfl | hj
    · simp
    · obtain ⟨u, hu⟩ := Option.ne_none_iff_exists'.mp (hS j hj)
      have := h.recent j u hu (hqt.trans (hold j u hu))
      simp only [Finset.mem_union, Finset.mem_insert] at this ⊢
      tauto
  have hi : i ∉ S := fun hi => hS i hi he.absent
  have := Finset.card_le_card hsub
  rw [Finset.card_insert_of_notMem hi] at this
  omega

/-- Touching an item, with or without a victim from outside the window. -/
theorem touch (h : Window prev cur q p m) (i : α) (victim : Option α)
    (hv : ∀ s ∈ victim, s ∉ prev ∪ cur) {m' : α → Option ℕ}
    (hm : ∀ j, m' j = if j = i then some p else if some j = victim then none else m j) :
    Window prev (insert i cur) q p m' where
  ordered := h.ordered
  bounded j t hj := by
    rw [hm] at hj
    split_ifs at hj
    · exact (Option.some.inj hj).ge
    · exact h.bounded j t hj
  now j hj := by
    rw [hm] at hj
    split_ifs at hj with h₁
    · exact h₁ ▸ Finset.mem_insert_self _ _
    · exact Finset.mem_insert_of_mem (h.now j hj)
  recent j t hj hq := by
    rw [hm] at hj
    split_ifs at hj with h₁
    · exact Finset.mem_union_right _ (h₁ ▸ Finset.mem_insert_self _ _)
    · exact Finset.union_subset_union_right (Finset.subset_insert _ _) (h.recent j t hj hq)
  keepsCur j hj := by
    rw [hm]
    split_ifs with h₁ h₂
    · rfl
    · exact absurd (Finset.mem_union_right _ ((Finset.mem_insert.mp hj).resolve_left h₁))
        (hv j h₂.symm)
    · exact h.keepsCur j ((Finset.mem_insert.mp hj).resolve_left h₁)
  keepsPrev j hj := by
    rw [hm]
    split_ifs with h₁ h₂
    · exact ⟨p, rfl, h.ordered⟩
    · exact absurd (Finset.mem_union_left _ hj) (hv j h₂.symm)
    · exact h.keepsPrev j hj

theorem tick (h : Window prev cur q p m) {p' : ℕ} (hp : p < p') : Window cur ∅ p p' m where
  ordered := hp.le
  bounded i t hi := (h.bounded i t hi).trans hp.le
  now i hi := absurd (h.bounded i p' hi) (not_le.mpr hp)
  recent i t hi ht := by
    obtain rfl : t = p := le_antisymm (h.bounded i t hi) ht
    exact Finset.mem_union_left _ (h.now i hi)
  keepsCur i hi := absurd hi (Finset.notMem_empty i)
  keepsPrev i hi := ⟨p, h.keepsCur i hi, le_rfl⟩

end Window

end Recency
