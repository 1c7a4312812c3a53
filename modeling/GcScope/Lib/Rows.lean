import Mathlib.Data.List.FinRange
import Mathlib.Tactic.Ring

/-!
# Rows of items in a flat buffer

A buffer holds several rows of items of one size, each row followed by a gap. `Rows` records where
the rows start and how deep they are; a slot is a place in a row.

* `Rows.slots`: the slots, row by row.
* **`Rows.start_disjoint`**, `Rows.start_add_item_le`: the slots do not overlap and end where
  the last row ends.
* `Rows.stop_disjoint`: nor do they overlap the gaps after the rows.
-/

set_option autoImplicit false

/-- Rows of items, one after another, with a gap behind each. -/
structure Rows (n : ℕ) where
  item : ℕ
  depth : Fin n → ℕ
  base : Fin n → ℕ
  gap : ℕ
  /-- A row and its gap end before a later row starts. -/
  sep : ∀ r r', r < r' → base r + depth r * item + gap ≤ base r'

namespace Rows

variable {n : ℕ}

/-- The slots of rows of these depths, row by row. -/
def slotsOf (depth : Fin n → ℕ) : List (Fin n × ℕ) :=
  (List.finRange n).flatMap fun r => (List.range (depth r)).map fun i => (r, i)

theorem mem_slotsOf {depth : Fin n → ℕ} {p : Fin n × ℕ} :
    p ∈ slotsOf depth ↔ p.2 < depth p.1 := by
  simp only [slotsOf, List.mem_flatMap, List.mem_finRange, List.mem_map, List.mem_range, true_and]
  constructor
  · rintro ⟨r, i, hi, rfl⟩
    exact hi
  · exact fun h => ⟨p.1, p.2, h, rfl⟩

variable (R : Rows n)

/-- Where a slot starts. -/
def start (r : Fin n) (i : ℕ) : ℕ := R.base r + i * R.item

/-- Where a row ends and its gap starts. -/
def stop (r : Fin n) : ℕ := R.base r + R.depth r * R.item

/-- The slots, row by row. -/
def slots : List (Fin n × ℕ) := slotsOf R.depth

theorem mem_slots {p : Fin n × ℕ} : p ∈ R.slots ↔ p.2 < R.depth p.1 := mem_slotsOf

variable {R}

theorem start_add_item_le_stop {r : Fin n} {i : ℕ} (h : i < R.depth r) :
    R.start r i + R.item ≤ R.stop r := by
  have := Nat.mul_le_mul_right R.item h
  rw [Nat.succ_mul] at this
  unfold start stop
  omega

theorem stop_add_gap_le_start {r r' : Fin n} (h : r < r') (i : ℕ) :
    R.stop r + R.gap ≤ R.start r' i :=
  (R.sep r r' h).trans (Nat.le_add_right _ _)

theorem stop_le_stop {r r' : Fin n} (h : r ≤ r') : R.stop r ≤ R.stop r' := by
  rcases h.lt_or_eq with h | rfl
  · have := R.sep r r' h
    unfold stop
    omega
  · exact le_rfl

theorem start_add_item_le {p : Fin n × ℕ} (hp : p ∈ R.slots) {r : Fin n} (h : p.1 ≤ r) :
    R.start p.1 p.2 + R.item ≤ R.stop r :=
  (start_add_item_le_stop (R.mem_slots.mp hp)).trans (R.stop_le_stop h)

/-- **The slots do not overlap.** -/
theorem start_disjoint {p q : Fin n × ℕ} (hp : p ∈ R.slots) (hq : q ∈ R.slots) (h : p ≠ q) :
    R.start p.1 p.2 + R.item ≤ R.start q.1 q.2 ∨ R.start q.1 q.2 + R.item ≤ R.start p.1 p.2 := by
  obtain ⟨r, i⟩ := p
  obtain ⟨r', j⟩ := q
  rw [mem_slots] at hp hq
  dsimp only at hp hq ⊢
  rcases lt_trichotomy r r' with hr | rfl | hr
  · have h1 := start_add_item_le_stop hp
    have h2 := R.stop_add_gap_le_start hr j
    omega
  · -- two slots of one row are a whole number of items apart
    rcases lt_trichotomy i j with hij | rfl | hij
    · have := Nat.mul_le_mul_right R.item hij
      rw [Nat.succ_mul] at this
      simp only [start]
      omega
    · exact absurd rfl h
    · have := Nat.mul_le_mul_right R.item hij
      rw [Nat.succ_mul] at this
      simp only [start]
      omega
  · have h1 := start_add_item_le_stop hq
    have h2 := R.stop_add_gap_le_start hr i
    omega

theorem stop_disjoint {r r' : Fin n} {i : ℕ} (h : i < R.depth r) :
    R.stop r' + R.gap ≤ R.start r i ∨ R.start r i + R.item ≤ R.stop r' := by
  rcases lt_or_ge r' r with hr | hr
  · exact .inl (R.stop_add_gap_le_start hr i)
  · exact .inr ((start_add_item_le_stop h).trans (R.stop_le_stop hr))

end Rows
