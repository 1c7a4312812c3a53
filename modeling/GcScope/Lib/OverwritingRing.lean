import Mathlib.Data.List.Nodup
import Mathlib.Data.List.Range
import Mathlib.Data.List.GetD
import Mathlib.Data.List.Perm.Basic

/-!
# Rings that overwrite their oldest slot

Items `0, 1, 2, …` are written one after another into `N` slots, item `j` into slot `j % N`.

* `ringAfter`: the slots after `k` writes.
* `Present`: item `j` has been written and not yet overwritten.
* `latestIn`: which item a slot holds; `slot_eq_next_iff`: which one the next write takes.
* **`ringAfter_eq`**: each slot holds the latest item written into it, or what it held at first.
* **`filterMap_latestIn_perm`**: the items held are the last `min k N`, in some order.
* `map_elim_perm`: what the slots hold, the empty ones counted.
-/

set_option autoImplicit false

namespace OverwritingRing

variable {α : Type*}

/-- The slots after `k` writes. -/
def ringAfter (N : ℕ) (blank item : ℕ → α) : ℕ → List α
  | 0 => (List.range N).map blank
  | k + 1 => (ringAfter N blank item k).set (k % N) (item k)

/-- Item `j` is in the ring after `k` writes. -/
def Present (N k j : ℕ) : Prop := j < k ∧ k ≤ j + N

instance (N k j : ℕ) : Decidable (Present N k j) := by unfold Present; infer_instance

/-- The item slot `i` holds after `k` writes. -/
def latestIn (N k i : ℕ) : Option ℕ :=
  if i < N ∧ i < k then some (k - 1 - (k - 1 - i) % N) else none

theorem latestIn_eq_some_iff {N k i j : ℕ} :
    latestIn N k i = some j ↔ j % N = i ∧ Present N k j := by
  unfold latestIn Present
  rcases Nat.eq_zero_or_pos N with rfl | hN
  · rw [if_neg (by omega)]
    simp only [reduceCtorEq, Nat.mod_zero, Nat.add_zero, false_iff]
    omega
  have hd := Nat.mod_add_div (k - 1 - i) N
  have hlt := Nat.mod_lt (k - 1 - i) hN
  constructor
  · intro h
    split_ifs at h with hik
    obtain rfl := Option.some.inj h
    -- `k - 1` less the remainder is `i` plus a multiple of `N`
    have hj : k - 1 - (k - 1 - i) % N = i + N * ((k - 1 - i) / N) := by omega
    refine ⟨?_, by omega, by omega⟩
    rw [hj, Nat.add_mul_mod_self_left, Nat.mod_eq_of_lt hik.1]
  · rintro ⟨rfl, hjk, hkj⟩
    have hj := Nat.mod_add_div j N
    have hle := Nat.mod_le j N
    rw [if_pos ⟨Nat.mod_lt j hN, by omega⟩]
    have hrem : (k - 1 - j % N) % N = k - 1 - j := by
      rw [show k - 1 - j % N = (k - 1 - j) + N * (j / N) by omega, Nat.add_mul_mod_self_left,
        Nat.mod_eq_of_lt (by omega)]
    rw [hrem]
    congr 1
    omega

theorem latestIn_eq_none_iff {N k i : ℕ} (hi : i < N) : latestIn N k i = none ↔ k ≤ i := by
  unfold latestIn
  split_ifs with h
  · simp; omega
  · simp; omega

/-- The next write goes where the oldest item present stands, if the ring is full. -/
theorem slot_eq_next_iff {N k j : ℕ} (h : Present N k j) : j % N = k % N ↔ k = j + N := by
  obtain ⟨hjk, hkj⟩ := h
  constructor
  · intro he
    have hd : N ∣ k - j := Nat.dvd_of_mod_eq_zero (Nat.sub_mod_eq_zero_of_mod_eq he.symm)
    have hle : N ≤ k - j := Nat.le_of_dvd (Nat.sub_pos_of_lt hjk) hd
    omega
  · rintro rfl
    rw [Nat.add_mod_right]

@[simp] theorem latestIn_zero (N i : ℕ) : latestIn N 0 i = none := if_neg (by omega)

theorem latestIn_succ {N i : ℕ} (hi : i < N) (k : ℕ) :
    latestIn N (k + 1) i = if k % N = i then some k else latestIn N k i := by
  split_ifs with h
  · exact latestIn_eq_some_iff.mpr ⟨h, by unfold Present; omega⟩
  · cases hl : latestIn N k i with
    | none =>
      rw [latestIn_eq_none_iff hi] at hl ⊢
      by_contra hk
      obtain rfl : k = i := by omega
      exact h (Nat.mod_eq_of_lt hi)
    | some j =>
      rw [latestIn_eq_some_iff] at hl ⊢
      refine ⟨hl.1, hl.2.1.trans (Nat.lt_succ_self k), ?_⟩
      by_contra hk
      obtain rfl : k = j + N := by have := hl.2.2; omega
      exact h (by rw [Nat.add_mod_right, hl.1])

@[simp] theorem length_ringAfter (N : ℕ) (blank item : ℕ → α) (k : ℕ) :
    (ringAfter N blank item k).length = N := by
  induction k with
  | zero => simp [ringAfter]
  | succ k ih => rw [ringAfter, List.length_set, ih]

/-- **Each slot holds the latest item written into it, or what it held at first.** -/
theorem ringAfter_eq (N : ℕ) (blank item : ℕ → α) (k : ℕ) : ringAfter N blank item k =
    (List.range N).map fun i => ((latestIn N k i).map item).getD (blank i) := by
  induction k with
  | zero => simp [ringAfter]
  | succ k ih =>
    refine List.ext_getElem (by simp) fun i h₁ h₂ => ?_
    have hi : i < N := by simpa using h₁
    simp only [ringAfter, ih, List.getElem_set, List.getElem_map, List.getElem_range,
      latestIn_succ hi]
    split_ifs <;> rfl

/-- **The items held are the last `min k N`**, in some order. -/
theorem filterMap_latestIn_perm (N k : ℕ) : ((List.range N).filterMap (latestIn N k)).Perm
    ((List.range k).filter fun j => Present N k j) := by
  refine (List.perm_ext_iff_of_nodup ?_ (List.nodup_range.filter _)).mpr fun j => ?_
  · refine List.nodup_range.filterMap fun i i' j hi hi' => ?_
    rw [← (latestIn_eq_some_iff.mp hi).1, ← (latestIn_eq_some_iff.mp hi').1]
  · simp only [List.mem_filterMap, List.mem_range, List.mem_filter, decide_eq_true_eq,
      latestIn_eq_some_iff]
    constructor
    · rintro ⟨i, -, -, h⟩
      exact ⟨h.1, h⟩
    · rintro ⟨-, h⟩
      exact ⟨j % N, Nat.mod_lt j (by unfold Present at h; omega), rfl, h⟩

/-- The items present are consecutive. -/
theorem filter_present (N k : ℕ) : ((List.range k).filter fun j => Present N k j) =
    List.range' (k - min k N) (min k N) := by
  have hsplit : List.range k = List.range (k - min k N) ++ List.range' (k - min k N) (min k N) := by
    have := List.range'_append_1 (s := 0) (m := k - min k N) (n := min k N)
    rw [Nat.zero_add, Nat.sub_add_cancel (min_le_left k N)] at this
    rw [List.range_eq_range', List.range_eq_range', this]
  have hold : (List.range (k - min k N)).filter (fun j => Present N k j) = [] := by
    refine List.filter_eq_nil_iff.mpr fun j hj => ?_
    rw [List.mem_range] at hj
    rw [decide_eq_true_eq, Present]
    omega
  have hnew : (List.range' (k - min k N) (min k N)).filter (fun j => Present N k j) =
      List.range' (k - min k N) (min k N) := by
    refine List.filter_eq_self.mpr fun j hj => ?_
    rw [List.mem_range'_1] at hj
    rw [decide_eq_true_eq, Present]
    omega
  rw [hsplit, List.filter_append, hold, hnew, List.nil_append]

theorem map_elim_perm {ι β γ : Type*} (l : List ι) (f : ι → Option β) (z : γ) (h : β → γ) :
    (l.map fun i => (f i).elim z h).Perm
      ((l.filterMap f).map h ++ List.replicate (l.length - (l.filterMap f).length) z) := by
  induction l with
  | nil => simp
  | cons i l ih =>
    have hle := List.length_filterMap_le f l
    cases hf : f i with
    | none =>
      rw [List.map_cons, hf, List.filterMap_cons_none hf, List.length_cons, Option.elim_none,
        Nat.succ_sub hle, List.replicate_succ]
      exact (ih.cons z).trans List.perm_middle.symm
    | some b =>
      rw [List.map_cons, hf, List.filterMap_cons_some hf, List.length_cons, List.length_cons,
        Option.elim_some, Nat.add_sub_add_right]
      exact ih.cons (h b)

end OverwritingRing
