import Mathlib.Data.Int.Init
import Mathlib.Tactic.Linarith
import Mathlib.Algebra.BigOperators.Group.List.Basic
import Mathlib.Data.List.Induction

/-!
# Signed 64-bit arithmetic on integers

A signed 64-bit word is the integer it denotes. `wrap64` is the two's-complement reduction that a
wrapping operation applies to its exact result; inside the range it changes nothing.

* `InI64`: the range, with `wrap64_of_inI64` and `inI64_wrap64`.
* `wrapU64`: the reduction of an unsigned word.
* `clamp64`, `saturatingAdd64`: reduction and addition that stop at the ends of the range.
* `checked64`, `checkedU64`, `checkedU32`, `checkedU16`, `checkedDiff`: an exact result, or nothing where it
  leaves the range.
* **`foldl_wrap64_add`**: a running sum kept in a word is the true sum, taken to the range once.
-/

set_option autoImplicit false

namespace MachineInt

/-- The value is a signed 64-bit integer. -/
def InI64 (x : ℤ) : Prop := -2 ^ 63 ≤ x ∧ x < 2 ^ 63

instance (x : ℤ) : Decidable (InI64 x) := by unfold InI64; infer_instance

/-- Two's-complement reduction to 64 bits. -/
def wrap64 (x : ℤ) : ℤ := x.bmod (2 ^ 64)

/-- Reduction of an unsigned result to 64 bits. -/
def wrapU64 (n : ℕ) : ℕ := n % 2 ^ 64

/-- Reduction that stops at the ends of the range. -/
def clamp64 (x : ℤ) : ℤ := max (-2 ^ 63) (min x (2 ^ 63 - 1))

/-- Addition that stops at the ends of the range. -/
def saturatingAdd64 (x y : ℤ) : ℤ := clamp64 (x + y)

/-- An exact result, or nothing where it leaves the range. -/
def checked64 (x : ℤ) : Option ℤ := if InI64 x then some x else none

/-- The same for an unsigned word. -/
def checkedU64 (n : ℕ) : Option ℕ := if n < 2 ^ 64 then some n else none

/-- The same for an unsigned word of 32 bits. -/
def checkedU32 (n : ℕ) : Option ℕ := if n < 2 ^ 32 then some n else none

/-- The same for an unsigned word of 16 bits. -/
def checkedU16 (n : ℕ) : Option ℕ := if n < 2 ^ 16 then some n else none

/-- The difference of two unsigned words, or nothing where it would be negative. -/
def checkedDiff (a b : ℕ) : Option ℕ := if b ≤ a then some (a - b) else none

theorem inI64_iff (x : ℤ) : InI64 x ↔ -9223372036854775808 ≤ x ∧ x < 9223372036854775808 :=
  Iff.rfl

theorem inI64_zero : InI64 0 := by decide

theorem wrap64_of_inI64 {x : ℤ} (h : InI64 x) : wrap64 x = x := by
  rw [inI64_iff] at h
  exact Int.bmod_eq_of_le (by omega) (by omega)

theorem wrapU64_of_lt {n : ℕ} (h : n < 2 ^ 64) : wrapU64 n = n := Nat.mod_eq_of_lt h

theorem wrapU64_lt (n : ℕ) : wrapU64 n < 2 ^ 64 := Nat.mod_lt n (by decide)

theorem wrapU64_le (n : ℕ) : wrapU64 n ≤ n := Nat.mod_le n _

theorem wrapU64_add_wrapU64 (m n : ℕ) : wrapU64 (wrapU64 m + n) = wrapU64 (m + n) :=
  Nat.mod_add_mod m _ n

theorem checked64_of_inI64 {x : ℤ} (h : InI64 x) : checked64 x = some (wrap64 x) := by
  rw [checked64, if_pos h, wrap64_of_inI64 h]

theorem checked64_eq_none {x : ℤ} (h : ¬ InI64 x) : checked64 x = none := if_neg h

theorem inI64_wrap64 (x : ℤ) : InI64 (wrap64 x) := by
  have h₁ : -(((2 ^ 64 : ℕ) : ℤ) / 2) ≤ wrap64 x := Int.le_bmod (by norm_num)
  have h₂ : wrap64 x < (((2 ^ 64 : ℕ) : ℤ) + 1) / 2 := Int.bmod_lt (by norm_num)
  rw [inI64_iff]
  omega

theorem clamp64_of_inI64 {x : ℤ} (h : InI64 x) : clamp64 x = x := by
  rw [inI64_iff] at h
  unfold clamp64
  omega

theorem inI64_clamp64 (x : ℤ) : InI64 (clamp64 x) := by
  rw [inI64_iff]
  unfold clamp64
  omega

theorem saturatingAdd64_of_inI64 {x y : ℤ} (h : InI64 (x + y)) : saturatingAdd64 x y = x + y :=
  clamp64_of_inI64 h

theorem wrap64_add_wrap64 (x y : ℤ) : wrap64 (wrap64 x + y) = wrap64 (x + y) :=
  Int.bmod_add_bmod

/-- **A wrapping running sum is the true sum, wrapped once.** -/
theorem foldl_wrap64_add (x : ℤ) (l : List ℤ) :
    wrap64 (l.foldl (fun s y => wrap64 (s + y)) x) = wrap64 (x + l.sum) := by
  induction l generalizing x with
  | nil => simp
  | cons y l ih => rw [List.foldl_cons, ih, wrap64_add_wrap64, List.sum_cons, add_assoc]

theorem foldl_wrap64_eq_sum {l : List ℤ} (h : InI64 l.sum) :
    l.foldl (fun s y => wrap64 (s + y)) 0 = l.sum := by
  have hr : InI64 (l.foldl (fun s y => wrap64 (s + y)) 0) := by
    cases l using List.reverseRecOn with
    | nil => exact inI64_zero
    | append_singleton l y => rw [List.foldl_append]; exact inI64_wrap64 _
  rw [← wrap64_of_inI64 hr, foldl_wrap64_add, zero_add, wrap64_of_inI64 h]

end MachineInt
