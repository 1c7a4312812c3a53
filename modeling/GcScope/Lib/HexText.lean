import Mathlib.Algebra.Group.Nat.Defs
import Mathlib.Tactic.Common

/-!
# Numbers in hexadecimal

Lower-case hexadecimal digits, padded with zeros to a width, and the reader of such digits.

* `padded`: a number as digits; `length_padded`: how many, where it fits the width.
* `value?`: the number digits denote; **`value?_padded`**: padded digits denote what they show.
-/

set_option autoImplicit false

namespace HexText

/-- The value of a digit. -/
def digitVal? (c : Char) : Option ℕ :=
  if c.isDigit then some (c.toNat - '0'.toNat)
  else if 'a' ≤ c ∧ c ≤ 'f' then some (10 + (c.toNat - 'a'.toNat))
  else none

/-- One more digit. -/
def push (n : ℕ) (c : Char) : Option ℕ := (digitVal? c).map fun d => 16 * n + d

/-- The number that digits denote. -/
def value? (cs : List Char) : Option ℕ := cs.foldlM push 0

/-- The digits of a number, padded with zeros. -/
def padded (width n : ℕ) : List Char := (Nat.toDigits 16 n).leftpad width '0'

theorem digitVal?_digitChar {d : ℕ} (h : d < 16) : digitVal? d.digitChar = some d :=
  (by decide : ∀ d < 16, digitVal? (Nat.digitChar d) = some d) d h

theorem foldlM_toDigits (n : ℕ) : (Nat.toDigits 16 n).foldlM push 0 = some n := by
  induction n using Nat.strongRecOn with
  | ind n ih =>
    rw [Nat.toDigits_eq_if (by decide)]
    split_ifs with h
    · simp [push, digitVal?_digitChar h]
    · have hrest := ih (n / 16) (by omega)
      have hlow : digitVal? (n % 16).digitChar = some (n % 16) := digitVal?_digitChar (by omega)
      simp only [List.foldlM_append, hrest, List.foldlM_cons, List.foldlM_nil, push, hlow,
        Option.bind_eq_bind, Option.bind_some, Option.map_some]
      exact congrArg some (Nat.div_add_mod n 16)

theorem foldlM_zeros (k : ℕ) (cs : List Char) :
    (List.replicate k '0' ++ cs).foldlM push 0 = cs.foldlM push 0 := by
  induction k with
  | zero => rfl
  | succ k ih =>
    rw [List.replicate_succ, List.cons_append, List.foldlM_cons]
    exact ih

/-- **Padded digits denote the number they show.** -/
theorem value?_padded (width n : ℕ) : value? (padded width n) = some n := by
  rw [value?, padded, List.leftpad, foldlM_zeros, foldlM_toDigits]

theorem length_padded {width n : ℕ} (hw : 0 < width) (h : n < 16 ^ width) :
    (padded width n).length = width := by
  have hlen := (Nat.length_toDigits_le_iff (by decide) hw).mpr h
  rw [padded, List.leftpad, List.length_append, List.length_replicate]
  omega

end HexText
