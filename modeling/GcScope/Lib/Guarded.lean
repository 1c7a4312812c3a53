import Mathlib.Algebra.Group.Nat.Defs
import Mathlib.Logic.Function.Iterate
import Mathlib.Order.Basic

/-!
# Computations that may panic

A computation with checked arithmetic yields a value or, where an operation leaves its range, a
panic: `none`. `Guarded x P v` says that `x` yields `v` where `P` holds and panics where it does not,
so that a check can be carried through a program beside the value the unchecked program computes.

* `Guarded.pure`, `Guarded.map`, `Guarded.bind`, `Guarded.mapM`: the rules for the ways programs are
  put together; **`Guarded.foldlM_range`**: the rule for a step over and over.
* `checkedAdd`, `checkedSub`, `checkedRem`: operations on words, with **`guarded_checkedAdd`** and its
  like.
* `sliceChecked`: a part of a list; `infix_of_sliceChecked` says that it is one.
-/

set_option autoImplicit false

/-- `x` yields `v` where `P` holds, and panics elsewhere. -/
def Guarded {α : Type*} (x : Option α) (P : Prop) (v : α) : Prop := ∀ r, x = some r ↔ P ∧ r = v

namespace Guarded

variable {α β : Type*} {x : Option α} {f : α → Option β} {P Q : Prop} {v : α} {w : β}

theorem pure (v : α) : Guarded (some v) True v := by
  intro r
  rw [Option.some.injEq, true_and, eq_comm]

theorem congr (h : Guarded x P v) (hPQ : P ↔ Q) : Guarded x Q v := fun r => by rw [h r, hPQ]

theorem ite (P : Prop) [Decidable P] (v : α) : Guarded (if P then some v else none) P v := by
  intro r
  split_ifs with h
  · rw [Option.some.injEq, eq_comm]
    exact (and_iff_right h).symm
  · exact ⟨fun hr => (nomatch hr), fun hr => absurd hr.1 h⟩

theorem value {u : α} (h : Guarded x P v) (hvu : P → v = u) : Guarded x P u := by
  intro r
  rw [h r]
  exact and_congr_right fun hP => by rw [hvu hP]

theorem of_holds (h : Guarded x P v) (hP : P) : x = some v := (h v).mpr ⟨hP, rfl⟩

theorem eq_none (h : Guarded x P v) (hP : ¬P) : x = none :=
  Option.eq_none_iff_forall_ne_some.mpr fun r hr => hP ((h r).mp hr).1

theorem none_of_not (hP : ¬P) (v : α) : Guarded none P v :=
  fun _ => ⟨fun hr => (nomatch hr), fun hr => absurd hr.1 hP⟩

theorem isSome_iff (h : Guarded x P v) : x.isSome = true ↔ P := by
  rw [Option.isSome_iff_exists]
  exact ⟨fun ⟨r, hr⟩ => ((h r).mp hr).1, fun hP => ⟨v, h.of_holds hP⟩⟩

theorem bind (h : Guarded x P v) (hf : Guarded (f v) Q w) : Guarded (x.bind f) (P ∧ Q) w := by
  intro r
  rw [Option.bind_eq_some_iff]
  constructor
  · rintro ⟨a, ha, hr⟩
    obtain ⟨hP, rfl⟩ := (h a).mp ha
    obtain ⟨hQ, rfl⟩ := (hf r).mp hr
    exact ⟨⟨hP, hQ⟩, rfl⟩
  · rintro ⟨⟨hP, hQ⟩, rfl⟩
    exact ⟨v, h.of_holds hP, hf.of_holds hQ⟩

theorem map (h : Guarded x P v) (g : α → β) : Guarded (x.map g) P (g v) := by
  rw [Option.map_eq_bind]
  exact (h.bind (pure (g v))).congr (and_iff_left trivial)

theorem mapM {P : α → Prop} {g : α → β} (l : List α) (h : ∀ a ∈ l, Guarded (f a) (P a) (g a)) :
    Guarded (l.mapM f) (∀ a ∈ l, P a) (l.map g) := by
  induction l with
  | nil => exact (pure []).congr (by simp)
  | cons a l ih =>
    rw [List.mapM_cons]
    have hrest := ih fun b hb => h b (List.mem_cons_of_mem a hb)
    have htail := hrest.bind (f := fun bs => some (g a :: bs)) (pure _)
    refine ((h a List.mem_cons_self).bind htail).congr ?_
    rw [and_true, List.forall_mem_cons]

/-- Where only a part of the value matters, one computation after another. -/
theorem bind_of_map {γ δ : Type*} {g : α → γ} {g' : β → δ} {v : γ} {w : δ} (h : Guarded (x.map g) P v)
    (hf : ∀ a, g a = v → Guarded ((f a).map g') Q w) : Guarded ((x.bind f).map g') (P ∧ Q) w := by
  cases x with
  | none =>
    have hP : ¬P := fun hP => nomatch h.of_holds hP
    exact none_of_not (fun hPQ => hP hPQ.1) w
  | some a =>
    obtain ⟨hP, hv⟩ := (h (g a)).mp rfl
    exact (hf a hv).congr (and_iff_right hP).symm

/-- **A step over and over**: what matters of the state goes from each step to the next, and each step
has its check. -/
theorem foldlM_range {γ : Type*} {f : α → Option α} {g : α → γ} {P : γ → Prop} {next : γ → γ}
    (h : ∀ a, Guarded ((f a).map g) (P (g a)) (next (g a))) (n : ℕ) (a : α) :
    Guarded (((List.range n).foldlM (fun a _ => f a) a).map g) (∀ k < n, P (next^[k] (g a)))
      (next^[n] (g a)) := by
  induction n with
  | zero => exact (pure (g a)).congr ⟨fun _ k hk => absurd hk (Nat.not_lt_zero k), fun _ => trivial⟩
  | succ n ih =>
    have hlast : ∀ b, g b = next^[n] (g a) →
        Guarded (([n].foldlM (fun a _ => f a) b).map g) (P (next^[n] (g a))) (next^[n + 1] (g a)) := by
      intro b hb
      rw [List.foldlM_cons, Function.iterate_succ_apply', ← hb]
      simpa using h b
    rw [List.range_succ, List.foldlM_append]
    exact (ih.bind_of_map hlast).congr Nat.forall_lt_succ_right.symm

theorem self (x : Option α) (v : α) : Guarded x (x.isSome = true) (x.getD v) := by
  intro r
  cases x with
  | none => simp
  | some a => simp [eq_comm]

end Guarded

/-! ## Unsigned addition -/

/-- The sum of two words is a word. -/
def Fits {n : ℕ} (a b : BitVec n) : Prop := a.toNat + b.toNat < 2 ^ n

instance {n : ℕ} (a b : BitVec n) : Decidable (Fits a b) := by unfold Fits; infer_instance

/-- An unsigned addition that panics where it overflows. -/
def checkedAdd {n : ℕ} (a b : BitVec n) : Option (BitVec n) :=
  if a.uaddOverflow b then none else some (a + b)

/-- **Where the sum fits, the checked addition is the one that wraps.** -/
theorem guarded_checkedAdd {n : ℕ} (a b : BitVec n) : Guarded (checkedAdd a b) (Fits a b) (a + b) := by
  intro r
  unfold checkedAdd Fits BitVec.uaddOverflow
  split_ifs with h
  · rw [decide_eq_true_eq] at h
    exact ⟨fun hr => (nomatch hr), fun hr => absurd hr.1 (Nat.not_lt.mpr h)⟩
  · rw [decide_eq_true_eq] at h
    rw [Option.some.injEq]
    exact ⟨fun hr => ⟨Nat.not_le.mp h, hr.symm⟩, fun hr => hr.2.symm⟩

/-! ## Subtraction and remainder -/

/-- An unsigned subtraction that panics where it underflows. -/
def checkedSub {n : ℕ} (a b : BitVec n) : Option (BitVec n) :=
  if a.usubOverflow b then none else some (a - b)

theorem guarded_checkedSub {n : ℕ} (a b : BitVec n) : Guarded (checkedSub a b) (b ≤ a) (a - b) := by
  intro r
  unfold checkedSub BitVec.usubOverflow
  rw [BitVec.le_def]
  split_ifs with h
  · rw [decide_eq_true_eq] at h
    exact ⟨fun hr => (nomatch hr), fun hr => absurd hr.1 (Nat.not_le.mpr h)⟩
  · rw [decide_eq_true_eq] at h
    rw [Option.some.injEq]
    exact ⟨fun hr => ⟨Nat.not_lt.mp h, hr.symm⟩, fun hr => hr.2.symm⟩

/-- An unsigned remainder, which panics for a zero divisor. -/
def checkedRem {n : ℕ} (a b : BitVec n) : Option (BitVec n) := if b = 0 then none else some (a % b)

theorem guarded_checkedRem {n : ℕ} (a b : BitVec n) : Guarded (checkedRem a b) (b ≠ 0) (a % b) := by
  intro r
  unfold checkedRem
  split_ifs with h
  · exact ⟨fun hr => (nomatch hr), fun hr => absurd h hr.1⟩
  · rw [Option.some.injEq, eq_comm]
    exact (and_iff_right h).symm

/-! ## Slices -/

/-- The elements from one place up to another, or nothing where the list does not have both. -/
def sliceChecked {α : Type*} (l : List α) (start stop : ℕ) : Option (List α) :=
  if start ≤ stop ∧ stop ≤ l.length then some ((l.drop start).take (stop - start)) else none

theorem guarded_sliceChecked {α : Type*} (l : List α) (start stop : ℕ) :
    Guarded (sliceChecked l start stop) (start ≤ stop ∧ stop ≤ l.length)
      ((l.drop start).take (stop - start)) := Guarded.ite _ _

/-- A slice lies inside what it is cut from. -/
theorem infix_of_sliceChecked {α : Type*} {l s : List α} {start stop : ℕ}
    (h : sliceChecked l start stop = some s) : s <:+: l := by
  obtain ⟨-, rfl⟩ := (guarded_sliceChecked l start stop s).mp h
  exact (List.take_prefix _ _).isInfix.trans (List.drop_suffix _ _).isInfix
