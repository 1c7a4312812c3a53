import Mathlib.Data.List.Induction

/-!
# Runs of a deterministic machine with outputs

`step s i` is the next state and what the step puts out. `exec` runs a list of inputs, `outs`
collects the outputs.

* `exec_append`, `outs_append`: runs compose.
* **`outs_flatMap_of_neutral`**: blocks that leave the state where it was may be looked at one by one.
* `Along`: what holds of the state and the input at every step of a run.
* **`exec_induction`**: what every step of a run preserves holds at its end.
* **`exec_history`**: the same for a property that also speaks of the inputs so far.
* **`exec_outs_induction`**: the same for one that speaks of the outputs so far.
* `shadow`: a value computed beside a run, with **`shadow_induction`** for what ties it to the state.
-/

set_option autoImplicit false

namespace Mealy

variable {σ ι ο : Type*} (step : σ → ι → σ × List ο)

/-- The state after a run. -/
def exec (s : σ) (is : List ι) : σ := is.foldl (fun s i => (step s i).1) s

/-- The outputs of a run. -/
def outs : σ → List ι → List ο
  | _, [] => []
  | s, i :: is => (step s i).2 ++ outs (step s i).1 is

@[simp] theorem exec_nil (s : σ) : exec step s [] = s := rfl

@[simp] theorem exec_cons (s : σ) (i : ι) (is : List ι) :
    exec step s (i :: is) = exec step (step s i).1 is := rfl

theorem exec_append (s : σ) (is js : List ι) :
    exec step s (is ++ js) = exec step (exec step s is) js := List.foldl_append

theorem exec_concat (s : σ) (is : List ι) (i : ι) :
    exec step s (is ++ [i]) = (step (exec step s is) i).1 := exec_append step s is [i]

@[simp] theorem outs_nil (s : σ) : outs step s [] = [] := rfl

@[simp] theorem outs_cons (s : σ) (i : ι) (is : List ι) :
    outs step s (i :: is) = (step s i).2 ++ outs step (step s i).1 is := rfl

theorem outs_append (s : σ) (is js : List ι) :
    outs step s (is ++ js) = outs step s is ++ outs step (exec step s is) js := by
  induction is generalizing s with
  | nil => rfl
  | cons i is ih => rw [List.cons_append, outs_cons, ih, outs_cons, exec_cons, List.append_assoc]

theorem outs_concat (s : σ) (is : List ι) (i : ι) :
    outs step s (is ++ [i]) = outs step s is ++ (step (exec step s is) i).2 := by
  rw [outs_append, outs_cons, outs_nil, List.append_nil]

theorem mem_outs {s : σ} {is : List ι} {o : ο} : o ∈ outs step s is ↔
    ∃ pre i post, is = pre ++ i :: post ∧ o ∈ (step (exec step s pre) i).2 := by
  induction is generalizing s with
  | nil => simp
  | cons i is ih =>
    rw [outs_cons, List.mem_append, ih]
    constructor
    · rintro (h | ⟨pre, j, post, rfl, h⟩)
      · exact ⟨[], i, is, rfl, h⟩
      · exact ⟨i :: pre, j, post, rfl, h⟩
    · rintro ⟨pre, j, post, e, h⟩
      cases pre with
      | nil =>
        obtain ⟨rfl, rfl⟩ := List.cons.inj e
        exact Or.inl h
      | cons k pre =>
        obtain ⟨rfl, rfl⟩ := List.cons.inj e
        exact Or.inr ⟨pre, j, post, rfl, h⟩

/-- **Blocks of inputs that leave the state where it was each put out their own outputs.** -/
theorem outs_flatMap_of_neutral {α : Type*} {f : α → List ι} {g : α → List ο} {l : List α}
    (h : ∀ a ∈ l, ∀ s, exec step s (f a) = s ∧ outs step s (f a) = g a) (s : σ) :
    exec step s (l.flatMap f) = s ∧ outs step s (l.flatMap f) = l.flatMap g := by
  induction l with
  | nil => exact ⟨rfl, rfl⟩
  | cons a l ih =>
    obtain ⟨hexec, houts⟩ := h a List.mem_cons_self s
    obtain ⟨hexec', houts'⟩ := ih fun b hb => h b (List.mem_cons_of_mem a hb)
    rw [List.flatMap_cons, exec_append, outs_append, hexec, houts, houts', List.flatMap_cons]
    exact ⟨hexec', rfl⟩

/-- Inputs that do nothing may be left out. -/
theorem outs_filter_of_idle {p : ι → Bool} (h : ∀ i, ¬p i → ∀ s, step s i = (s, [])) (s : σ)
    (is : List ι) : exec step s (is.filter p) = exec step s is ∧
      outs step s (is.filter p) = outs step s is := by
  induction is generalizing s with
  | nil => exact ⟨rfl, rfl⟩
  | cons i is ih =>
    by_cases hp : p i
    · rw [List.filter_cons_of_pos hp, exec_cons, exec_cons, outs_cons, outs_cons]
      exact ⟨(ih _).1, congrArg _ (ih _).2⟩
    · rw [List.filter_cons_of_neg hp, exec_cons, outs_cons, h i hp s]
      exact ih s

theorem run_map {κ : Type*} (f : κ → ι) (s : σ) (ks : List κ) :
    exec step s (ks.map f) = exec (fun s k => step s (f k)) s ks ∧
      outs step s (ks.map f) = outs (fun s k => step s (f k)) s ks := by
  induction ks generalizing s with
  | nil => exact ⟨rfl, rfl⟩
  | cons k ks ih => exact ⟨(ih _).1, congrArg _ (ih _).2⟩

/-- `P` holds of the state and the input at every step of a run. -/
def Along (P : σ → ι → Prop) (s : σ) (is : List ι) : Prop :=
  ∀ pre i post, is = pre ++ i :: post → P (exec step s pre) i

@[simp] theorem along_nil (P : σ → ι → Prop) (s : σ) : Along step P s [] :=
  fun pre i post e => by cases pre <;> cases e

theorem along_cons {P : σ → ι → Prop} {s : σ} {i : ι} {is : List ι} :
    Along step P s (i :: is) ↔ P s i ∧ Along step P (step s i).1 is := by
  constructor
  · intro h
    exact ⟨h [] i is rfl, fun pre j post e => h (i :: pre) j post (by rw [e]; rfl)⟩
  · rintro ⟨hi, h⟩ pre j post e
    cases pre with
    | nil => obtain ⟨rfl, -⟩ := List.cons.inj e; exact hi
    | cons k pre => obtain ⟨rfl, e'⟩ := List.cons.inj e; exact h pre j post e'

theorem along_append {P : σ → ι → Prop} {s : σ} {is js : List ι} :
    Along step P s (is ++ js) ↔ Along step P s is ∧ Along step P (exec step s is) js := by
  induction is generalizing s with
  | nil => simp
  | cons i is ih => rw [List.cons_append, along_cons, along_cons, ih, exec_cons, and_assoc]

theorem along_concat {P : σ → ι → Prop} {s : σ} {is : List ι} {i : ι} :
    Along step P s (is ++ [i]) ↔ Along step P s is ∧ P (exec step s is) i := by
  rw [along_append, along_cons]
  simp

instance decidableAlong (P : σ → ι → Prop) [∀ s i, Decidable (P s i)] :
    (is : List ι) → (s : σ) → Decidable (Along step P s is)
  | [], s => isTrue (along_nil step P s)
  | i :: is, s =>
    have := decidableAlong P is (step s i).1
    decidable_of_iff _ (along_cons step).symm

variable {step}

/-- **What every step preserves holds at the end of a run.** -/
theorem exec_induction {P : σ → Prop} {s : σ} {is : List ι} (h₀ : P s)
    (hs : ∀ t, P t → ∀ i ∈ is, P (step t i).1) : P (exec step s is) := by
  induction is generalizing s with
  | nil => exact h₀
  | cons i is ih =>
    exact ih (hs s h₀ i List.mem_cons_self) fun t ht j hj =>
      hs t ht j (List.mem_cons_of_mem i hj)

/-- **A property of the inputs so far and the state, kept by every step of the run.** -/
theorem exec_history {P : List ι → σ → Prop} {s : σ} {is : List ι} (h₀ : P [] s)
    (hs : ∀ pre i post, is = pre ++ i :: post → P pre (exec step s pre) →
      P (pre ++ [i]) (step (exec step s pre) i).1) : P is (exec step s is) := by
  induction is using List.reverseRecOn with
  | nil => exact h₀
  | append_singleton is i ih =>
    rw [exec_concat]
    refine hs is i [] rfl (ih fun pre j post e => hs pre j (post ++ [i]) ?_)
    rw [e, List.append_assoc, List.cons_append]

/-- **A property of the outputs so far and the state, kept by every step of the run.** -/
theorem exec_outs_induction {P : List ο → σ → Prop} (os : List ο) {s : σ} (is : List ι)
    (h₀ : P os s) (hs : ∀ os t, P os t → ∀ i ∈ is, P (os ++ (step t i).2) (step t i).1) :
    P (os ++ outs step s is) (exec step s is) := by
  induction is generalizing os s with
  | nil => rwa [outs_nil, List.append_nil]
  | cons i is ih =>
    rw [outs_cons, exec_cons, ← List.append_assoc]
    exact ih _ (hs os s h₀ i List.mem_cons_self) fun os t ht j hj =>
      hs os t ht j (List.mem_cons_of_mem i hj)

/-! ## Values beside a run -/

variable {γ : Type*}

/-- A value that every step of a run brings up to date, with the state before the step in sight. -/
def shadow (step : σ → ι → σ × List ο) (g : γ → σ → ι → γ) : σ → γ → List ι → γ
  | _, x, [] => x
  | s, x, i :: is => shadow step g (step s i).1 (g x s i) is

/-- **A relation between the value and the state, kept by every step of the run.** -/
theorem shadow_induction {g : γ → σ → ι → γ} {P : γ → σ → Prop} {x : γ} {s : σ} {is : List ι}
    (h₀ : P x s) (hs : ∀ y t, P y t → ∀ i ∈ is, P (g y t i) (step t i).1) :
    P (shadow step g s x is) (exec step s is) := by
  induction is generalizing s x with
  | nil => exact h₀
  | cons i is ih =>
    exact ih (hs x s h₀ i List.mem_cons_self) fun y t ht j hj =>
      hs y t ht j (List.mem_cons_of_mem i hj)

end Mealy
