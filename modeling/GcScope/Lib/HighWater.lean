import Mathlib.Order.WithBot
import Mathlib.Data.List.Pairwise
import Mathlib.Order.MinMax

/-!
# Selecting against a high-water mark

A stream of items, each with a level. `climb f m l` keeps the items of `l` whose level lies above
every level met so far, starting from the mark `m`; `mark f m l` is the mark they leave behind.

* `climb_append`, `mark_append`: a stream may be cut anywhere.
* `mark_lt_iff`: an item is kept exactly when it beats the starting mark and every earlier item.
* **`pairwise_climb`**: the kept levels strictly increase, so no level is kept twice.
* `climb_of_pairwise`: of an increasing stream, what lies above the mark is kept.
* `exists_mem_climb`: of a stream in level order, every level above the mark is kept once.
* `mark_climb`: the kept items alone determine the mark.
-/

set_option autoImplicit false

namespace HighWater

variable {α β : Type*} [LinearOrder α] (f : β → α)

/-- The mark after a stream: the largest level met. -/
def mark (m : WithBot α) (l : List β) : WithBot α := l.foldl (fun m b => max m (f b)) m

/-- The items above the mark, each raising it. -/
def climb : WithBot α → List β → List β
  | _, [] => []
  | m, b :: l => if m < f b then b :: climb (f b) l else climb m l

@[simp] theorem mark_nil (m : WithBot α) : mark f m [] = m := rfl

@[simp] theorem mark_cons (m : WithBot α) (b : β) (l : List β) :
    mark f m (b :: l) = mark f (max m (f b)) l := rfl

theorem mark_append (m : WithBot α) (l₁ l₂ : List β) :
    mark f m (l₁ ++ l₂) = mark f (mark f m l₁) l₂ := List.foldl_append

@[simp] theorem climb_nil (m : WithBot α) : climb f m [] = [] := rfl

theorem climb_cons_of_lt {m : WithBot α} {b : β} (h : m < f b) (l : List β) :
    climb f m (b :: l) = b :: climb f (f b) l := if_pos h

theorem climb_cons_of_not_lt {m : WithBot α} {b : β} (h : ¬ m < f b) (l : List β) :
    climb f m (b :: l) = climb f m l := if_neg h

theorem climb_append (m : WithBot α) (l₁ l₂ : List β) :
    climb f m (l₁ ++ l₂) = climb f m l₁ ++ climb f (mark f m l₁) l₂ := by
  induction l₁ generalizing m with
  | nil => rfl
  | cons b l ih =>
    rw [List.cons_append, mark_cons]
    by_cases h : m < f b
    · rw [climb_cons_of_lt f h, climb_cons_of_lt f h, ih, max_eq_right h.le, List.cons_append]
    · rw [climb_cons_of_not_lt f h, climb_cons_of_not_lt f h, ih, max_eq_left (not_lt.mp h)]

theorem climb_map {γ : Type*} (g : γ → β) (m : WithBot α) (l : List γ) :
    climb f m (l.map g) = (climb (fun c => f (g c)) m l).map g := by
  induction l generalizing m with
  | nil => rfl
  | cons c l ih =>
    rw [List.map_cons]
    by_cases h : m < f (g c)
    · rw [climb_cons_of_lt f h, climb_cons_of_lt (fun c => f (g c)) h, ih, List.map_cons]
    · rw [climb_cons_of_not_lt f h, climb_cons_of_not_lt (fun c => f (g c)) h, ih]

theorem mark_map {γ : Type*} (g : γ → β) (m : WithBot α) (l : List γ) :
    mark f m (l.map g) = mark (fun c => f (g c)) m l := List.foldl_map

theorem climb_sublist (m : WithBot α) (l : List β) : (climb f m l).Sublist l := by
  induction l generalizing m with
  | nil => exact List.Sublist.refl _
  | cons b l ih =>
    by_cases h : m < f b
    · rw [climb_cons_of_lt f h]; exact (ih _).cons_cons b
    · rw [climb_cons_of_not_lt f h]; exact (ih _).cons b

/-- **An item beats the mark exactly when it beats where the mark began and every earlier item.** -/
theorem mark_lt_iff (m : WithBot α) (l : List β) (a : WithBot α) :
    mark f m l < a ↔ m < a ∧ ∀ b ∈ l, (f b : WithBot α) < a := by
  induction l generalizing m with
  | nil => simp
  | cons b l ih =>
    rw [mark_cons, ih, max_lt_iff, List.forall_mem_cons]
    exact and_assoc

theorem mark_bot_lt_iff (l : List β) (a : α) : mark f ⊥ l < a ↔ ∀ b ∈ l, f b < a := by
  simp [mark_lt_iff, WithBot.coe_lt_coe]

theorem lt_of_mem_climb {m : WithBot α} {l : List β} {b : β} (h : b ∈ climb f m l) :
    m < f b := by
  induction l generalizing m with
  | nil => cases h
  | cons c l ih =>
    by_cases hc : m < f c
    · rw [climb_cons_of_lt f hc] at h
      rcases List.mem_cons.mp h with rfl | h'
      · exact hc
      · exact hc.trans (ih h')
    · rw [climb_cons_of_not_lt f hc] at h
      exact ih h

/-- **The kept levels strictly increase.** -/
theorem pairwise_climb (m : WithBot α) (l : List β) :
    (climb f m l).Pairwise fun a b => f a < f b := by
  induction l generalizing m with
  | nil => exact List.Pairwise.nil
  | cons b l ih =>
    by_cases h : m < f b
    · rw [climb_cons_of_lt f h]
      exact List.pairwise_cons.mpr
        ⟨fun c hc => WithBot.coe_lt_coe.mp (lt_of_mem_climb f hc), ih _⟩
    · rw [climb_cons_of_not_lt f h]; exact ih _

/-- The kept items leave the same mark as the whole stream. -/
theorem mark_climb (m : WithBot α) (l : List β) : mark f m (climb f m l) = mark f m l := by
  induction l generalizing m with
  | nil => rfl
  | cons b l ih =>
    by_cases h : m < f b
    · rw [climb_cons_of_lt f h, mark_cons, mark_cons, max_eq_right h.le, ih]
    · rw [climb_cons_of_not_lt f h, mark_cons, max_eq_left (not_lt.mp h), ih]

theorem mark_eq_getLast (l : List β) (h : climb f ⊥ l ≠ []) :
    mark f ⊥ l = f ((climb f ⊥ l).getLast h) := by
  have hp := pairwise_climb f ⊥ l
  rw [← mark_climb]
  obtain ⟨c, b, hc⟩ : ∃ c b, climb f ⊥ l = c ++ [b] :=
    ⟨_, _, (List.dropLast_concat_getLast h).symm⟩
  simp only [hc, List.getLast_concat]
  rw [hc, List.pairwise_append] at hp
  have hlt : mark f ⊥ c < f b := (mark_bot_lt_iff f c (f b)).mpr fun x hx =>
    hp.2.2 x hx b (List.mem_singleton_self b)
  rw [mark_append, mark_cons, mark_nil, max_eq_right hlt.le]

theorem mark_eq_bot_of_climb (l : List β) (h : climb f ⊥ l = []) : mark f ⊥ l = ⊥ := by
  rw [← mark_climb, h, mark_nil]

/-- Of a stream whose levels increase, what lies above the mark is kept. -/
theorem climb_of_pairwise (m : WithBot α) {l : List β} (hl : l.Pairwise fun a b => f a < f b) :
    climb f m l = l.filter fun b => m < f b := by
  induction l generalizing m with
  | nil => rfl
  | cons b l ih =>
    obtain ⟨hb, hl⟩ := List.pairwise_cons.mp hl
    by_cases h : m < f b
    · rw [climb_cons_of_lt f h, ih _ hl, List.filter_cons_of_pos (by simpa using h)]
      refine congrArg _ (List.filter_congr fun c hc => ?_)
      simp only [decide_eq_decide, WithBot.coe_lt_coe]
      exact ⟨fun hbc => h.trans (WithBot.coe_lt_coe.mpr hbc), fun _ => hb c hc⟩
    · rw [climb_cons_of_not_lt f h, ih _ hl, List.filter_cons_of_neg (by simpa using h)]

/-- Of a stream in level order, every level above the mark is kept. -/
theorem exists_mem_climb {m : WithBot α} {l : List β} (hl : l.Pairwise fun a b => f a ≤ f b) {b : β}
    (hb : b ∈ l) (h : m < f b) : ∃ b' ∈ climb f m l, f b' = f b := by
  induction l generalizing m with
  | nil => cases hb
  | cons c l ih =>
    obtain ⟨hc, hl⟩ := List.pairwise_cons.mp hl
    by_cases hm : m < f c
    · rw [climb_cons_of_lt f hm]
      rcases List.mem_cons.mp hb with rfl | hb
      · exact ⟨b, List.mem_cons_self, rfl⟩
      · rcases (hc b hb).eq_or_lt with he | hlt
        · exact ⟨c, List.mem_cons_self, he⟩
        · obtain ⟨b', hb', he⟩ := ih hl hb (WithBot.coe_lt_coe.mpr hlt)
          exact ⟨b', List.mem_cons_of_mem c hb', he⟩
    · rw [climb_cons_of_not_lt f hm]
      rcases List.mem_cons.mp hb with rfl | hb
      · exact absurd h hm
      · exact ih hl hb h

end HighWater
