import Mathlib.Data.List.TakeWhile

/-!
# Maximal runs in a list

A run of a class of elements is maximal where neither neighbour belongs to the class. A list is cut
at a run as `pre ++ run ++ post`; a scan from left to right that tries every place answers with the
first place that has an answer.

* `MaximalRun`: the cut, with **`MaximalRun.eq_takeWhile`** saying that its start decides it.
* `MaximalRun.of_append`: a run does not reach over a break.
* `firstAt`: the scan; **`firstAt_eq_some_iff`** and `firstAt_eq_none_iff` say what it answers.
-/

set_option autoImplicit false

namespace Runs

variable {α β : Type*}

/-- `run` is a run of `p`, and neither neighbour belongs to it. -/
structure MaximalRun (p : α → Bool) (pre run post : List α) : Prop where
  nonempty : run ≠ []
  all : ∀ x ∈ run, p x = true
  left : ∀ x ∈ pre.getLast?, p x = false
  right : ∀ x ∈ post.head?, p x = false

variable {p : α → Bool} {pre run post : List α}

/-- **A run is all of the class from where it starts.** -/
theorem MaximalRun.eq_takeWhile (h : MaximalRun p pre run post) :
    (run ++ post).takeWhile p = run ∧ (run ++ post).dropWhile p = post := by
  have hpost : post.takeWhile p = [] ∧ post.dropWhile p = post := by
    cases post with
    | nil => exact ⟨rfl, rfl⟩
    | cons x post =>
      have hx : ¬ p x = true := by simp [h.right x rfl]
      exact ⟨List.takeWhile_cons_of_neg hx, List.dropWhile_cons_of_neg hx⟩
  rw [List.takeWhile_append_of_pos h.all, List.dropWhile_append_of_pos h.all, hpost.1, hpost.2,
    List.append_nil]
  exact ⟨rfl, rfl⟩

/-- What is taken of the class from a place after none of it is a run. -/
theorem maximalRun_takeWhile {l : List α} (hl : ∀ x ∈ pre.getLast?, p x = false)
    (hne : l.takeWhile p ≠ []) : MaximalRun p pre (l.takeWhile p) (l.dropWhile p) where
  nonempty := hne
  all := fun _ hx => List.mem_takeWhile_imp hx
  left := hl
  right := fun x hx => by
    have h := List.head?_dropWhile_not p l
    rw [Option.mem_def.mp hx] at h
    exact h

theorem MaximalRun.of_append {mid tail : List α} (h : MaximalRun p pre run post)
    (he : run ++ post = mid ++ tail) (hne : mid ≠ []) (hlast : ∀ x ∈ mid.getLast?, p x = false) :
    ∃ post', mid = run ++ post' ∧ post'.head? = post.head? ∧ MaximalRun p pre run post' := by
  have hend : ∀ x ∈ mid.getLast?, x ∉ run := fun x hx hrun => by
    have := hlast x hx
    rw [h.all x hrun] at this
    cases this
  have hcut : ∃ post', mid = run ++ post' ∧ post' ≠ [] ∧ post = post' ++ tail := by
    rcases List.append_eq_append_iff.mp he with ⟨x, rfl, hpost⟩ | ⟨x, rfl, -⟩
    · refine ⟨x, rfl, fun hx => ?_, hpost⟩
      rw [hx, List.append_nil] at hend
      exact hend _ (List.getLast?_eq_some_getLast h.nonempty)
        (List.getLast_mem h.nonempty)
    · exact absurd (List.mem_append_left x (List.getLast_mem hne))
        (hend _ (List.getLast?_eq_some_getLast hne))
  obtain ⟨post', hmid, hpost', rfl⟩ := hcut
  have hhead : post'.head? = (post' ++ tail).head? := by
    cases post' with
    | nil => exact absurd rfl hpost'
    | cons x post' => rfl
  exact ⟨post', hmid, hhead, ⟨h.nonempty, h.all, h.left, fun x hx => h.right x (hhead ▸ hx)⟩⟩

/-! ## Scanning from left to right -/

/-- The answer at the first place that has one. -/
def firstAt (f : List α → List α → Option β) : List α → List α → Option β
  | pre, [] => f pre []
  | pre, x :: rest => (f pre (x :: rest)).or (firstAt f (pre ++ [x]) rest)

variable {f : List α → List α → Option β}

theorem exists_of_firstAt {b : β} {pre l : List α} (h : firstAt f pre l = some b) :
    ∃ before after, l = before ++ after ∧ f (pre ++ before) after = some b ∧
      ∀ before' after', l = before' ++ after' → before'.length < before.length →
        f (pre ++ before') after' = none := by
  induction l generalizing pre with
  | nil =>
    rw [firstAt] at h
    refine ⟨[], [], rfl, by rwa [List.append_nil], fun before' _ _ hlt => ?_⟩
    exact absurd hlt (Nat.not_lt_zero _)
  | cons x rest ih =>
    rw [firstAt, Option.or_eq_some_iff] at h
    obtain h | ⟨hnone, h⟩ := h
    · refine ⟨[], x :: rest, rfl, by rwa [List.append_nil], fun before' _ _ hlt => ?_⟩
      exact absurd hlt (Nat.not_lt_zero _)
    · obtain ⟨before, after, rfl, hf, hfirst⟩ := ih h
      refine ⟨x :: before, after, rfl, by simpa using hf, fun before' after' he hlt => ?_⟩
      cases before' with
      | nil =>
        rw [List.nil_append] at he
        rw [List.append_nil, ← he, hnone]
      | cons y before' =>
        obtain ⟨rfl, he'⟩ := List.cons.inj he
        have := hfirst before' after' he' (Nat.lt_of_succ_lt_succ hlt)
        simpa using this

theorem firstAt_of_first {b : β} {pre before after : List α} (hf : f (pre ++ before) after = some b)
    (hfirst : ∀ before' after', before ++ after = before' ++ after' →
      before'.length < before.length → f (pre ++ before') after' = none) :
    firstAt f pre (before ++ after) = some b := by
  induction before generalizing pre with
  | nil =>
    rw [List.append_nil] at hf
    cases after with
    | nil => exact hf
    | cons x rest => rw [List.nil_append, firstAt, hf, Option.some_or]
  | cons x before ih =>
    have hnone := hfirst [] (x :: (before ++ after)) rfl (Nat.succ_pos _)
    rw [List.append_nil] at hnone
    rw [List.cons_append, firstAt, hnone, Option.none_or]
    refine ih (by simpa using hf) fun before' after' he hlt => ?_
    have := hfirst (x :: before') after' (by rw [List.cons_append, List.cons_append, he])
      (Nat.succ_lt_succ hlt)
    simpa using this

/-- **The scan answers for the first place with an answer.** -/
theorem firstAt_eq_some_iff {b : β} {pre l : List α} : firstAt f pre l = some b ↔
    ∃ before after, l = before ++ after ∧ f (pre ++ before) after = some b ∧
      ∀ before' after', l = before' ++ after' → before'.length < before.length →
        f (pre ++ before') after' = none := by
  constructor
  · exact exists_of_firstAt
  · rintro ⟨before, after, rfl, hf, hfirst⟩
    exact firstAt_of_first hf hfirst

theorem firstAt_eq_none_iff {pre l : List α} : firstAt f pre l = none ↔
    ∀ before after, l = before ++ after → f (pre ++ before) after = none := by
  induction l generalizing pre with
  | nil =>
    rw [firstAt]
    constructor
    · intro h before after he
      obtain ⟨rfl, rfl⟩ := List.append_eq_nil_iff.mp he.symm
      rwa [List.append_nil]
    · intro h
      simpa using h [] [] rfl
  | cons x rest ih =>
    rw [firstAt, Option.or_eq_none_iff, ih]
    constructor
    · rintro ⟨h, hrest⟩ before after he
      cases before with
      | nil =>
        rw [List.nil_append] at he
        rwa [List.append_nil, ← he]
      | cons y before =>
        obtain ⟨rfl, he'⟩ := List.cons.inj he
        simpa using hrest before after he'
    · intro h
      refine ⟨by simpa using h [] (x :: rest) rfl, fun before after he => ?_⟩
      have := h (x :: before) after (by rw [List.cons_append, ← he])
      simpa using this

end Runs
