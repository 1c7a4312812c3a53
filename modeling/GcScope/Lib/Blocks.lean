import Mathlib.Data.List.Induction
import Mathlib.Data.List.Flatten
import Mathlib.Order.Lattice

/-!
# Cutting a list into blocks as it goes by

Each item goes in the last block, where it joins that block, and in a block of its own otherwise.

* `place`, `blocks`: one item, and a list from no blocks.
* `blocks_concat`: what one more item does.
* `flatten_blocks`, `ne_nil_of_mem_blocks`: the blocks cut the list, none of them empty.
* **`uniform_blocks_iff`**: every block stays in one class exactly when no item joins a block of
  another.
* **`pairwise_blocks`**: where an item joins every block of its class, the classes of the blocks
  follow the order of the list.
-/

set_option autoImplicit false

namespace Blocks

variable {α β : Type*} (joins : List α → α → Bool)

/-- Put an item in the last block where it joins it, else in a block of its own. -/
def place (bs : List (List α)) (a : α) : List (List α) :=
  match bs.getLast? with
  | some b => if joins b a then bs.dropLast ++ [b ++ [a]] else bs ++ [[a]]
  | none => bs ++ [[a]]

/-- The blocks of a list. -/
def blocks (l : List α) : List (List α) := l.foldl (place joins) []

@[simp] theorem blocks_nil : blocks joins [] = [] := rfl

theorem blocks_append_singleton (l : List α) (a : α) :
    blocks joins (l ++ [a]) = place joins (blocks joins l) a := by
  rw [blocks, List.foldl_append]; rfl

/-- **One more item joins the last block, or starts a block where there is none or it does not
join.** -/
theorem blocks_concat (l : List α) (a : α) :
    (∃ bs b, blocks joins l = bs ++ [b] ∧ joins b a = true ∧
      blocks joins (l ++ [a]) = bs ++ [b ++ [a]]) ∨
    ((∀ b, (blocks joins l).getLast? = some b → joins b a = false) ∧
      blocks joins (l ++ [a]) = blocks joins l ++ [[a]]) := by
  rw [blocks_append_singleton]
  rcases List.eq_nil_or_concat (blocks joins l) with h | ⟨bs, b, h⟩
  · rw [h]
    exact Or.inr ⟨fun _ hb => absurd hb (Option.some_ne_none _).symm, rfl⟩
  · rw [List.concat_eq_append] at h
    rw [h, place, List.getLast?_concat]
    by_cases hj : joins b a = true
    · exact Or.inl ⟨bs, b, rfl, hj, by simp [hj]⟩
    · refine Or.inr ⟨fun b' hb' => ?_, by simp [hj]⟩
      obtain rfl := Option.some.inj hb'
      exact Bool.eq_false_iff.mpr hj

theorem flatten_blocks (l : List α) : (blocks joins l).flatten = l := by
  induction l using List.reverseRecOn with
  | nil => rfl
  | append_singleton l a ih =>
    rcases blocks_concat joins l a with ⟨bs, b, h, -, h'⟩ | ⟨-, h'⟩
    · rw [h'] at *
      rw [h] at ih
      simp only [List.flatten_append, List.flatten_singleton] at ih ⊢
      rw [← List.append_assoc, ih]
    · rw [h', List.flatten_append, ih, List.flatten_singleton]

theorem ne_nil_of_mem_blocks {l : List α} {b : List α} (h : b ∈ blocks joins l) : b ≠ [] := by
  induction l using List.reverseRecOn generalizing b with
  | nil => cases h
  | append_singleton l a ih =>
    rcases blocks_concat joins l a with ⟨bs, b', he, -, h'⟩ | ⟨-, h'⟩
    · rw [h'] at h
      rcases List.mem_append.mp h with h | h
      · exact ih (by rw [he]; exact List.mem_append_left _ h)
      · rw [List.mem_singleton.mp h]; simp
    · rw [h'] at h
      rcases List.mem_append.mp h with h | h
      · exact ih h
      · rw [List.mem_singleton.mp h]; simp

theorem mem_of_mem_blocks {l : List α} {b : List α} (h : b ∈ blocks joins l) {a : α} (ha : a ∈ b) :
    a ∈ l := by
  rw [← flatten_blocks joins l]; exact List.mem_flatten.mpr ⟨b, h, ha⟩

/-- One more item keeps every block in one class exactly when it joins none of another. -/
theorem uniform_blocks_concat_iff (cls : α → β) (l : List α) (x : α) :
    (∀ b ∈ blocks joins (l ++ [x]), ∀ u ∈ b, ∀ v ∈ b, cls u = cls v) ↔
      (∀ b ∈ blocks joins l, ∀ u ∈ b, ∀ v ∈ b, cls u = cls v) ∧
        ∀ b, (blocks joins l).getLast? = some b → joins b x = true → ∀ u ∈ b, cls u = cls x := by
  rcases blocks_concat joins l x with ⟨bs, b, hl, hj, h'⟩ | ⟨hj, h'⟩
  · rw [h', hl]
    constructor
    · intro h
      have hb := h (b ++ [x]) (by simp)
      refine ⟨fun p hp => ?_, fun b' hb' _ => ?_⟩
      · rcases List.mem_append.mp hp with hp | hp
        · exact h p (List.mem_append_left _ hp)
        · rw [List.mem_singleton.mp hp]
          exact fun u hu v hv => hb u (List.mem_append_left _ hu) v (List.mem_append_left _ hv)
      · rw [List.getLast?_concat] at hb'
        obtain rfl := Option.some.inj hb'
        exact fun u hu => hb u (List.mem_append_left _ hu) x (by simp)
    · rintro ⟨h, hx⟩ p hp
      rcases List.mem_append.mp hp with hp | hp
      · exact h p (List.mem_append_left _ hp)
      · have hx := hx b (List.getLast?_concat) hj
        have hb : ∀ u ∈ b ++ [x], cls u = cls x := fun u hu =>
          (List.mem_append.mp hu).elim (hx u) fun hu => by rw [List.mem_singleton.mp hu]
        rw [List.mem_singleton.mp hp]
        exact fun u hu v hv => (hb u hu).trans (hb v hv).symm
  · rw [h']
    constructor
    · intro h
      refine ⟨fun p hp => h p (List.mem_append_left _ hp), fun b hb hjb => ?_⟩
      rw [hj b hb] at hjb
      cases hjb
    · rintro ⟨h, -⟩ p hp
      rcases List.mem_append.mp hp with hp | hp
      · exact h p hp
      · rw [List.mem_singleton.mp hp]
        intro u hu v hv
        rw [List.mem_singleton.mp hu, List.mem_singleton.mp hv]

/-- **Every block stays in one class exactly when no item joins a block of another.** -/
theorem uniform_blocks_iff (cls : α → β) (l : List α) :
    (∀ b ∈ blocks joins l, ∀ u ∈ b, ∀ v ∈ b, cls u = cls v) ↔
      ∀ pre a post, l = pre ++ a :: post → ∀ b, (blocks joins pre).getLast? = some b →
        joins b a = true → ∀ u ∈ b, cls u = cls a := by
  induction l using List.reverseRecOn with
  | nil => simp
  | append_singleton l x ih =>
    rw [uniform_blocks_concat_iff, ih]
    constructor
    · rintro ⟨h, hx⟩ pre a post e
      rcases List.eq_nil_or_concat post with rfl | ⟨post, y, rfl⟩
      · obtain ⟨rfl, e⟩ := List.append_inj' e rfl
        obtain rfl : x = a := by simpa using e
        exact hx
      · refine h pre a post ((List.append_singleton_inj (a := x) (b := y)).mp ?_).1
        rw [e]
        simp
    · exact fun h => ⟨fun pre a post e => h pre a (post ++ [x]) (by rw [e]; simp), h l x [] rfl⟩

/-- **Where an item joins every block of its class, the classes of the blocks follow the order of
the list.** -/
theorem pairwise_blocks [LinearOrder β] {cls : α → β} {l : List α}
    (hl : l.Pairwise fun a b => cls a ≤ cls b)
    (hu : ∀ b ∈ blocks joins l, ∀ u ∈ b, ∀ v ∈ b, cls u = cls v)
    (hj : ∀ pre a post, l = pre ++ a :: post → ∀ b, (blocks joins pre).getLast? = some b →
      (∀ u ∈ b, cls u = cls a) → joins b a = true) :
    (blocks joins l).Pairwise fun p q => ∀ u ∈ p, ∀ v ∈ q, cls u < cls v := by
  induction l using List.reverseRecOn with
  | nil => exact List.Pairwise.nil
  | append_singleton l x ih =>
    have hpre := (List.pairwise_append.mp hl).1
    have hlast : ∀ u ∈ l, cls u ≤ cls x := fun u hu =>
      (List.pairwise_append.mp hl).2.2 u hu x (List.mem_singleton_self x)
    have huni := ((uniform_blocks_concat_iff joins cls l x).mp hu).1
    have ih := ih hpre huni fun pre a post e => hj pre a (post ++ [x]) (by rw [e]; simp)
    rcases blocks_concat joins l x with ⟨bs, b, he, -, h'⟩ | ⟨hn, h'⟩
    · rw [h'] at hu ⊢
      rw [he] at ih
      obtain ⟨hbs, -, hb⟩ := List.pairwise_append.mp ih
      refine List.pairwise_append.mpr ⟨hbs, List.pairwise_singleton _ _, fun p hp q hq u hu' => ?_⟩
      rw [List.mem_singleton.mp hq]
      obtain ⟨w, hw⟩ := List.exists_mem_of_ne_nil b
        (ne_nil_of_mem_blocks joins (l := l) (by rw [he]; simp))
      intro v hv
      rw [hu (b ++ [x]) (by simp) v hv w (List.mem_append_left _ hw)]
      exact hb p hp b (List.mem_singleton_self b) u hu' w hw
    · rw [h']
      refine List.pairwise_append.mpr ⟨ih, List.pairwise_singleton _ _, fun p hp q hq u hu' v hv => ?_⟩
      rw [List.mem_singleton.mp hq] at hv
      rw [List.mem_singleton.mp hv]
      refine lt_of_le_of_ne (hlast u (mem_of_mem_blocks joins hp hu')) fun hux => ?_
      -- an item of the class of `x` can only stand in the last block, which `x` then joins
      obtain ⟨bs, b, he⟩ : ∃ bs b, blocks joins l = bs ++ [b] :=
        ⟨_, _, (List.dropLast_concat_getLast (List.ne_nil_of_mem hp)).symm⟩
      have hb : ∀ w ∈ b, cls w = cls x := fun w hw => by
        have hwx := hlast w (mem_of_mem_blocks joins (by rw [he]; simp) hw)
        rw [he] at hp ih
        rcases List.mem_append.mp hp with hp | hp
        · have huw : cls u < cls w :=
            (List.pairwise_append.mp ih).2.2 p hp b (List.mem_singleton_self b) u hu' w hw
          exact absurd hux (ne_of_lt (lt_of_lt_of_le huw hwx))
        · obtain rfl := List.mem_singleton.mp hp
          rw [huni p (by rw [he]; simp) w hw u hu', hux]
      have hjb := hj l x [] rfl b (by rw [he, List.getLast?_concat]) hb
      rw [hn b (by rw [he, List.getLast?_concat])] at hjb
      cases hjb

end Blocks
