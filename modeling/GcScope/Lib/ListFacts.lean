import Mathlib.Data.List.Induction
import Mathlib.Data.List.Nodup
import Mathlib.Data.List.Forall2
import Mathlib.Order.Basic

/-!
# Facts about lists

* `exists_of_flatMap_eq`: an element of a concatenation belongs to one of its parts.
* `nodup_map_pair`: pairs are distinct when their second halves are, for each first half.
* `filter_eq_singleton`: where keys are distinct, a key selects one item.
* **`map_filter_eq_map_filter_iff`**: two filters, one stricter, keep the same items when they agree.
* `exists_first`: the first item with a property.
* `exists_of_forall₂_concat`: lists related item by item end together.
* **`forall₂_of_keys`**: two lists in strict key order whose items answer to each other are related
  item by item; `filter_or_of_lt` splits such a list.
* `exists_take_filter`: where the items a filter keeps stand in the list.
* `isSome_foldlM_map`: a fold over partial values goes through when they all are there.
* `exists_mapM_eq`: a partial map that goes through item by item goes through.
* **`exists_foldlM_eq`**: so does a loop, with what its steps keep.
* `chunks`, `flatten_chunks`: a list in pieces.
* `find?_reverse_range_eq_some_iff`: the last number with a property.
* `EndsEarly`, **`search_finds_iff`**: when a search that any visit may end misses nothing.
* `stretches`: the parts of a list between its gaps, with `cut` for how they grow with the list.
-/

set_option autoImplicit false

namespace ListFacts

variable {α β γ : Type*}

/-- An element of a concatenation belongs to one of its parts, and splits it there. -/
theorem exists_of_flatMap_eq {l : List α} {f : α → List β} {pre post : List β} {b : β}
    (h : l.flatMap f = pre ++ b :: post) :
    ∃ l₁ a l₂ before after, l = l₁ ++ a :: l₂ ∧ f a = before ++ b :: after ∧
      pre = l₁.flatMap f ++ before ∧ post = after ++ l₂.flatMap f := by
  induction l generalizing pre with
  | nil => simp at h
  | cons x l ih =>
    rw [List.flatMap_cons, List.append_eq_append_iff] at h
    rcases h with ⟨rest, rfl, hrest⟩ | ⟨rest, hx, hrest⟩
    · obtain ⟨l₁, a, l₂, before, after, rfl, ha, rfl, rfl⟩ := ih hrest
      exact ⟨x :: l₁, a, l₂, before, after, rfl, ha, by simp, rfl⟩
    · cases rest with
      | nil =>
        obtain ⟨l₁, a, l₂, before, after, rfl, ha, hpre, rfl⟩ := @ih [] (by simpa using hrest.symm)
        exact ⟨x :: l₁, a, l₂, before, after, rfl, ha, by simp [← hpre, hx], rfl⟩
      | cons y rest =>
        obtain ⟨rfl, rfl⟩ := List.cons.inj hrest
        exact ⟨[], x, l, pre, rest, rfl, hx, rfl, rfl⟩

theorem nodup_map_pair [DecidableEq β] {f : α → β} {k : α → γ} {l : List α}
    (h : ∀ b, ((l.filter fun a => f a = b).map k).Nodup) : (l.map fun a => (f a, k a)).Nodup := by
  induction l with
  | nil => exact List.nodup_nil
  | cons a l ih =>
    rw [List.map_cons, List.nodup_cons]
    refine ⟨fun hm => ?_, ih fun b => ?_⟩
    · obtain ⟨a', ha', hp⟩ := List.mem_map.mp hm
      obtain ⟨hf, hk⟩ := Prod.mk.inj hp
      have := h (f a)
      rw [List.filter_cons_of_pos (by simp), List.map_cons, List.nodup_cons] at this
      exact this.1 (List.mem_map.mpr ⟨a', List.mem_filter.mpr ⟨ha', by simpa using hf⟩, hk⟩)
    · exact (((List.sublist_cons_self a l).filter _).map k).nodup (h b)

theorem filter_eq_singleton [DecidableEq β] {f : α → β} {l : List α} (h : (l.map f).Nodup) {a : α}
    (ha : a ∈ l) : (l.filter fun b => f b = f a) = [a] := by
  obtain ⟨l₁, l₂, rfl⟩ := List.append_of_mem ha
  rw [List.map_append, List.map_cons, List.nodup_middle, List.nodup_cons] at h
  have hne : ∀ b ∈ l₁ ++ l₂, f b ≠ f a := fun b hb he => h.1 (by
    rw [← List.map_append, ← he]; exact List.mem_map_of_mem hb)
  rw [List.filter_append, List.filter_cons_of_pos (by simp),
    List.filter_eq_nil_iff.mpr fun b hb => by simpa using hne b (List.mem_append_left _ hb),
    List.filter_eq_nil_iff.mpr fun b hb => by simpa using hne b (List.mem_append_right _ hb),
    List.nil_append]

/-- **Two filters, one stricter, keep the same items** exactly when they agree. -/
theorem map_filter_eq_map_filter_iff {p q : α → Bool} {f : α → β} {l : List α}
    (hqp : ∀ a ∈ l, q a → p a) :
    (l.filter p).map f = (l.filter q).map f ↔ ∀ a ∈ l, p a → q a := by
  have hsub : (l.filter p).filter q = l.filter q := by
    rw [List.filter_filter]
    refine List.filter_congr fun a ha => ?_
    have := hqp a ha
    cases hq : q a <;> simp_all
  constructor
  · intro h a ha hp
    have hlen : ((l.filter p).filter q).length = (l.filter p).length := by
      rw [hsub, ← List.length_map (f := f), ← h, List.length_map]
    exact List.length_filter_eq_length_iff.mp hlen a (List.mem_filter.mpr ⟨ha, hp⟩)
  · intro h
    have hall : (l.filter p).filter q = l.filter p := List.filter_eq_self.mpr fun a ha =>
      h a (List.mem_filter.mp ha).1 (List.mem_filter.mp ha).2
    rw [← hsub, hall]

theorem exists_first {P : α → Prop} {l : List α} (h : ∃ a ∈ l, P a) :
    ∃ before a after, l = before ++ a :: after ∧ (∀ b ∈ before, ¬P b) ∧ P a := by
  induction l with
  | nil => simp at h
  | cons b l ih =>
    by_cases hb : P b
    · exact ⟨[], b, l, rfl, by simp, hb⟩
    · obtain ⟨before, a, after, rfl, hn, ha⟩ := ih (by simpa [hb] using h)
      exact ⟨b :: before, a, after, rfl, List.forall_mem_cons.mpr ⟨hb, hn⟩, ha⟩

theorem exists_of_forall₂_concat {R : α → β → Prop} {l : List α} {bs : List β} {b : β}
    (h : List.Forall₂ R l (bs ++ [b])) : ∃ as a, l = as ++ [a] ∧ List.Forall₂ R as bs ∧ R a b := by
  have hdrop := List.forall₂_drop_append l bs [b] h
  obtain ⟨a, u, hab, hu, he⟩ := List.forall₂_cons_right_iff.mp hdrop
  obtain rfl := List.forall₂_nil_right_iff.mp hu
  exact ⟨l.take bs.length, a, by rw [← he, List.take_append_drop],
    List.forall₂_take_append l bs [b] h, hab⟩

theorem pairwise_of_forall₂ {R : α → β → Prop} {S : α → α → Prop} {T : β → β → Prop} {l : List α}
    {l' : List β} (h : List.Forall₂ R l l') (hl' : l'.Pairwise T)
    (hST : ∀ {a b x y}, R a x → R b y → T x y → S a b) : l.Pairwise S := by
  induction h with
  | nil => exact List.Pairwise.nil
  | @cons a x l l' hax htl ih =>
    obtain ⟨hx, hl'⟩ := List.pairwise_cons.mp hl'
    refine List.pairwise_cons.mpr ⟨fun b hb => ?_, ih hl'⟩
    obtain ⟨i, hi, rfl⟩ := List.mem_iff_getElem.mp hb
    have hi' : i < l'.length := htl.length_eq ▸ hi
    exact hST hax (htl.get hi hi') (hx _ (List.getElem_mem hi'))

theorem flatMap_eq_map_of_forall₂ {R : α → β → Prop} {f : α → List γ} {g : β → γ} {l : List α}
    {l' : List β} (h : List.Forall₂ R l l') (hfg : ∀ {a b}, R a b → f a = [g b]) :
    l.flatMap f = l'.map g := by
  induction h with
  | nil => rfl
  | cons hab _ ih => rw [List.flatMap_cons, List.map_cons, hfg hab, ih, List.singleton_append]

section Keys

variable {κ : Type*} [PartialOrder κ]

/-- **Lists in strict key order whose items answer to each other are related item by item.** -/
theorem forall₂_of_keys {R : α → β → Prop} {f : α → κ} {g : β → κ} {l : List α} {l' : List β}
    (hR : ∀ a ∈ l, ∀ b ∈ l', R a b → f a = g b) (hl : l.Pairwise fun a b => f a < f b)
    (hl' : l'.Pairwise fun a b => g a < g b) (h : ∀ a ∈ l, ∃ b ∈ l', R a b)
    (h' : ∀ b ∈ l', ∃ a ∈ l, R a b) : List.Forall₂ R l l' := by
  induction l generalizing l' with
  | nil =>
    cases l' with
    | nil => exact List.Forall₂.nil
    | cons b l' =>
      obtain ⟨a, ha, -⟩ := h' b List.mem_cons_self
      cases ha
  | cons a l ih =>
    obtain ⟨ha, hl⟩ := List.pairwise_cons.mp hl
    obtain ⟨b₁, hb₁, hab₁⟩ := h a List.mem_cons_self
    cases l' with
    | nil => cases hb₁
    | cons b l' =>
      obtain ⟨hb, htl⟩ := List.pairwise_cons.mp hl'
      obtain ⟨a₁, ha₁, hab⟩ := h' b List.mem_cons_self
      have hkey := hR a List.mem_cons_self b₁ hb₁ hab₁
      have hkey₁ := hR a₁ ha₁ b List.mem_cons_self hab
      -- the two heads answer to each other
      have hle : f a ≤ f a₁ := by
        rcases List.mem_cons.mp ha₁ with rfl | ha₁
        · exact le_rfl
        · exact (ha a₁ ha₁).le
      obtain rfl : b₁ = b := by
        rcases List.mem_cons.mp hb₁ with rfl | hb₁
        · rfl
        · exact absurd (hkey ▸ hkey₁ ▸ hle : g b₁ ≤ g b) (not_le_of_gt (hb b₁ hb₁))
      refine List.Forall₂.cons hab₁ (ih (fun x hx y hy => hR x (List.mem_cons_of_mem a hx) y
        (List.mem_cons_of_mem b₁ hy)) hl htl ?_ ?_)
      · intro x hx
        obtain ⟨y, hy, hxy⟩ := h x (List.mem_cons_of_mem a hx)
        rcases List.mem_cons.mp hy with rfl | hy
        · have := hR x (List.mem_cons_of_mem a hx) y List.mem_cons_self hxy
          exact absurd (this.trans hkey.symm) (ha x hx).ne'
        · exact ⟨y, hy, hxy⟩
      · intro y hy
        obtain ⟨x, hx, hxy⟩ := h' y (List.mem_cons_of_mem b₁ hy)
        rcases List.mem_cons.mp hx with rfl | hx
        · have := hR x List.mem_cons_self y (List.mem_cons_of_mem b₁ hy) hxy
          exact absurd (hkey.symm.trans this) (hb y hy).ne
        · exact ⟨x, hx, hxy⟩

/-- Where the items of one property stand before those of another, the list splits in two. -/
theorem filter_or_of_lt {l : List κ} (hl : l.Pairwise (· < ·)) {p q : κ → Bool}
    (h : ∀ a ∈ l, ∀ b ∈ l, p a → q b → a < b) :
    l.filter (fun a => p a || q a) = l.filter p ++ l.filter q := by
  induction l with
  | nil => rfl
  | cons a l ih =>
    obtain ⟨ha, hl⟩ := List.pairwise_cons.mp hl
    have ih := ih hl fun x hx y hy => h x (List.mem_cons_of_mem a hx) y (List.mem_cons_of_mem a hy)
    by_cases hp : p a
    · have hq : ¬q a := fun hq => lt_irrefl a (h a List.mem_cons_self a List.mem_cons_self hp hq)
      rw [List.filter_cons_of_pos (by simp [hp]), List.filter_cons_of_pos hp,
        List.filter_cons_of_neg hq, ih, List.cons_append]
    · rw [List.filter_cons_of_neg hp]
      by_cases hq : q a
      · -- nothing of the first kind follows
        have hnone : l.filter p = [] := List.filter_eq_nil_iff.mpr fun x hx hpx =>
          lt_asymm (ha x hx) (h x (List.mem_cons_of_mem a hx) a List.mem_cons_self hpx hq)
        rw [List.filter_cons_of_pos (by simp [hq]), List.filter_cons_of_pos hq, ih, hnone]
        rfl
      · rw [List.filter_cons_of_neg (by simp [hp, hq]), List.filter_cons_of_neg hq, ih]

end Keys

/-- The items a filter keeps stand somewhere in the list, each after those kept before it. -/
theorem exists_take_filter {p : α → Bool} {l : List α} {j : ℕ} (hj : j < (l.filter p).length) :
    ∃ q, ∃ h : q < l.length, p l[q] = true ∧ ((l.take q).filter p).length = j := by
  induction l generalizing j with
  | nil => cases hj
  | cons a l ih =>
    by_cases ha : p a
    · rw [List.filter_cons_of_pos ha] at hj
      cases j with
      | zero => exact ⟨0, Nat.zero_lt_succ _, ha, rfl⟩
      | succ j =>
        obtain ⟨q, hq, hp, hlen⟩ := ih (Nat.lt_of_succ_lt_succ hj)
        exact ⟨q + 1, Nat.succ_lt_succ hq, hp, by
          rw [List.take_succ_cons, List.filter_cons_of_pos ha, List.length_cons, hlen]⟩
    · rw [List.filter_cons_of_neg ha] at hj
      obtain ⟨q, hq, hp, hlen⟩ := ih hj
      exact ⟨q + 1, Nat.succ_lt_succ hq, hp, by
        rw [List.take_succ_cons, List.filter_cons_of_neg ha, hlen]⟩

theorem isSome_foldlM_map (g : α → Option γ) (f : β → α → γ → β) (l : List α) (b : β) :
    (l.foldlM (fun b a => (g a).map (f b a)) b).isSome = true ↔ ∀ a ∈ l, (g a).isSome = true := by
  induction l generalizing b with
  | nil => simp
  | cons a l ih =>
    rw [List.foldlM_cons, List.forall_mem_cons]
    cases g a with
    | none => simp
    | some c => simpa using ih (f b a c)

theorem exists_mapM_eq {f : α → Option β} {R : α → β → Prop} {l : List α}
    (h : ∀ a ∈ l, ∃ b, f a = some b ∧ R a b) : ∃ bs, l.mapM f = some bs ∧ List.Forall₂ R l bs := by
  induction l with
  | nil => exact ⟨[], rfl, List.Forall₂.nil⟩
  | cons a l ih =>
    obtain ⟨b, hb, hr⟩ := h a List.mem_cons_self
    obtain ⟨bs, hbs, hrs⟩ := ih fun a' ha' => h a' (List.mem_cons_of_mem a ha')
    exact ⟨b :: bs, by rw [List.mapM_cons, hb, hbs]; rfl, List.Forall₂.cons hr hrs⟩

/-- **A loop whose steps all go through goes through**, with what the steps keep. -/
theorem exists_foldlM_eq {P : ℕ → β → Prop} {f : β → α → Option β} {l : List α} {n : ℕ} {b : β}
    (hb : P n b) (h : ∀ i b, ∀ a ∈ l, P i b → ∃ b', f b a = some b' ∧ P (i + 1) b') :
    ∃ b', l.foldlM f b = some b' ∧ P (n + l.length) b' := by
  induction l generalizing n b with
  | nil => exact ⟨b, rfl, hb⟩
  | cons a l ih =>
    obtain ⟨b', hstep, hb'⟩ := h n b a List.mem_cons_self hb
    obtain ⟨b'', hrest, hend⟩ := ih hb' fun i c a' ha' => h i c a' (List.mem_cons_of_mem a ha')
    refine ⟨b'', by rw [List.foldlM_cons, hstep]; exact hrest, ?_⟩
    rwa [Nat.add_assoc, Nat.add_comm 1] at hend

theorem exists_foldlM_total {f : β → α → Option β} {l : List α}
    (h : ∀ b, ∀ a ∈ l, ∃ b', f b a = some b') (b : β) : ∃ b', l.foldlM f b = some b' := by
  obtain ⟨b', hb', -⟩ := exists_foldlM_eq (P := fun _ _ => True) (n := 0) (b := b) trivial
    fun _ b a ha _ => (h b a ha).imp fun _ hstep => ⟨hstep, trivial⟩
  exact ⟨b', hb'⟩

/-- The stretches between the gaps of a list: those a gap has closed, and the one still open. -/
def cut (l : List (Option α)) : List (List α) × List α :=
  l.foldl (fun s a => match a with
    | none => (s.1 ++ [s.2], [])
    | some a => (s.1, s.2 ++ [a])) ([], [])

/-- The stretches between the gaps of a list. -/
def stretches (l : List (Option α)) : List (List α) := (cut l).1 ++ [(cut l).2]

@[simp] theorem cut_concat_none (l : List (Option α)) : cut (l ++ [none]) = (stretches l, []) := by
  rw [cut, List.foldl_append]; rfl

@[simp] theorem cut_concat_some (l : List (Option α)) (a : α) :
    cut (l ++ [some a]) = ((cut l).1, (cut l).2 ++ [a]) := by
  rw [cut, List.foldl_append]; rfl

theorem cut_of_forall_isSome {l : List (Option α)} (h : ∀ a ∈ l, a.isSome) : (cut l).1 = [] := by
  induction l using List.reverseRecOn with
  | nil => rfl
  | append_singleton l a ih =>
    obtain ⟨a, rfl⟩ := Option.isSome_iff_exists.mp (h _ (List.mem_append_right l
      (List.mem_singleton_self a)))
    rw [cut_concat_some]
    exact ih fun b hb => h b (List.mem_append_left _ hb)

/-! ## Chunks -/

/-- The list in pieces of `n`, the last one as long as is left. -/
def chunks (n : ℕ) (l : List α) : List (List α) :=
  (List.range ((l.length + (n - 1)) / n)).map fun k => (l.drop (n * k)).take n

theorem getElem?_chunks {n k : ℕ} {l c : List α} (h : (chunks n l)[k]? = some c) :
    c = (l.drop (n * k)).take n := by
  rw [chunks, List.getElem?_map] at h
  obtain ⟨k', hk, rfl⟩ := Option.map_eq_some_iff.mp h
  obtain ⟨hlt, rfl⟩ := List.getElem?_eq_some_iff.mp hk
  rw [List.getElem_range]

/-- **The pieces make up the list.** -/
theorem flatten_chunks {n : ℕ} (hn : 0 < n) (l : List α) : (chunks n l).flatten = l := by
  have hpieces : ∀ m, (List.range m).flatMap (fun k => (l.drop (n * k)).take n) = l.take (n * m) := by
    intro m
    induction m with
    | zero => rfl
    | succ m ih =>
      rw [List.range_succ, List.flatMap_append, ih, List.flatMap_singleton, Nat.mul_succ, List.take_add]
  have hall : l.length ≤ n * ((l.length + (n - 1)) / n) := by
    have := Nat.lt_mul_div_succ (l.length + (n - 1)) hn
    rw [Nat.mul_succ] at this
    omega
  rw [chunks, ← List.flatMap_def, hpieces, List.take_of_length_le hall]

theorem filterMap_range_getElem? (l : List α) (n : ℕ) :
    (List.range n).filterMap (fun i => l[i]?) = l.take n := by
  induction n with
  | zero => rfl
  | succ n ih =>
    rw [List.range_succ, List.filterMap_append, ih, List.take_add_one, List.filterMap_cons]
    cases l[n]? <;> rfl

/-! ## Searching backwards -/

theorem find?_reverse_range_eq_some_iff {p : ℕ → Bool} {k n : ℕ} :
    (List.range k).reverse.find? p = some n ↔
      n < k ∧ p n = true ∧ ∀ m, n < m → m < k → p m = false := by
  induction k with
  | zero => simp
  | succ k ih =>
    rw [List.range_succ, List.reverse_concat, List.find?_cons]
    cases hk : p k with
    | true =>
      constructor
      · intro h
        obtain rfl := Option.some.inj h
        exact ⟨Nat.lt_succ_self _, hk, fun m h₁ h₂ => by omega⟩
      · rintro ⟨hn, -, hlast⟩
        rcases Nat.lt_or_ge n k with hlt | hge
        · rw [hlast k hlt (Nat.lt_succ_self k)] at hk
          cases hk
        · exact congrArg some (by omega)
    | false =>
      dsimp only
      rw [ih]
      constructor
      · rintro ⟨hn, hp, hlast⟩
        refine ⟨by omega, hp, fun m h₁ h₂ => ?_⟩
        rcases Nat.lt_or_ge m k with hlt | hge
        · exact hlast m h₁ hlt
        · obtain rfl : m = k := by omega
          exact hk
      · rintro ⟨hn, hp, hlast⟩
        refine ⟨?_, hp, fun m h₁ h₂ => hlast m h₁ (by omega)⟩
        rcases Nat.lt_or_ge n k with hlt | hge
        · exact hlt
        · obtain rfl : n = k := by omega
          rw [hp] at hk
          cases hk

/-! ## Searches that a visit may end -/

section Search

variable {σ : Type*} {visit : α → Option σ} {good : σ → Option β}

variable (visit good) in
/-- A visit ends the search with an answer that does not count, though a later one would have. -/
def EndsEarly (l : List α) : Prop :=
  ∃ before a after, l = before ++ a :: after ∧ (∀ x ∈ before, (visit x).bind good = none) ∧
    (∃ s, visit a = some s ∧ good s = none) ∧ ∃ x ∈ after, ∃ b, (visit x).bind good = some b

theorem endsEarly_cons_none {a : α} {l : List α} (h : visit a = none) :
    EndsEarly visit good (a :: l) ↔ EndsEarly visit good l := by
  constructor
  · rintro ⟨before, x, after, hl, hbefore, hx, hafter⟩
    cases before with
    | nil =>
      obtain ⟨rfl, rfl⟩ := List.cons.inj hl
      obtain ⟨s, hs, -⟩ := hx
      exact nomatch h.symm.trans hs
    | cons y before =>
      obtain ⟨rfl, rfl⟩ := List.cons.inj hl
      exact ⟨before, x, after, rfl, (List.forall_mem_cons.mp hbefore).2, hx, hafter⟩
  · rintro ⟨before, x, after, rfl, hbefore, hx, hafter⟩
    have ha : (visit a).bind good = none := by rw [h, Option.bind_none]
    exact ⟨a :: before, x, after, rfl, List.forall_mem_cons.mpr ⟨ha, hbefore⟩, hx, hafter⟩

/-- A good answer at the front is given before anything ends the search. -/
theorem not_endsEarly_cons {a : α} {l : List α} {b : β} (h : (visit a).bind good = some b) :
    ¬EndsEarly visit good (a :: l) := by
  rintro ⟨before, x, after, hl, hbefore, ⟨s, hs, hgood⟩, -⟩
  cases before with
  | nil =>
    obtain ⟨rfl, rfl⟩ := List.cons.inj hl
    rw [hs, Option.bind_some, hgood] at h
    exact nomatch h
  | cons y before =>
    obtain ⟨rfl, rfl⟩ := List.cons.inj hl
    exact nomatch h.symm.trans (List.forall_mem_cons.mp hbefore).1

theorem endsEarly_cons_bad {a : α} {l : List α} {s : σ} (h : visit a = some s) (hs : good s = none) :
    EndsEarly visit good (a :: l) ↔ ∃ x ∈ l, ∃ b, (visit x).bind good = some b := by
  constructor
  · rintro ⟨before, x, after, hl, -, -, y, hy, hb⟩
    have hmem : y ∈ l := by
      cases before with
      | nil => exact (List.cons.inj hl).2 ▸ hy
      | cons z before =>
        rw [(List.cons.inj hl).2]
        exact List.mem_append_right _ (List.mem_cons_of_mem _ hy)
    exact ⟨y, hmem, hb⟩
  · exact fun hx => ⟨[], a, l, rfl, fun _ hy => absurd hy List.not_mem_nil, ⟨s, h, hs⟩, hx⟩

/-- **A search answers with the first good answer unless a visit ends it early.** -/
theorem search_finds_iff {missing : σ} (hmissing : good missing = none) (l : List α) :
    (∀ b, good ((l.findSome? visit).getD missing) = some b ↔
      l.findSome? (fun a => (visit a).bind good) = some b) ↔ ¬EndsEarly visit good l := by
  induction l with
  | nil =>
    refine iff_of_true (fun b => ?_) fun ⟨before, a, after, hl, _⟩ => ?_
    · rw [List.findSome?_nil, Option.getD_none, hmissing, List.findSome?_nil]
    · exact List.cons_ne_nil _ _ (List.append_eq_nil_iff.mp hl.symm).2
  | cons a l ih =>
    rw [List.findSome?_cons, List.findSome?_cons]
    cases ha : visit a with
    | none =>
      rw [Option.bind_none, endsEarly_cons_none ha]
      exact ih
    | some s =>
      rw [Option.bind_some, Option.getD_some]
      cases hs : good s with
      | some b =>
        refine iff_of_true (fun _ => Iff.rfl) (not_endsEarly_cons (b := b) ?_)
        rw [ha, Option.bind_some, hs]
      | none =>
        rw [endsEarly_cons_bad ha hs]
        constructor
        · rintro h ⟨x, hx, b, hb⟩
          have hsome : (l.findSome? fun a => (visit a).bind good).isSome = true :=
            List.findSome?_isSome_iff.mpr ⟨x, hx, by rw [hb]; rfl⟩
          obtain ⟨b', hb'⟩ := Option.isSome_iff_exists.mp hsome
          exact nomatch (h b').mpr hb'
        · intro h b
          refine iff_of_false (fun hb => nomatch hb) fun hb => ?_
          obtain ⟨x, hx, hxb⟩ := List.exists_of_findSome?_eq_some hb
          exact h ⟨x, hx, b, hxb⟩

end Search

/-- The first of a list with `P`, where those before it have `Q`: the head, or one of the rest. -/
theorem exists_first_cons_iff {P Q : α → Prop} {a : α} {l : List α} :
    (∃ pre b post, a :: l = pre ++ b :: post ∧ P b ∧ ∀ c ∈ pre, Q c) ↔
      P a ∨ Q a ∧ ∃ pre b post, l = pre ++ b :: post ∧ P b ∧ ∀ c ∈ pre, Q c := by
  constructor
  · rintro ⟨pre, b, post, hl, hb, hpre⟩
    cases pre with
    | nil =>
      obtain ⟨rfl, rfl⟩ := List.cons.inj hl
      exact Or.inl hb
    | cons c pre =>
      obtain ⟨rfl, rfl⟩ := List.cons.inj hl
      exact Or.inr ⟨hpre a List.mem_cons_self, pre, b, post, rfl, hb,
        fun c hc => hpre c (List.mem_cons_of_mem a hc)⟩
  · rintro (ha | ⟨ha, pre, b, post, rfl, hb, hpre⟩)
    · exact ⟨[], a, l, rfl, ha, fun c hc => nomatch hc⟩
    · refine ⟨a :: pre, b, post, rfl, hb, fun c hc => ?_⟩
      rcases List.mem_cons.mp hc with rfl | hc
      · exact ha
      · exact hpre c hc

end ListFacts
