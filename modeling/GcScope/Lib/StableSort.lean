import Mathlib.Data.List.Sort
import Mathlib.Order.Defs.LinearOrder

/-!
# Stable sorting by a key

`stableSort key l` sorts `l` by `key` and keeps items with equal keys in their order in `l`.

* `stableSort_perm`, `pairwise_stableSort`: the result is a permutation of the input, in key order.
* `filter_stableSort`: sorting commutes with selecting items.
* `stableSort_eq_of_perm`: a list in strict key order is what every permutation of it sorts to.
* `stableSort_congr`: where keys tell items apart, the order of the input does not matter.
* **`stableSort_ties`**: the items of one key come out in the order they went in.
-/

set_option autoImplicit false

namespace StableSort

variable {α κ : Type*} [LinearOrder κ] (key : α → κ)

/-- Stable sort of a list by a key, smallest key first. -/
def stableSort (l : List α) : List α := l.insertionSort fun a b => key a ≤ key b

@[simp] theorem stableSort_nil : stableSort key [] = [] := rfl

theorem stableSort_perm (l : List α) : (stableSort key l).Perm l := List.perm_insertionSort _ l

@[simp] theorem mem_stableSort {l : List α} {a : α} : a ∈ stableSort key l ↔ a ∈ l :=
  (stableSort_perm key l).mem_iff

@[simp] theorem length_stableSort (l : List α) : (stableSort key l).length = l.length :=
  (stableSort_perm key l).length_eq

/-- **The result is in key order.** -/
theorem pairwise_stableSort (l : List α) :
    (stableSort key l).Pairwise fun a b => key a ≤ key b := by
  have : Std.Total fun a b : α => key a ≤ key b := ⟨fun a b => le_total (key a) (key b)⟩
  have : IsTrans α fun a b => key a ≤ key b := ⟨fun _ _ _ => le_trans⟩
  exact List.pairwise_insertionSort _ l

theorem stableSort_cons (a : α) (l : List α) : stableSort key (a :: l) =
    List.orderedInsert (fun a b => key a ≤ key b) a (stableSort key l) := rfl

theorem stableSort_of_pairwise {l : List α} (h : l.Pairwise fun a b => key a ≤ key b) :
    stableSort key l = l := List.Pairwise.insertionSort_eq h

/-- A list in strict key order is what every permutation of it sorts to. -/
theorem stableSort_eq_of_perm {l l' : List α} (h : l.Perm l')
    (hl' : l'.Pairwise fun a b => key a < key b) : stableSort key l = l' := by
  have hinj : ∀ a ∈ l', ∀ b ∈ l', key a = key b → a = b :=
    List.Pairwise.forall_of_forall_of_flip (fun _ _ _ => rfl)
      (hl'.imp fun hab h => absurd h hab.ne) (hl'.imp fun hab h => absurd h hab.ne')
  refine List.Perm.eq_of_pairwise (fun a b ha hb hab hba => ?_)
    (pairwise_stableSort key l) (hl'.imp le_of_lt) ((stableSort_perm key l).trans h)
  exact hinj a (h.mem_iff.mp ((mem_stableSort key).mp ha)) b hb (le_antisymm hab hba)

variable {key} in
/-- Where keys tell items apart, the order of the input does not matter. -/
theorem stableSort_congr (hkey : Function.Injective key) {l l' : List α} (h : l.Perm l') :
    stableSort key l = stableSort key l' :=
  List.Perm.eq_of_pairwise (fun _ _ _ _ hab hba => hkey (le_antisymm hab hba))
    (pairwise_stableSort key l) (pairwise_stableSort key l')
    (((stableSort_perm key l).trans h).trans (stableSort_perm key l').symm)

theorem filter_orderedInsert_pos (p : α → Bool) {a : α} (ha : p a) :
    ∀ {l : List α}, l.Pairwise (fun x y => key x ≤ key y) →
      (List.orderedInsert (fun x y => key x ≤ key y) a l).filter p =
        List.orderedInsert (fun x y => key x ≤ key y) a (l.filter p)
  | [], _ => by simp [ha]
  | b :: l, h => by
    have hb := List.pairwise_cons.mp h
    by_cases hab : key a ≤ key b
    · -- `a` goes in front of `b`, hence in front of everything kept of `b :: l`
      have hle : ∀ x ∈ (b :: l).filter p, key a ≤ key x := fun x hx => by
        rcases List.mem_cons.mp (List.mem_of_mem_filter hx) with rfl | hx'
        · exact hab
        · exact hab.trans (hb.1 x hx')
      rw [List.orderedInsert_cons, if_pos hab, List.filter_cons_of_pos ha]
      cases hf : (b :: l).filter p with
      | nil => rfl
      | cons c cs =>
        rw [List.orderedInsert_cons, if_pos (hle c (by rw [hf]; exact List.mem_cons_self))]
    · rw [List.orderedInsert_cons, if_neg hab]
      by_cases hpb : p b
      · rw [List.filter_cons_of_pos hpb, List.filter_cons_of_pos hpb, List.orderedInsert_cons,
          if_neg hab, filter_orderedInsert_pos p ha hb.2]
      · rw [List.filter_cons_of_neg hpb, List.filter_cons_of_neg hpb,
          filter_orderedInsert_pos p ha hb.2]

theorem filter_orderedInsert_neg (p : α → Bool) {a : α} (ha : ¬ p a) :
    ∀ l : List α, (List.orderedInsert (fun x y => key x ≤ key y) a l).filter p = l.filter p
  | [] => by simp [ha]
  | b :: l => by
    by_cases hab : key a ≤ key b
    · rw [List.orderedInsert_cons, if_pos hab, List.filter_cons_of_neg ha]
    · rw [List.orderedInsert_cons, if_neg hab]
      by_cases hpb : p b
      · rw [List.filter_cons_of_pos hpb, List.filter_cons_of_pos hpb,
          filter_orderedInsert_neg p ha l]
      · rw [List.filter_cons_of_neg hpb, List.filter_cons_of_neg hpb,
          filter_orderedInsert_neg p ha l]

/-- **Sorting commutes with selecting items.** -/
theorem filter_stableSort (p : α → Bool) (l : List α) :
    (stableSort key l).filter p = stableSort key (l.filter p) := by
  induction l with
  | nil => rfl
  | cons a l ih =>
    rw [stableSort_cons]
    by_cases ha : p a
    · rw [filter_orderedInsert_pos key p ha (pairwise_stableSort key l), ih,
        List.filter_cons_of_pos ha, stableSort_cons]
    · rw [filter_orderedInsert_neg key p ha, ih, List.filter_cons_of_neg ha]

/-- **Items of one key keep the order they had.** -/
theorem stableSort_ties (k : κ) (l : List α) :
    (stableSort key l).filter (fun a => key a = k) = l.filter fun a => key a = k := by
  rw [filter_stableSort]
  refine stableSort_of_pairwise key (List.pairwise_of_forall_mem_list fun a ha b hb => ?_)
  have ha' := List.of_mem_filter ha
  have hb' := List.of_mem_filter hb
  simp only [decide_eq_true_eq] at ha' hb'
  rw [ha', hb']

end StableSort
