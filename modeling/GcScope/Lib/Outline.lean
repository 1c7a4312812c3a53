import Mathlib.Data.List.Chain
import Mathlib.Data.Nat.Find
import Mathlib.Order.Basic
import Mathlib.Logic.Relation
import Mathlib.Tactic.Common

/-!
# Trees listed by depth

The preorder listing of a tree gives each node a depth, at most one more than the node before it has.
Parents, ancestors and siblings can be read off the depths alone.

* `Outline.Parent`, `Outline.Ancestor`, `Outline.Sibling`: the tree.
* **`ancestor_iff`**: the nodes below an ancestor are the deeper ones that follow it.
* **`exists_ancestor`**: a node has an ancestor at every depth above it.
* **`later_sibling_iff`**: where an ancestor has a later sibling.
* **`depth_returns_iff`**: when a depth that comes again always is a sibling's.
* `NoReturnIn`, `parent_of_append`: the same read off a list of depths.
-/

set_option autoImplicit false

/-- The depths of a tree's nodes in preorder. -/
structure Outline where
  size : ℕ
  depth : ℕ → ℕ
  rooted : depth 0 = 0
  steps : ∀ i, i + 1 < size → depth (i + 1) ≤ depth i + 1

namespace Outline

variable (O : Outline)

/-- `k` is the parent of `j`: one level up, with nothing that shallow in between. -/
def Parent (k j : ℕ) : Prop :=
  k < j ∧ j < O.size ∧ O.depth k + 1 = O.depth j ∧ ∀ m, k < m → m < j → O.depth j ≤ O.depth m

/-- `j` is `i` or above it. -/
def Ancestor : ℕ → ℕ → Prop := Relation.ReflTransGen O.Parent

/-- The nodes have one parent. -/
def Sibling (j s : ℕ) : Prop := ∃ k, O.Parent k j ∧ O.Parent k s

variable {O} {i j : ℕ}

/-- The last node of a depth, as far as one has to look. -/
theorem exists_last {d : ℕ} (hi : i < O.size) (hd : d ≤ O.depth i) :
    ∃ j ≤ i, O.depth j = d ∧ ∀ m, j < m → m ≤ i → d < O.depth m := by
  induction i with
  | zero =>
    rw [O.rooted] at hd
    exact ⟨0, le_rfl, by rw [O.rooted]; omega, fun m h₁ h₂ => by omega⟩
  | succ i ih =>
    rcases hd.eq_or_lt with rfl | hlt
    · exact ⟨i + 1, le_rfl, rfl, fun m h₁ h₂ => by omega⟩
    · have hstep := O.steps i hi
      obtain ⟨j, hj, hdj, hdeep⟩ := ih (by omega) (by omega)
      refine ⟨j, by omega, hdj, fun m h₁ h₂ => ?_⟩
      rcases h₂.eq_or_lt with rfl | h₂
      · exact hlt
      · exact hdeep m h₁ (by omega)

theorem exists_parent (hj : j < O.size) (hd : 0 < O.depth j) : ∃ k, O.Parent k j := by
  obtain ⟨j, rfl⟩ : ∃ n, j = n + 1 := Nat.exists_eq_succ_of_ne_zero fun h0 => by
    rw [h0, O.rooted] at hd
    exact absurd hd (lt_irrefl 0)
  have hstep := O.steps j hj
  obtain ⟨k, hk, hdk, hdeep⟩ := exists_last (O := O) (i := j) (d := O.depth (j + 1) - 1) (by omega)
    (by omega)
  refine ⟨k, by omega, hj, by omega, fun m h₁ h₂ => ?_⟩
  have := hdeep m h₁ (by omega)
  omega

/-- **The nodes below an ancestor are the deeper ones that follow it.** -/
theorem ancestor_iff (hi : i < O.size) :
    O.Ancestor j i ↔ j ≤ i ∧ ∀ m, j < m → m ≤ i → O.depth j < O.depth m := by
  constructor
  · intro h
    clear hi
    induction h with
    | refl => exact ⟨le_rfl, fun m h₁ h₂ => by omega⟩
    | tail _ hparent ih =>
      obtain ⟨hle, hdeep⟩ := ih
      rename_i k i _
      obtain ⟨hki, -, hdepth, hbetween⟩ := hparent
      have hjk : O.depth j ≤ O.depth k := by
        rcases hle.eq_or_lt with rfl | hlt
        · exact le_rfl
        · exact (hdeep k hlt le_rfl).le
      refine ⟨hle.trans hki.le, fun m h₁ h₂ => ?_⟩
      by_cases hmk : m ≤ k
      · exact hdeep m h₁ hmk
      · rcases h₂.eq_or_lt with rfl | h₂
        · omega
        · have := hbetween m (by omega) h₂
          omega
  · rintro ⟨hle, hdeep⟩
    induction i using Nat.strong_induction_on with
    | _ i ih =>
      rcases hle.eq_or_lt with rfl | hlt
      · exact Relation.ReflTransGen.refl
      · have hdi := hdeep i hlt le_rfl
        obtain ⟨k, hk⟩ := exists_parent hi (by omega)
        have hjk : j ≤ k := by
          by_contra hkj
          have := hk.2.2.2 j (by omega) hlt
          omega
        exact (ih k hk.1 (hk.1.trans hi) hjk fun m h₁ h₂ => hdeep m h₁ (h₂.trans hk.1.le)).tail hk

/-- **A node has an ancestor at every depth above it**, and only one. -/
theorem exists_ancestor {d : ℕ} (hi : i < O.size) (hd : d ≤ O.depth i) :
    ∃ j, O.Ancestor j i ∧ O.depth j = d := by
  obtain ⟨j, hj, hdj, hdeep⟩ := exists_last hi hd
  exact ⟨j, (ancestor_iff hi).mpr ⟨hj, hdj.symm ▸ hdeep⟩, hdj⟩

/-- **Where an ancestor has a later sibling**: its depth comes again before anything shallower. -/
theorem later_sibling_iff (hi : i < O.size) (h : O.Ancestor j i) (hd : 0 < O.depth j) :
    (∃ s, j < s ∧ O.Sibling j s) ↔
      ∃ s, i < s ∧ s < O.size ∧ O.depth s = O.depth j ∧ ∀ m, i < m → m < s → O.depth j ≤ O.depth m := by
  obtain ⟨hji, hdeep⟩ := (ancestor_iff hi).mp h
  constructor
  · rintro ⟨s, hjs, k, ⟨hkj, -, hdj, -⟩, -, hs, hds, hbetween⟩
    have his : i < s := by
      by_contra hsi
      have := hdeep s hjs (by omega)
      omega
    refine ⟨s, his, hs, by omega, fun m h₁ h₂ => ?_⟩
    have := hbetween m (by omega) h₂
    omega
  · rintro ⟨s, his, hs, hds, hshallow⟩
    obtain ⟨k, hkj, hj, hdk, hbetween⟩ := exists_parent (hji.trans_lt hi) hd
    refine ⟨s, by omega, k, ⟨hkj, hj, hdk, hbetween⟩, by omega, hs, by omega, fun m h₁ h₂ => ?_⟩
    rw [hds]
    rcases lt_trichotomy m j with hm | rfl | hm
    · exact hbetween m h₁ hm
    · exact le_rfl
    · by_cases hmi : m ≤ i
      · exact (hdeep m hm hmi).le
      · exact hshallow m (by omega) h₂

variable (O) in
/-- A depth left behind by more than one level is never taken again. -/
def NoReturn : Prop :=
  ∀ i d s, O.depth (i + 1) < d → d < O.depth i → i + 1 < s → s < O.size → O.depth s ≠ d

/-- Up to where a depth comes again first, the nodes are deeper. -/
theorem NoReturn.deeper (h : O.NoReturn) {d s : ℕ} (hs : s < O.size) (hds : O.depth s = d)
    (hfirst : ∀ m, i < m → m < s → O.depth m ≠ d) (hd : d < O.depth i) :
    ∀ m, i ≤ m → m < s → d < O.depth m := by
  intro m him
  induction m, him using Nat.le_induction with
  | base => exact fun _ => hd
  | succ m him ih =>
    intro hms
    have hm := ih (by omega)
    have hne := hfirst (m + 1) (by omega) hms
    by_contra hshallow
    exact h m d s (by omega) hm hms hs hds

/-- **When a depth that comes again is always that of an ancestor's sibling.** -/
theorem depth_returns_iff : (∀ i d, i < O.size → 0 < d → d < O.depth i →
    ((∃ s, i < s ∧ s < O.size ∧ O.depth s = d) ↔
      ∃ j, O.Ancestor j i ∧ O.depth j = d ∧ ∃ s, j < s ∧ O.Sibling j s)) ↔ O.NoReturn := by
  constructor
  · intro h i d s hlo hhi his hs hds
    obtain ⟨j, hj, hdj, hsib⟩ := (h i d (by omega) (by omega) hhi).mp ⟨s, by omega, hs, hds⟩
    subst hdj
    obtain ⟨s', hs', -, hds', hshallow⟩ :=
      (later_sibling_iff (by omega) hj (by omega)).mp hsib
    -- the next node is shallower, so no sibling can follow
    rcases Nat.lt_or_ge (i + 1) s' with hlt | hge
    · have := hshallow (i + 1) (by omega) hlt
      omega
    · obtain rfl : s' = i + 1 := by omega
      omega
  · intro h i d hi hpos hd
    obtain ⟨j, hj, hdj⟩ := exists_ancestor hi hd.le
    constructor
    · intro hreturn
      obtain ⟨his, hs, hds⟩ := Nat.find_spec hreturn
      have hfirst : ∀ m, i < m → m < Nat.find hreturn → O.depth m ≠ d := fun m h₁ h₂ hdm =>
        Nat.find_min hreturn h₂ ⟨h₁, h₂.trans hs, hdm⟩
      have hdeep := h.deeper hs hds hfirst hd
      refine ⟨j, hj, hdj, (later_sibling_iff hi hj (by omega)).mpr ⟨_, his, hs, by omega, ?_⟩⟩
      exact fun m h₁ h₂ => hdj.symm ▸ (hdeep m h₁.le h₂).le
    · rintro ⟨j', hj', rfl, hsib⟩
      obtain ⟨s, his, hs, hds, -⟩ := (later_sibling_iff hi hj' hpos).mp hsib
      exact ⟨s, his, hs, hds⟩

/-! ## Lists of depths -/

/-- The same of a list: a depth between two neighbours does not come behind them. -/
def NoReturnIn : List ℕ → Prop
  | a :: b :: l => (∀ d ∈ l, ¬(b < d ∧ d < a)) ∧ NoReturnIn (b :: l)
  | _ => True

/-- A depth that is not left behind by more than one level may stand in front. -/
theorem noReturnIn_cons {a : ℕ} {l : List ℕ} (h : ∀ b ∈ l.head?, a ≤ b + 1) (hl : NoReturnIn l) :
    NoReturnIn (a :: l) := by
  cases l with
  | nil => trivial
  | cons b l =>
    have := h b rfl
    exact ⟨fun d _ hd => by omega, hl⟩

theorem noReturnIn_append {l m : List ℕ} (h : (l ++ m.take 1).IsChain fun a b => a ≤ b + 1)
    (hm : NoReturnIn m) : NoReturnIn (l ++ m) := by
  induction l with
  | nil => exact hm
  | cons a l ih =>
    rw [List.cons_append, List.isChain_cons] at h
    refine noReturnIn_cons (fun b hb => h.1 b ?_) (ih h.2)
    cases l with
    | nil => cases m with
      | nil => exact hb
      | cons => exact hb
    | cons => exact hb

theorem NoReturnIn.not_mem {l : List ℕ} (h : NoReturnIn l) {a b d : ℕ} (ha : l[i]? = some a)
    (hb : l[i + 1]? = some b) (hlo : b < d) (hhi : d < a) : d ∉ l.drop (i + 2) := by
  induction l generalizing i with
  | nil => cases ha
  | cons c l ih =>
    cases l with
    | nil => cases hb
    | cons c' l =>
      cases i with
      | zero =>
        obtain rfl := Option.some.inj ha
        obtain rfl := Option.some.inj hb
        exact fun hd => h.1 d hd ⟨hlo, hhi⟩
      | succ i => exact ih h.2 ha hb

/-- **An outline read off a list returns nowhere** when the list does not. -/
theorem NoReturnIn.noReturn {l : List ℕ} (h : NoReturnIn l) (hsize : O.size = l.length)
    (hdepth : ∀ n, O.depth n = l.getD n 0) : O.NoReturn := by
  intro i d s hlo hhi his hs hds
  rw [hdepth, List.getD_eq_getElem?_getD] at hlo hhi hds
  have hi := List.getElem?_eq_getElem (show i < l.length by omega)
  have hi' := List.getElem?_eq_getElem (show i + 1 < l.length by omega)
  have hs' := List.getElem?_eq_getElem (show s < l.length by omega)
  rw [hi'] at hlo
  rw [hi] at hhi
  rw [hs'] at hds
  refine h.not_mem hi hi' hlo hhi (List.mem_iff_getElem?.mpr ⟨s - (i + 2), ?_⟩)
  rw [List.getElem?_drop, Nat.add_sub_cancel' his, hs']
  exact congrArg some hds

/-- **A node hangs below** the last one before it that is one level up. -/
theorem parent_of_append {pre mid post : List ℕ} {p c : ℕ} (hlist : ∀ n, n < O.size →
      O.depth n = (pre ++ p :: (mid ++ c :: post)).getD n 0)
    (hsize : O.size = (pre ++ p :: (mid ++ c :: post)).length) (hstep : p + 1 = c)
    (hmid : ∀ m ∈ mid, c ≤ m) : O.Parent pre.length (pre.length + 1 + mid.length) := by
  have hlen : (pre ++ p :: (mid ++ c :: post)).length =
      pre.length + 1 + mid.length + 1 + post.length := by simp; omega
  have hp : O.depth pre.length = p := by
    rw [hlist _ (by omega), List.getD_eq_getElem?_getD, List.getElem?_append_right le_rfl,
      Nat.sub_self]
    rfl
  have hc : O.depth (pre.length + 1 + mid.length) = c := by
    rw [hlist _ (by omega), List.getD_eq_getElem?_getD, List.getElem?_append_right (by omega),
      show pre.length + 1 + mid.length - pre.length = mid.length + 1 by omega,
      List.getElem?_cons_succ, List.getElem?_append_right le_rfl, Nat.sub_self]
    rfl
  refine ⟨by omega, by omega, by omega, fun m h₁ h₂ => ?_⟩
  obtain ⟨k, rfl⟩ : ∃ k, m = pre.length + 1 + k := ⟨m - (pre.length + 1), by omega⟩
  have hk := List.getElem?_eq_getElem (show k < mid.length by omega)
  rw [hc, hlist _ (by omega), List.getD_eq_getElem?_getD, List.getElem?_append_right (by omega),
    show pre.length + 1 + k - pre.length = k + 1 by omega, List.getElem?_cons_succ,
    List.getElem?_append_left (by omega), hk]
  exact hmid _ (List.getElem_mem _)

end Outline
