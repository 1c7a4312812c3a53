import Mathlib.Data.Finset.Card
import Mathlib.Data.List.Perm.Basic
import Mathlib.Logic.Relation

/-!
# Listing a forest in preorder

`up c x` says that `x` is the parent of `c`, and `children` lists the children of each item. A listing
writes every item of a forest with its level, each followed by what is below it.

* `Listing`: the listings of the forest under some items, at a level.
* `exists_listing`: where no chain of children is infinite there is one.
* `mem_listing_iff`: it names what lies below its items.
* **`nodup_listing`**: it names everything once, where its items do not lie below each other.
* **`not_nodup_of_root`**: and a root whose parent it names twice.
* **`Listing.child_below`**: a child stands behind its parent, a level deeper, with descendants between.
* `wellFounded_of_acyclic`: a finite relation without cycles has no infinite chain.
-/

set_option autoImplicit false

namespace Forest

open Relation

variable {α : Type*}

/-- The items of the forest under `xs`, whose roots are at level `d`, in preorder with their levels. -/
inductive Listing (children : α → List α) : ℕ → List α → List (α × ℕ) → Prop
  | nil (d : ℕ) : Listing children d [] []
  | cons {d : ℕ} {x : α} {xs : List α} {below rest : List (α × ℕ)} :
      Listing children (d + 1) (children x) below → Listing children d xs rest →
      Listing children d (x :: xs) ((x, d) :: (below ++ rest))

/-- The children of each item, as the items whose parent it is. -/
def Lists (children : α → List α) (up : α → α → Prop) : Prop :=
  ∀ c x, c ∈ children x ↔ up c x

variable {children : α → List α} {up : α → α → Prop}

/-- Where no chain of children is infinite the forest has a listing. -/
theorem exists_listing (hc : Lists children up) (hwf : WellFounded up) (d : ℕ) (xs : List α) :
    ∃ l, Listing children d xs l := by
  have hone (x : α) : ∀ d, ∃ l, Listing children d (children x) l := by
    induction x using hwf.induction with
    | _ x ih =>
      have hall (ys : List α) (hys : ∀ y ∈ ys, up y x) (d : ℕ) : ∃ l, Listing children d ys l := by
        induction ys with
        | nil => exact ⟨[], .nil d⟩
        | cons y ys ihs =>
          obtain ⟨below, hb⟩ := ih y (hys y List.mem_cons_self) (d + 1)
          obtain ⟨rest, hr⟩ := ihs fun z hz => hys z (List.mem_cons_of_mem y hz)
          exact ⟨_, .cons hb hr⟩
      exact hall (children x) fun y hy => (hc y x).mp hy
  induction xs with
  | nil => exact ⟨[], .nil d⟩
  | cons x xs ih =>
    obtain ⟨below, hb⟩ := hone x (d + 1)
    obtain ⟨rest, hr⟩ := ih
    exact ⟨_, .cons hb hr⟩

theorem mem_listing_iff (hc : Lists children up) {d : ℕ} {xs : List α} {l : List (α × ℕ)}
    (h : Listing children d xs l) (y : α) :
    y ∈ l.map Prod.fst ↔ ∃ x ∈ xs, ReflTransGen up y x := by
  induction h with
  | nil => simp
  | @cons d x xs below rest _ _ ihb ihr =>
    rw [List.map_cons, List.map_append, List.mem_cons, List.mem_append, ihb, ihr]
    constructor
    · rintro (rfl | ⟨c, hcx, hyc⟩ | ⟨x', hx', hy⟩)
      · exact ⟨y, List.mem_cons_self, .refl⟩
      · exact ⟨x, List.mem_cons_self, hyc.tail ((hc c x).mp hcx)⟩
      · exact ⟨x', List.mem_cons_of_mem x hx', hy⟩
    · rintro ⟨x', hx', hy⟩
      rcases List.mem_cons.mp hx' with rfl | hx'
      · rcases hy.cases_tail with rfl | ⟨c, hyc, hcx⟩
        · exact .inl rfl
        · exact .inr (.inl ⟨c, (hc c x').mpr hcx, hyc⟩)
      · exact .inr (.inr ⟨x', hx', hy⟩)

theorem mem_below_of_up (hc : Lists children up) {d : ℕ} {x : α} {below : List (α × ℕ)}
    (h : Listing children d (children x) below) {r c : α} (hr : r = x ∨ r ∈ below.map Prod.fst)
    (hcr : up c r) : c ∈ below.map Prod.fst := by
  rw [mem_listing_iff hc h]
  rcases hr with rfl | hr
  · exact ⟨c, (hc c r).mpr hcr, .refl⟩
  · obtain ⟨y, hy, hry⟩ := (mem_listing_iff hc h r).mp hr
    exact ⟨y, hy, hry.head hcr⟩

/-! ## Each item once -/

/-- None of the items lies below another one. -/
def Antichain (up : α → α → Prop) (xs : List α) : Prop :=
  ∀ x ∈ xs, ∀ y ∈ xs, ReflTransGen up y x → y = x

theorem antichain_children (hu : Relator.RightUnique up) (hc : Lists children up)
    (hacyclic : ∀ x, ¬TransGen up x x) (x : α) : Antichain up (children x) := by
  intro a ha b hb hba
  by_contra hne
  -- the parent of `b` on the way up to `a` is `x` itself, so `x` is below `a`
  obtain ⟨p, hbp, hpa⟩ := (ReflTransGen.cases_head hba).resolve_left hne
  obtain rfl := hu hbp ((hc b x).mp hb)
  exact hacyclic _ (TransGen.tail' hpa ((hc a p).mp ha))

/-- **A listing of items that do not lie below each other names everything once.** -/
theorem nodup_listing (hu : Relator.RightUnique up) (hc : Lists children up)
    (hacyclic : ∀ x, ¬TransGen up x x) (hn : ∀ x, (children x).Nodup) {d : ℕ} {xs : List α}
    {l : List (α × ℕ)} (h : Listing children d xs l) (hxs : xs.Nodup) (ha : Antichain up xs) :
    (l.map Prod.fst).Nodup := by
  induction h with
  | nil => exact List.nodup_nil
  | @cons d x xs below rest hb hr ihb ihr =>
    obtain ⟨hx, hxs⟩ := List.nodup_cons.mp hxs
    have hbelow := ihb (hn x) (antichain_children hu hc hacyclic x)
    have hrest := ihr hxs fun a hax b hbx =>
      ha a (List.mem_cons_of_mem x hax) b (List.mem_cons_of_mem x hbx)
    have hup {y : α} (hy : y ∈ below.map Prod.fst) : TransGen up y x := by
      obtain ⟨c, hcx, hyc⟩ := (mem_listing_iff hc hb y).mp hy
      exact TransGen.tail' hyc ((hc c x).mp hcx)
    -- what lies below `x` and below another root makes one of them lie below the other
    have hapart {y : α} (hy : y ∈ rest.map Prod.fst) (hyx : ReflTransGen up y x) : False := by
      obtain ⟨z, hz, hyz⟩ := (mem_listing_iff hc hr y).mp hy
      rcases ReflTransGen.total_of_right_unique hu hyx hyz with h | h
      · exact hx (ha z (List.mem_cons_of_mem x hz) x List.mem_cons_self h ▸ hz)
      · exact hx (ha x List.mem_cons_self z (List.mem_cons_of_mem x hz) h ▸ hz)
    rw [List.map_cons, List.map_append, List.nodup_cons, List.mem_append, List.nodup_append]
    refine ⟨?_, hbelow, hrest, fun y hy z hz hyz => ?_⟩
    · rintro (hy | hy)
      · exact hacyclic x (hup hy)
      · exact hapart hy .refl
    · exact hapart (hyz ▸ hz) (hup hy).to_reflTransGen

/-- **A root whose parent is listed is listed twice.** -/
theorem not_nodup_of_root (hc : Lists children up) {d : ℕ} {xs : List α} {l : List (α × ℕ)}
    (h : Listing children d xs l) {q r : α} (hq : q ∈ xs) (hr : r ∈ l.map Prod.fst) (hqr : up q r) :
    ¬(l.map Prod.fst).Nodup := by
  induction h with
  | nil => cases hq
  | @cons d x xs below rest hb hrest _ ihr =>
    rw [List.map_cons, List.map_append, List.nodup_cons, List.mem_append, List.nodup_append]
    rintro ⟨hx, -, hnodup, hapart⟩
    rw [List.map_cons, List.map_append, List.mem_cons, List.mem_append, ← or_assoc] at hr
    rcases hr with hr | hr
    · -- the parent stands in the first tree, so the root stands below it there
      have hbelow := mem_below_of_up hc hb hr hqr
      rcases List.mem_cons.mp hq with rfl | hq
      · exact hx (.inl hbelow)
      · have hroot : q ∈ rest.map Prod.fst := (mem_listing_iff hc hrest q).mpr ⟨q, hq, .refl⟩
        exact hapart q hbelow q hroot rfl
    · rcases List.mem_cons.mp hq with rfl | hq
      · obtain ⟨z, hz, hrz⟩ := (mem_listing_iff hc hrest r).mp hr
        exact hx (.inr ((mem_listing_iff hc hrest q).mpr ⟨z, hz, hrz.head hqr⟩))
      · exact ihr hq hr hnodup

/-! ## Levels -/

theorem Listing.le_level {d : ℕ} {xs : List α} {l : List (α × ℕ)} (h : Listing children d xs l) :
    ∀ e ∈ l, d ≤ e.2 := by
  induction h with
  | nil => exact fun e he => nomatch he
  | cons _ _ ihb ihr =>
    rw [List.forall_mem_cons, List.forall_mem_append]
    exact ⟨le_rfl, fun e he => (Nat.le_succ _).trans (ihb e he), ihr⟩

/-- A root stands in the listing at its level, behind what lies at or below the roots before it. -/
theorem Listing.split_root {d : ℕ} {xs : List α} {l : List (α × ℕ)} (h : Listing children d xs l)
    {x : α} (hx : x ∈ xs) : ∃ pre post, l = pre ++ (x, d) :: post := by
  induction h with
  | nil => cases hx
  | @cons d y ys below rest _ _ _ ihr =>
    rcases List.mem_cons.mp hx with rfl | hx
    · exact ⟨[], below ++ rest, rfl⟩
    · obtain ⟨pre, post, rfl⟩ := ihr hx
      exact ⟨(y, d) :: (below ++ pre), post, by simp⟩

/-- **A child stands behind its parent, a level deeper, with descendants of the parent between.** -/
theorem Listing.child_below (hc : Lists children up) {d : ℕ} {xs : List α} {l : List (α × ℕ)}
    (h : Listing children d xs l) {r c : α} (hr : r ∈ l.map Prod.fst) (hcr : up c r) :
    ∃ pre e mid post, l = pre ++ (r, e) :: (mid ++ (c, e + 1) :: post) ∧
      ∀ m ∈ mid, e < m.2 ∧ TransGen up m.1 r := by
  induction h with
  | nil => cases hr
  | @cons d x xs below rest hb _ ihb ihr =>
    rw [List.map_cons, List.map_append, List.mem_cons, List.mem_append] at hr
    rcases hr with rfl | hr | hr
    · obtain ⟨mid, post, rfl⟩ := hb.split_root ((hc c r).mpr hcr)
      refine ⟨[], d, mid, post ++ rest, by simp, fun m hm => ⟨?_, ?_⟩⟩
      · exact hb.le_level m (List.mem_append_left _ hm)
      · obtain ⟨y, hy, hmy⟩ := (mem_listing_iff hc hb m.1).mp
          (List.mem_map_of_mem (List.mem_append_left _ hm))
        exact TransGen.tail' hmy ((hc y r).mp hy)
    · obtain ⟨pre, e, mid, post, rfl, hm⟩ := ihb hr
      exact ⟨(x, d) :: pre, e, mid, post ++ rest, by simp, hm⟩
    · obtain ⟨pre, e, mid, post, rfl, hm⟩ := ihr hr
      exact ⟨(x, d) :: (below ++ pre), e, mid, post, by simp, hm⟩

/-! ## Acyclic relations -/

/-- Where each item has one parent, what lies above an item of a cycle is on the cycle. -/
theorem cycle_above (hu : Relator.RightUnique up) {x r : α} (hx : TransGen up x x)
    (hr : ReflTransGen up x r) : TransGen up r r := by
  induction hr with
  | refl => exact hx
  | tail _ hyz ih =>
    obtain ⟨z', hyz', hback⟩ := TransGen.head'_iff.mp ih
    obtain rfl := hu hyz hyz'
    exact TransGen.tail' hback hyz

/-- A relation on finitely many items that has no cycle has no infinite chain. -/
theorem wellFounded_of_acyclic (s : Finset α) (hs : ∀ c x, up c x → c ∈ s)
    (hacyclic : ∀ x, ¬TransGen up x x) : WellFounded up := by
  classical
  let height (x : α) : ℕ := (s.filter fun y => TransGen up y x).card
  refine Subrelation.wf (fun {c x} hcx => ?_) (measure height).wf
  refine Finset.card_lt_card ((Finset.ssubset_iff_of_subset fun y hy => ?_).mpr ⟨c, ?_, ?_⟩)
  · rw [Finset.mem_filter] at hy ⊢
    exact ⟨hy.1, hy.2.tail hcx⟩
  · exact Finset.mem_filter.mpr ⟨hs c x hcx, .single hcx⟩
  · exact fun hc => hacyclic c (Finset.mem_filter.mp hc).2

end Forest
