import Mathlib.Data.List.Induction
import Mathlib.Data.List.Nodup
import Mathlib.Data.List.Perm.Basic

/-!
# Grouping by a key

The items of a list under their keys, the keys in the order in which they first come.

* `append`, `groups`: an item put under its key, and a list.
* `groups_eq_map`: a group is what the list has of its key.
* `mem_groups`: the groups, by key.
* **`perm_flatMap_groups`**: what is made of each group does not depend on the order of the list.
-/

set_option autoImplicit false

namespace Grouping

variable {α β κ : Type*} [DecidableEq κ]

/-- The item put under its key, which goes last if it is new. -/
def append : List (κ × List α) → κ → α → List (κ × List α)
  | [], k, a => [(k, [a])]
  | (k', as) :: gs, k, a => if k' = k then (k', as ++ [a]) :: gs else (k', as) :: append gs k a

/-- The items under their keys. -/
def groups (key : α → κ) (l : List α) : List (κ × List α) :=
  l.foldl (fun gs a => append gs (key a) a) []

/-- The keys, in the order in which they first come. -/
def keys (key : α → κ) (l : List α) : List κ := (groups key l).map Prod.fst

theorem map_fst_append (gs : List (κ × List α)) (k : κ) (a : α) :
    (append gs k a).map Prod.fst =
      if k ∈ gs.map Prod.fst then gs.map Prod.fst else gs.map Prod.fst ++ [k] := by
  induction gs with
  | nil => simp [append]
  | cons g gs ih =>
    obtain ⟨k', as⟩ := g
    by_cases hk : k' = k
    · simp [append, hk]
    · simp only [append, hk, if_false, List.map_cons, ih, List.mem_cons, Ne.symm hk, false_or]
      split <;> simp

theorem append_map {f : κ → List α} {ks : List κ} (hks : ks.Nodup) (k : κ) (a : α)
    (hnew : k ∉ ks → f k = []) : append (ks.map fun k => (k, f k)) k a =
      (if k ∈ ks then ks else ks ++ [k]).map fun k' => (k', f k' ++ if k' = k then [a] else []) := by
  induction ks with
  | nil => simp [append, hnew List.not_mem_nil]
  | cons k' ks ih =>
    obtain ⟨hk', hks⟩ := List.nodup_cons.mp hks
    rw [List.map_cons, append]
    by_cases hk : k' = k
    · -- the key is here, and nowhere behind
      subst hk
      have hrest : (ks.map fun k => (k, f k)) =
          ks.map fun k'' => (k'', f k'' ++ if k'' = k' then [a] else []) :=
        List.map_congr_left fun k'' hm => by
          have hne : k'' ≠ k' := fun h => hk' (h ▸ hm)
          rw [if_neg hne, List.append_nil]
      rw [if_pos rfl, hrest, if_pos List.mem_cons_self, List.map_cons, if_pos rfl]
    · have hmem : k ∈ k' :: ks ↔ k ∈ ks := by simp [Ne.symm hk]
      rw [if_neg hk, ih hks fun h => hnew (mt hmem.mp h)]
      by_cases hm : k ∈ ks
      · rw [if_pos hm, if_pos (hmem.mpr hm), List.map_cons, if_neg hk, List.append_nil]
      · rw [if_neg hm, if_neg (mt hmem.mp hm), List.cons_append, List.map_cons, if_neg hk,
          List.append_nil]

variable (key : α → κ)

theorem groups_concat (l : List α) (a : α) :
    groups key (l ++ [a]) = append (groups key l) (key a) a := by
  rw [groups, List.foldl_append]; rfl

theorem keys_concat (l : List α) (a : α) :
    keys key (l ++ [a]) = if key a ∈ keys key l then keys key l else keys key l ++ [key a] := by
  rw [keys, groups_concat, map_fst_append]; rfl

theorem mem_keys {l : List α} {k : κ} : k ∈ keys key l ↔ ∃ a ∈ l, key a = k := by
  induction l using List.reverseRecOn with
  | nil => simp [keys, groups]
  | append_singleton l a ih =>
    rw [keys_concat]
    by_cases ha : key a ∈ keys key l
    · rw [if_pos ha, ih]
      refine ⟨fun ⟨b, hb, hk⟩ => ⟨b, List.mem_append_left _ hb, hk⟩, fun ⟨b, hb, hk⟩ => ?_⟩
      rcases List.mem_append.mp hb with hb | hb
      · exact ⟨b, hb, hk⟩
      · obtain rfl := List.mem_singleton.mp hb
        exact ih.mp (hk ▸ ha)
    · rw [if_neg ha, List.mem_append, ih, List.mem_singleton]
      simp [or_and_right, exists_or, eq_comm]

theorem nodup_keys (l : List α) : (keys key l).Nodup := by
  induction l using List.reverseRecOn with
  | nil => exact List.nodup_nil
  | append_singleton l a ih =>
    rw [keys_concat]
    by_cases ha : key a ∈ keys key l
    · rwa [if_pos ha]
    · rw [if_neg ha]
      exact List.nodup_append.mpr ⟨ih, List.nodup_singleton _, fun k hk j hj => by
        rintro rfl
        exact ha (List.mem_singleton.mp hj ▸ hk)⟩

/-- **A group is what the list has of its key.** -/
theorem groups_eq_map (l : List α) :
    groups key l = (keys key l).map fun k => (k, l.filter fun a => key a = k) := by
  induction l using List.reverseRecOn with
  | nil => rfl
  | append_singleton l a ih =>
    have hnew : key a ∉ keys key l → (l.filter fun b => key b = key a) = [] := fun h =>
      List.filter_eq_nil_iff.mpr fun b hb hk => h ((mem_keys key).mpr ⟨b, hb, by simpa using hk⟩)
    rw [groups_concat, ih, append_map (nodup_keys key l) (key a) a hnew, keys_concat]
    refine List.map_congr_left fun k _ => ?_
    rw [List.filter_append]
    by_cases hk : k = key a
    · simp [hk]
    · simp [hk, Ne.symm hk]

theorem mem_groups {l : List α} {k : κ} {as : List α} : (k, as) ∈ groups key l ↔
    (∃ a ∈ l, key a = k) ∧ as = l.filter fun a => key a = k := by
  rw [groups_eq_map key l, List.mem_map, ← mem_keys key]
  constructor
  · rintro ⟨k', hk', h⟩
    obtain ⟨rfl, rfl⟩ := Prod.mk.inj h
    exact ⟨hk', rfl⟩
  · rintro ⟨hk, rfl⟩
    exact ⟨k, hk, rfl⟩

theorem perm_keys {l l' : List α} (h : l.Perm l') : (keys key l).Perm (keys key l') :=
  (List.perm_ext_iff_of_nodup (nodup_keys key l) (nodup_keys key l')).mpr fun k => by
    simp only [mem_keys, h.mem_iff]

/-- **What is made of each group does not depend on the order of the list.** -/
theorem perm_flatMap_groups {l l' : List α} (h : l.Perm l') {f : κ × List α → List β}
    (hf : ∀ k as bs, as.Perm bs → (f (k, as)).Perm (f (k, bs))) :
    ((groups key l).flatMap f).Perm ((groups key l').flatMap f) := by
  rw [groups_eq_map, groups_eq_map, List.flatMap_map, List.flatMap_map]
  exact ((perm_keys key h).flatMap_right _).trans
    (List.Perm.flatMap_left _ fun k _ => hf k _ _ (h.filter _))

theorem flatMap_groups_perm (l : List α) : ((groups key l).flatMap Prod.snd).Perm l := by
  have happend : ∀ (gs : List (κ × List α)) k a,
      ((append gs k a).flatMap Prod.snd).Perm (gs.flatMap Prod.snd ++ [a]) := by
    intro gs k a
    induction gs with
    | nil => exact List.Perm.refl _
    | cons g gs ih =>
      obtain ⟨k', as⟩ := g
      by_cases hk : k' = k
      · rw [append, if_pos hk, List.flatMap_cons, List.flatMap_cons, List.append_assoc, List.append_assoc]
        exact List.perm_append_comm.append_left as
      · rw [append, if_neg hk, List.flatMap_cons, List.flatMap_cons, List.append_assoc]
        exact ih.append_left as
  induction l using List.reverseRecOn with
  | nil => exact List.Perm.refl _
  | append_singleton l a ih =>
    rw [groups_concat]
    exact (happend _ _ _).trans (ih.append_right [a])

end Grouping
