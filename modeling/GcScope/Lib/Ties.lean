import GcScope.Lib.Mealy
import GcScope.Lib.StableSort

/-!
# Runs over sorted inputs, up to ties

Two sorted lists of the same items differ in the order of items with equal keys only. A machine that
does not tell such items apart does not tell the lists apart.

* `TieSwaps`: lists that differ by exchanges of neighbours with equal keys.
* **`tieSwaps_of_perm`**: sorted permutations do.
* `Agree`: the machine ends alike, and its outputs look alike.
* **`agree_of_tieSwaps`**: it does on such lists, where it does on two neighbours.
* `map_stableSort`: sorting commutes with a view that shows the key.
-/

set_option autoImplicit false

namespace Ties

open StableSort

variable {α κ : Type*} (key : α → κ)

/-- The lists differ by exchanges of neighbours with equal keys. -/
inductive TieSwaps : List α → List α → Prop
  | nil : TieSwaps [] []
  | cons (a : α) {l l' : List α} : TieSwaps l l' → TieSwaps (a :: l) (a :: l')
  | swap (a b : α) (l : List α) : key a = key b → TieSwaps (a :: b :: l) (b :: a :: l)
  | trans {l l' l'' : List α} : TieSwaps l l' → TieSwaps l' l'' → TieSwaps l l''

variable {key}

theorem TieSwaps.perm {l l' : List α} (h : TieSwaps key l l') : l.Perm l' := by
  induction h with
  | nil => exact .nil
  | cons a _ ih => exact ih.cons a
  | swap a b l _ => exact .swap b a l
  | trans _ _ ih ih' => exact ih.trans ih'

theorem TieSwaps.refl (l : List α) : TieSwaps key l l := by
  induction l with
  | nil => exact .nil
  | cons a l ih => exact .cons a ih

/-- An item moves to the front past items of its own key. -/
theorem tieSwaps_middle {a : α} (post : List α) :
    ∀ {pre : List α}, (∀ b ∈ pre, key b = key a) → TieSwaps key (a :: (pre ++ post)) (pre ++ a :: post)
  | [], _ => .refl _
  | b :: pre, h => by
    obtain ⟨hb, hpre⟩ := List.forall_mem_cons.mp h
    exact (TieSwaps.swap a b (pre ++ post) hb.symm).trans (.cons b (tieSwaps_middle post hpre))

/-- **Sorted permutations differ in their ties only.** -/
theorem tieSwaps_of_perm [LinearOrder κ] {l l' : List α} (h : l.Perm l')
    (hl : l.Pairwise fun a b => key a ≤ key b) (hl' : l'.Pairwise fun a b => key a ≤ key b) :
    TieSwaps key l l' := by
  induction l generalizing l' with
  | nil => rw [List.nil_perm.mp h]; exact .nil
  | cons a l ih =>
    obtain ⟨hle, hl⟩ := List.pairwise_cons.mp hl
    obtain ⟨pre, post, rfl⟩ := List.append_of_mem (h.subset List.mem_cons_self)
    have htail : l.Perm (pre ++ post) := (h.trans List.perm_middle).cons_inv
    obtain ⟨hpre, hpost, hcross⟩ := List.pairwise_append.mp hl'
    -- what stands before `a` is no greater, and `a` is the least
    have hties : ∀ b ∈ pre, key b = key a := fun b hb =>
      le_antisymm (hcross b hb a List.mem_cons_self)
        (hle b (htail.symm.subset (List.mem_append_left post hb)))
    have hsorted : (pre ++ post).Pairwise fun a b => key a ≤ key b :=
      List.pairwise_append.mpr ⟨hpre, (List.pairwise_cons.mp hpost).2,
        fun b hb c hc => hcross b hb c (List.mem_cons_of_mem a hc)⟩
    exact (TieSwaps.cons a (ih htail hl hsorted)).trans (tieSwaps_middle post hties)

/-! ## Machines -/

variable {σ ο γ : Type*} (step : σ → α → σ × List ο) (view : ο → γ)

/-- From every state the two runs end alike, and what they put out looks alike. -/
def Agree (l l' : List α) : Prop :=
  ∀ s, Mealy.exec step s l = Mealy.exec step s l' ∧
    (Mealy.outs step s l).map view = (Mealy.outs step s l').map view

variable {step view}

theorem Agree.append_right {l l' : List α} (h : Agree step view l l') (post : List α) :
    Agree step view (l ++ post) (l' ++ post) := by
  intro s
  obtain ⟨hexec, houts⟩ := h s
  rw [Mealy.exec_append, Mealy.exec_append, Mealy.outs_append, Mealy.outs_append, hexec,
    List.map_append, List.map_append, houts]
  exact ⟨rfl, rfl⟩

theorem Agree.cons {l l' : List α} (h : Agree step view l l') (a : α) :
    Agree step view (a :: l) (a :: l') := by
  intro s
  obtain ⟨hexec, houts⟩ := h (step s a).1
  rw [Mealy.exec_cons, Mealy.exec_cons, Mealy.outs_cons, Mealy.outs_cons, List.map_append,
    List.map_append, houts]
  exact ⟨hexec, rfl⟩

/-- **A machine that does not tell neighbours with equal keys apart does not tell the lists apart.** -/
theorem agree_of_tieSwaps {l l' : List α} (h : TieSwaps key l l')
    (hswap : ∀ a ∈ l, ∀ b ∈ l, key a = key b → Agree step view [a, b] [b, a]) :
    Agree step view l l' := by
  induction h with
  | nil => exact fun s => ⟨rfl, rfl⟩
  | cons a _ ih =>
    exact (ih fun b hb c hc =>
      hswap b (List.mem_cons_of_mem a hb) c (List.mem_cons_of_mem a hc)).cons a
  | swap a b post hab =>
    exact (hswap a List.mem_cons_self b (List.mem_cons_of_mem a List.mem_cons_self) hab).append_right
      post
  | trans h _ ih ih' =>
    intro s
    obtain ⟨he, ho⟩ := ih hswap s
    obtain ⟨he', ho'⟩ := ih' (fun a ha b hb =>
      hswap a (h.perm.symm.subset ha) b (h.perm.symm.subset hb)) s
    exact ⟨he.trans he', ho.trans ho'⟩

theorem map_stableSort [LinearOrder κ] (view : α → γ) (key : γ → κ) (l : List α) :
    (stableSort (fun a => key (view a)) l).map view = stableSort key (l.map view) :=
  List.map_insertionSort _ _ view l fun _ _ _ _ => Iff.rfl

end Ties
