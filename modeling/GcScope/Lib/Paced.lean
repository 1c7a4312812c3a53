import Mathlib.Data.List.Chain
import Mathlib.Order.Lattice
import GcScope.Lib.Mealy

/-!
# Machines that go from phase to phase

A machine is in a phase that is due to end at some moment. It looks at a clock now and then, and goes
on to the next phase at the first look at or after that moment.

* `Pace`: the phases, and how long each is set to last at least and at most.
* `Pace.Beat`: what one look does.
* **`Pace.isChain_least`**: no phase is cut short, whatever the clock shows.
* **`Pace.isChain_most`**: none outlasts its time by more than the longest gap between two looks.
-/

set_option autoImplicit false

variable {σ ι P : Type*}

/-- What the pace of a machine is read from. -/
structure Pace (σ ι P : Type*) where
  phase : σ → P
  due : σ → ℕ
  clock : ι → ℕ
  next : P → P
  least : P → ℕ
  most : P → ℕ

namespace Pace

variable (p : Pace σ ι P)

/-- The phase the machine is in was entered at `start`, and is set to last as long as it should. -/
def SetAt (start : ℕ) (s : σ) : Prop :=
  start + p.least (p.phase s) ≤ p.due s ∧ p.due s ≤ start + p.most (p.phase s)

/-- What a look at the clock does: the machine stays, where it is running because the phase is not due
yet, or it goes on and tells when, and to which phase. -/
inductive Beat (running : Prop) (now : ℕ) (s : σ) : σ × List (ℕ × P) → Prop
  | stay {s' : σ} (phase : p.phase s' = p.phase s) (due : p.due s' = p.due s)
      (early : running → now < p.due s) : Beat running now s (s', [])
  | turn {s' : σ} (due : p.due s ≤ now) (phase : p.phase s' = p.next (p.phase s))
      (set : p.SetAt now s') : Beat running now s (s', [(now, p.phase s')])

variable {p}

theorem SetAt.of_eq {start : ℕ} {s s' : σ} (h : p.SetAt start s) (hphase : p.phase s' = p.phase s)
    (hdue : p.due s' = p.due s) : p.SetAt start s' := by
  unfold SetAt
  rw [hphase, hdue]
  exact h

/-- A look is seen by the phase it leads to, and by when that is due. -/
theorem Beat.congr {running : Prop} {now : ℕ} {s s' s'' : σ} {os : List (ℕ × P)}
    (h : p.Beat running now s (s', os)) (hphase : p.phase s'' = p.phase s')
    (hdue : p.due s'' = p.due s') : p.Beat running now s (s'', os) := by
  cases h with
  | stay phase due early => exact .stay (hphase.trans phase) (hdue.trans due) early
  | turn due phase set =>
    rw [← hphase]
    exact .turn due (hphase.trans phase) (set.of_eq hphase hdue)

variable {step : σ → ι → σ × List (ℕ × P)} {inv : σ → Prop} {running : ι → Prop} {s : σ}
  {start : ℕ} {is : List ι}

/-- **No phase is cut short**, and each is followed by the next. -/
theorem isChain_least (hstep : ∀ t, inv t → ∀ i ∈ is,
      inv (step t i).1 ∧ p.Beat (running i) (p.clock i) t (step t i)) (h : inv s)
    (hset : p.SetAt start s) : ((start, p.phase s) :: Mealy.outs step s is).IsChain fun a b =>
      b.2 = p.next a.2 ∧ a.1 + p.least a.2 ≤ b.1 := by
  induction is generalizing s start with
  | nil => exact List.isChain_singleton _
  | cons i is ih =>
    have hrest := fun t ht j hj => hstep t ht j (List.mem_cons_of_mem i hj)
    obtain ⟨hi, hbeat⟩ := hstep s h i List.mem_cons_self
    rw [Mealy.outs_cons]
    generalize step s i = r at hi hbeat ⊢
    cases hbeat with
    | @stay s' hphase hdue _ => simpa only [hphase, List.nil_append] using ih hrest hi (hset.of_eq hphase hdue)
    | turn hdue hphase hset' =>
      rw [List.singleton_append, List.isChain_cons_cons]
      exact ⟨⟨hphase, hset.1.trans hdue⟩, ih hrest hi hset'⟩

/-- **No phase outlasts its time** by more than the longest gap between two looks at the clock, while
the machine is running; nor does the one it ends in. -/
theorem isChain_most {last δ : ℕ} (hstep : ∀ t, inv t → ∀ i ∈ is,
      inv (step t i).1 ∧ p.Beat (running i) (p.clock i) t (step t i)) (h : inv s)
    (hset : p.SetAt start s) (hrun : ∀ i ∈ is, running i)
    (hclock : (last :: is.map p.clock).IsChain fun s t => t ≤ s + δ) (hlast : last ≤ p.due s) :
    ((start, p.phase s) :: Mealy.outs step s is).IsChain (fun a b => b.1 ≤ a.1 + p.most a.2 + δ) ∧
      ∀ final ∈ ((start, p.phase s) :: Mealy.outs step s is).getLast?,
        (is.map p.clock).getLastD last ≤ final.1 + p.most final.2 := by
  induction is generalizing s start last with
  | nil =>
    refine ⟨List.isChain_singleton _, fun final hfinal => ?_⟩
    obtain rfl := Option.some.inj hfinal
    exact hlast.trans hset.2
  | cons i is ih =>
    have hrest := fun t ht j hj => hstep t ht j (List.mem_cons_of_mem i hj)
    have hruns := fun j hj => hrun j (List.mem_cons_of_mem i hj)
    obtain ⟨hi, hbeat⟩ := hstep s h i List.mem_cons_self
    have hon := hrun i List.mem_cons_self
    rw [List.map_cons, List.isChain_cons_cons] at hclock
    rw [Mealy.outs_cons, List.map_cons, List.getLastD_cons]
    generalize step s i = r at hi hbeat ⊢
    cases hbeat with
    | @stay s' hphase hdue hearly =>
      have hbefore : p.clock i ≤ p.due s' := hdue.symm ▸ (hearly hon).le
      simpa only [hphase, List.nil_append] using
        ih hrest hi (hset.of_eq hphase hdue) hruns hclock.2 hbefore
    | @turn s' hdue hphase hset' =>
      have hbefore : p.clock i ≤ p.due s' := (Nat.le_add_right _ _).trans hset'.1
      obtain ⟨hchain, hfinal⟩ := ih hrest hi hset' hruns hclock.2 hbefore
      rw [List.singleton_append, List.isChain_cons_cons, List.getLast?_cons_cons]
      refine ⟨⟨?_, hchain⟩, hfinal⟩
      calc p.clock i ≤ last + δ := hclock.1
        _ ≤ start + p.most (p.phase s) + δ := Nat.add_le_add_right (hlast.trans hset.2) δ

end Pace
