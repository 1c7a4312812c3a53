import Mathlib.Logic.Basic

/-!
# Computations that log what they touch

A computation with a state that may fail and keeps a log. `Logs P Q x` says that, where `x` succeeds,
everything it adds to the log satisfies `P` and its answer satisfies `Q`.

* `Logged.log`: an entry of the log; `Logged.state`, `Logged.lift`: the other ways to act.
* `Logged.lift_bind_ok`: a computation that succeeds, taken apart.
* `Logs.pure`, `Logs.bind`, `Logs.fail`: the rules for the ways programs are put together.
-/

set_option autoImplicit false

/-- A computation over a state `σ` that may fail with `ε` and logs entries of `U`. -/
abbrev Logged (U σ ε : Type) : Type → Type := StateT (σ × List U) (Except ε)

namespace Logged

variable {U σ ε α : Type}

/-- Add an entry to the log. -/
def log (u : U) : Logged U σ ε Unit := fun s => .ok ((), s.1, s.2 ++ [u])

/-- Read and replace the state. -/
def state (f : σ → α × σ) : Logged U σ ε α := fun s => .ok ((f s.1).1, (f s.1).2, s.2)

/-- An answer that is there already. -/
def lift (r : Except ε α) : Logged U σ ε α := fun s => r.map fun a => (a, s)

/-- Where an answer that is there already is gone on from, it is one. -/
theorem lift_bind_ok {β : Type} {r : Except ε α} {f : α → Logged U σ ε β} {s : σ × List U}
    {x : β × σ × List U} (h : (lift r >>= f) s = .ok x) : ∃ a, r = .ok a ∧ f a s = .ok x := by
  cases r with
  | error e => cases h
  | ok a => exact ⟨a, rfl, h⟩

end Logged

/-- Where `x` succeeds, it logs entries with `P` only and its answer has `Q`. -/
def Logs {U σ ε α : Type} (P : U → Prop) (Q : α → Prop) (x : Logged U σ ε α) : Prop :=
  ∀ s a s', x s = .ok (a, s') → (∃ us, s'.2 = s.2 ++ us ∧ ∀ u ∈ us, P u) ∧ Q a

namespace Logs

variable {U σ ε α β : Type} {P : U → Prop} {Q : α → Prop} {R : β → Prop} {x : Logged U σ ε α}
  {f : α → Logged U σ ε β}

theorem of_silent (h : ∀ s a s', x s = .ok (a, s') → s'.2 = s.2 ∧ Q a) : Logs P Q x :=
  fun s a s' hx => ⟨⟨[], by rw [(h s a s' hx).1, List.append_nil], fun _ hu => nomatch hu⟩,
    (h s a s' hx).2⟩

theorem pure {a : α} (h : Q a) : Logs P Q (Pure.pure a : Logged U σ ε α) := by
  refine of_silent fun s a' s' hx => ?_
  obtain ⟨rfl, rfl⟩ := Prod.mk.inj (Except.ok.inj hx)
  exact ⟨rfl, h⟩

theorem fail (e : ε) : Logs P Q (throw e : Logged U σ ε α) := fun _ _ _ hx => nomatch hx

theorem lift {r : Except ε α} (h : ∀ a, r = .ok a → Q a) :
    Logs P Q (Logged.lift r : Logged U σ ε α) := by
  refine of_silent fun s a s' hx => ?_
  cases r with
  | error e => cases hx
  | ok b =>
    obtain ⟨rfl, rfl⟩ := Prod.mk.inj (Except.ok.inj hx)
    exact ⟨rfl, h b rfl⟩

theorem state {g : σ → α × σ} (h : ∀ s, Q (g s).1) :
    Logs P Q (Logged.state g : Logged U σ ε α) := by
  refine of_silent fun s a s' hx => ?_
  obtain ⟨rfl, rfl⟩ := Prod.mk.inj (Except.ok.inj hx)
  exact ⟨rfl, h s.1⟩

theorem log {u : U} (h : P u) : Logs P (fun _ => True) (Logged.log u : Logged U σ ε Unit) := by
  intro s a s' hx
  obtain ⟨-, rfl⟩ := Prod.mk.inj (Except.ok.inj hx)
  refine ⟨⟨[u], rfl, fun v hv => ?_⟩, trivial⟩
  rwa [List.mem_singleton.mp hv]

/-- **One computation after another.** -/
theorem bind (hx : Logs P Q x) (hf : ∀ a, Q a → Logs P R (f a)) : Logs P R (x >>= f) := by
  intro s b s' h
  simp only [Bind.bind, StateT.bind, Except.bind] at h
  cases hxs : x s with
  | error e =>
    rw [hxs] at h
    cases h
  | ok r =>
    rw [hxs] at h
    obtain ⟨⟨us, hus, hP⟩, hQ⟩ := hx s r.1 r.2 hxs
    obtain ⟨⟨vs, hvs, hP'⟩, hR⟩ := hf r.1 hQ r.2 b s' h
    refine ⟨⟨us ++ vs, by rw [hvs, hus, List.append_assoc], fun u hu => ?_⟩, hR⟩
    exact (List.mem_append.mp hu).elim (hP u) (hP' u)

end Logs
