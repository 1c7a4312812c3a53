import Mathlib.Data.Set.Subsingleton
import Mathlib.Data.BitVec
import Mathlib.Tactic.Common

/-!
# Claiming a slot of the Probe

Each interpreter looks for its own slot and claims a free one when there is none. Interpreters run
in parallel; a step is one atomic access of one of them to the shared table.

* `Slots.step`: one access of one interpreter, its place in the code being `Pc`.
* `Safe`: no slot goes to two interpreters, and no interpreter gets two slots.
* **`Inv.step`**: what every access keeps, unless a free slot's id can be mistaken for an owner's.
* **`safe_iff`**: the interpreters for which every interleaving is safe.
-/

set_option autoImplicit false

namespace GcScope.Probe

/-- How many slots the table has. -/
abbrev maxInterp : ℕ := 8

/-- Where an interpreter is in its call: before the load of `claimed`, the comparison of the id, the
compare-and-swap, or the store of the id. -/
inductive Pc where
  | idle
  | load (i : Fin maxInterp)
  | compare (i : Fin maxInterp)
  | claim (i : Fin maxInterp)
  | store (i : Fin maxInterp)
  deriving DecidableEq

/-- The table, the interpreters' places in the code and the results so far. An interpreter goes by
its id. -/
structure Slots where
  claimed : Fin maxInterp → Bool
  interpId : Fin maxInterp → BitVec 64
  pc : BitVec 64 → Pc
  results : List (BitVec 64 × Option (Fin maxInterp))

namespace Slots

/-- The zeroed table, before any call. -/
def zero : Slots := ⟨fun _ => false, fun _ => 0, fun _ => .idle, []⟩

def setPc (s : Slots) (id : BitVec 64) (p : Pc) : Slots := { s with pc := Function.update s.pc id p }

/-- The call returns. -/
def finish (s : Slots) (id : BitVec 64) (slot : Option (Fin maxInterp)) : Slots :=
  { s.setPc id .idle with results := s.results ++ [(id, slot)] }

/-- The first loop, at its next slot; the second loop follows it. -/
def scanFrom (i : ℕ) : Pc := if h : i < maxInterp then .load ⟨i, h⟩ else .claim 0

/-- The second loop, at its next slot; the call returns null after it. -/
def claimFrom (s : Slots) (id : BitVec 64) (i : ℕ) : Slots :=
  if h : i < maxInterp then s.setPc id (.claim ⟨i, h⟩) else s.finish id none

/-- The compare-and-swap succeeds. -/
def claim (s : Slots) (id : BitVec 64) (i : Fin maxInterp) : Slots :=
  { s.setPc id (.store i) with claimed := Function.update s.claimed i true }

/-- The id is stored, and the call returns. -/
def publish (s : Slots) (id : BitVec 64) (i : Fin maxInterp) : Slots :=
  { s.finish id (some i) with interpId := Function.update s.interpId i id }

/-- One atomic access of one interpreter. -/
def step (s : Slots) (id : BitVec 64) : Slots :=
  match s.pc id with
  | .idle => s.setPc id (scanFrom 0)
  | .load i => s.setPc id (if s.claimed i then .compare i else scanFrom (i + 1))
  | .compare i =>
    if s.interpId i = id then s.finish id (some i) else s.setPc id (scanFrom (i + 1))
  | .claim i => if s.claimed i then s.claimFrom id (i + 1) else s.claim id i
  | .store i => s.publish id i

/-- The table after a schedule of accesses. -/
def run (schedule : List (BitVec 64)) : Slots := schedule.foldl step zero

end Slots

/-- No slot was returned to two interpreters, nor two slots to one interpreter. -/
def Safe (results : List (BitVec 64 × Option (Fin maxInterp))) : Prop :=
  ∀ r₁ ∈ results, ∀ r₂ ∈ results, ∀ k₁ ∈ r₁.2, ∀ k₂ ∈ r₂.2, r₁.1 = r₂.1 ↔ k₁ = k₂

namespace Slots

section Steps

variable {s : Slots} {a : BitVec 64} {i : Fin maxInterp}

theorem step_idle (h : s.pc a = .idle) : s.step a = s.setPc a (scanFrom 0) := by rw [step, h]

theorem step_load (h : s.pc a = .load i) :
    s.step a = s.setPc a (if s.claimed i then .compare i else scanFrom (i + 1)) := by rw [step, h]

theorem step_compare (h : s.pc a = .compare i) : s.step a =
    if s.interpId i = a then s.finish a (some i) else s.setPc a (scanFrom (i + 1)) := by
  rw [step, h]

theorem step_claim (h : s.pc a = .claim i) :
    s.step a = if s.claimed i then s.claimFrom a (i + 1) else s.claim a i := by rw [step, h]

theorem step_store (h : s.pc a = .store i) : s.step a = s.publish a i := by rw [step, h]

end Steps

@[simp] theorem setPc_claimed (s : Slots) (a : BitVec 64) (p : Pc) :
    (s.setPc a p).claimed = s.claimed := rfl

@[simp] theorem setPc_interpId (s : Slots) (a : BitVec 64) (p : Pc) :
    (s.setPc a p).interpId = s.interpId := rfl

@[simp] theorem setPc_results (s : Slots) (a : BitVec 64) (p : Pc) :
    (s.setPc a p).results = s.results := rfl

@[simp] theorem setPc_pc_self (s : Slots) (a : BitVec 64) (p : Pc) : (s.setPc a p).pc a = p :=
  Function.update_self _ _ _

@[simp] theorem setPc_pc_of_ne (s : Slots) {a b : BitVec 64} (h : b ≠ a) (p : Pc) :
    (s.setPc a p).pc b = s.pc b := Function.update_of_ne h _ _

theorem finish_results (s : Slots) (a : BitVec 64) (slot : Option (Fin maxInterp)) :
    (s.finish a slot).results = s.results ++ [(a, slot)] := rfl

theorem publish_results (s : Slots) (a : BitVec 64) (i : Fin maxInterp) :
    (s.publish a i).results = s.results ++ [(a, some i)] := rfl

theorem claim_claimed (s : Slots) (a : BitVec 64) (i k : Fin maxInterp) :
    (s.claim a i).claimed k = if k = i then true else s.claimed k := Function.update_apply _ _ _ _

@[simp] theorem claim_pc_self (s : Slots) (a : BitVec 64) (i : Fin maxInterp) :
    (s.claim a i).pc a = .store i := setPc_pc_self s a _

@[simp] theorem claim_pc_of_ne (s : Slots) {a b : BitVec 64} (h : b ≠ a) (i : Fin maxInterp) :
    (s.claim a i).pc b = s.pc b := setPc_pc_of_ne s h _

theorem publish_interpId (s : Slots) (a : BitVec 64) (i k : Fin maxInterp) :
    (s.publish a i).interpId k = if k = i then a else s.interpId k := Function.update_apply _ _ _ _

@[simp] theorem publish_pc_self (s : Slots) (a : BitVec 64) (i : Fin maxInterp) :
    (s.publish a i).pc a = .idle := setPc_pc_self s a _

@[simp] theorem publish_pc_of_ne (s : Slots) {a b : BitVec 64} (h : b ≠ a) (i : Fin maxInterp) :
    (s.publish a i).pc b = s.pc b := setPc_pc_of_ne s h _

/-- The slot is claimed and its id is the one of its owner. -/
def Settled (s : Slots) (k : Fin maxInterp) : Prop :=
  s.claimed k = true ∧ ∀ a, s.pc a ≠ .store k

/-- No settled slot below `n` is this interpreter's. -/
def Unmatched (s : Slots) (id : BitVec 64) (n : ℕ) : Prop :=
  ∀ k : Fin maxInterp, k.val < n → s.Settled k → s.interpId k ≠ id

/-- What an interpreter has learnt where it stands. -/
def Learnt (s : Slots) (id : BitVec 64) : Pc → Prop
  | .idle => True
  | .load i => s.Unmatched id i
  | .compare i => s.claimed i = true ∧ s.Unmatched id i
  | .claim _ => s.Unmatched id maxInterp
  | .store i => s.claimed i = true ∧ s.interpId i = 0 ∧ s.Unmatched id maxInterp

theorem Learnt.transfer {s s' : Slots} {a : BitVec 64} {p : Pc} (hl : s.Learnt a p)
    (hc : ∀ k, s.claimed k = true → s'.claimed k = true)
    (hz : ∀ k, p = .store k → s.interpId k = 0 → s'.interpId k = 0)
    (hu : ∀ n, s.Unmatched a n → s'.Unmatched a n) : s'.Learnt a p := by
  cases p with
  | idle => trivial
  | load i => exact hu i hl
  | compare i => exact ⟨hc i hl.1, hu i hl.2⟩
  | claim i => exact hu _ hl
  | store i => exact ⟨hc i hl.1, hz i rfl hl.2.1, hu _ hl.2.2⟩

/-- What holds whatever the interleaving of the interpreters `ids`. -/
structure Inv (ids : Set (BitVec 64)) (s : Slots) : Prop where
  actors : ∀ a, s.pc a ≠ .idle → a ∈ ids
  learnt : ∀ a, s.Learnt a (s.pc a)
  sole : ∀ a b k, s.pc a = .store k → s.pc b = .store k → a = b
  free : ∀ k, s.claimed k = false → s.interpId k = 0
  distinct : ∀ k k', s.Settled k → s.Settled k' → s.interpId k = s.interpId k' → k = k'
  results : ∀ r ∈ s.results, ∀ k ∈ r.2, s.Settled k ∧ s.interpId k = r.1

theorem inv_zero (ids : Set (BitVec 64)) : Inv ids zero where
  actors _ h := absurd rfl h
  learnt _ := trivial
  sole _ _ _ h := nomatch h
  free _ _ := rfl
  distinct _ _ h := nomatch h.1
  results _ h := nomatch h

theorem Inv.safe {ids : Set (BitVec 64)} {s : Slots} (h : Inv ids s) : Safe s.results := by
  intro r₁ h₁ r₂ h₂ k₁ hk₁ k₂ hk₂
  obtain ⟨hs₁, hi₁⟩ := h.results r₁ h₁ k₁ hk₁
  obtain ⟨hs₂, hi₂⟩ := h.results r₂ h₂ k₂ hk₂
  constructor
  · intro hr
    exact h.distinct k₁ k₂ hs₁ hs₂ (by rw [hi₁, hi₂, hr])
  · rintro rfl
    rw [← hi₁, ← hi₂]

section Move

variable {ids : Set (BitVec 64)} {s : Slots} {a : BitVec 64}

theorem settled_setPc {p : Pc} (hs : ∀ k, s.pc a ≠ .store k) (hp : ∀ k, p ≠ .store k)
    (k : Fin maxInterp) : (s.setPc a p).Settled k ↔ s.Settled k := by
  refine and_congr Iff.rfl (forall_congr' fun b => ?_)
  by_cases hb : b = a
  · subst hb
    simp [hs k, hp k]
  · rw [setPc_pc_of_ne s hb]

theorem Inv.setPc (h : Inv ids s) {p : Pc} (ha : a ∈ ids) (hs : ∀ k, s.pc a ≠ .store k)
    (hp : ∀ k, p ≠ .store k) (hl : s.Learnt a p) : Inv ids (s.setPc a p) := by
  have hset := settled_setPc hs hp
  have hlearnt : ∀ b q, s.Learnt b q → (s.setPc a p).Learnt b q := fun b q hq =>
    hq.transfer (fun _ h => h) (fun _ _ h => h) fun _ hu k hk hks => hu k hk ((hset k).mp hks)
  refine ⟨fun b hb => ?_, fun b => ?_, fun b b' k hb hb' => ?_, h.free, ?_, ?_⟩
  · by_cases hba : b = a
    · exact hba ▸ ha
    · exact h.actors b (by rwa [setPc_pc_of_ne s hba] at hb)
  · by_cases hba : b = a
    · subst hba
      rw [setPc_pc_self]
      exact hlearnt b p hl
    · rw [setPc_pc_of_ne s hba]
      exact hlearnt b _ (h.learnt b)
  · have hne : ∀ c, (s.setPc a p).pc c = .store k → c ≠ a := fun c hc hca => by
      subst hca
      exact hp k (by rwa [setPc_pc_self] at hc)
    rw [setPc_pc_of_ne s (hne b hb)] at hb
    rw [setPc_pc_of_ne s (hne b' hb')] at hb'
    exact h.sole b b' k hb hb'
  · intro k k' hk hk'
    exact h.distinct k k' ((hset k).mp hk) ((hset k').mp hk')
  · intro r hr k hk
    rw [hset]
    exact h.results r hr k hk

/-- Returning keeps the invariant when what is returned is settled and the interpreter's own. -/
theorem Inv.finish (h : Inv ids s) {slot : Option (Fin maxInterp)} (ha : a ∈ ids)
    (hs : ∀ k, s.pc a ≠ .store k) (hk : ∀ k ∈ slot, s.Settled k ∧ s.interpId k = a) :
    Inv ids (s.finish a slot) := by
  have hm : Inv ids (s.setPc a .idle) := h.setPc ha hs (fun k => nofun) trivial
  refine { hm with results := fun r hr k hkr => ?_ }
  rcases List.mem_append.mp hr with hr | hr
  · exact hm.results r hr k hkr
  · obtain rfl := List.mem_singleton.mp hr
    exact ⟨(settled_setPc (p := .idle) hs (fun k => nofun) k).mpr (hk k hkr).1, (hk k hkr).2⟩

theorem Inv.ne_store (h : Inv ids s) {i : Fin maxInterp} (hi : s.claimed i = false)
    (b : BitVec 64) : s.pc b ≠ .store i := fun hb => by
  have hl := h.learnt b
  rw [hb] at hl
  exact absurd hl.1 (by simp [hi])

theorem settled_claim {i : Fin maxInterp} (hpc : ∀ k, s.pc a ≠ .store k)
    (hi : s.claimed i = false) (k : Fin maxInterp) : (s.claim a i).Settled k ↔ s.Settled k := by
  by_cases hk : k = i
  · subst hk
    refine iff_of_false (fun hs => hs.2 a (setPc_pc_self s a _)) fun hs => ?_
    exact absurd hs.1 (by simp [hi])
  · refine and_congr (by rw [claim_claimed, if_neg hk]) (forall_congr' fun b => ?_)
    by_cases hb : b = a
    · subst hb
      rw [claim_pc_self]
      exact iff_of_true (fun hp => hk (Pc.store.inj hp).symm) (hpc k)
    · rw [claim_pc_of_ne s hb]

theorem Inv.claim (h : Inv ids s) (ha : a ∈ ids) {i : Fin maxInterp} (hpc : s.pc a = .claim i)
    (hi : s.claimed i = false) : Inv ids (s.claim a i) := by
  have hset := settled_claim (a := a) (by simp [hpc]) hi
  have hlearnt : ∀ b q, s.Learnt b q → (s.claim a i).Learnt b q := fun b q hq =>
    hq.transfer (fun k hk => by rw [claim_claimed]; split_ifs <;> first | rfl | exact hk)
      (fun _ _ h => h) fun _ hu k hk hks => hu k hk ((hset k).mp hks)
  have hla := h.learnt a
  rw [hpc] at hla
  refine ⟨fun b hb => ?_, fun b => ?_, fun b b' k hb hb' => ?_, fun k hk => ?_, ?_, ?_⟩
  · by_cases hba : b = a
    · exact hba ▸ ha
    · exact h.actors b (by rwa [claim_pc_of_ne s hba] at hb)
  · by_cases hba : b = a
    · subst hba
      rw [claim_pc_self]
      refine ⟨by rw [claim_claimed, if_pos rfl], h.free i hi, ?_⟩
      exact hlearnt b (.claim i) hla
    · rw [claim_pc_of_ne s hba]
      exact hlearnt b _ (h.learnt b)
  · by_cases hba : b = a
    · by_cases hba' : b' = a
      · rw [hba, hba']
      · rw [hba, claim_pc_self] at hb
        rw [claim_pc_of_ne s hba', ← Pc.store.inj hb] at hb'
        exact absurd hb' (h.ne_store hi b')
    · rw [claim_pc_of_ne s hba] at hb
      by_cases hba' : b' = a
      · rw [hba', claim_pc_self] at hb'
        rw [← Pc.store.inj hb'] at hb
        exact absurd hb (h.ne_store hi b)
      · rw [claim_pc_of_ne s hba'] at hb'
        exact h.sole b b' k hb hb'
  · rw [claim_claimed] at hk
    split_ifs at hk
    exact h.free k hk
  · intro k k' hk hk'
    exact h.distinct k k' ((hset k).mp hk) ((hset k').mp hk')
  · intro r hr k hk
    rw [hset]
    exact h.results r hr k hk

theorem settled_publish (h : Inv ids s) {i : Fin maxInterp} (hpc : s.pc a = .store i)
    (k : Fin maxInterp) : (s.publish a i).Settled k ↔ k = i ∨ s.Settled k := by
  have hl := h.learnt a
  rw [hpc] at hl
  by_cases hk : k = i
  · subst hk
    refine iff_of_true ⟨hl.1, fun b hb => ?_⟩ (Or.inl rfl)
    by_cases hba : b = a
    · rw [hba, publish_pc_self] at hb
      cases hb
    · rw [publish_pc_of_ne s hba] at hb
      exact hba (h.sole b a k hb hpc)
  · rw [or_iff_right hk]
    refine and_congr Iff.rfl (forall_congr' fun b => ?_)
    by_cases hba : b = a
    · subst hba
      rw [publish_pc_self]
      exact iff_of_true (fun hp => nomatch hp) fun hp => hk (Pc.store.inj (hp.symm.trans hpc))
    · rw [publish_pc_of_ne s hba]

/-- Storing the id keeps the invariant: the slot joins the settled ones under its owner's id. -/
theorem Inv.publish (h : Inv ids s) {i : Fin maxInterp} (hpc : s.pc a = .store i) :
    Inv ids (s.publish a i) := by
  have hset := settled_publish h hpc
  have hl := h.learnt a
  rw [hpc] at hl
  have hmine : ∀ k, s.Settled k → k ≠ i ∧ s.interpId k ≠ a := fun k hk =>
    ⟨fun hki => hk.2 a (hki ▸ hpc), hl.2.2 k k.isLt hk⟩
  refine ⟨fun b hb => ?_, fun b => ?_, fun b b' k hb hb' => ?_, fun k hk => ?_, ?_, ?_⟩
  · by_cases hba : b = a
    · rw [hba, publish_pc_self] at hb
      exact absurd rfl hb
    · exact h.actors b (by rwa [publish_pc_of_ne s hba] at hb)
  · by_cases hba : b = a
    · rw [hba, publish_pc_self]
      trivial
    · rw [publish_pc_of_ne s hba]
      refine (h.learnt b).transfer (fun _ h => h) (fun k hk hz => ?_) fun n hu k hk hks => ?_
      · rw [publish_interpId, if_neg]
        · exact hz
        · exact fun hki => hba (h.sole b a i (hki ▸ hk) hpc)
      · rw [publish_interpId]
        rcases (hset k).mp hks with rfl | hks
        · rw [if_pos rfl]
          exact Ne.symm hba
        · rw [if_neg (hmine k hks).1]
          exact hu k hk hks
  · have hne : ∀ c, (s.publish a i).pc c = .store k → c ≠ a := fun c hc hca => by
      rw [hca, publish_pc_self] at hc
      cases hc
    rw [publish_pc_of_ne s (hne b hb)] at hb
    rw [publish_pc_of_ne s (hne b' hb')] at hb'
    exact h.sole b b' k hb hb'
  · rw [publish_interpId, if_neg]
    · exact h.free k hk
    · rintro rfl
      exact Bool.false_ne_true (hk.symm.trans hl.1)
  · intro k k' hk hk' he
    rw [publish_interpId, publish_interpId] at he
    rcases (hset k).mp hk with hki | hs <;> rcases (hset k').mp hk' with hki' | hs'
    · rw [hki, hki']
    · rw [if_pos hki, if_neg (hmine k' hs').1] at he
      exact absurd he.symm (hmine k' hs').2
    · rw [if_pos hki', if_neg (hmine k hs).1] at he
      exact absurd he (hmine k hs).2
    · rw [if_neg (hmine k hs).1, if_neg (hmine k' hs').1] at he
      exact h.distinct k k' hs hs' he
  · intro r hr k hk
    rw [hset, publish_interpId]
    rcases List.mem_append.mp hr with hr | hr
    · obtain ⟨hs, hid⟩ := h.results r hr k hk
      exact ⟨Or.inr hs, by rw [if_neg (hmine k hs).1, hid]⟩
    · obtain rfl := List.mem_singleton.mp hr
      obtain rfl : i = k := Option.some.inj hk
      exact ⟨Or.inl rfl, if_pos rfl⟩

/-- The first loop goes on knowing what it passed. -/
theorem learnt_scanFrom {n : ℕ} (h : s.Unmatched a n) : s.Learnt a (scanFrom n) := by
  unfold scanFrom
  split_ifs with hn
  · exact h
  · exact fun k hk => h k (hk.trans_le (not_lt.mp hn))

theorem scanFrom_ne_store (n : ℕ) (k : Fin maxInterp) : scanFrom n ≠ .store k := by
  unfold scanFrom
  split_ifs <;> nofun

theorem Unmatched.succ {i : Fin maxInterp} (h : s.Unmatched a i)
    (hi : s.Settled i → s.interpId i ≠ a) : s.Unmatched a (i + 1) := by
  intro k hk
  rcases Nat.lt_succ_iff_lt_or_eq.mp hk with hk | hk
  · exact h k hk
  · rwa [Fin.ext hk]

/-- **Every access keeps the invariant**, where no free slot's id can be taken for an owner's. -/
theorem Inv.step (h : Inv ids s) (hids : 0 ∉ ids ∨ ids.Subsingleton) (ha : a ∈ ids) :
    Inv ids (s.step a) := by
  have hl := h.learnt a
  cases hp : s.pc a with
  | idle =>
    rw [step_idle hp]
    refine h.setPc ha (by simp [hp]) (scanFrom_ne_store 0) (learnt_scanFrom fun k hk => ?_)
    exact absurd hk (Nat.not_lt_zero _)
  | load i =>
    rw [hp] at hl
    rw [step_load hp]
    split_ifs with hc
    · exact h.setPc ha (by simp [hp]) (fun k => nofun) ⟨hc, hl⟩
    · exact h.setPc ha (by simp [hp]) (scanFrom_ne_store _)
        (learnt_scanFrom (Unmatched.succ hl fun hs => absurd hs.1 hc))
  | compare i =>
    rw [hp] at hl
    rw [step_compare hp]
    split_ifs with hid
    · refine h.finish ha (by simp [hp]) fun k hk => ?_
      obtain rfl : i = k := Option.some.inj hk
      refine ⟨⟨hl.1, fun b hb => ?_⟩, hid⟩
      -- a slot between its claim and its id still carries id 0
      have hz := h.learnt b
      rw [hb] at hz
      have ha₀ : a = 0 := hid.symm.trans hz.2.1
      rcases hids with h₀ | hone
      · exact h₀ (ha₀ ▸ ha)
      · rw [← hone ha (h.actors b (by simp [hb])), hp] at hb
        cases hb
    · exact h.setPc ha (by simp [hp]) (scanFrom_ne_store _)
        (learnt_scanFrom (Unmatched.succ hl.2 fun _ => hid))
  | claim i =>
    rw [hp] at hl
    rw [step_claim hp]
    split_ifs with hc
    · unfold claimFrom
      split_ifs with hn
      · exact h.setPc ha (by simp [hp]) (fun k => nofun) hl
      · exact h.finish ha (by simp [hp]) fun k hk => nomatch hk
    · exact h.claim ha hp (by simpa using hc)
  | store i =>
    rw [step_store hp]
    exact h.publish hp

end Move

end Slots

open Slots

/-- Between the claim and the store of the id, interpreter 0 takes the slot for its own. -/
theorem not_safe_mid_claim :
    ¬ Safe (run (List.replicate 10 5 ++ List.replicate 3 0 ++ [5])).results := by
  have hresults : (run (List.replicate 10 5 ++ List.replicate 3 0 ++ [5])).results =
      [(0, some 0), (5, some 0)] := by decide
  rw [hresults]
  intro h
  exact absurd ((h (0, some 0) (by simp) (5, some 0) (by simp) 0 rfl 0 rfl).mpr rfl) (by decide)

theorem setPc_setPc (s : Slots) (a : BitVec 64) (p q : Pc) :
    (s.setPc a p).setPc a q = s.setPc a q := by
  rw [setPc, setPc, Function.update_idem]; rfl

theorem run_scan (b : BitVec 64) {k : ℕ} (hk : k ≤ maxInterp) :
    run (List.replicate (k + 1) b) = zero.setPc b (scanFrom k) := by
  induction k with
  | zero => exact step_idle (s := zero) rfl
  | succ k ih =>
    have hpc : (zero.setPc b (scanFrom k)).pc b = .load ⟨k, hk⟩ := by
      rw [setPc_pc_self, scanFrom, dif_pos (Nat.lt_of_succ_le hk)]
    rw [List.replicate_succ', run, List.foldl_append, ← run, ih (Nat.le_of_succ_le hk)]
    exact (step_load hpc).trans (setPc_setPc zero b _ _)

/-- The same interleaving with any other interpreter. -/
theorem results_mid_claim {b : BitVec 64} (hb : b ≠ 0) :
    (run (List.replicate 9 b ++ [b, 0, 0, 0, b])).results = [(0, some 0), (b, some 0)] := by
  -- `b` has claimed slot 0 and not yet stored its id
  have hclaim : (zero.setPc b (scanFrom 8)).step b = (zero.setPc b (scanFrom 8)).claim b 0 :=
    step_claim (setPc_pc_self _ _ _)
  rw [run, List.foldl_append, ← run, run_scan b (k := 8) le_rfl, List.foldl_cons, hclaim]
  generalize hs : (zero.setPc b (scanFrom 8)).claim b 0 = s
  have hb₀ : s.pc b = .store 0 := by rw [← hs, claim_pc_self]
  have h₀ : s.pc 0 = .idle := by
    rw [← hs, claim_pc_of_ne _ hb.symm, setPc_pc_of_ne _ hb.symm]; rfl
  have hclaimed : s.claimed 0 = true := by rw [← hs, claim_claimed, if_pos rfl]
  have hid : s.interpId 0 = 0 := by rw [← hs]; rfl
  have hres : s.results = [] := by rw [← hs]; rfl
  -- interpreter 0 finds the slot claimed, and its id 0
  have hload : s.step 0 = s.setPc 0 (.load 0) := step_idle h₀
  have hcompare : (s.setPc 0 (.load 0)).step 0 = s.setPc 0 (.compare 0) := by
    rw [step_load (setPc_pc_self _ _ _), setPc_claimed, if_pos hclaimed, setPc_setPc]
  have hfinish : (s.setPc 0 (.compare 0)).step 0 = (s.setPc 0 (.compare 0)).finish 0 (some 0) := by
    rw [step_compare (setPc_pc_self _ _ _), setPc_interpId, if_pos hid]
  have hpublish : ((s.setPc 0 (.compare 0)).finish 0 (some 0)).pc b = .store 0 := by
    rw [finish, setPc_setPc, setPc_pc_of_ne _ hb, hb₀]
  rw [List.foldl_cons, hload, List.foldl_cons, hcompare, List.foldl_cons, hfinish,
    List.foldl_cons, step_store hpublish, List.foldl_nil, publish_results, finish_results,
    setPc_results, hres]
  rfl

/-- **Slots are never shared, whatever the interleaving, exactly when no interpreter has id 0 or
there is only one.** -/
theorem safe_iff (ids : Set (BitVec 64)) :
    (∀ schedule, (∀ a ∈ schedule, a ∈ ids) → Safe (run schedule).results) ↔
      0 ∉ ids ∨ ids.Subsingleton := by
  constructor
  · intro h
    by_contra hn
    obtain ⟨h₀, hmany⟩ := not_or.mp hn
    obtain ⟨h₀, hmany⟩ : 0 ∈ ids ∧ ids.Nontrivial := by simpa using hn
    obtain ⟨b, hb, hb₀⟩ := hmany.exists_ne 0
    have hsafe := h (List.replicate 9 b ++ [b, 0, 0, 0, b]) fun a ha => by
      simp at ha
      rcases ha with rfl | rfl | rfl
      all_goals assumption
    rw [results_mid_claim hb₀] at hsafe
    exact hb₀ ((hsafe (0, some 0) (by simp) (b, some 0) (by simp) 0 rfl 0 rfl).mpr rfl).symm
  · intro hids schedule hs
    have hinv : Inv ids (run schedule) := by
      induction schedule using List.reverseRecOn with
      | nil => exact inv_zero ids
      | append_singleton schedule a ih =>
        rw [run, List.foldl_append]
        exact (ih fun b hb => hs b (by simp [hb])).step hids (hs a (by simp))
    exact hinv.safe

end GcScope.Probe
