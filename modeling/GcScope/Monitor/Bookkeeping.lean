import GcScope.Monitor.Eviction
import GcScope.Monitor.Isolation

/-!
# The books of the cursor

The cursor keeps accumulators, certainty bounds, the kept set and an eviction count under different
keys, and updates them together. The books of a run write down, beside it, the evictions of each
process since it was last forgotten and the moments proven for each interpreter since it was last let
in.

* `Books.step`, `books`: one step, and a run from nothing.
* `retain_lastCertainty`, `admitRecord_lastCertainty`: what an offered Record does to the bounds.
* `Books.Balance`: the cursor agrees with the books and keeps nothing of interpreters it does not hold.
* **`balance_books`**: it does after any run, in the middle of a poll too.
* **`bookkeeping`**: the books balance, operations do not interfere, and no evidence is lost.
-/

set_option autoImplicit false

namespace GcScope

open Std (ExtTreeMap)

/-- Raise a bound to `moment`. -/
def raised (bound : Option ℤ) (moment : ℤ) : Option ℤ :=
  some (match bound with
    | some b => max b moment
    | none => moment)

theorem max?_concat (l : List ℤ) (m : ℤ) : (l ++ [m]).max? = raised l.max? m := by
  cases l with
  | nil => rfl
  | cons a l => rw [List.cons_append, List.max?_cons', List.foldl_append, List.max?_cons']; rfl

theorem le_raised {bound : Option ℤ} {b m : ℤ} (h : bound = some b) :
    ∃ b', raised bound m = some b' ∧ b ≤ b' := by
  subst h
  exact ⟨_, rfl, le_max_left b m⟩

namespace Cursor

/-! ## The certainty bounds -/

section Bounds

variable {F : Type} (c : Cursor F)

theorem raiseCertainty_lastCertainty (pid : ℕ) (i m : ℤ) (k : ℕ × ℤ) :
    (c.raiseCertainty pid i m).lastCertainty[k]? =
      if k = (pid, i) ∧ 0 < m then raised c.lastCertainty[k]? m else c.lastCertainty[k]? := by
  unfold raiseCertainty
  by_cases hm : m ≤ 0
  · rw [if_pos hm, if_neg fun h => absurd h.2 (not_lt.mpr hm)]
  · rw [if_neg hm]
    simp only [ExtTreeMap.getElem?_alter, Std.LawfulEqCmp.compare_eq_iff_eq]
    by_cases hk : k = (pid, i)
    · subst hk
      rw [if_pos rfl, if_pos ⟨rfl, not_le.mp hm⟩]
      rfl
    · rw [if_neg (Ne.symm hk), if_neg fun h => hk h.1]

theorem retain_lastCertainty (pid : ℕ) (i : ℤ) (k : ℕ × ℤ) :
    (c.retain pid i).lastCertainty[k]? =
      if k.1 = pid ∧ c.evicts pid i = some k.2 then none else c.lastCertainty[k]? := by
  unfold retain
  cases c.evicts pid i with
  | none => simp
  | some s =>
    simp only [dropInterpreter, ExtTreeMap.getElem?_erase, Std.LawfulEqCmp.compare_eq_iff_eq,
      Option.some.injEq]
    refine if_congr ?_ rfl rfl
    rw [Prod.ext_iff]
    exact and_congr_left' eq_comm

theorem retain_droppedCount (pid : ℕ) (i : ℤ) :
    (c.retain pid i).droppedCount pid =
      c.droppedCount pid + (c.evicts pid i).toList.length := by
  unfold retain droppedCount
  cases c.evicts pid i with
  | none => rfl
  | some s => simp [dropInterpreter]

theorem retain_size (pid : ℕ) (i : ℤ)
    (h : (c.retainedOf pid).size ≤ maxRetainedInterpreters) :
    ((c.retain pid i).retainedOf pid).size ≤ maxRetainedInterpreters := by
  rw [retain_retainedOf_self]
  cases he : c.evicts pid i with
  | none =>
    change ((c.retainedOf pid).insert i c.polls).size ≤ _
    rw [ExtTreeMap.size_insert]
    unfold evicts at he
    split_ifs at he with hc hs
    · rwa [if_pos hc]
    · split_ifs
      exact hs
    · -- a full set has a stalest interpreter
      have hne : c.retainedOf pid ≠ ∅ := fun h0 => hs (by rw [h0]; decide)
      have := stalest_isSome hne
      rw [he] at this
      cases this
  | some s =>
    change (((c.retainedOf pid).erase s).insert i c.polls).size ≤ _
    obtain ⟨-, hfull, seen, hs, -⟩ := c.evicts_spec he
    have hpos : 0 < maxRetainedInterpreters := by decide
    have hmem : (c.retainedOf pid).contains s = true :=
      ExtTreeMap.contains_eq_isSome_getElem?.trans (by rw [hs]; rfl)
    have hle := ExtTreeMap.size_insert_le (t := (c.retainedOf pid).erase s) (k := i) (v := c.polls)
    rw [ExtTreeMap.size_erase, if_pos hmem] at hle
    omega

end Bounds

/-! ## One Record -/

section Offer

variable {F : Type} [F64 F] (c : Cursor F)

/-- The moment an offered Record proves its interpreter reached: the start of one in flight, the stop
of one accepted. A non-positive one is no evidence. -/
def proven (pid : ℕ) (r : GcStat) : List ℤ :=
  (if r.isComplete = false then [r.tsStart]
    else if (admitRecord pid c r).2 = [] then []
    else [r.tsStop]).filter fun m => decide (0 < m)

omit [F64 F] in
theorem raiseCertainty_self (pid : ℕ) (i m : ℤ) :
    (c.raiseCertainty pid i m).lastCertainty[(pid, i)]? =
      ([m].filter fun m => decide (0 < m)).foldl raised c.lastCertainty[(pid, i)]? := by
  rw [raiseCertainty_lastCertainty]
  by_cases hm : 0 < m <;> simp [hm]

/-- An offered Record raises the bound of its interpreter by what it proves, and no other one. -/
theorem admitRecord_lastCertainty (pid : ℕ) (r : GcStat) (k : ℕ × ℤ) :
    (admitRecord pid c r).1.lastCertainty[k]? =
      if k = (pid, r.interpreterId) then
        (c.proven pid r).foldl raised (c.retain pid r.interpreterId).lastCertainty[k]?
      else (c.retain pid r.interpreterId).lastCertainty[k]? := by
  by_cases hk : k = (pid, r.interpreterId)
  · subst hk
    rw [if_pos rfl]
    unfold proven admitRecord
    simp only
    cases r.isComplete with
    | false => exact raiseCertainty_self _ _ _ _
    | true =>
      simp only [Bool.not_true, Bool.false_eq_true, Bool.true_eq_false, if_false]
      by_cases hpos : r.collections ≤ 0
      · simp [hpos]
      · rw [if_neg hpos]
        by_cases hadm : ((c.retain pid r.interpreterId).observationOrDefault
            (r.ring pid)).admits r.collections = true
        · rw [hadm]
          exact raiseCertainty_self _ _ _ _
        · simp [hadm]
  · rw [if_neg hk]
    unfold admitRecord
    simp only
    split_ifs <;> simp [raiseCertainty_lastCertainty, hk]

theorem admitRecord_droppedCount (pid p : ℕ) (r : GcStat) :
    (admitRecord pid c r).1.droppedCount p = (c.retain pid r.interpreterId).droppedCount p := by
  have hraise (c' : Cursor F) (m : ℤ) :
      (c'.raiseCertainty pid r.interpreterId m).droppedCount p = c'.droppedCount p := by
    unfold raiseCertainty
    split_ifs <;> rfl
  unfold admitRecord
  simp only
  split_ifs <;> simp only [hraise] <;> rfl

end Offer

end Cursor

/-! ## The books -/

/-- The books of one process: the interpreters evicted since it was last forgotten, and per
interpreter the moments proven since it was last let in. -/
structure Books where
  evicted : List ℤ
  moments : ℤ → List ℤ

namespace Books

def empty : Books := ⟨[], fun _ => []⟩

variable {F : Type} [F64 F]

/-- What an offered Record of the process adds to its books. -/
def offer (B : Books) (c : Cursor F) (pid : ℕ) (r : GcStat) : Books where
  evicted := B.evicted ++ (c.evicts pid r.interpreterId).toList
  moments i :=
    if c.evicts pid r.interpreterId = some i then []
    else if i = r.interpreterId then B.moments i ++ c.proven pid r
    else B.moments i

/-- What a step of the cursor does to the books of the process. -/
def step (pid : ℕ) (B : Books) (c : Cursor F) : CursorStep → Books
  | .tick => B
  | .offer p r => if p = pid then B.offer c pid r else B
  | .forget p => if p = pid then empty else B

/-- The cursor agrees with the books of the process, and holds nothing of an interpreter it does not
keep. -/
structure Balance (B : Books) (c : Cursor F) (pid : ℕ) : Prop where
  bounded : (c.retainedOf pid).size ≤ maxRetainedInterpreters
  nonempty : ∀ K : RingKey, K.pid = pid → ∀ o : RingObservation F, c.rings[K]? = some o →
    o.isEmpty = false
  rings : ∀ K : RingKey, K.pid = pid → c.rings[K]? ≠ none → c.kept pid K.interpreter ≠ none
  certainty : ∀ i : ℤ, c.lastCertainty[(pid, i)]? ≠ none → c.kept pid i ≠ none
  dropped : c.droppedCount pid = B.evicted.length
  proven : ∀ i : ℤ, c.lastCertainty[(pid, i)]? = (B.moments i).max?

omit [F64 F] in
theorem balance_of_blank {c : Cursor F} {pid : ℕ} (h : c.Blank pid) : empty.Balance c pid where
  bounded := by simp [Cursor.retainedOf, ExtTreeMap.getD_eq_getD_getElem?, h.retained]
  nonempty K hK o ho := nomatch (h.rings K hK).symm.trans ho
  rings K hK hne := absurd (h.rings K hK) hne
  certainty i hne := absurd (h.lastCertainty i) hne
  dropped := by simp [Cursor.droppedCount, ExtTreeMap.getD_eq_getD_getElem?, h.dropped, empty]
  proven i := h.lastCertainty i

omit [F64 F] in
theorem Balance.of_sameAt {B : Books} {c c' : Cursor F} {pid : ℕ} (h : B.Balance c pid)
    (hs : Cursor.SameAt pid c c') : B.Balance c' pid := by
  have hret : c'.retainedOf pid = c.retainedOf pid := by
    rw [Cursor.retainedOf, Cursor.retainedOf, ExtTreeMap.getD_eq_getD_getElem?,
      ExtTreeMap.getD_eq_getD_getElem?, hs.retained]
  have hkept : c'.kept pid = c.kept pid := by
    funext i
    rw [Cursor.kept, Cursor.kept, hret]
  exact {
    bounded := hret ▸ h.bounded
    nonempty := fun K hK o ho => h.nonempty K hK o (hs.rings K hK ▸ ho)
    rings := fun K hK hne => hkept ▸ h.rings K hK (hs.rings K hK ▸ hne)
    certainty := fun i hne => hkept ▸ h.certainty i (hs.lastCertainty i ▸ hne)
    dropped := by
      rw [← h.dropped, Cursor.droppedCount, Cursor.droppedCount, ExtTreeMap.getD_eq_getD_getElem?,
        ExtTreeMap.getD_eq_getD_getElem?, hs.dropped]
    proven := fun i => (hs.lastCertainty i).trans (h.proven i) }

theorem max?_append_eq (l l' : List ℤ) : (l ++ l').max? = l'.foldl raised l.max? := by
  induction l' generalizing l with
  | nil => simp
  | cons m l' ih => rw [List.append_cons, ih, max?_concat]; rfl

theorem kept_offer_ne_none {c : Cursor F} {pid : ℕ} {r : GcStat} {i : ℤ}
    (h : i = r.interpreterId ∨ c.evicts pid r.interpreterId ≠ some i ∧ c.kept pid i ≠ none) :
    (Cursor.admitRecord pid c r).1.kept pid i ≠ none := by
  rw [c.kept_admitRecord, c.kept_retain]
  rcases h with rfl | ⟨he, hk⟩
  · rw [if_pos rfl]
    exact Option.some_ne_none _
  · rw [if_neg (Ne.symm he)]
    split_ifs
    · exact Option.some_ne_none _
    · exact hk

theorem Balance.offer {B : Books} {c : Cursor F} {pid : ℕ} (h : B.Balance c pid) (r : GcStat) :
    (B.offer c pid r).Balance (Cursor.admitRecord pid c r).1 pid where
  bounded := by
    rw [Cursor.retainedOf, c.admitRecord_retained]
    exact c.retain_size pid _ h.bounded
  nonempty K hK o ho := by
    rw [Cursor.admitRecord_ring] at ho
    split_ifs at ho with hr hadm
    · obtain rfl := Option.some.inj ho
      rfl
    · -- an empty accumulator admits every Record
      obtain rfl := Option.some.inj ho
      exact Bool.eq_false_iff.mpr fun he => hadm (by rw [RingObservation.admits, he, Bool.true_or])
    · rw [Cursor.retain_rings] at ho
      split_ifs at ho
      exact h.nonempty K hK o ho
  rings K hK hne := by
    rw [Cursor.admitRecord_ring] at hne
    split_ifs at hne with hr hadm
    · exact kept_offer_ne_none (.inl (hr.1 ▸ rfl))
    · exact kept_offer_ne_none (.inl (hr.1 ▸ rfl))
    · rw [Cursor.retain_rings] at hne
      split_ifs at hne with he
      · exact absurd rfl hne
      · exact kept_offer_ne_none (.inr ⟨fun hs => he ⟨hK, hs⟩, h.rings K hK hne⟩)
  certainty i hne := by
    by_cases hi : i = r.interpreterId
    · exact kept_offer_ne_none (.inl hi)
    · rw [c.admitRecord_lastCertainty, if_neg fun hk => hi (Prod.mk.inj hk).2,
        c.retain_lastCertainty] at hne
      split_ifs at hne with he
      · exact absurd rfl hne
      · exact kept_offer_ne_none (.inr ⟨fun hs => he ⟨rfl, hs⟩, h.certainty i hne⟩)
  dropped := by
    rw [c.admitRecord_droppedCount, c.retain_droppedCount, h.dropped]
    exact List.length_append.symm
  proven i := by
    rw [c.admitRecord_lastCertainty, c.retain_lastCertainty, Books.offer]
    by_cases hi : i = r.interpreterId
    · subst hi
      have he := c.evicts_ne_self pid r.interpreterId
      simp only [he, and_false, if_true, if_false, h.proven, max?_append_eq]
    · by_cases he : c.evicts pid r.interpreterId = some i
      · simp [he, hi]
      · simp [he, hi, h.proven]

/-- **A step keeps the books of the process balanced.** -/
theorem Balance.step {B : Books} {c : Cursor F} {pid : ℕ} (h : B.Balance c pid) (s : CursorStep) :
    (B.step pid c s).Balance (c.step s).1 pid := by
  cases s with
  | tick => exact h.of_sameAt (c.sameAt_tick pid)
  | offer p r =>
    by_cases hp : p = pid
    · subst hp
      rw [Books.step, if_pos rfl]
      exact h.offer r
    · rw [Books.step, if_neg hp]
      exact h.of_sameAt (c.sameAt_admitRecord hp r)
  | forget p =>
    by_cases hp : p = pid
    · subst hp
      rw [Books.step, if_pos rfl]
      exact balance_of_blank (c.blank_forget p)
    · rw [Books.step, if_neg hp]
      exact h.of_sameAt (c.sameAt_forget hp)

end Books

/-- The books of a process after a run from nothing. -/
def books (F : Type) [F64 F] (pid : ℕ) (steps : List CursorStep) : Books :=
  Mealy.shadow Cursor.step (Books.step pid) (.new : Cursor F) .empty steps

namespace Cursor

variable {F : Type} [F64 F]

/-- **The books of every process balance after any run.** -/
theorem balance_books (steps : List CursorStep) (pid : ℕ) :
    (books F pid steps).Balance (Mealy.exec step (.new : Cursor F) steps) pid :=
  Mealy.shadow_induction (P := fun (B : Books) (c : Cursor F) => B.Balance c pid) (Books.balance_of_blank (blank_new pid))
    fun _ _ h s _ => h.step s

/-! ## What steps leave alone -/

omit [F64 F] in
theorem evicts_frame (c : Cursor F) {pid : ℕ} {i s : ℤ} (h : c.evicts pid i = some s) {j : ℤ}
    (hj : j ≠ s) :
    (∀ g, (c.retain pid i).rings[(⟨pid, j, g⟩ : RingKey)]? = c.rings[(⟨pid, j, g⟩ : RingKey)]?) ∧
      (c.retain pid i).lastCertainty[(pid, j)]? = c.lastCertainty[(pid, j)]? ∧
      (j ≠ i → (c.retain pid i).kept pid j = c.kept pid j) := by
  have hne : c.evicts pid i ≠ some j := by
    rw [h]
    exact fun he => hj (Option.some.inj he).symm
  refine ⟨fun g => ?_, ?_, fun hi => ?_⟩
  · rw [retain_rings, if_neg fun hk => hne hk.2]
  · rw [retain_lastCertainty, if_neg fun hk => hne hk.2]
  · rw [kept_retain, if_neg hi, if_neg (Ne.symm hne)]

theorem retired_prefix_apply (c : Cursor F) (op : CursorOp) :
    c.retired <+: (c.apply op).1.retired := by
  cases op with
  | admitRecords pid records => exact (c.admitRecords_retired pid records).symm ▸ List.prefix_rfl
  | forget pid => exact List.prefix_append _ _

theorem le_foldl_raised {b : Option ℤ} {m : ℤ} (h : b = some m) (l : List ℤ) :
    ∃ m', l.foldl raised b = some m' ∧ m ≤ m' := by
  induction l generalizing b m with
  | nil => exact ⟨m, h, le_rfl⟩
  | cons a l ih =>
    obtain ⟨m₁, h₁, hle₁⟩ := le_raised (m := a) h
    obtain ⟨m₂, h₂, hle₂⟩ := ih h₁
    exact ⟨m₂, h₂, hle₁.trans hle₂⟩

/-- The certainty of an interpreter that stays kept does not decrease. -/
theorem certainty_mono (c : Cursor F) (s : CursorStep) {pid : ℕ} {i : ℤ}
    (hk : (c.step s).1.kept pid i ≠ none) {m : ℤ} (hm : c.lastCertainty[(pid, i)]? = some m) :
    ∃ m', (c.step s).1.lastCertainty[(pid, i)]? = some m' ∧ m ≤ m' := by
  cases s with
  | tick => exact ⟨m, hm, le_rfl⟩
  | forget p =>
    by_cases hp : p = pid
    · subst hp
      exact absurd (by simp [step, kept, retainedOf, (c.blank_forget p).retained,
        ExtTreeMap.getD_eq_getD_getElem?]) hk
    · exact ⟨m, ((c.sameAt_forget hp).lastCertainty i).trans hm, le_rfl⟩
  | offer p r =>
    by_cases hp : p = pid
    · subst hp
      have hret : (c.retain p r.interpreterId).lastCertainty[(p, i)]? = some m := by
        rw [retain_lastCertainty, if_neg, hm]
        rintro ⟨-, he⟩
        have hne : i ≠ r.interpreterId := fun hi => c.evicts_ne_self p _ (hi ▸ he)
        exact hk (by rw [step, kept_admitRecord, kept_retain, if_neg hne, if_pos he.symm])
      rw [step, admitRecord_lastCertainty]
      split_ifs
      · exact le_foldl_raised hret _
      · exact ⟨m, hret, le_rfl⟩
    · exact ⟨m, ((c.sameAt_admitRecord hp r).lastCertainty i).trans hm, le_rfl⟩

/-- **The bookkeeping of the cursor is bounded, consistent and isolated.** In any run of operations,
inside a poll too, the books of every process balance; an operation leaves other processes alone, an
eviction other interpreters, and both leave what is retired; and no certainty of a kept interpreter
decreases. -/
theorem bookkeeping (F : Type) [F64 F] :
    (∀ (ops : List CursorOp) (pid : ℕ),
      (books F pid (ops.flatMap CursorOp.steps)).Balance
        (Mealy.exec apply (.new : Cursor F) ops) pid) ∧
    (∀ (ops : List CursorOp) (steps : List CursorStep), steps <+: ops.flatMap CursorOp.steps →
      ∀ pid : ℕ, (books F pid steps).Balance (Mealy.exec step (.new : Cursor F) steps) pid) ∧
    (∀ (c : Cursor F) (s : CursorStep) (pid : ℕ) (i m : ℤ), c.kept pid i ≠ none →
      (c.step s).1.kept pid i ≠ none → c.lastCertainty[(pid, i)]? = some m →
      ∃ m', (c.step s).1.lastCertainty[(pid, i)]? = some m' ∧ m ≤ m') ∧
    (∀ (c : Cursor F) (op : CursorOp) (pid : ℕ), op.pid ≠ pid → SameAt pid c (c.apply op).1) ∧
    (∀ (c : Cursor F) (pid : ℕ) (i s : ℤ), c.evicts pid i = some s → ∀ j, j ≠ s →
      (∀ g, (c.retain pid i).rings[(⟨pid, j, g⟩ : RingKey)]? = c.rings[(⟨pid, j, g⟩ : RingKey)]?) ∧
      (c.retain pid i).lastCertainty[(pid, j)]? = c.lastCertainty[(pid, j)]? ∧
      (j ≠ i → (c.retain pid i).kept pid j = c.kept pid j)) ∧
    ∀ (c : Cursor F) (op : CursorOp), c.retired <+: (c.apply op).1.retired := by
  refine ⟨fun ops pid => ?_, fun _ steps _ pid => balance_books steps pid, ?_, ?_, ?_, ?_⟩
  · rw [← exec_flatMap_steps]
    exact balance_books _ pid
  · exact fun c s pid i m _ hk hm => c.certainty_mono s hk hm
  · exact fun c op pid h => c.sameAt_apply op h
  · exact fun c pid i s h j hj => c.evicts_frame h hj
  · exact fun c op => c.retired_prefix_apply op

/-- A Collection caught running, then read finished. -/
def caughtRunning : List CursorOp :=
  [.admitRecords 7 [timedEntry 9 0 1], .admitRecords 7 [timedEntry 9 12 1]]

theorem bookkeeping_caughtRunning :
    (Mealy.exec apply (.new : Cursor (Secs fun w => w.toInt)) caughtRunning).lastCertainty[
      ((7 : ℕ), (0 : ℤ))]? = some 12 := by
  rw [((bookkeeping (Secs fun w => w.toInt)).1 caughtRunning 7).proven 0]
  decide

end Cursor

end GcScope
