import GcScope.Monitor.Selection

/-!
# Processes do not interfere in the cursor

Everything the cursor holds is keyed on a process, and an operation on one process leaves what is
held of the others alone.

* `Cursor.Blank`: nothing is held of a process.
* `Cursor.SameAt`: two cursors hold the same of a process, with **`sameAt_apply`** for an operation
  on another one.
* `FoldOf`: an accumulator is the fold of Records with some property, kept by
  **`foldOf_admitRecords`**.
* **`exists_of_refused`**: what an empty cursor refuses, it refuses for the read's own Records.
-/

set_option autoImplicit false

namespace GcScope

open Std (ExtTreeMap TransCmp LawfulEqCmp)

/-- The process an operation is about. -/
def CursorOp.pid : CursorOp → ℕ
  | .admitRecords pid _ => pid
  | .forget pid => pid

namespace Cursor

variable {F : Type}

/-- The cursor holds nothing of this process. -/
structure Blank (c : Cursor F) (pid : ℕ) : Prop where
  rings : ∀ K : RingKey, K.pid = pid → c.rings[K]? = none
  lastCertainty : ∀ i : ℤ, c.lastCertainty[(pid, i)]? = none
  retained : c.retained[pid]? = none
  dropped : c.dropped[pid]? = none

/-- The two cursors hold the same of this process. -/
structure SameAt (pid : ℕ) (c c' : Cursor F) : Prop where
  rings : ∀ K : RingKey, K.pid = pid → c'.rings[K]? = c.rings[K]?
  lastCertainty : ∀ i : ℤ, c'.lastCertainty[(pid, i)]? = c.lastCertainty[(pid, i)]?
  retained : c'.retained[pid]? = c.retained[pid]?
  dropped : c'.dropped[pid]? = c.dropped[pid]?
  retired : (c'.retired.filter fun e => e.1.pid = pid) = c.retired.filter fun e => e.1.pid = pid

theorem blank_new [F64 F] (pid : ℕ) : (new : Cursor F).Blank pid :=
  ⟨fun _ _ => by simp [new], fun _ => by simp [new], by simp [new], by simp [new]⟩

theorem SameAt.refl (pid : ℕ) (c : Cursor F) : SameAt pid c c :=
  ⟨fun _ _ => rfl, fun _ => rfl, rfl, rfl, rfl⟩

theorem SameAt.trans {pid : ℕ} {c c' c'' : Cursor F} (h : SameAt pid c c') (h' : SameAt pid c' c'') :
    SameAt pid c c'' where
  rings K hK := (h'.rings K hK).trans (h.rings K hK)
  lastCertainty i := (h'.lastCertainty i).trans (h.lastCertainty i)
  retained := h'.retained.trans h.retained
  dropped := h'.dropped.trans h.dropped
  retired := h'.retired.trans h.retired

theorem Blank.of_sameAt {pid : ℕ} {c c' : Cursor F} (h : c.Blank pid) (hs : SameAt pid c c') :
    c'.Blank pid where
  rings K hK := (hs.rings K hK).trans (h.rings K hK)
  lastCertainty i := (hs.lastCertainty i).trans (h.lastCertainty i)
  retained := hs.retained.trans h.retained
  dropped := hs.dropped.trans h.dropped

theorem blank_forget (c : Cursor F) (pid : ℕ) : (c.forget pid).Blank pid where
  rings K hK := by rw [forget_ring, if_pos hK]
  lastCertainty i := by
    simp only [forget, ExtTreeMap.getElem?_filter']
    cases c.lastCertainty[(pid, i)]? <;> simp
  retained := by simp [forget]
  dropped := by simp [forget]

theorem sameAt_forget (c : Cursor F) {pid pid' : ℕ} (h : pid' ≠ pid) :
    SameAt pid c (c.forget pid') where
  rings K hK := by rw [forget_ring, if_neg (fun hp => h (hp.symm.trans hK))]
  lastCertainty i := by
    simp only [forget, ExtTreeMap.getElem?_filter']
    cases c.lastCertainty[(pid, i)]? <;> simp [h.symm]
  retained := by simp [forget, ExtTreeMap.getElem?_erase, h]
  dropped := by simp [forget, ExtTreeMap.getElem?_erase, h]
  retired := by
    simp only [forget, List.filter_append]
    rw [List.append_right_eq_self]
    refine List.filter_eq_nil_iff.mpr fun e he => ?_
    obtain ⟨e', he', rfl⟩ := List.mem_map.mp he
    have := (List.mem_filter.mp he').2
    simp only [beq_iff_eq] at this
    simpa [this] using h

theorem mem_retired_forget (c : Cursor F) {pid : ℕ} {e : RingKey × ℕ × RingObservation F}
    (he : e ∈ (c.forget pid).retired) :
    e ∈ c.retired ∨ e.1.pid = pid ∧ c.rings[e.1]? = some e.2.2 := by
  rcases List.mem_append.mp he with he | he
  · exact Or.inl he
  · obtain ⟨e', he', rfl⟩ := List.mem_map.mp he
    obtain ⟨hmem, hp⟩ := List.mem_filter.mp he'
    exact Or.inr ⟨by simpa using hp, ExtTreeMap.mem_toList_iff_getElem?_eq_some.mp hmem⟩

theorem sameAt_tick (c : Cursor F) (pid : ℕ) : SameAt pid c c.tick :=
  ⟨fun _ _ => rfl, fun _ => rfl, rfl, rfl, rfl⟩

theorem sameAt_retain (c : Cursor F) {pid pid' : ℕ} (h : pid' ≠ pid) (i : ℤ) :
    SameAt pid c (c.retain pid' i) where
  rings K hK := by rw [retain_rings, if_neg (fun hp => h (hp.1.symm.trans hK))]
  lastCertainty j := by
    unfold retain
    cases c.evicts pid' i <;> simp [dropInterpreter, ExtTreeMap.getElem?_erase, h]
  retained := by
    unfold retain
    cases c.evicts pid' i <;> simp [dropInterpreter, ExtTreeMap.getElem?_insert, h]
  dropped := by
    unfold retain
    cases c.evicts pid' i <;> simp [dropInterpreter, ExtTreeMap.getElem?_insert, h]
  retired := by
    unfold retain
    cases c.evicts pid' i <;> rfl

theorem sameAt_raiseCertainty (c : Cursor F) {pid pid' : ℕ} (h : pid' ≠ pid) (i m : ℤ) :
    SameAt pid c (c.raiseCertainty pid' i m) := by
  unfold raiseCertainty
  split_ifs
  · exact SameAt.refl pid c
  · refine ⟨fun _ _ => rfl, fun j => ?_, rfl, rfl, rfl⟩
    simp [ExtTreeMap.getElem?_alter, h]

theorem sameAt_insert (c : Cursor F) {pid : ℕ} {K : RingKey} (h : K.pid ≠ pid)
    (o : RingObservation F) : SameAt pid c { c with rings := c.rings.insert K o } := by
  refine ⟨fun K' hK' => ?_, fun _ => rfl, rfl, rfl, rfl⟩
  simp only [ExtTreeMap.getElem?_insert]
  rw [if_neg]
  rintro hc
  rw [LawfulEqCmp.eq_of_compare hc] at h
  exact h hK'

variable [F64 F]

theorem sameAt_admitRecord (c : Cursor F) {pid pid' : ℕ} (h : pid' ≠ pid) (r : GcStat) :
    SameAt pid c (admitRecord pid' c r).1 := by
  have hr := c.sameAt_retain h r.interpreterId
  have hK : (r.ring pid').pid ≠ pid := h
  unfold admitRecord
  simp only
  split_ifs
  · exact hr.trans (sameAt_raiseCertainty _ h _ _)
  · exact hr
  · exact hr.trans (sameAt_insert _ hK _)
  · exact (hr.trans (sameAt_insert _ hK _)).trans (sameAt_raiseCertainty _ h _ _)

/-- **An operation on another process leaves this one's state alone.** -/
theorem sameAt_apply (c : Cursor F) {pid : ℕ} (op : CursorOp) (h : op.pid ≠ pid) :
    SameAt pid c (c.apply op).1 := by
  cases op with
  | forget pid' => exact c.sameAt_forget h
  | admitRecords pid' records =>
    refine (c.sameAt_tick pid).trans ?_
    exact Mealy.exec_induction (P := fun c' => SameAt pid c.tick c') (SameAt.refl _ _)
      fun c' hc' r _ => hc'.trans (c'.sameAt_admitRecord h r)

theorem retained_admitRecords (c : Cursor F) (pid : ℕ) {records : List GcStat} (h : records ≠ []) :
    (c.admitRecords pid records).1.retained[pid]? ≠ none := by
  have hne : sortCandidates records ≠ [] := fun hs =>
    h (List.nil_perm.mp (hs ▸ StableSort.stableSort_perm _ records))
  obtain ⟨init, last, hl⟩ := (List.eq_nil_or_concat _).resolve_left hne
  change (Mealy.exec (admitRecord pid) c.tick (sortCandidates records)).retained[pid]? ≠ none
  rw [hl, List.concat_eq_append, Mealy.exec_concat, admitRecord_retained]
  unfold retain
  cases (Mealy.exec (admitRecord pid) c.tick init).evicts pid last.interpreterId <;>
    simp [dropInterpreter]

/-! ## What an accumulator was folded from -/

/-- The accumulator, where there is one, is the fold of Records with this property. -/
def FoldOf (S : GcStat → Prop) (o : Option (RingObservation F)) : Prop :=
  ∀ obs ∈ o, ∃ l, l ≠ [] ∧ obs = RingObservation.ofRecords l ∧ ∀ r ∈ l, S r

theorem FoldOf.mono {S S' : GcStat → Prop} {o : Option (RingObservation F)} (h : FoldOf S o)
    (hS : ∀ r, S r → S' r) : FoldOf S' o := fun obs ho => by
  obtain ⟨l, hl, he, hr⟩ := h obs ho
  exact ⟨l, hl, he, fun r hm => hS r (hr r hm)⟩

/-- One Record adds itself to the fold of its ring, if it is accepted. -/
theorem foldOf_admitRecord {S : GcStat → Prop} {c : Cursor F} {pid : ℕ} {r : GcStat} {K : RingKey}
    (h : FoldOf S c.rings[K]?) (hS : ∀ x ∈ (admitRecord pid c r).2, x.ring pid = K → S x) :
    FoldOf S (admitRecord pid c r).1.rings[K]? := by
  rw [admitRecord_ring]
  split_ifs with hr ha
  · -- the Record is folded into what the ring holds
    rw [admitRecord_outs] at hS
    intro obs ho
    obtain rfl := Option.some.inj ho
    have hSr : S r :=
      hS r (by rw [if_pos ⟨hr.2, hr.1 ▸ ha⟩]; exact List.mem_singleton_self r) hr.1
    rw [observationOrDefault_eq]
    cases hK : c.rings[K]? with
    | none =>
      exact ⟨[r], List.cons_ne_nil _ _, rfl, fun x hx => List.mem_singleton.mp hx ▸ hSr⟩
    | some o =>
      obtain ⟨l, hl, rfl, hm⟩ := h o hK
      refine ⟨l ++ [r], by simp, (RingObservation.ofRecords_concat l r).symm, fun x hx => ?_⟩
      rcases List.mem_append.mp hx with hx | hx
      · exact hm x hx
      · exact List.mem_singleton.mp hx ▸ hSr
  · -- a refused Record finds an accumulator
    intro obs ho
    obtain rfl := Option.some.inj ho
    rw [observationOrDefault_eq] at ha ⊢
    cases hK : c.rings[K]? with
    | none => exact (ha (by rw [hK]; rfl)).elim
    | some o => exact h o hK
  · rw [retain_rings]
    split_ifs
    · exact fun obs ho => nomatch ho
    · exact h

theorem foldOf_exec {S : GcStat → Prop} {c : Cursor F} {pid : ℕ} {records : List GcStat}
    {K : RingKey} (h : FoldOf S c.rings[K]?)
    (hS : ∀ x ∈ Mealy.outs (admitRecord pid) c records, x.ring pid = K → S x) :
    FoldOf S (Mealy.exec (admitRecord pid) c records).rings[K]? := by
  refine Mealy.exec_history (P := fun _ (c' : Cursor F) => FoldOf S c'.rings[K]?) h
    fun pre r post hl hc => foldOf_admitRecord hc fun x hx => ?_
  exact hS x ((Mealy.mem_outs _).mpr ⟨pre, r, post, hl, hx⟩)

/-- **A poll adds to the folds what it returns.** -/
theorem foldOf_admitRecords {S : GcStat → Prop} {c : Cursor F} {pid : ℕ} {records : List GcStat}
    {K : RingKey} (h : FoldOf S c.rings[K]?) (hS : ∀ x ∈ (c.admitRecords pid records).2, S x) :
    FoldOf S (c.admitRecords pid records).1.rings[K]? :=
  foldOf_exec (c := c.tick) h fun x hx _ => hS x ((StableSort.stableSort_perm _ _).symm.subset hx)

/-- **Against an empty cursor a complete Record is refused only for one of the same read.** -/
theorem exists_of_refused {c : Cursor F} {pid : ℕ} (hc : c.Blank pid) {before : List GcStat}
    {r : GcStat} (he : r.Eligible)
    (hr : (admitRecord pid (Mealy.exec (admitRecord pid) c.tick before) r).2 = []) :
    ∃ r' ∈ before, r'.ring pid = r.ring pid ∧ r.collections ≤ r'.collections := by
  have hf : FoldOf (fun x => x ∈ before ∧ x.ring pid = r.ring pid)
      (Mealy.exec (admitRecord pid) c.tick before).rings[r.ring pid]? := by
    refine foldOf_exec (fun obs ho => ?_) fun x hx hK => ⟨(mem_outs_admitRecord hx).1, hK⟩
    rw [tick_rings, hc.rings _ rfl] at ho
    cases ho
  have hn : ¬ ((Mealy.exec (admitRecord pid) c.tick before).observationOrDefault
      (r.ring pid)).admits r.collections := fun ha => by
    rw [admitRecord_outs, if_pos ⟨he, ha⟩] at hr
    cases hr
  rw [observationOrDefault_eq] at hn
  cases hK : (Mealy.exec (admitRecord pid) c.tick before).rings[r.ring pid]? with
  | none => rw [hK] at hn; exact absurd rfl hn
  | some obs =>
    obtain ⟨l, hl, rfl, hm⟩ := hf obs hK
    rw [hK, Option.getD_some, RingObservation.admits, RingObservation.isEmpty_ofRecords,
      List.isEmpty_eq_false_iff.mpr hl, Bool.false_or, decide_eq_true_eq,
      RingObservation.ofRecords_last hl] at hn
    obtain ⟨hb, hring⟩ := hm _ (List.getLast_mem hl)
    exact ⟨_, hb, hring, not_lt.mp hn⟩

theorem admitRecord_retired (c : Cursor F) (pid : ℕ) (r : GcStat) :
    (admitRecord pid c r).1.retired = c.retired := by
  have hr : (c.retain pid r.interpreterId).retired = c.retired := by
    unfold retain
    cases c.evicts pid r.interpreterId <;> rfl
  have hc : ∀ (c' : Cursor F) m, (c'.raiseCertainty pid r.interpreterId m).retired = c'.retired :=
    fun c' m => by unfold raiseCertainty; split_ifs <;> rfl
  unfold admitRecord
  simp only
  split_ifs <;> simp [hr, hc]

theorem admitRecords_retired (c : Cursor F) (pid : ℕ) (records : List GcStat) :
    (c.admitRecords pid records).1.retired = c.retired :=
  Mealy.exec_induction (P := fun c' : Cursor F => c'.retired = c.retired) rfl
    fun c' hc' r _ => (c'.admitRecord_retired pid r).trans hc'

end Cursor

end GcScope
