import GcScope.Lib.Ties
import GcScope.Monitor.Bookkeeping

/-!
# Selection and the order of a snapshot

A snapshot hands over the slots of its rings in physical order, copies of one Record among them. The
cursor sorts them by ring and counter, which leaves the order of equal counters of one ring open.

* `GcStat.content`: a Record but for the slot it was read from.
* `Cursor.offerKept`: an offered Record behind the gate.
* `retain_of_kept`: the gate lets an interpreter it has just seen through.
* `offerKept_comm`: neighbours of one ring and counter may be exchanged.
* **`admitRecords_perm`**: the order of a snapshot decides neither what is returned nor what is kept.
-/

set_option autoImplicit false

namespace GcScope

open Std (ExtTreeMap)
open StableSort Ties

/-- A Record but for the slot it was read from. -/
structure Content where
  generation : ℕ
  interpreterId : ℤ
  layout : GcItemLayout
  fields : String → Option ℤ

namespace GcStat

def content (r : GcStat) : Content := ⟨r.generation, r.interpreterId, r.layout, r.get⟩

variable {a b : GcStat}

theorem get_of_content (h : a.content = b.content) : a.get = b.get := congrArg Content.fields h

theorem has_of_content (h : a.content = b.content) : a.has = b.has := by
  unfold has
  rw [show a.layout = b.layout from congrArg Content.layout h]

theorem getF64_of_content {F : Type} [F64 F] (h : a.content = b.content) (name : String) :
    (a.getF64 name : Option F) = b.getF64 name := by
  have hget : ((a.layout.fieldOffset name).bind a.rawAt).map BitVec.toInt =
      ((b.layout.fieldOffset name).bind b.rawAt).map BitVec.toInt :=
    congrFun (get_of_content h) name
  have hraw := Option.map_injective (fun _ _ => BitVec.eq_of_toInt_eq) hget
  unfold getF64
  rw [hraw]

end GcStat

section Fold

variable {F : Type} [F64 F] {a b : GcStat}

theorem Lifetime.of_content (h : a.content = b.content) : (Lifetime.of a : Lifetime F) = .of b := by
  unfold Lifetime.of GcStat.collections GcStat.collected GcStat.uncollectable GcStat.duration
  rw [GcStat.get_of_content h, GcStat.getF64_of_content h]

theorem pauseNs_of_content (h : a.content = b.content) : pauseNs a = pauseNs b := by
  unfold pauseNs GcStat.tsStop GcStat.tsStart
  rw [GcStat.get_of_content h]

theorem RingObservation.fold_of_content (o : RingObservation F) (h : a.content = b.content) :
    o.fold a = o.fold b := by
  unfold fold opened GcStat.hasTiming
  rw [Lifetime.of_content h, pauseNs_of_content h, GcStat.has_of_content h]

end Fold

namespace Cursor

/-! ## Equal cursors -/

section Equal

variable {F : Type}

theorem ext_getElem? {c c' : Cursor F} (rings : ∀ K : RingKey, c.rings[K]? = c'.rings[K]?)
    (retired : c.retired = c'.retired) (evictions : c.evictions = c'.evictions)
    (certainty : ∀ k : ℕ × ℤ, c.lastCertainty[k]? = c'.lastCertainty[k]?)
    (retained : ∀ p : ℕ, c.retained[p]? = c'.retained[p]?) (dropped : c.dropped = c'.dropped)
    (polls : c.polls = c'.polls) : c = c' := by
  have hrings := ExtTreeMap.ext_getElem? rings
  have hcertainty := ExtTreeMap.ext_getElem? certainty
  have hretained := ExtTreeMap.ext_getElem? retained
  cases c
  cases c'
  simp_all

variable (c : Cursor F)

/-- The gate lets an interpreter through that it has seen in this poll. -/
theorem retain_of_kept {pid : ℕ} {i : ℤ} (h : c.kept pid i = some c.polls) : c.retain pid i = c := by
  have hcontains : (c.retainedOf pid).contains i = true :=
    ExtTreeMap.contains_eq_isSome_getElem?.trans (by rw [← kept, h]; rfl)
  have hinsert : (c.retainedOf pid).insert i c.polls = c.retainedOf pid := by
    refine ExtTreeMap.ext_getElem? fun j => ?_
    rw [ExtTreeMap.getElem?_insert]
    split_ifs with hj
    · rw [← Std.LawfulEqCmp.eq_of_compare hj]
      exact h.symm
    · rfl
  have hret : c.retained[pid]? = some (c.retainedOf pid) := by
    rw [retainedOf, ExtTreeMap.getD_eq_getD_getElem?] at hcontains ⊢
    cases hp : c.retained[pid]? with
    | none => rw [hp] at hcontains; exact absurd hcontains (by simp)
    | some m => rfl
  have hnone : c.evicts pid i = none := by rw [evicts, if_pos hcontains]
  unfold retain
  rw [hnone]
  refine ext_getElem? (fun _ => rfl) rfl rfl (fun _ => rfl) (fun p => ?_) rfl rfl
  simp only [hinsert, ExtTreeMap.getElem?_insert]
  split_ifs with hp
  · rw [← Std.LawfulEqCmp.eq_of_compare hp, hret]
  · rfl

theorem raised_comm (b : Option ℤ) (m m' : ℤ) : raised (raised b m) m' = raised (raised b m') m := by
  cases b with
  | none => exact congrArg some (max_comm m m')
  | some b => exact congrArg some (max_right_comm b m m')

theorem raiseCertainty_comm (pid : ℕ) (i m m' : ℤ) :
    (c.raiseCertainty pid i m).raiseCertainty pid i m' =
      (c.raiseCertainty pid i m').raiseCertainty pid i m := by
  have hfield {α : Type} (f : Cursor F → α) (hf : ∀ (c : Cursor F) (m : ℤ),
      f (c.raiseCertainty pid i m) = f c) : f ((c.raiseCertainty pid i m).raiseCertainty pid i m') =
        f ((c.raiseCertainty pid i m').raiseCertainty pid i m) := by
    rw [hf, hf, hf, hf]
  refine ext_getElem? (fun K => ?_) ?_ ?_ (fun k => ?_) (fun p => ?_) ?_ ?_
  · simp only [raiseCertainty_rings]
  · exact hfield Cursor.retired fun c m => by unfold raiseCertainty; split_ifs <;> rfl
  · exact hfield Cursor.evictions fun c m => by unfold raiseCertainty; split_ifs <;> rfl
  · simp only [raiseCertainty_lastCertainty]
    split_ifs <;> first | rfl | exact raised_comm _ _ _
  · simp only [raiseCertainty_retained]
  · exact hfield Cursor.dropped fun c m => by unfold raiseCertainty; split_ifs <;> rfl
  · simp only [raiseCertainty_polls]

end Equal

/-! ## Behind the gate -/

section Offer

variable {F : Type} [F64 F] (c : Cursor F) {pid : ℕ}

/-- An offered Record whose interpreter the gate has let in. -/
def offerKept (pid : ℕ) (c : Cursor F) (record : GcStat) : Cursor F × List GcStat :=
  if !record.isComplete then (c.raiseCertainty pid record.interpreterId record.tsStart, [])
  else if record.collections ≤ 0 then (c, [])
  else
    let key := record.ring pid
    let observation := c.observationOrDefault key
    if !observation.admits record.collections then
      ({ c with rings := c.rings.insert key observation }, [])
    else
      ({ c with rings := c.rings.insert key (observation.fold record) }.raiseCertainty pid
        record.interpreterId record.tsStop, [record])

theorem admitRecord_eq (r : GcStat) :
    admitRecord pid c r = offerKept pid (c.retain pid r.interpreterId) r := rfl

theorem offerKept_kept (pid : ℕ) (r : GcStat) (i : ℤ) :
    (offerKept pid c r).1.kept pid i = c.kept pid i ∧ (offerKept pid c r).1.polls = c.polls := by
  unfold offerKept
  simp only
  split_ifs <;> simp [kept, retainedOf]

omit [F64 F] in
theorem retain_kept_self (i : ℤ) :
    (c.retain pid i).kept pid i = some (c.retain pid i).polls := by
  rw [kept_retain, if_pos rfl, retain_polls]

/-- Of two neighbours of one interpreter, the gate acts on the first. -/
theorem exec_pair (pid : ℕ) {a b : GcStat} (hi : a.interpreterId = b.interpreterId) :
    admitRecord pid (admitRecord pid c a).1 b =
      offerKept pid (offerKept pid (c.retain pid a.interpreterId) a).1 b := by
  rw [admitRecord_eq, admitRecord_eq, ← hi, retain_of_kept]
  obtain ⟨hkept, hpolls⟩ := (c.retain pid a.interpreterId).offerKept_kept pid a a.interpreterId
  rw [hkept, hpolls]
  exact c.retain_kept_self _

theorem offerKept_of_running {r : GcStat} (h : r.isComplete = false) :
    offerKept pid c r = (c.raiseCertainty pid r.interpreterId r.tsStart, []) := by
  rw [offerKept, h]
  rfl

theorem offerKept_of_unwritten {r : GcStat} (h : r.isComplete = true) (h0 : r.collections ≤ 0) :
    offerKept pid c r = (c, []) := by
  simp [offerKept, h, h0]

theorem offerKept_of_refused {r : GcStat} (h : r.Eligible)
    (ha : (c.observationOrDefault (r.ring pid)).admits r.collections = false) :
    offerKept pid c r = ({ c with
      rings := c.rings.insert (r.ring pid) (c.observationOrDefault (r.ring pid)) }, []) := by
  simp [offerKept, h.1, not_le.mpr h.2, ha]

theorem offerKept_of_admitted {r : GcStat} (h : r.Eligible)
    (ha : (c.observationOrDefault (r.ring pid)).admits r.collections = true) :
    offerKept pid c r = ({ c with
      rings := c.rings.insert (r.ring pid) ((c.observationOrDefault (r.ring pid)).fold r)
      }.raiseCertainty pid r.interpreterId r.tsStop, [r]) := by
  simp [offerKept, h.1, not_le.mpr h.2, ha]

omit [F64 F] in
theorem raiseCertainty_insert (i m : ℤ) (K : RingKey) (o : RingObservation F) :
    { c.raiseCertainty pid i m with rings := c.rings.insert K o } =
      { c with rings := c.rings.insert K o }.raiseCertainty pid i m := by
  unfold raiseCertainty
  split_ifs <;> rfl

theorem offerKept_raise {r : GcStat} (h : r.isComplete = true) (m : ℤ) :
    offerKept pid (c.raiseCertainty pid r.interpreterId m) r =
      ((offerKept pid c r).1.raiseCertainty pid r.interpreterId m, (offerKept pid c r).2) := by
  have hobs : (c.raiseCertainty pid r.interpreterId m).observationOrDefault (r.ring pid) =
      c.observationOrDefault (r.ring pid) := by
    rw [observationOrDefault, raiseCertainty_rings, ← observationOrDefault]
  by_cases h0 : r.collections ≤ 0
  · rw [offerKept_of_unwritten _ h h0, offerKept_of_unwritten _ h h0]
  · have he : r.Eligible := ⟨h, not_le.mp h0⟩
    cases ha : (c.observationOrDefault (r.ring pid)).admits r.collections with
    | false =>
      rw [offerKept_of_refused _ he (hobs ▸ ha), offerKept_of_refused _ he ha, hobs,
        raiseCertainty_rings, raiseCertainty_insert]
    | true =>
      rw [offerKept_of_admitted _ he (hobs ▸ ha), offerKept_of_admitted _ he ha, hobs,
        raiseCertainty_rings, raiseCertainty_insert, raiseCertainty_comm]

omit [F64 F] in
theorem insert_same {K : RingKey} {o : RingObservation F} (h : c.rings[K]? = some o) :
    { c with rings := c.rings.insert K o } = c := by
  refine ext_getElem? (fun K' => ?_) rfl rfl (fun _ => rfl) (fun _ => rfl) rfl rfl
  simp only [ExtTreeMap.getElem?_insert]
  split_ifs with hK
  · rw [← Std.LawfulEqCmp.eq_of_compare hK, h]
  · rfl

/-- A finished Record that its ring does not admit changes nothing behind an accumulator. -/
theorem offerKept_of_seen {r : GcStat} (h : r.Eligible) {o : RingObservation F}
    (ho : c.rings[r.ring pid]? = some o) (ha : o.admits r.collections = false) :
    offerKept pid c r = (c, []) := by
  have hobs : c.observationOrDefault (r.ring pid) = o := by
    rw [observationOrDefault_eq, ho, Option.getD_some]
  rw [offerKept_of_refused _ h (hobs ▸ ha), hobs, insert_same _ ho]

theorem admits_fold (o : RingObservation F) (r : GcStat) :
    (o.fold r).admits r.collections = false := by
  simp [RingObservation.admits, RingObservation.isEmpty, RingObservation.fold, Lifetime.of]

theorem offerKept_twice {r : GcStat} (h : r.isComplete = true) :
    offerKept pid (offerKept pid c r).1 r = ((offerKept pid c r).1, []) := by
  by_cases h0 : r.collections ≤ 0
  · rw [offerKept_of_unwritten c h h0, offerKept_of_unwritten c h h0]
  · have he : r.Eligible := ⟨h, not_le.mp h0⟩
    cases ha : (c.observationOrDefault (r.ring pid)).admits r.collections with
    | false =>
      rw [offerKept_of_refused c he ha]
      exact offerKept_of_seen _ he ExtTreeMap.getElem?_insert_self ha
    | true =>
      rw [offerKept_of_admitted c he ha]
      refine offerKept_of_seen _ he ?_ (admits_fold (c.observationOrDefault (r.ring pid)) r)
      rw [raiseCertainty_rings]
      exact ExtTreeMap.getElem?_insert_self

theorem offerKept_congr (pid : ℕ) {a b : GcStat} (h : a.content = b.content) :
    (offerKept pid c a).1 = (offerKept pid c b).1 ∧
      (offerKept pid c a).2.map GcStat.content = (offerKept pid c b).2.map GcStat.content := by
  have hget := GcStat.get_of_content h
  have hi : a.interpreterId = b.interpreterId := congrArg Content.interpreterId h
  have hring : a.ring pid = b.ring pid := by
    rw [GcStat.ring, GcStat.ring, hi, show a.generation = b.generation from
      congrArg Content.generation h]
  have hcomplete : a.isComplete = b.isComplete := by
    unfold GcStat.isComplete GcStat.hasTiming GcStat.tsStart GcStat.tsStop
    rw [hget, GcStat.has_of_content h]
  have hcoll : a.collections = b.collections := by
    unfold GcStat.collections
    rw [hget]
  have hstart : a.tsStart = b.tsStart := by
    unfold GcStat.tsStart
    rw [hget]
  have hstop : a.tsStop = b.tsStop := by
    unfold GcStat.tsStop
    rw [hget]
  unfold offerKept
  simp only [hi, hring, hcomplete, hcoll, hstart, hstop, RingObservation.fold_of_content _ h]
  split_ifs <;> simp [h]

/-- **Neighbours of one ring and counter may be exchanged.** -/
theorem agree_swap {a b : GcStat} (hi : a.interpreterId = b.interpreterId)
    (hcopy : a.isComplete = true → b.isComplete = true → a.content = b.content) :
    Agree (admitRecord (F := F) pid) GcStat.content [a, b] [b, a] := by
  intro c
  have hab := c.exec_pair pid hi
  have hba := c.exec_pair pid hi.symm
  rw [← hi] at hba
  simp only [Mealy.exec_cons, Mealy.exec_nil, Mealy.outs_cons, Mealy.outs_nil, List.append_nil,
    List.map_append, hab, hba]
  rw [admitRecord_eq, admitRecord_eq, ← hi]
  generalize c.retain pid a.interpreterId = k
  cases ha : a.isComplete with
  | false =>
    cases hb : b.isComplete with
    | false =>
      simp only [offerKept_of_running _ ha, offerKept_of_running _ hb, hi]
      exact ⟨raiseCertainty_comm _ _ _ _ _, trivial⟩
    | true =>
      simp only [offerKept_of_running _ ha, hi, offerKept_raise _ hb, List.map_nil,
        List.nil_append, List.append_nil, and_self]
  | true =>
    cases hb : b.isComplete with
    | false =>
      simp only [offerKept_of_running _ hb, ← hi, offerKept_raise _ ha, List.map_nil,
        List.nil_append, List.append_nil, and_self]
    | true =>
      have hcontent := hcopy ha hb
      obtain ⟨hstate, houts⟩ := k.offerKept_congr pid hcontent
      obtain ⟨hstate₁, houts₁⟩ := (offerKept pid k a).1.offerKept_congr pid hcontent.symm
      obtain ⟨hstate₂, houts₂⟩ := (offerKept pid k b).1.offerKept_congr pid hcontent
      rw [offerKept_twice k ha] at hstate₁ houts₁
      rw [offerKept_twice k hb] at hstate₂ houts₂
      rw [hstate₁, hstate₂, houts₁, houts₂, hstate, houts]
      exact ⟨rfl, rfl⟩

/-- In a snapshot, finished Records of one interpreter, generation and counter are copies. -/
def CopiesAgree (records : List GcStat) : Prop :=
  ∀ a ∈ records, ∀ b ∈ records, a.isComplete = true → b.isComplete = true →
    a.interpreterId = b.interpreterId → a.generation = b.generation →
    a.collections = b.collections → a.layout = b.layout ∧ ∀ name, a.get name = b.get name

/-- **Selection does not depend on the order of a snapshot.** The Records returned are the same, in
the same order and up to the slots they were read from, and so is the cursor left behind. -/
theorem admitRecords_perm (c : Cursor F) (pid : ℕ) {records records' : List GcStat}
    (hp : records.Perm records') (hc : CopiesAgree records) :
    (c.admitRecords pid records).2.map GcStat.content =
        (c.admitRecords pid records').2.map GcStat.content ∧
      (c.admitRecords pid records).1 = (c.admitRecords pid records').1 := by
  have hsorted : (sortCandidates records).Perm (sortCandidates records') :=
    (stableSort_perm _ records).trans (hp.trans (stableSort_perm _ records').symm)
  have hties := tieSwaps_of_perm hsorted (pairwise_stableSort _ records)
    (pairwise_stableSort _ records')
  have hagree : Agree (admitRecord (F := F) pid) GcStat.content (sortCandidates records)
      (sortCandidates records') := agree_of_tieSwaps hties fun a ha b hb hkey => by
      simp only [EmbeddingLike.apply_eq_iff_eq, Prod.mk.injEq] at hkey
      obtain ⟨hi, hg, hcoll⟩ := hkey
      refine agree_swap hi fun hca hcb => ?_
      obtain ⟨hl, hf⟩ := hc a ((mem_stableSort _).mp ha) b ((mem_stableSort _).mp hb) hca hcb hi
        hg hcoll
      simp only [GcStat.content, hi, hg, hl, funext hf]
  obtain ⟨hexec, houts⟩ := hagree c.tick
  refine ⟨?_, hexec⟩
  -- the start shows in the content, so equal contents sort alike
  let start (x : Content) : ℤ := (x.fields "ts_start").getD 0
  have hview (l : List GcStat) : (stableSort GcStat.tsStart l).map GcStat.content =
      stableSort start (l.map GcStat.content) := map_stableSort GcStat.content start l
  change (stableSort GcStat.tsStart _).map _ = (stableSort GcStat.tsStart _).map _
  rw [hview, hview, houts]

end Offer

/-- A snapshot of a ring in which CPython has copied the newest Record ahead of overwriting it. -/
def copiedSlots : List GcStat :=
  [timedEntry 5 9 1, { timedEntry 12 15 2 with index := 1 }, { timedEntry 12 15 2 with index := 2 }]

theorem admitRecords_perm_copied :
    ((new : Cursor (Secs fun w => w.toInt)).admitRecords 7 copiedSlots).1 =
      ((new : Cursor (Secs fun w => w.toInt)).admitRecords 7 copiedSlots.reverse).1 := by
  have hcopies : ∀ a ∈ copiedSlots, ∀ b ∈ copiedSlots, a.collections = b.collections →
      a.layout = b.layout ∧ a.bytes = b.bytes := by decide
  refine ((new : Cursor (Secs fun w => w.toInt)).admitRecords_perm 7 (List.reverse_perm _).symm
    fun a ha b hb _ _ _ _ hcoll => ?_).2
  obtain ⟨hlayout, hbytes⟩ := hcopies a ha b hb hcoll
  refine ⟨hlayout, fun name => ?_⟩
  unfold GcStat.get GcStat.rawAt
  rw [hlayout, hbytes]

end Cursor

end GcScope
