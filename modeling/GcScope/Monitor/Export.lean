import GcScope.Monitor.Eviction
import GcScope.Monitor.Vanished

/-!
# What a run hands to the exporter

A PID that fails a poll is given up, and all that is held of it is dropped; reported as a child again
it is attached to anew. Between two failures the cursor lets a Record through once.

* `readsOf`: what the polls of a PID came to. A failed one cuts them into stretches.
* `passing`: the Records of a ring that stand above the earlier ones of their stretch.
* `Accounts`: the exporter was handed what passed in each stretch, kept by **`accounts_pollPid`**.
* **`exported_once_iff`**: nothing is handed over twice exactly when no Record passes in two
  stretches.
-/

set_option autoImplicit false

namespace GcScope

open HighWater ListFacts
open StableSort (stableSort_perm)

namespace Cursor

variable {F : Type} [F64 F]

/-- A Record offered, showing the interpreter that goes to make room for its own. -/
def evicting (pid : ℕ) (c : Cursor F) (r : GcStat) : Cursor F × List ℤ :=
  ((admitRecord pid c r).1, (c.evicts pid r.interpreterId).toList)

theorem keeps_offers {c : Cursor F} {pid : ℕ} {records : List GcStat}
    (h : Mealy.outs (evicting pid) c records = []) (K : RingKey) :
    c.Keeps K (records.map (CursorStep.offer pid)) := by
  induction records generalizing c with
  | nil => exact keeps_nil c K
  | cons r rs ih =>
    obtain ⟨hr, hrs⟩ := List.append_eq_nil_iff.mp h
    refine (keeps_cons c K _ _).mpr ⟨fun hl => ?_, ih hrs⟩
    rcases ((loses_iff _ _ _).mp hl).2 with h | ⟨r', h, he, -⟩
    · cases h
    · obtain ⟨rfl, rfl⟩ := CursorStep.offer.inj h
      simp [evicting, he] at hr

theorem keeps_poll {c : Cursor F} {pid : ℕ} {records : List GcStat}
    (h : Mealy.outs (evicting pid) c.tick (sortCandidates records) = []) (K : RingKey) :
    c.Keeps K (CursorOp.admitRecords pid records).steps := by
  refine (keeps_cons c K _ _).mpr ⟨fun hl => ?_, keeps_offers h K⟩
  rcases ((loses_iff _ _ _).mp hl).2 with h | ⟨r, h, -⟩ <;> cases h

/-- **One poll's part of a ring**: what the ring held climbs on, and what climbs is returned. -/
theorem admitRecords_climb {c : Cursor F} {K : RingKey} {l : List GcStat}
    (hc : c.rings[K]? = heldAfter (climb GcStat.collections ⊥ l)) {records : List GcStat}
    (he : Mealy.outs (evicting K.pid) c.tick (sortCandidates records) = []) :
    (c.admitRecords K.pid records).1.rings[K]? =
        heldAfter (climb GcStat.collections ⊥ (l ++
          (sortCandidates records).filter fun r => r.ring K.pid = K ∧ r.Eligible)) ∧
      ((c.admitRecords K.pid records).2.filter fun r => r.ring K.pid = K).Perm
        (climb GcStat.collections (mark GcStat.collections ⊥ l)
          ((sortCandidates records).filter fun r => r.ring K.pid = K ∧ r.Eligible)) := by
  have hk := keeps_poll he K
  rw [← offersOf_admitRecords]
  refine ⟨?_, ?_⟩
  · have h := ring_of_climb hc hk
    rwa [exec_steps] at h
  · rw [← acceptedOf_of_climb hc hk]
    have h := returnedOf_perm K c [.admitRecords K.pid records]
    rwa [returnedOf, Mealy.outs_cons, Mealy.outs_nil, List.append_nil, List.flatMap_singleton] at h

end Cursor

/-! ## What the exporter received -/

/-- The Records of a ring handed to the exporter, each by its process and its counter. -/
def exportedOf (K : RingKey) (log : List ExporterCall) : List (ℕ × ℤ) :=
  log.flatMap fun
    | .events pid occupant records =>
      (records.filter fun r => r.ring pid = K).map fun r => (occupant, r.collections)
    | .lifecycle _ _ => []

/-- No Record of a process is handed to the exporter twice. -/
def ExportedOnce (log : List ExporterCall) : Prop := ∀ K, (exportedOf K log).Nodup

/-! ## What the polls came to -/

/-- The Records a poll read, if it read any process. -/
def PollOutcome.stats : PollOutcome → Option (List GcStat)
  | .read _ stats => some stats
  | _ => none

theorem PollOutcome.exists_of_stats {outcome : PollOutcome} {stats : List GcStat}
    (h : outcome.stats = some stats) : ∃ session, outcome = .read session stats := by
  cases outcome with
  | read session stats' =>
    obtain rfl := Option.some.inj h
    exact ⟨session, rfl⟩
  | unattached => cases h
  | changed => cases h
  | failed session => cases h

namespace MonitorContext

section Polls

variable {F : Type} [F64 F]

/-- An operation, showing a poll by its PID and the process and the Records it read. -/
def polling (ctx : MonitorContext F) (op : ContextOp) :
    MonitorContext F × List (ℕ × Option (ℕ × List GcStat)) :=
  (ctx.apply op, match op with
    | .poll pid env =>
      [(pid, (readThrough (ctx.sessions pid) env).stats.map fun stats => (env.occupant, stats))]
    | .markDied _ => [])

variable (F) in
/-- What the polls of one PID came to. -/
def readsOf (pid : ℕ) (ops : List ContextOp) : List (Option (ℕ × List GcStat)) :=
  ((Mealy.outs polling (new : MonitorContext F) ops).filter fun p => p.1 = pid).map Prod.snd

/-- An operation, showing the interpreters its poll evicts from the cursor. -/
def evicting (ctx : MonitorContext F) (op : ContextOp) : MonitorContext F × List ℤ :=
  (ctx.apply op, match op with
    | .poll pid env =>
      match readThrough (ctx.sessions pid) env with
      | .read _ stats => Mealy.outs (Cursor.evicting pid) ctx.cursor.tick (sortCandidates stats)
      | _ => []
    | .markDied _ => [])

variable (F) in
/-- No poll of the run evicts an interpreter from the cursor. -/
def NoEviction (ops : List ContextOp) : Prop :=
  Mealy.outs evicting (new : MonitorContext F) ops = []

instance (ops : List ContextOp) : Decidable (NoEviction F ops) := by
  unfold NoEviction; infer_instance

/-- The complete Records of a ring in one read, in the order they are folded. -/
def offered (K : RingKey) (read : ℕ × List GcStat) : List (ℕ × GcStat) :=
  ((sortCandidates read.2).filter fun r => r.ring K.pid = K ∧ r.Eligible).map fun r => (read.1, r)

/-- The Records of a ring in a stretch of reads that stand above all the earlier ones, each by its
process and its counter. -/
def passing (K : RingKey) (reads : List (ℕ × List GcStat)) : List (ℕ × ℤ) :=
  (climb (fun x => x.2.collections) ⊥ (reads.flatMap (offered K))).map fun x =>
    (x.1, x.2.collections)

variable (F) in
/-- No Record of a process passes in two stretches of the polls of its PID. -/
def PassesOnce (ops : List ContextOp) : Prop :=
  ∀ K : RingKey, (stretches (readsOf F K.pid ops)).Pairwise fun reads reads' =>
    (passing K reads).Disjoint (passing K reads')

end Polls

section Accounts

variable {F : Type}

/-! ## The effect of an operation on what was exported -/

section Calls

variable {α : Type} {f : ExporterCall → List α} (hf : ∀ pid status, f (.lifecycle pid status) = [])

include hf

theorem flatMap_markProcessLifecycle (ctx : MonitorContext F) (pid : ℕ)
    (status : ProcessLifecycle) :
    (ctx.markProcessLifecycle pid status).exporter.flatMap f = ctx.exporter.flatMap f := by
  rw [markProcessLifecycle, List.flatMap_append, List.flatMap_singleton, hf, List.append_nil]

theorem flatMap_reportDeath (ctx : MonitorContext F) (pid : ℕ) :
    (ctx.reportDeath pid).exporter.flatMap f = ctx.exporter.flatMap f := by
  unfold reportDeath
  split_ifs
  · exact flatMap_markProcessLifecycle hf _ pid .died
  · rfl

/-- **A read hands over one call of events**, whatever is looked for in the calls. -/
theorem flatMap_report [F64 F] (ctx : MonitorContext F) (pid occupant : ℕ) (stats : List GcStat) :
    (ctx.report pid occupant stats).1.exporter.flatMap f = ctx.exporter.flatMap f ++
      f (.events pid occupant (ctx.cursor.admitRecords pid stats).2) := by
  have hwarn : ∀ ctx : MonitorContext F,
      (ctx.warnIfInterpretersDropped pid).exporter = ctx.exporter := fun ctx => by
    unfold warnIfInterpretersDropped
    split_ifs <;> rfl
  unfold report eventsFor
  split_ifs
  · simp only [hwarn, List.flatMap_append, List.flatMap_singleton]
  · simp only [hwarn, List.flatMap_append, flatMap_markProcessLifecycle hf, List.flatMap_singleton]
    rfl

end Calls

theorem exportedOf_reportDeath (K : RingKey) (ctx : MonitorContext F) (pid : ℕ) :
    exportedOf K (ctx.reportDeath pid).exporter = exportedOf K ctx.exporter :=
  flatMap_reportDeath (fun _ _ => rfl) ctx pid

variable [F64 F]

theorem exportedOf_report (K : RingKey) (ctx : MonitorContext F) (pid occupant : ℕ)
    (stats : List GcStat) : exportedOf K (ctx.report pid occupant stats).1.exporter =
      exportedOf K ctx.exporter ++
        ((ctx.cursor.admitRecords pid stats).2.filter fun r => r.ring pid = K).map fun r =>
          (occupant, r.collections) :=
  flatMap_report (fun _ _ => rfl) ctx pid occupant stats

theorem filter_ring_ne {K : RingKey} {pid : ℕ} (h : pid ≠ K.pid) (records : List GcStat) :
    (records.filter fun r => r.ring pid = K) = [] :=
  List.filter_eq_nil_iff.mpr fun _ _ hr => h (congrArg RingKey.pid (of_decide_eq_true hr))

/-! ## Stretch by stretch -/

/-- The exporter was handed `done` and what passed in the stretch of reads that is still open; the
ring holds what that stretch climbed to. -/
structure Accounts (K : RingKey) (done : List (ℕ × ℤ)) (reads : List (ℕ × List GcStat))
    (ctx : MonitorContext F) : Prop where
  held : ctx.cursor.rings[K]? = Cursor.heldAfter
    (climb GcStat.collections ⊥ ((reads.flatMap (offered K)).map Prod.snd))
  exported : (exportedOf K ctx.exporter).Perm (done ++ passing K reads)

variable {K : RingKey} {done : List (ℕ × ℤ)} {reads : List (ℕ × List GcStat)}
  {ctx ctx' : MonitorContext F}

@[simp] theorem passing_nil : passing K [] = [] := rfl

theorem accounts_new : Accounts K [] [] (new : MonitorContext F) :=
  ⟨by simp [new, Cursor.new, Cursor.heldAfter], List.Perm.refl _⟩

theorem Accounts.frame (h : Accounts K done reads ctx)
    (hc : ctx'.cursor.rings[K]? = ctx.cursor.rings[K]?)
    (he : exportedOf K ctx'.exporter = exportedOf K ctx.exporter) : Accounts K done reads ctx' :=
  ⟨hc.trans h.held, he ▸ h.exported⟩

theorem Accounts.apply_ne (h : Accounts K done reads ctx) (op : ContextOp) (hp : op.pid ≠ K.pid) :
    Accounts K done reads (ctx.apply op) := by
  refine h.frame ((ctx.apply_frame hp).1.rings K rfl) ?_
  cases op with
  | markDied pid => exact exportedOf_reportDeath K (ctx.evict pid) pid
  | poll pid env =>
    have hne : pid ≠ K.pid := hp
    simp only [apply, poll_eq]
    cases readThrough (ctx.sessions pid) env with
    | unattached => rfl
    | read session stats =>
      simp only [exportedOf_report, filter_ring_ne hne]
      exact List.append_nil _
    | changed => exact exportedOf_reportDeath K (ctx.evict pid) pid
    | failed session => exact exportedOf_reportDeath K (ctx.hold pid session) pid

theorem passing_concat (occupant : ℕ) (stats : List GcStat) :
    passing K (reads ++ [(occupant, stats)]) = passing K reads ++
      (climb GcStat.collections
        (mark GcStat.collections ⊥ ((reads.flatMap (offered K)).map Prod.snd))
        ((sortCandidates stats).filter fun r => r.ring K.pid = K ∧ r.Eligible)).map fun r =>
          (occupant, r.collections) := by
  rw [passing, List.flatMap_append, climb_append, List.map_append, List.flatMap_singleton, offered,
    climb_map, List.map_map, mark_map]
  rfl

/-- **A read hands over what passes in its stretch.** -/
theorem Accounts.report (h : Accounts K done reads ctx) (occupant : ℕ) {stats : List GcStat}
    (he : Mealy.outs (Cursor.evicting K.pid) ctx.cursor.tick (sortCandidates stats) = []) :
    Accounts K done (reads ++ [(occupant, stats)]) (ctx.report K.pid occupant stats).1 := by
  obtain ⟨hring, hreturned⟩ := Cursor.admitRecords_climb h.held he
  refine ⟨?_, ?_⟩
  · rw [report_cursor, hring, List.flatMap_append, List.map_append, List.flatMap_singleton, offered,
      List.map_map]
    simp only [Function.comp_def, List.map_id']
  · rw [exportedOf_report, passing_concat, ← List.append_assoc]
    exact h.exported.append (hreturned.map _)

/-- Forgetting the process closes the stretch. -/
theorem Accounts.evict (h : Accounts K done reads ctx) :
    Accounts K (done ++ passing K reads) [] (ctx.evict K.pid) := by
  refine ⟨?_, ?_⟩
  · rw [MonitorContext.evict, Cursor.forget_ring, if_pos rfl]
    rfl
  · rw [passing_nil, List.append_nil]
    exact h.exported

theorem Accounts.reportDeath (h : Accounts K done reads ctx) (pid : ℕ) :
    Accounts K done reads (ctx.reportDeath pid) :=
  h.frame (by rw [reportDeath_cursor]) (exportedOf_reportDeath K ctx pid)

theorem Accounts.hold (h : Accounts K done reads ctx) (pid : ℕ) (session : PySession) :
    Accounts K done reads (ctx.hold pid session) := h.frame rfl rfl

/-- Giving the PID up closes a stretch that is still open, and no other. -/
theorem accounts_markDied
    (h : Accounts K done reads ctx ∨ Accounts K (done ++ passing K reads) [] ctx) :
    Accounts K (done ++ passing K reads) [] (ctx.markDied K.pid) := by
  rcases h with h | h
  · exact h.evict.reportDeath K.pid
  · have hdied := h.evict.reportDeath K.pid
    rwa [passing_nil, List.append_nil] at hdied

theorem Accounts.poll_of_failed (h : Accounts K done reads ctx) {env : PollEnv}
    (hr : (readThrough (ctx.sessions K.pid) env).stats = none) :
    (ctx.poll K.pid env).2 = .invalidProcess ∧
      (Accounts K done reads (ctx.poll K.pid env).1 ∨
        Accounts K (done ++ passing K reads) [] (ctx.poll K.pid env).1) := by
  rw [poll_eq]
  cases ho : readThrough (ctx.sessions K.pid) env with
  | unattached => exact ⟨rfl, Or.inl h⟩
  | read session stats => rw [ho] at hr; cases hr
  | changed => exact ⟨rfl, Or.inr (h.evict.reportDeath K.pid)⟩
  | failed session => exact ⟨rfl, Or.inl ((h.hold K.pid session).reportDeath K.pid)⟩

theorem Accounts.poll_of_read (h : Accounts K done reads ctx) {env : PollEnv}
    {stats : List GcStat} (hr : (readThrough (ctx.sessions K.pid) env).stats = some stats)
    (he : Mealy.outs (Cursor.evicting K.pid) ctx.cursor.tick (sortCandidates stats) = []) :
    (ctx.poll K.pid env).2 = .ok ∧
      Accounts K done (reads ++ [(env.occupant, stats)]) (ctx.poll K.pid env).1 := by
  obtain ⟨session, ho⟩ := PollOutcome.exists_of_stats hr
  rw [poll_eq, ho]
  exact ⟨rfl, (h.hold K.pid session).report env.occupant he⟩

/-! ## What a run's polls read -/

theorem readsOf_concat (pid : ℕ) (ops : List ContextOp) (op : ContextOp) :
    readsOf F pid (ops ++ [op]) = readsOf F pid ops ++
      (((polling (run F ops) op).2.filter fun p => p.1 = pid).map Prod.snd) := by
  rw [readsOf, Mealy.outs_concat, List.filter_append, List.map_append]
  rfl

theorem readsOf_concat_ne {pid : ℕ} (ops : List ContextOp) (op : ContextOp) (h : op.pid ≠ pid) :
    readsOf F pid (ops ++ [op]) = readsOf F pid ops := by
  rw [readsOf_concat, List.append_right_eq_self, List.map_eq_nil_iff, List.filter_eq_nil_iff]
  cases op with
  | markDied pid' => exact fun p hp => nomatch hp
  | poll pid' env =>
    have hne : pid' ≠ pid := h
    exact fun p hp => by simpa [List.mem_singleton.mp hp] using hne

theorem readsOf_concat_poll (pid : ℕ) (ops : List ContextOp) (env : PollEnv) :
    readsOf F pid (ops ++ [.poll pid env]) = readsOf F pid ops ++
      [(readThrough ((run F ops).sessions pid) env).stats.map fun stats => (env.occupant, stats)] := by
  rw [readsOf_concat]
  simp [polling]

theorem readsOf_concat_markDied (pid pid' : ℕ) (ops : List ContextOp) :
    readsOf F pid (ops ++ [.markDied pid']) = readsOf F pid ops := by
  rw [readsOf_concat]
  exact List.append_nil _

theorem NoEviction.of_append {ops ops' : List ContextOp} (h : NoEviction F (ops ++ ops')) :
    NoEviction F ops := by
  rw [NoEviction, Mealy.outs_append] at h
  exact (List.append_eq_nil_iff.mp h).1

theorem evicting_of_read {ctx : MonitorContext F} {pid : ℕ} {env : PollEnv} {session : PySession}
    {stats : List GcStat} (h : readThrough (ctx.sessions pid) env = .read session stats) :
    (ctx.evicting (.poll pid env)).2 =
      Mealy.outs (Cursor.evicting pid) ctx.cursor.tick (sortCandidates stats) := by
  unfold evicting
  simp only [h]

theorem NoEviction.poll {ops ops' : List ContextOp} {pid : ℕ} {env : PollEnv}
    (h : NoEviction F (ops ++ .poll pid env :: ops')) {stats : List GcStat}
    (hr : (readThrough ((run F ops).sessions pid) env).stats = some stats) :
    Mealy.outs (Cursor.evicting pid) (run F ops).cursor.tick (sortCandidates stats) = [] := by
  obtain ⟨session, ho⟩ := PollOutcome.exists_of_stats hr
  rw [NoEviction, Mealy.outs_append, Mealy.outs_cons] at h
  exact (evicting_of_read ho).symm.trans
    (List.append_eq_nil_iff.mp (List.append_eq_nil_iff.mp h).2).1

end Accounts

end MonitorContext

/-! ## The loop under the startup timeout -/

namespace LoopState

open MonitorContext (readsOf passing NoEviction PassesOnce)

variable {F : Type} [F64 F] {timeout : ℕ}

/-- The loop has handed over what passed in each stretch of the polls of a PID, and its policy knows
whether the open one read anything. -/
structure Accounts (K : RingKey) (ops : List ContextOp)
    (s : LoopState F (startupTimeoutPolicy timeout)) : Prop where
  ctx : s.ctx = MonitorContext.run F ops
  accounts : s.ctx.Accounts K ((cut (readsOf F K.pid ops)).1.flatMap (passing K))
    (cut (readsOf F K.pid ops)).2
  seenAlive : (cut (readsOf F K.pid ops)).2 ≠ [] → ∃ policy : StartupTimeoutPolicy,
    s.pidPolicies K.pid = some policy ∧ policy.hasSeenAlive = true

variable {K : RingKey} {ops : List ContextOp} {s : LoopState F (startupTimeoutPolicy timeout)}

theorem Accounts.ctx_pollPid (h : Accounts K ops s) (env : IterEnv) (pid : ℕ) :
    (pollPid env s pid).1.ctx = MonitorContext.run F (ops ++ (pollPid env s pid).2) := by
  rw [drives_pollPid env s pid, h.ctx, MonitorContext.run, MonitorContext.run, List.foldl_append]

theorem flatMap_stretches {α β : Type} (f : List α → List β) (l : List (Option α)) :
    (stretches l).flatMap f = (cut l).1.flatMap f ++ f (cut l).2 := by
  rw [stretches, List.flatMap_append, List.flatMap_singleton]

theorem pollPid_of_true {env : IterEnv} {pid : ℕ} {policy : StartupTimeoutPolicy}
    (h : ((s.pidPolicies pid).getD (StartupTimeoutPolicy.new timeout (env.created pid))).wait
      (s.ctx.poll pid (env.poll pid)).2 (env.waited pid) = (true, policy)) :
    pollPid env s pid = ({ s with
      ctx := (s.ctx.poll pid (env.poll pid)).1
      pidPolicies := Function.update s.pidPolicies pid (some policy)
      anyAlive := true }, [.poll pid (env.poll pid)]) := by
  have h' : (startupTimeoutPolicy timeout).wait
      ((s.pidPolicies pid).getD ((startupTimeoutPolicy timeout).create (env.created pid)))
        (s.ctx.poll pid (env.poll pid)).2 (env.waited pid) = (true, policy) := h
  unfold pollPid
  simp only [h', if_true]

theorem pollPid_of_false {env : IterEnv} {pid : ℕ} {policy : StartupTimeoutPolicy}
    (h : ((s.pidPolicies pid).getD (StartupTimeoutPolicy.new timeout (env.created pid))).wait
      (s.ctx.poll pid (env.poll pid)).2 (env.waited pid) = (false, policy)) :
    (pollPid env s pid).1.ctx = (s.ctx.poll pid (env.poll pid)).1.markDied pid ∧
      (pollPid env s pid).1.pidPolicies = Function.update s.pidPolicies pid none ∧
        (pollPid env s pid).2 = [.poll pid (env.poll pid), .markDied pid] := by
  have h' : (startupTimeoutPolicy timeout).wait
      ((s.pidPolicies pid).getD ((startupTimeoutPolicy timeout).create (env.created pid)))
        (s.ctx.poll pid (env.poll pid)).2 (env.waited pid) = (false, policy) := h
  unfold pollPid
  simp only [h', Bool.false_eq_true, if_false, drop, Function.update_idem, and_self]

theorem Accounts.pollPid_ne (h : Accounts K ops s) (env : IterEnv) {pid : ℕ} (hp : pid ≠ K.pid) :
    Accounts K (ops ++ (pollPid env s pid).2) (pollPid env s pid).1 := by
  have hreads := MonitorContext.readsOf_concat_ne (F := F) ops (.poll pid (env.poll pid)) hp
  have hctx := h.ctx_pollPid env pid
  have hpoll := h.accounts.apply_ne (.poll pid (env.poll pid)) hp
  cases hw : ((s.pidPolicies pid).getD (StartupTimeoutPolicy.new timeout (env.created pid))).wait
      (s.ctx.poll pid (env.poll pid)).2 (env.waited pid) with
  | mk keep policy =>
    cases keep with
    | true =>
      rw [pollPid_of_true hw] at hctx ⊢
      refine ⟨hctx, by rw [hreads]; exact hpoll, fun hne => ?_⟩
      rw [hreads] at hne
      simpa only [Function.update_of_ne hp.symm] using h.seenAlive hne
    | false =>
      obtain ⟨hc, hpol, ho⟩ := pollPid_of_false hw
      rw [ho, List.append_cons] at hctx ⊢
      refine ⟨hctx, ?_, fun hne => ?_⟩
      · rw [MonitorContext.readsOf_concat_markDied, hreads, hc]
        exact hpoll.apply_ne (.markDied pid) hp
      · rw [MonitorContext.readsOf_concat_markDied, hreads] at hne
        rw [hpol, Function.update_of_ne hp.symm]
        exact h.seenAlive hne

theorem Accounts.pollPid_of_read (h : Accounts K ops s) {env : IterEnv} {stats : List GcStat}
    (hr : (readThrough (s.ctx.sessions K.pid) (env.poll K.pid)).stats = some stats)
    (he : NoEviction F (ops ++ (pollPid env s K.pid).2)) :
    Accounts K (ops ++ (pollPid env s K.pid).2) (pollPid env s K.pid).1 := by
  have hev : Mealy.outs (Cursor.evicting K.pid) s.ctx.cursor.tick (sortCandidates stats) = [] := by
    obtain ⟨rest, ho⟩ : ∃ rest, (pollPid env s K.pid).2 = .poll K.pid (env.poll K.pid) :: rest := by
      unfold pollPid
      simp only
      split_ifs <;> exact ⟨_, rfl⟩
    rw [ho] at he
    rw [h.ctx] at hr ⊢
    exact he.poll hr
  obtain ⟨hok, hacc⟩ := h.accounts.poll_of_read hr hev
  have hreads : readsOf F K.pid (ops ++ [.poll K.pid (env.poll K.pid)]) =
      readsOf F K.pid ops ++ [some ((env.poll K.pid).occupant, stats)] := by
    rw [MonitorContext.readsOf_concat_poll, ← h.ctx, hr]
    rfl
  have hw : ((s.pidPolicies K.pid).getD
      (StartupTimeoutPolicy.new timeout (env.created K.pid))).wait
        (s.ctx.poll K.pid (env.poll K.pid)).2 (env.waited K.pid) =
      (true, { (s.pidPolicies K.pid).getD
        (StartupTimeoutPolicy.new timeout (env.created K.pid)) with hasSeenAlive := true }) := by
    rw [hok]
    rfl
  have hctx := h.ctx_pollPid env K.pid
  rw [pollPid_of_true hw] at hctx ⊢
  refine ⟨hctx, ?_, fun _ => ⟨_, Function.update_self _ _ _, rfl⟩⟩
  rw [hreads, cut_concat_some]
  exact hacc

/-- A poll that reads nothing closes its stretch: where that one read something, the PID is given
up. -/
theorem Accounts.pollPid_of_failed (h : Accounts K ops s) {env : IterEnv}
    (hr : (readThrough (s.ctx.sessions K.pid) (env.poll K.pid)).stats = none) :
    Accounts K (ops ++ (pollPid env s K.pid).2) (pollPid env s K.pid).1 := by
  obtain ⟨hinv, hacc⟩ := h.accounts.poll_of_failed hr
  have hreads : readsOf F K.pid (ops ++ [.poll K.pid (env.poll K.pid)]) =
      readsOf F K.pid ops ++ [none] := by
    rw [MonitorContext.readsOf_concat_poll, ← h.ctx, hr]
    rfl
  have hctx := h.ctx_pollPid env K.pid
  cases hw : ((s.pidPolicies K.pid).getD
      (StartupTimeoutPolicy.new timeout (env.created K.pid))).wait
        (s.ctx.poll K.pid (env.poll K.pid)).2 (env.waited K.pid) with
  | mk keep policy =>
    cases keep with
    | true =>
      -- a policy that has seen the process alive gives it up
      have hnil : (cut (readsOf F K.pid ops)).2 = [] := by
        by_contra hne
        obtain ⟨policy', hp, halive⟩ := h.seenAlive hne
        have hwait : policy'.wait .invalidProcess (env.waited K.pid) = (true, policy) := by
          rw [hinv, hp] at hw
          exact hw
        simp [StartupTimeoutPolicy.wait, halive] at hwait
      rw [pollPid_of_true hw] at hctx ⊢
      refine ⟨hctx, ?_, fun hne => ?_⟩
      · rw [hreads, cut_concat_none, flatMap_stretches]
        rw [hnil] at hacc ⊢
        rw [MonitorContext.passing_nil, List.append_nil] at hacc ⊢
        exact hacc.elim id id
      · rw [hreads, cut_concat_none] at hne
        exact absurd rfl hne
    | false =>
      obtain ⟨hc, hpol, ho⟩ := pollPid_of_false hw
      rw [ho, List.append_cons] at hctx ⊢
      refine ⟨hctx, ?_, fun hne => ?_⟩
      · rw [MonitorContext.readsOf_concat_markDied, hreads, cut_concat_none, flatMap_stretches, hc]
        exact MonitorContext.accounts_markDied hacc
      · rw [MonitorContext.readsOf_concat_markDied, hreads, cut_concat_none] at hne
        exact absurd rfl hne

/-- **Every poll keeps the account.** -/
theorem accounts_pollPid (h : Accounts K ops s) (env : IterEnv) (pid : ℕ)
    (he : NoEviction F (ops ++ (pollPid env s pid).2)) :
    Accounts K (ops ++ (pollPid env s pid).2) (pollPid env s pid).1 := by
  by_cases hp : pid = K.pid
  · subst hp
    cases hr : (readThrough (s.ctx.sessions K.pid) (env.poll K.pid)).stats with
    | some stats => exact h.pollPid_of_read hr he
    | none => exact h.pollPid_of_failed hr
  · exact h.pollPid_ne env hp

/-! ## Whole runs -/

theorem Accounts.congr (h : Accounts K ops s) {s' : LoopState F (startupTimeoutPolicy timeout)}
    (hc : s'.ctx = s.ctx) (hp : s'.pidPolicies = s.pidPolicies) : Accounts K ops s' :=
  ⟨hc.trans h.ctx, hc ▸ h.accounts, hp ▸ h.seenAlive⟩

/-- **Every iteration keeps the account.** -/
theorem accounts_iteration (hs : s.Settled) (h : NoEviction F ops → Accounts K ops s)
    (env : IterEnv) (he : NoEviction F (ops ++ (iteration s env).2)) :
    Accounts K (ops ++ (iteration s env).2) (iteration s env).1 := by
  have h := h he.of_append
  have hfound : Accounts K ops (s.discover env).1 := by
    rw [discover_of_settled hs]
    exact h.congr rfl rfl
  have hops : (s.discover env).2 = [] := by rw [discover_of_settled hs]
  unfold iteration at he ⊢
  simp only [hops, List.nil_append] at he ⊢
  split_ifs at he ⊢
  · rwa [List.append_nil]
  · rw [List.append_nil]
    exact h.congr rfl rfl
  · rw [List.append_nil]
    exact hfound.congr rfl rfl
  · have hrun : NoEviction F (ops ++ ((s.discover env).1.pollAll env).2) →
        Accounts K (ops ++ ((s.discover env).1.pollAll env).2)
          ((s.discover env).1.pollAll env).1 :=
      Mealy.exec_outs_induction (P := fun os t => NoEviction F os → Accounts K os t) ops _
        (fun _ => hfound.congr rfl rfl)
        fun os t ht pid _ hev => accounts_pollPid (ht hev.of_append) env pid hev
    exact (hrun he).congr rfl rfl

/-- **In every run the exporter was handed what passed in each stretch of the polls of a PID.** -/
theorem exported_perm (mainPid : ℕ) (envs : List IterEnv)
    (he : NoEviction F (runLoop F (startupTimeoutPolicy timeout) mainPid envs).2) (K : RingKey) :
    (exportedOf K (runLoop F (startupTimeoutPolicy timeout) mainPid envs).1.ctx.exporter).Perm
      ((stretches (readsOf F K.pid
        (runLoop F (startupTimeoutPolicy timeout) mainPid envs).2)).flatMap (passing K)) := by
  have hrun : ∀ envs, NoEviction F (Mealy.outs iteration
      (start mainPid : LoopState F (startupTimeoutPolicy timeout)) envs) →
        Accounts K (Mealy.outs iteration
          (start mainPid : LoopState F (startupTimeoutPolicy timeout)) envs)
          (Mealy.exec iteration (start mainPid) envs) := fun envs =>
    (Mealy.exec_outs_induction (P := fun os t => t.Settled ∧ (NoEviction F os → Accounts K os t))
      [] (s := start mainPid) envs
      ⟨fun pid hp => absurd hp (Finset.notMem_empty pid), fun _ =>
        ⟨rfl, MonitorContext.accounts_new, fun hne => absurd rfl hne⟩⟩
      fun os t ht env _ => ⟨settled_iteration ht.1 env, accounts_iteration ht.1 ht.2 env⟩).2
  unfold runLoop at he ⊢
  simp only at he ⊢
  split_ifs at he ⊢
  · -- the marks at the end hand over nothing and poll nothing
    refine Mealy.exec_outs_induction
      (P := fun os (t : LoopState F (startupTimeoutPolicy timeout)) =>
        (exportedOf K t.ctx.exporter).Perm
          ((stretches (readsOf F K.pid os)).flatMap (passing K))) _ _ ?_
      fun os t ht pid _ => ?_
    · rw [flatMap_stretches]
      exact (hrun envs he.of_append).accounts.exported
    · rw [show (markRemaining t pid).2 = [.markDied pid] from rfl,
        MonitorContext.readsOf_concat_markDied]
      exact (List.Perm.of_eq (MonitorContext.exportedOf_reportDeath K _ pid)).trans ht
  · rw [flatMap_stretches]
    exact (hrun envs he).accounts.exported

theorem nodup_passing (K : RingKey) (reads : List (ℕ × List GcStat)) : (passing K reads).Nodup :=
  List.pairwise_map.mpr ((pairwise_climb _ _ _).imp fun h he => h.ne (Prod.mk.inj he).2)

/-- **No Record of a process is handed over twice, exactly when none passes in two stretches** of the
polls of its PID, a failed poll ending a stretch. -/
theorem exported_once_iff (mainPid : ℕ) (envs : List IterEnv)
    (he : NoEviction F (runLoop F (startupTimeoutPolicy timeout) mainPid envs).2) :
    ExportedOnce (runLoop F (startupTimeoutPolicy timeout) mainPid envs).1.ctx.exporter ↔
      PassesOnce F (runLoop F (startupTimeoutPolicy timeout) mainPid envs).2 := by
  refine forall_congr' fun K => ?_
  rw [(exported_perm mainPid envs he K).nodup_iff, List.nodup_flatMap]
  exact and_iff_right fun reads _ => nodup_passing K reads

/-- Where no poll fails, nothing is handed over twice. -/
theorem passesOnce_of_no_failure {ops : List ContextOp}
    (h : ∀ p ∈ Mealy.outs MonitorContext.polling (.new : MonitorContext F) ops, p.2.isSome) :
    PassesOnce F ops := fun K => by
  have hsome : ∀ r ∈ readsOf F K.pid ops, r.isSome := fun r hr => by
    obtain ⟨p, hp, rfl⟩ := List.mem_map.mp hr
    exact h p (List.mem_of_mem_filter hp)
  rw [stretches, cut_of_forall_isSome hsome]
  exact List.pairwise_singleton _ _

/-- A process and its child, polled twice. -/
theorem exported_once_steady : ExportedOnce (runLoop (Secs fun w => w.toInt)
    (startupTimeoutPolicy 2000) 1 [answering [2], answering [2]]).1.ctx.exporter :=
  (exported_once_iff 1 [answering [2], answering [2]] (by decide +kernel)).mpr
    (passesOnce_of_no_failure (by decide +kernel))

/-- A living process whose read fails, and that cannot be reopened. -/
def unreachable (occupant : ℕ) : PollEnv where
  occupant := occupant
  attached := none
  memory := .unreadable
  cmdline := some "python3.8 app.py"
  reopened := none
  retryMemory := .unreadable

/-- A child that fails one poll among others it answers. -/
def lapse : List IterEnv :=
  [answering [2],
    { answering [2] with
      poll := fun pid => if pid = 2 then unreachable 2 else MonitorContext.attaching pid 5 },
    answering [2]]

/-- **A child that fails one poll is given up, found again, and its Record handed over again.** -/
theorem not_exported_once_lapse :
    NoEviction (Secs fun w => w.toInt) (runLoop (Secs fun w => w.toInt)
      (startupTimeoutPolicy 2000) 1 lapse).2 ∧
    ¬ ExportedOnce (runLoop (Secs fun w => w.toInt)
      (startupTimeoutPolicy 2000) 1 lapse).1.ctx.exporter := by
  refine ⟨by decide +kernel, fun h => ?_⟩
  have hlog : exportedOf ⟨2, 0, 0⟩ (runLoop (Secs fun w => w.toInt)
      (startupTimeoutPolicy 2000) 1 lapse).1.ctx.exporter = [(2, 5), (2, 5)] := by decide +kernel
  have hdup := h ⟨2, 0, 0⟩
  rw [hlog] at hdup
  exact absurd hdup (by decide)

end LoopState

end GcScope
