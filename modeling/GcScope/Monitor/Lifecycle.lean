import GcScope.Monitor.Reuse
import GcScope.Monitor.RunLoop

/-!
# The lifecycle of a watched PID

What is held of a PID is spread over the context and the loop, and goes away piece by piece. In
every run the reports of its start and its death alternate, and once the loop is left nothing of it
remains.

* `Alternating`: starts and deaths in turn, a start first.
* `MonitorContext.Balanced`: the flags of a PID say what was reported of it, kept by
  **`balanced_apply`**.
* `MonitorContext.Clear`: nothing is held of a PID.
* `LoopState.Tidy`: nothing is held of a PID that is not live, kept by **`tidy_iteration`**.
* **`lifecycle_balanced`**: the reports over every run, and what the loop leaves behind.
-/

set_option autoImplicit false

namespace GcScope

/-- Starts and deaths in turn, a start first. -/
def Alternating (l : List ProcessLifecycle) : Prop :=
  ∀ (i : ℕ) (status : ProcessLifecycle), l[i]? = some status →
    status = if i % 2 = 0 then .started else .died

theorem alternating_nil : Alternating [] := fun i status h => by
  rw [List.getElem?_nil] at h
  cases h

/-- What comes next is settled by how much there was. -/
theorem Alternating.concat {l : List ProcessLifecycle} (h : Alternating l)
    {status : ProcessLifecycle} (hs : status = if l.length % 2 = 0 then .started else .died) :
    Alternating (l ++ [status]) := by
  intro i x hx
  rcases lt_or_ge i l.length with hi | hi
  · rw [List.getElem?_append_left hi] at hx
    exact h i x hx
  · rw [List.getElem?_append_right hi, List.getElem?_singleton] at hx
    split_ifs at hx with h₀
    obtain rfl : i = l.length := by omega
    exact Option.some.inj hx ▸ hs

theorem Alternating.started_died {l : List ProcessLifecycle} (h : Alternating l)
    (hl : l.length % 2 = 0) {i : ℕ} (hi : l[i]? = some .started) : l[i + 1]? = some .died := by
  have hlt : i < l.length := (List.getElem?_eq_some_iff.mp hi).1
  have heven : i % 2 = 0 := by
    by_contra ho
    have := h i _ hi
    rw [if_neg ho] at this
    cases this
  rw [List.getElem?_eq_getElem (by omega)]
  have := h (i + 1) _ (List.getElem?_eq_getElem (by omega))
  rw [this, if_neg (by omega)]

/-- What was reported of the start and the death of a PID. -/
def lifecyclesOf (pid : ℕ) (log : List ExporterCall) : List ProcessLifecycle :=
  log.filterMap fun
    | .lifecycle pid' status => if pid' = pid then some status else none
    | .events _ _ _ => none

theorem lifecyclesOf_append (pid : ℕ) (log log' : List ExporterCall) :
    lifecyclesOf pid (log ++ log') = lifecyclesOf pid log ++ lifecyclesOf pid log' :=
  List.filterMap_append

theorem lifecyclesOf_events (pid : ℕ) (log : List ExporterCall) (pid' occupant : ℕ)
    (records : List GcStat) :
    lifecyclesOf pid (log ++ [.events pid' occupant records]) = lifecyclesOf pid log := by
  rw [lifecyclesOf_append]
  exact List.append_nil _

theorem lifecyclesOf_lifecycle (pid : ℕ) (log : List ExporterCall) (pid' : ℕ)
    (status : ProcessLifecycle) : lifecyclesOf pid (log ++ [.lifecycle pid' status]) =
      lifecyclesOf pid log ++ if pid' = pid then [status] else [] := by
  rw [lifecyclesOf_append]
  congr 1
  by_cases h : pid' = pid <;> simp [lifecyclesOf, h]

namespace MonitorContext

variable {F : Type}

/-- What the flags of a PID say: an odd number of reports is a process alive, and the warning is
given once interpreters were dropped. -/
structure Balanced (pid : ℕ) (ctx : MonitorContext F) : Prop where
  alternating : Alternating (lifecyclesOf pid ctx.exporter)
  alive : pid ∈ ctx.alivePids ↔ (lifecyclesOf pid ctx.exporter).length % 2 = 1
  warned : pid ∈ ctx.overflowedPids ↔ 0 < ctx.cursor.droppedCount pid

/-- Nothing is held of this PID. -/
structure Clear (pid : ℕ) (ctx : MonitorContext F) : Prop where
  session : ctx.sessions pid = none
  alive : pid ∉ ctx.alivePids
  warned : pid ∉ ctx.overflowedPids
  cursor : ctx.cursor.Blank pid

/-- The two contexts hold the same of a PID, and report the same of it. -/
structure SameOf (pid : ℕ) (ctx ctx' : MonitorContext F) : Prop where
  session : ctx'.sessions pid = ctx.sessions pid
  alive : pid ∈ ctx'.alivePids ↔ pid ∈ ctx.alivePids
  warned : pid ∈ ctx'.overflowedPids ↔ pid ∈ ctx.overflowedPids
  cursor : Cursor.SameAt pid ctx.cursor ctx'.cursor
  reports : lifecyclesOf pid ctx'.exporter = lifecyclesOf pid ctx.exporter

variable {pid : ℕ} {ctx ctx' ctx'' : MonitorContext F}

theorem SameOf.refl (pid : ℕ) (ctx : MonitorContext F) : SameOf pid ctx ctx :=
  ⟨rfl, Iff.rfl, Iff.rfl, Cursor.SameAt.refl pid _, rfl⟩

theorem SameOf.trans (h : SameOf pid ctx ctx') (h' : SameOf pid ctx' ctx'') :
    SameOf pid ctx ctx'' where
  session := h'.session.trans h.session
  alive := h'.alive.trans h.alive
  warned := h'.warned.trans h.warned
  cursor := h.cursor.trans h'.cursor
  reports := h'.reports.trans h.reports

theorem Balanced.of_sameOf (h : Balanced pid ctx) (hs : SameOf pid ctx ctx') :
    Balanced pid ctx' where
  alternating := hs.reports ▸ h.alternating
  alive := by rw [hs.alive, hs.reports, h.alive]
  warned := by
    have hd : ctx'.cursor.droppedCount pid = ctx.cursor.droppedCount pid := by
      rw [Cursor.droppedCount, Cursor.droppedCount, Std.ExtTreeMap.getD_eq_getD_getElem?,
        Std.ExtTreeMap.getD_eq_getD_getElem?, hs.cursor.dropped]
    rw [hs.warned, h.warned, hd]

theorem Clear.of_sameOf (h : Clear pid ctx) (hs : SameOf pid ctx ctx') : Clear pid ctx' where
  session := hs.session.trans h.session
  alive := fun ha => h.alive (hs.alive.mp ha)
  warned := fun hw => h.warned (hs.warned.mp hw)
  cursor := h.cursor.of_sameAt hs.cursor

/-! ## What an operation on another PID leaves -/

theorem sameOf_hold (ctx : MonitorContext F) {pid' : ℕ} (h : pid' ≠ pid) (session : PySession) :
    SameOf pid ctx (ctx.hold pid' session) :=
  ⟨Function.update_of_ne h.symm _ _, Iff.rfl, Iff.rfl, Cursor.SameAt.refl pid _, rfl⟩

theorem sameOf_reportDeath (ctx : MonitorContext F) {pid' : ℕ} (h : pid' ≠ pid) :
    SameOf pid ctx (ctx.reportDeath pid') := by
  unfold reportDeath
  split_ifs
  · refine ⟨rfl, ?_, Iff.rfl, Cursor.SameAt.refl pid _, ?_⟩
    · simp [markProcessLifecycle, h.symm]
    · rw [markProcessLifecycle, lifecyclesOf_lifecycle, if_neg h, List.append_nil]
  · exact SameOf.refl pid ctx

theorem sameOf_evict (ctx : MonitorContext F) {pid' : ℕ} (h : pid' ≠ pid) :
    SameOf pid ctx (ctx.evict pid') :=
  ⟨Function.update_of_ne h.symm _ _, Iff.rfl, by simp [evict, h.symm], ctx.cursor.sameAt_forget h,
    rfl⟩

theorem sameOf_markDied (ctx : MonitorContext F) {pid' : ℕ} (h : pid' ≠ pid) :
    SameOf pid ctx (ctx.markDied pid') := (sameOf_evict ctx h).trans (sameOf_reportDeath _ h)

theorem sameOf_warn (ctx : MonitorContext F) {pid' : ℕ} (h : pid' ≠ pid) :
    SameOf pid ctx (ctx.warnIfInterpretersDropped pid') := by
  unfold warnIfInterpretersDropped
  split_ifs
  · exact SameOf.refl pid ctx
  · exact ⟨rfl, Iff.rfl, by simp [h.symm], Cursor.SameAt.refl pid _, rfl⟩

/-- The flag and the report of a process's first read. -/
def markStarted (ctx : MonitorContext F) (pid : ℕ) : MonitorContext F :=
  if pid ∈ ctx.alivePids then ctx
  else { ctx with alivePids := insert pid ctx.alivePids }.markProcessLifecycle pid .started

theorem sameOf_markStarted (ctx : MonitorContext F) {pid' : ℕ} (h : pid' ≠ pid) :
    SameOf pid ctx (ctx.markStarted pid') := by
  unfold markStarted
  split_ifs
  · exact SameOf.refl pid ctx
  · refine ⟨rfl, ?_, Iff.rfl, Cursor.SameAt.refl pid _, ?_⟩
    · simp [markProcessLifecycle, h.symm]
    · rw [markProcessLifecycle, lifecyclesOf_lifecycle, if_neg h, List.append_nil]

variable [F64 F]

theorem report_eq (ctx : MonitorContext F) (pid occupant : ℕ) (stats : List GcStat) :
    (ctx.report pid occupant stats).1 =
      let ctx := ctx.markStarted pid
      let admitted := ctx.cursor.admitRecords pid stats
      let ctx := { ctx with cursor := admitted.1 }.warnIfInterpretersDropped pid
      { ctx with exporter := ctx.exporter ++ [.events pid occupant admitted.2] } := rfl

theorem sameOf_report (ctx : MonitorContext F) {pid' : ℕ} (h : pid' ≠ pid) (occupant : ℕ)
    (stats : List GcStat) : SameOf pid ctx (ctx.report pid' occupant stats).1 := by
  rw [report_eq]
  have hcursor : SameOf pid (ctx.markStarted pid') { ctx.markStarted pid' with
      cursor := ((ctx.markStarted pid').cursor.admitRecords pid' stats).1 } :=
    ⟨rfl, Iff.rfl, Iff.rfl, Cursor.sameAt_apply _ (.admitRecords pid' stats) h, rfl⟩
  refine ((sameOf_markStarted ctx h).trans (hcursor.trans (sameOf_warn _ h))).trans ?_
  exact ⟨rfl, Iff.rfl, Iff.rfl, Cursor.SameAt.refl pid _, lifecyclesOf_events pid _ _ _ _⟩

/-- **An operation on another PID leaves this one's state and reports alone.** -/
theorem sameOf_apply (ctx : MonitorContext F) {op : ContextOp} (h : op.pid ≠ pid) :
    SameOf pid ctx (ctx.apply op) := by
  cases op with
  | markDied pid' => exact sameOf_markDied ctx h
  | poll pid' env =>
    simp only [apply, poll_eq]
    cases readThrough (ctx.sessions pid') env with
    | unattached => exact SameOf.refl pid ctx
    | read session stats => exact (sameOf_hold ctx h session).trans (sameOf_report _ h _ _)
    | changed => exact (sameOf_evict ctx h).trans (sameOf_reportDeath _ h)
    | failed session => exact (sameOf_hold ctx h session).trans (sameOf_reportDeath _ h)

/-! ## What an operation makes of its own PID -/

omit [F64 F] in
theorem balanced_new (pid : ℕ) : (new : MonitorContext F).Balanced pid where
  alternating := alternating_nil
  alive := by simp [new, lifecyclesOf]
  warned := by simp [new, Cursor.new, Cursor.droppedCount]

omit [F64 F] in
theorem Balanced.hold (h : Balanced pid ctx) (session : PySession) :
    Balanced pid (ctx.hold pid session) := ⟨h.alternating, h.alive, h.warned⟩

omit [F64 F] in
theorem Balanced.reportDeath (h : Balanced pid ctx) : Balanced pid (ctx.reportDeath pid) := by
  unfold MonitorContext.reportDeath
  split_ifs with ha
  · have hodd := h.alive.mp ha
    refine ⟨?_, ?_, h.warned⟩
    · rw [markProcessLifecycle, lifecyclesOf_lifecycle, if_pos rfl]
      exact h.alternating.concat (by rw [if_neg (by omega)])
    · rw [markProcessLifecycle, lifecyclesOf_lifecycle, if_pos rfl, List.length_append,
        List.length_singleton]
      simp only [Finset.notMem_erase, false_iff]
      omega
  · exact h

omit [F64 F] in
theorem Balanced.markStarted (h : Balanced pid ctx) : Balanced pid (ctx.markStarted pid) := by
  unfold MonitorContext.markStarted
  split_ifs with ha
  · exact h
  · have heven : ¬ (lifecyclesOf pid ctx.exporter).length % 2 = 1 := fun ho => ha (h.alive.mpr ho)
    refine ⟨?_, ?_, h.warned⟩
    · rw [markProcessLifecycle, lifecyclesOf_lifecycle, if_pos rfl]
      exact h.alternating.concat (by rw [if_pos (by omega)])
    · rw [markProcessLifecycle, lifecyclesOf_lifecycle, if_pos rfl, List.length_append,
        List.length_singleton]
      simp only [Finset.mem_insert_self, true_iff]
      omega

omit [F64 F] in
theorem Balanced.evict (h : Balanced pid ctx) : Balanced pid (ctx.evict pid) where
  alternating := h.alternating
  alive := h.alive
  warned := by simp [MonitorContext.evict, Cursor.forget, Cursor.droppedCount]

theorem le_droppedCount_admitRecords (c : Cursor F) (pid : ℕ) (records : List GcStat) :
    c.droppedCount pid ≤ (c.admitRecords pid records).1.droppedCount pid := by
  have hretain : ∀ (c : Cursor F) (i : ℤ), c.droppedCount pid ≤ (c.retain pid i).droppedCount pid :=
    fun c i => by
      unfold Cursor.retain Cursor.droppedCount
      cases c.evicts pid i <;> simp [Cursor.dropInterpreter]
  have hraise : ∀ (c : Cursor F) (i m : ℤ),
      (c.raiseCertainty pid i m).droppedCount pid = c.droppedCount pid := fun c i m => by
    unfold Cursor.raiseCertainty
    split_ifs <;> rfl
  refine Mealy.exec_induction (P := fun c' : Cursor F => c.droppedCount pid ≤ c'.droppedCount pid)
    le_rfl fun c' hc' r _ => (hc'.trans (hretain c' r.interpreterId)).trans ?_
  unfold Cursor.admitRecord
  simp only
  split_ifs
  · exact (hraise _ r.interpreterId _).ge
  · exact le_rfl
  · exact le_rfl
  · rw [hraise]
    exact le_rfl

theorem Balanced.report (h : Balanced pid ctx) (occupant : ℕ) (stats : List GcStat) :
    Balanced pid (ctx.report pid occupant stats).1 := by
  have hs := h.markStarted
  have hle := le_droppedCount_admitRecords (ctx.markStarted pid).cursor pid stats
  rw [report_eq]
  unfold warnIfInterpretersDropped
  simp only
  split_ifs with h₀
  · refine ⟨?_, ?_, ?_⟩
    · rw [lifecyclesOf_events]; exact hs.alternating
    · rw [lifecyclesOf_events]; exact hs.alive
    · rw [hs.warned]
      simp only [h₀] at hle ⊢
      omega
  · refine ⟨?_, ?_, ?_⟩
    · rw [lifecyclesOf_events]; exact hs.alternating
    · rw [lifecyclesOf_events]; exact hs.alive
    · simp only [Finset.mem_insert_self, true_iff]
      omega

/-- **Every operation keeps the flags of every PID in step with its reports.** -/
theorem balanced_apply (h : Balanced pid ctx) (op : ContextOp) : Balanced pid (ctx.apply op) := by
  by_cases hp : op.pid = pid
  · cases op with
    | markDied pid' =>
      obtain rfl : pid' = pid := hp
      exact h.evict.reportDeath
    | poll pid' env =>
      obtain rfl : pid' = pid := hp
      simp only [apply, poll_eq]
      cases readThrough (ctx.sessions pid') env with
      | unattached => exact h
      | read session stats => exact (h.hold session).report _ _
      | changed => exact h.evict.reportDeath
      | failed session => exact (h.hold session).reportDeath
  · exact h.of_sameOf (sameOf_apply ctx hp)

theorem balanced_run (pid : ℕ) (ops : List ContextOp) : (run F ops).Balanced pid := by
  induction ops using List.reverseRecOn with
  | nil => exact balanced_new pid
  | append_singleton ops op ih => rw [run_concat]; exact balanced_apply ih op

omit [F64 F] in
theorem clear_markDied (ctx : MonitorContext F) (pid : ℕ) : Clear pid (ctx.markDied pid) := by
  unfold markDied reportDeath
  split_ifs with ha
  · exact ⟨Function.update_self _ _ _, Finset.notMem_erase _ _, Finset.notMem_erase _ _,
      ctx.cursor.blank_forget pid⟩
  · exact ⟨Function.update_self _ _ _, ha, Finset.notMem_erase _ _, ctx.cursor.blank_forget pid⟩

theorem clear_new (pid : ℕ) : Clear pid (new : MonitorContext F) :=
  ⟨rfl, Finset.notMem_empty pid, Finset.notMem_empty pid, Cursor.blank_new pid⟩

end MonitorContext

/-! ## The loop -/

namespace LoopState

open MonitorContext (Clear)

variable {F : Type} [F64 F] {W : WaitPolicy}

/-- Nothing is held of a PID that is not live, and no PID is live twice. -/
structure Tidy (s : LoopState F W) : Prop where
  nodup : s.alivePids.Nodup
  clear : ∀ pid, pid ∉ s.alivePids → Clear pid s.ctx

omit [F64 F] in
theorem Tidy.drop {s : LoopState F W} (h : s.Tidy) (pid : ℕ) : (s.drop pid).Tidy where
  nodup := h.nodup.filter _
  clear p hp := by
    by_cases he : p = pid
    · exact he ▸ s.ctx.clear_markDied pid
    · have hm : p ∉ s.alivePids := fun hm => hp (List.mem_filter.mpr ⟨hm, by simpa using he⟩)
      exact (h.clear p hm).of_sameOf (MonitorContext.sameOf_markDied s.ctx (Ne.symm he))

/-- **A poll of a live PID leaves nothing behind of the others**, and drops at most that one. -/
theorem Tidy.pollPid {s : LoopState F W} (h : s.Tidy) (env : IterEnv) {pid : ℕ}
    (hp : pid ∈ s.alivePids) : (s.pollPid env pid).1.Tidy := by
  have hpolled : ∀ t : LoopState F W, t.alivePids = s.alivePids →
      t.ctx = (s.ctx.poll pid (env.poll pid)).1 → t.Tidy := fun t ha hc =>
    { nodup := ha ▸ h.nodup
      clear := fun p hn => by
        rw [ha] at hn
        rw [hc]
        have hne : (ContextOp.poll pid (env.poll pid)).pid ≠ p := ne_of_mem_of_not_mem hp hn
        exact (h.clear p hn).of_sameOf (MonitorContext.sameOf_apply s.ctx hne) }
  unfold LoopState.pollPid
  simp only
  split_ifs
  · exact hpolled _ rfl rfl
  · have hdrop := (hpolled { s with ctx := (s.ctx.poll pid (env.poll pid)).1 } rfl rfl).drop pid
    exact ⟨hdrop.nodup, hdrop.clear⟩

theorem mem_pollPid {s : LoopState F W} (env : IterEnv) {pid p : ℕ} (hne : p ≠ pid)
    (hp : p ∈ s.alivePids) : p ∈ (s.pollPid env pid).1.alivePids := by
  unfold LoopState.pollPid
  simp only
  split_ifs
  · exact hp
  · exact List.mem_filter.mpr ⟨hp, by simpa using hne⟩

/-- The PIDs to poll are those live as the polls begin: each is still live when its turn comes. -/
theorem Tidy.pollPids {s : LoopState F W} (h : s.Tidy) (env : IterEnv) {pids : List ℕ}
    (hn : pids.Nodup) (hm : ∀ p ∈ pids, p ∈ s.alivePids) :
    (Mealy.exec (LoopState.pollPid env) s pids).Tidy := by
  induction pids generalizing s with
  | nil => exact h
  | cons pid pids ih =>
    obtain ⟨hpid, hn⟩ := List.nodup_cons.mp hn
    rw [Mealy.exec_cons]
    refine ih (h.pollPid env (hm pid List.mem_cons_self)) hn fun p hp => ?_
    exact mem_pollPid env (fun he => hpid (he ▸ hp)) (hm p (List.mem_cons_of_mem pid hp))

omit [F64 F] in
theorem nodup_foldl_addPid {l alivePids : List ℕ} (h : alivePids.Nodup) :
    (l.foldl addPid alivePids).Nodup := by
  induction l generalizing alivePids with
  | nil => exact h
  | cons pid l ih =>
    refine ih ?_
    unfold addPid
    split_ifs with hp
    · exact h
    · exact List.nodup_append.mpr ⟨h, List.nodup_singleton pid, fun p hm q hq he =>
        hp (List.mem_singleton.mp hq ▸ he ▸ hm)⟩

omit [F64 F] in
theorem Tidy.discover {s : LoopState F W} (h : s.Tidy) (env : IterEnv) :
    (s.discover env).1.Tidy := by
  have hv : (Mealy.exec (dropVanished (currentPidsSet s.alivePids env.children)) s
      (env.seenOrder.list s.seenPids)).Tidy := by
    refine Mealy.exec_induction (P := Tidy) h fun t ht pid _ => ?_
    unfold dropVanished
    split_ifs
    · exact ht
    · exact ht.drop pid
  exact ⟨nodup_foldl_addPid hv.nodup,
    fun p hp => hv.clear p fun hm => hp (mem_foldl_addPid.mpr (Or.inl hm))⟩

/-- **Every iteration leaves nothing of a PID that is not live.** -/
theorem tidy_iteration {s : LoopState F W} (h : s.Tidy) (env : IterEnv) :
    (s.iteration env).1.Tidy := by
  have hd := h.discover env
  have hp : ((s.discover env).1.pollAll env).1.Tidy :=
    Tidy.pollPids (s := { (s.discover env).1 with anyAlive := false }) ⟨hd.nodup, hd.clear⟩ env
      hd.nodup fun _ hm => hm
  unfold iteration
  simp only
  split_ifs
  · exact h
  · exact ⟨h.nodup, h.clear⟩
  · exact ⟨hd.nodup, hd.clear⟩
  · exact ⟨hp.nodup, hp.clear⟩

theorem tidy_exec (mainPid : ℕ) (envs : List IterEnv) :
    (Mealy.exec iteration (start (F := F) (W := W) mainPid) envs).Tidy :=
  Mealy.exec_induction (P := Tidy)
    ⟨List.nodup_singleton mainPid, fun pid _ => MonitorContext.clear_new pid⟩
    fun _ hs env _ => tidy_iteration hs env

omit [F64 F] in
theorem clear_markRemaining {s : LoopState F W} {pids : List ℕ} {pid : ℕ}
    (h : pid ∉ pids → Clear pid s.ctx) : Clear pid (Mealy.exec markRemaining s pids).ctx := by
  induction pids generalizing s with
  | nil => exact h List.not_mem_nil
  | cons p pids ih =>
    rw [Mealy.exec_cons]
    refine ih fun hn => ?_
    by_cases he : pid = p
    · exact he ▸ s.ctx.clear_markDied pid
    · exact (h (by simp [he, hn])).of_sameOf (MonitorContext.sameOf_markDied s.ctx (Ne.symm he))

/-- Once the loop has been left nothing is held of any PID. -/
theorem clear_runLoop {mainPid : ℕ} {envs : List IterEnv}
    (h : (runLoop F W mainPid envs).1.left = true) (pid : ℕ) :
    Clear pid (runLoop F W mainPid envs).1.ctx := by
  have ht := tidy_exec (F := F) (W := W) mainPid envs
  unfold runLoop at h ⊢
  simp only at h ⊢
  split_ifs at h ⊢ with hleft
  · exact clear_markRemaining (ht.clear pid)
  · exact absurd h hleft

/-- **The lifecycle of every PID is balanced and leaks nothing**, whatever discovery, polls and
policies answer: at every moment of a run its reports are starts and deaths in turn, a start first,
and it is warned of exactly when interpreters of it were dropped; once the loop returns, every
start was followed by a death and no session, flag or ring of it is left. -/
theorem lifecycle_balanced (mainPid : ℕ) (envs : List IterEnv) (pid : ℕ) :
    let r := runLoop F W mainPid envs
    r.1.ctx = MonitorContext.run F r.2 ∧
    (∀ before after, r.2 = before ++ after →
      Alternating (lifecyclesOf pid (MonitorContext.run F before).exporter) ∧
      (pid ∈ (MonitorContext.run F before).overflowedPids ↔
        0 < (MonitorContext.run F before).cursor.droppedCount pid)) ∧
    (r.1.left = true →
      (∀ i, (lifecyclesOf pid r.1.ctx.exporter)[i]? = some .started →
        (lifecyclesOf pid r.1.ctx.exporter)[i + 1]? = some .died) ∧
      r.1.ctx.sessions pid = none ∧ pid ∉ r.1.ctx.alivePids ∧ pid ∉ r.1.ctx.overflowedPids ∧
      ∀ K : RingKey, K.pid = pid → r.1.ctx.cursor.observation K = none) := by
  have hctx := runLoop_ctx (F := F) (W := W) mainPid envs
  refine ⟨hctx, fun before after _ => ?_, fun hleft => ?_⟩
  · have hb := MonitorContext.balanced_run (F := F) pid before
    exact ⟨hb.alternating, hb.warned⟩
  · have hc := clear_runLoop hleft pid
    have hb := MonitorContext.balanced_run (F := F) pid (runLoop F W mainPid envs).2
    rw [← hctx] at hb
    have heven : (lifecyclesOf pid (runLoop F W mainPid envs).1.ctx.exporter).length % 2 = 0 := by
      have := mt hb.alive.mpr hc.alive
      omega
    exact ⟨fun i hi => hb.alternating.started_died heven hi, hc.session, hc.alive, hc.warned,
      fun K hK => hc.cursor.rings K hK⟩

end LoopState

end GcScope
