import GcScope.Monitor.Context

/-!
# A PID that changes hands

The processes that hold a PID one after another count their Collections from the start, so what the
cursor holds of one must not meet the Records of the next.

* `served`: the process whose Records were last read through the session now held for a PID.
* `Tracks`: what the context holds of a PID belongs to that process alone, kept by
  **`tracks_apply`**.
* **`never_hides_iff`**: the first read of each process meets an empty cursor exactly when it goes
  through a session no Records were read through before.
-/

set_option autoImplicit false

namespace GcScope

open LittleEndian

/-- The Record was handed to the exporter as one of this process. -/
def ExportedBy (log : List ExporterCall) (pid occupant : ℕ) (r : GcStat) : Prop :=
  ∃ records, .events pid occupant records ∈ log ∧ r ∈ records

namespace MonitorContext

open Cursor (FoldOf SameAt)

/-! ## What the operations do to one process -/

section Effects

variable {F : Type}

theorem reportDeath_cursor (ctx : MonitorContext F) (pid : ℕ) :
    (ctx.reportDeath pid).cursor = ctx.cursor := by
  unfold reportDeath
  split_ifs <;> rfl

theorem reportDeath_events (ctx : MonitorContext F) (pid : ℕ) {p o : ℕ} {records : List GcStat} :
    .events p o records ∈ (ctx.reportDeath pid).exporter ↔ .events p o records ∈ ctx.exporter := by
  unfold reportDeath
  split_ifs
  · simp [markProcessLifecycle]
  · exact Iff.rfl

variable [F64 F]

theorem report_cursor (ctx : MonitorContext F) (pid occupant : ℕ) (stats : List GcStat) :
    (ctx.report pid occupant stats).1.cursor = (ctx.cursor.admitRecords pid stats).1 := by
  unfold report eventsFor warnIfInterpretersDropped
  split_ifs <;> simp only <;> split_ifs <;> rfl

theorem report_events (ctx : MonitorContext F) (pid occupant : ℕ) (stats : List GcStat) {p o : ℕ}
    {records : List GcStat} :
    .events p o records ∈ (ctx.report pid occupant stats).1.exporter ↔
      .events p o records ∈ ctx.exporter ∨
        p = pid ∧ o = occupant ∧ records = (ctx.cursor.admitRecords pid stats).2 := by
  unfold report eventsFor warnIfInterpretersDropped
  split_ifs <;> simp only <;> split_ifs <;> simp [markProcessLifecycle]

theorem apply_frame (ctx : MonitorContext F) {pid : ℕ} {op : ContextOp} (h : op.pid ≠ pid) :
    SameAt pid ctx.cursor (ctx.apply op).cursor ∧
      ∀ o records, .events pid o records ∈ (ctx.apply op).exporter ↔
        .events pid o records ∈ ctx.exporter := by
  cases op with
  | markDied pid' =>
    refine ⟨?_, fun o records => reportDeath_events (ctx.evict pid') pid'⟩
    rw [apply, markDied, reportDeath_cursor]
    exact ctx.cursor.sameAt_forget h
  | poll pid' env =>
    simp only [apply, poll_eq]
    cases readThrough (ctx.sessions pid') env with
    | unattached => exact ⟨SameAt.refl _ _, fun o records => Iff.rfl⟩
    | read session stats =>
      refine ⟨?_, fun o records => (report_events (ctx.hold pid' session) _ _ _).trans
        (or_iff_left fun hp => h hp.1.symm)⟩
      simp only [report_cursor]
      exact ctx.cursor.sameAt_apply (.admitRecords pid' stats) h
    | changed =>
      refine ⟨?_, fun o records => reportDeath_events (ctx.evict pid') pid'⟩
      simp only [onInvalid, reportDeath_cursor]
      exact ctx.cursor.sameAt_forget h
    | failed session =>
      refine ⟨?_, fun o records => reportDeath_events (ctx.hold pid' session) pid'⟩
      simp only [onInvalid, reportDeath_cursor]
      exact SameAt.refl _ _

end Effects

/-! ## The process a PID's state belongs to -/

section Served

variable {F : Type} [F64 F]

/-- The process whose Records were last read through the session held after an operation. -/
def servedAfter (pid : ℕ) (ctx : MonitorContext F) (served : Option ℕ) : ContextOp → Option ℕ
  | .poll pid' env =>
    if pid' = pid then
      match readThrough (ctx.sessions pid) env with
      | .read _ stats => if stats.isEmpty then served else some env.occupant
      | .changed => none
      | .unattached => served
      | .failed _ => served
    else served
  | .markDied pid' => if pid' = pid then none else served

variable (F) in
/-- The process whose Records were last read through the session now held for `pid`. -/
def served (pid : ℕ) (ops : List ContextOp) : Option ℕ :=
  (ops.foldl (fun s op => (apply s.1 op, servedAfter pid s.1 s.2 op))
    ((new : MonitorContext F), none)).2

theorem served_concat (pid : ℕ) (ops : List ContextOp) (op : ContextOp) :
    served F pid (ops ++ [op]) = servedAfter pid (run F ops) (served F pid ops) op := by
  have hrun : ∀ ops : List ContextOp, (ops.foldl (fun s op =>
      (apply s.1 op, servedAfter pid s.1 s.2 op)) ((new : MonitorContext F), none)).1 =
        run F ops := by
    intro ops
    induction ops using List.reverseRecOn with
    | nil => rfl
    | append_singleton ops op ih =>
      rw [List.foldl_append, List.foldl_cons, List.foldl_nil, ih, run_concat]
  rw [served, List.foldl_append, List.foldl_cons, List.foldl_nil, hrun]
  rfl

/-- No call to the exporter speaks of this process. -/
def FirstRead (ctx : MonitorContext F) (pid occupant : ℕ) : Prop :=
  ∀ records, .events pid occupant records ∉ ctx.exporter

/-- What the context holds of a PID belongs to the process its session was last read for. -/
structure Tracks (pid : ℕ) (ctx : MonitorContext F) (served : Option ℕ) : Prop where
  blank : served = none → ctx.cursor.Blank pid
  kept : ∀ o ∈ served, ctx.cursor.retained[pid]? ≠ none
  seen : ∀ o ∈ served, ¬ ctx.FirstRead pid o
  top : ∀ o ∈ served, ∀ o' records, .events pid o' records ∈ ctx.exporter → o' ≤ o
  live : ∀ o ∈ served, ∀ K : RingKey, K.pid = pid →
    FoldOf (ExportedBy ctx.exporter pid o) ctx.cursor.rings[K]?
  retired : ∀ e ∈ ctx.cursor.retired, e.1.pid = pid →
    ∃ o, FoldOf (ExportedBy ctx.exporter pid o) (some e.2.2)

variable {pid : ℕ} {ctx ctx' : MonitorContext F} {served : Option ℕ}

theorem Tracks.frame (h : Tracks pid ctx served) (hc : SameAt pid ctx.cursor ctx'.cursor)
    (he : ∀ o records, .events pid o records ∈ ctx'.exporter ↔
      .events pid o records ∈ ctx.exporter) : Tracks pid ctx' served where
  blank hs := (h.blank hs).of_sameAt hc
  kept o ho := hc.retained ▸ h.kept o ho
  seen o ho hf := h.seen o ho fun records hm => hf records ((he o records).mpr hm)
  top o ho o' records hm := h.top o ho o' records ((he o' records).mp hm)
  live o ho K hK := by
    rw [hc.rings K hK]
    exact (h.live o ho K hK).mono fun r ⟨records, hm, hr⟩ => ⟨records, (he o records).mpr hm, hr⟩
  retired e hm hp := by
    have hm' : e ∈ ctx.cursor.retired.filter fun e => e.1.pid = pid := by
      rw [← hc.retired]
      exact List.mem_filter.mpr ⟨hm, by simpa using hp⟩
    obtain ⟨o, ho⟩ := h.retired e (List.mem_of_mem_filter hm') hp
    exact ⟨o, ho.mono fun r ⟨records, hm, hr⟩ => ⟨records, (he o records).mpr hm, hr⟩⟩

/-- A read for the process already served, or for the first one, is folded into its state. -/
theorem Tracks.report (h : Tracks pid ctx served) {o : ℕ} (hs : ∀ o' ∈ served, o' = o)
    (ht : ∀ o' records, .events pid o' records ∈ ctx.exporter → o' ≤ o) (stats : List GcStat) :
    Tracks pid (ctx.report pid o stats).1 (if stats.isEmpty then served else some o) := by
  have hcall : .events pid o (ctx.cursor.admitRecords pid stats).2 ∈
      (ctx.report pid o stats).1.exporter :=
    (report_events ctx pid o stats).mpr (Or.inr ⟨rfl, rfl, rfl⟩)
  have hmono : ∀ o' r, ExportedBy ctx.exporter pid o' r →
      ExportedBy (ctx.report pid o stats).1.exporter pid o' r := fun o' r ⟨records, hm, hr⟩ =>
    ⟨records, (report_events ctx pid o stats).mpr (Or.inl hm), hr⟩
  -- either way the process served is the one just read
  have hafter : ∀ o' ∈ (if stats.isEmpty then served else some o), o' = o := by
    split_ifs
    · exact hs
    · exact fun o' ho' => (Option.some.inj ho').symm
  refine ⟨fun hn => ?_, fun o' ho' => ?_, fun o' ho' hf => ?_, fun o' ho' o'' records hm => ?_,
    fun o' ho' K hK => ?_, fun e hm hp => ?_⟩
  · split_ifs at hn with he
    rw [report_cursor, List.isEmpty_iff.mp he]
    exact (h.blank hn).of_sameAt (ctx.cursor.sameAt_tick pid)
  · rw [report_cursor]
    split_ifs at ho' with he
    · rw [List.isEmpty_iff.mp he]
      exact h.kept o' ho'
    · exact ctx.cursor.retained_admitRecords pid (by simpa using he)
  · obtain rfl := hafter o' ho'
    exact hf _ hcall
  · obtain rfl := hafter o' ho'
    rcases (report_events ctx pid o' stats).mp hm with hm | ⟨-, rfl, -⟩
    · exact ht o'' records hm
    · exact le_rfl
  · obtain rfl := hafter o' ho'
    rw [report_cursor]
    refine Cursor.foldOf_admitRecords ?_ fun r hr => ⟨_, hcall, hr⟩
    cases hserved : served with
    | none =>
      rw [(h.blank hserved).rings K hK]
      exact fun obs ho => nomatch ho
    | some o'' =>
      obtain rfl := hs o'' hserved
      exact (h.live o'' hserved K hK).mono (hmono o'')
  · rw [report_cursor, Cursor.admitRecords_retired] at hm
    obtain ⟨o', ho'⟩ := h.retired e hm hp
    exact ⟨o', ho'.mono (hmono o')⟩

theorem Tracks.evict (h : Tracks pid ctx served) : Tracks pid (ctx.evict pid) none := by
  refine ⟨fun _ => ctx.cursor.blank_forget pid, nofun, nofun, nofun, nofun, fun e hm hp => ?_⟩
  rcases ctx.cursor.mem_retired_forget hm with hm | ⟨-, hring⟩
  · exact h.retired e hm hp
  · cases hserved : served with
    | none =>
      rw [(h.blank hserved).rings e.1 hp] at hring
      cases hring
    | some o => exact ⟨o, hring ▸ h.live o hserved e.1 hp⟩

theorem Tracks.reportDeath (h : Tracks pid ctx served) (pid' : ℕ) :
    Tracks pid (ctx.reportDeath pid') served :=
  h.frame (by rw [reportDeath_cursor]; exact SameAt.refl _ _)
    fun o records => reportDeath_events ctx pid'

theorem Tracks.hold (h : Tracks pid ctx served) (pid' : ℕ) (session : PySession) :
    Tracks pid (ctx.hold pid' session) served :=
  h.frame (SameAt.refl _ _) fun _ _ => Iff.rfl

/-- **Every operation keeps it**, a read of another process through the same session apart. -/
theorem tracks_apply (h : Tracks pid ctx served) {op : ContextOp}
    (hop : ∀ env, op = .poll pid env → ∀ session stats,
      readThrough (ctx.sessions pid) env = .read session stats →
        (∀ o ∈ served, o = env.occupant) ∧
          ∀ o records, .events pid o records ∈ ctx.exporter → o ≤ env.occupant) :
    Tracks pid (ctx.apply op) (servedAfter pid ctx served op) := by
  by_cases hp : op.pid = pid
  · cases op with
    | markDied pid' =>
      obtain rfl : pid' = pid := hp
      rw [servedAfter, if_pos rfl]
      exact h.evict.reportDeath pid'
    | poll pid' env =>
      obtain rfl : pid' = pid := hp
      rw [servedAfter, if_pos rfl, apply, poll_eq]
      cases hr : readThrough (ctx.sessions pid') env with
      | unattached => exact h
      | read session stats =>
        obtain ⟨hs, ht⟩ := hop env rfl session stats hr
        exact (h.hold pid' session).report hs ht stats
      | changed => exact h.evict.reportDeath pid'
      | failed session => exact (h.hold pid' session).reportDeath pid'
  · obtain ⟨hc, he⟩ := ctx.apply_frame hp
    have hs : servedAfter pid ctx served op = served := by
      cases op <;> exact if_neg hp
    rw [hs]
    exact h.frame hc he

/-! ## Whole runs -/

/-- The processes that hold a PID come one after another. -/
def Successive (pid : ℕ) (ops : List ContextOp) : Prop :=
  (ops.filterMap fun
    | .poll pid' env => if pid' = pid then some env.occupant else none
    | .markDied _ => none).Pairwise (· ≤ ·)

instance (pid : ℕ) (ops : List ContextOp) : Decidable (Successive pid ops) := by
  unfold Successive; infer_instance

variable (F) in
/-- Whenever a poll first reads a process, no Records were read through the session it uses. -/
def ReadsAfresh (pid : ℕ) (ops : List ContextOp) : Prop :=
  ∀ pre env post, ops = pre ++ .poll pid env :: post →
    ∀ session stats, readThrough ((run F pre).sessions pid) env = .read session stats →
      (run F pre).FirstRead pid env.occupant → MonitorContext.served F pid pre = none

variable (F) in
/-- No process is hidden behind the one that held its PID before. -/
structure NeverHides (pid : ℕ) (ops : List ContextOp) : Prop where
  /-- A process's first read meets an empty cursor. -/
  empty : ∀ pre env post, ops = pre ++ .poll pid env :: post →
    ∀ session stats, readThrough ((run F pre).sessions pid) env = .read session stats →
      (run F pre).FirstRead pid env.occupant → (run F pre).cursor.Blank pid
  /-- It refuses a complete Record only for another one of the same read. -/
  refused : ∀ pre env post, ops = pre ++ .poll pid env :: post →
    ∀ session stats, readThrough ((run F pre).sessions pid) env = .read session stats →
      (run F pre).FirstRead pid env.occupant →
        ∀ before r after, sortCandidates stats = before ++ r :: after → r.Eligible →
          (Cursor.admitRecord pid (Mealy.exec (Cursor.admitRecord pid) (run F pre).cursor.tick
            before) r).2 = [] →
              ∃ r' ∈ before, r'.ring pid = r.ring pid ∧ r.collections ≤ r'.collections
  /-- No accumulator spans two processes, kept or retired. -/
  live : ∀ pre post, ops = pre ++ post → ∀ K : RingKey, K.pid = pid →
    ∃ o, FoldOf (ExportedBy (run F pre).exporter pid o) (run F pre).cursor.rings[K]?
  retired : ∀ pre post, ops = pre ++ post → ∀ e ∈ (run F pre).cursor.retired, e.1.pid = pid →
    ∃ o, FoldOf (ExportedBy (run F pre).exporter pid o) (some e.2.2)

theorem exists_poll_of_events {o : ℕ} {records : List GcStat} {ops : List ContextOp}
    (h : .events pid o records ∈ (run F ops).exporter) :
    ∃ env, .poll pid env ∈ ops ∧ env.occupant = o := by
  induction ops using List.reverseRecOn with
  | nil => cases h
  | append_singleton ops op ih =>
    have hold : .events pid o records ∈ (run F ops).exporter →
        ∃ env, .poll pid env ∈ ops ++ [op] ∧ env.occupant = o := fun h => by
      obtain ⟨env, hm, he⟩ := ih h
      exact ⟨env, List.mem_append_left _ hm, he⟩
    rw [run_concat] at h
    by_cases hp : op.pid = pid
    · cases op with
      | markDied pid' => exact hold ((reportDeath_events ((run F ops).evict pid') pid').mp h)
      | poll pid' env =>
        obtain rfl : pid' = pid := hp
        simp only [apply, poll_eq] at h
        cases hr : readThrough ((run F ops).sessions pid') env with
        | unattached => rw [hr] at h; exact hold h
        | read session stats =>
          rw [hr] at h
          rcases (report_events ((run F ops).hold pid' session) _ _ _).mp h with h | ⟨-, rfl, -⟩
          · exact hold h
          · exact ⟨env, by simp, rfl⟩
        | changed =>
          rw [hr] at h
          exact hold ((reportDeath_events ((run F ops).evict pid') pid').mp h)
        | failed session =>
          rw [hr] at h
          exact hold ((reportDeath_events ((run F ops).hold pid' session) pid').mp h)
    · exact hold (((run F ops).apply_frame hp).2 o records |>.mp h)

theorem Successive.of_append {ops ops' : List ContextOp} (h : Successive pid (ops ++ ops')) :
    Successive pid ops := by
  rw [Successive, List.filterMap_append] at h
  exact (List.pairwise_append.mp h).1

theorem Successive.le {pre post : List ContextOp} {env env' : PollEnv}
    (h : Successive pid (pre ++ .poll pid env :: post)) (hm : .poll pid env' ∈ pre) :
    env'.occupant ≤ env.occupant := by
  rw [Successive, List.filterMap_append] at h
  refine (List.pairwise_append.mp h).2.2 _ (List.mem_filterMap.mpr ⟨_, hm, ?_⟩) _
    (List.mem_filterMap.mpr ⟨_, List.mem_cons_self, ?_⟩)
  · exact if_pos rfl
  · exact if_pos rfl

theorem ReadsAfresh.of_append {ops ops' : List ContextOp} (h : ReadsAfresh F pid (ops ++ ops')) :
    ReadsAfresh F pid ops := fun pre env post e =>
  h pre env (post ++ ops') (by rw [e, List.append_assoc, List.cons_append])

theorem NeverHides.of_append {ops ops' : List ContextOp} (h : NeverHides F pid (ops ++ ops')) :
    NeverHides F pid ops where
  empty pre env post e :=
    h.empty pre env (post ++ ops') (by rw [e, List.append_assoc, List.cons_append])
  refused pre env post e :=
    h.refused pre env (post ++ ops') (by rw [e, List.append_assoc, List.cons_append])
  live pre post e := h.live pre (post ++ ops') (by rw [e, List.append_assoc])
  retired pre post e := h.retired pre (post ++ ops') (by rw [e, List.append_assoc])

theorem tracks_new (pid : ℕ) : Tracks pid (new : MonitorContext F) none :=
  ⟨fun _ => Cursor.blank_new pid, nofun, nofun, nofun, nofun, fun _ h => nomatch h⟩

/-- **Over a whole run what is held of a PID belongs to one process at a time.** -/
theorem tracks_run {ops : List ContextOp} (hs : Successive pid ops) (ha : ReadsAfresh F pid ops) :
    Tracks pid (run F ops) (MonitorContext.served F pid ops) := by
  induction ops using List.reverseRecOn with
  | nil => exact tracks_new pid
  | append_singleton ops op ih =>
    have h := ih hs.of_append ha.of_append
    rw [run_concat, served_concat]
    refine tracks_apply h fun env hop session stats hr => ?_
    subst hop
    have hle : ∀ o records, .events pid o records ∈ (run F ops).exporter → o ≤ env.occupant :=
      fun o records hm => by
        obtain ⟨env', hm', rfl⟩ := exists_poll_of_events hm
        exact hs.le hm'
    refine ⟨fun o ho => ?_, hle⟩
    by_contra hne
    -- the process polled now comes after the one served, so it was not read yet
    have hfirst : (run F ops).FirstRead pid env.occupant := fun records hm =>
      hne (le_antisymm (by
        obtain ⟨records', hm'⟩ := not_forall_not.mp (h.seen o ho)
        exact hle o records' hm') (h.top o ho _ records hm))
    rw [ha ops env [] rfl session stats hr hfirst] at ho
    cases ho

/-- What is held belongs to some process, at the latest to none. -/
theorem Tracks.exists_foldOf (h : Tracks pid ctx served) {K : RingKey} (hK : K.pid = pid) :
    ∃ o, FoldOf (ExportedBy ctx.exporter pid o) ctx.cursor.rings[K]? := by
  cases hs : served with
  | none =>
    refine ⟨0, ?_⟩
    rw [(h.blank hs).rings K hK]
    exact fun obs ho => nomatch ho
  | some o => exact ⟨o, h.live o hs K hK⟩

/-- **A process is never hidden behind the one that held its PID before, exactly when no poll first
reads one through a session that Records were read through already.** -/
theorem never_hides_iff {ops : List ContextOp} (hs : Successive pid ops) :
    NeverHides F pid ops ↔ ReadsAfresh F pid ops := by
  constructor
  · intro h
    induction ops using List.reverseRecOn with
    | nil => exact fun pre env post e => by cases pre <;> cases e
    | append_singleton ops op ih =>
      have ha := ih hs.of_append h.of_append
      intro pre env post e session stats hr hf
      rcases List.eq_nil_or_concat post with rfl | ⟨post, last, rfl⟩
      · obtain ⟨rfl, he⟩ := List.append_inj' e rfl
        cases hserved : MonitorContext.served F pid ops with
        | none => rfl
        | some o =>
          exact absurd (h.empty ops env [] e session stats hr hf).retained
            ((tracks_run hs.of_append ha).kept o hserved)
      · rw [List.concat_eq_append, ← List.cons_append, ← List.append_assoc] at e
        exact ha pre env post (List.append_inj' e rfl).1 session stats hr hf
  · intro ha
    have hblank : ∀ pre env post, ops = pre ++ .poll pid env :: post →
        ∀ session stats, readThrough ((run F pre).sessions pid) env = .read session stats →
          (run F pre).FirstRead pid env.occupant → (run F pre).cursor.Blank pid := by
      rintro pre env post rfl session stats hr hf
      exact (tracks_run hs.of_append ha.of_append).blank (ha pre env post rfl session stats hr hf)
    refine ⟨hblank, fun pre env post e session stats hr hf before r after _ he hn => ?_, ?_, ?_⟩
    · exact Cursor.exists_of_refused (hblank pre env post e session stats hr hf) he hn
    · rintro pre post rfl K hK
      exact (tracks_run hs.of_append ha.of_append).exists_foldOf hK
    · rintro pre post rfl e hm hp
      exact (tracks_run hs.of_append ha.of_append).retired e hm hp

end Served

/-! ## A relaunch under the same command line -/

/-- A 3.8 process: one GC state, in its runtime, with counters and no timestamps. -/
def countingSession : PySession where
  memory := .unreadable
  runtimeAddr := 0x10000
  resolved := .legacy { OffsetTable.blank.setInline 24
    ⟨24, [("collections", 0), ("collected", 8), ("uncollectable", 16)]⟩ 0x80 with
      versionHex := 0x03080000
      runtimeInterpretersHead := 0x20
      interpId := 0x10
      runtimeGc := some 0x158 }
  storedHex := none
  exeKey := some ("/usr/bin/python3.8", 1)
  cmdline := some "python3.8 app.py"

/-- Its memory after `n` young Collections. -/
def countingMemory (n : ℕ) : ProcessMemory :=
  .padded fun addr => if addr = 0x101d8 then wordBytes (BitVec.ofNat 64 n) else []

/-- A process of `n` young Collections, attached to when no session is held. -/
def attaching (occupant n : ℕ) : PollEnv where
  occupant := occupant
  attached := some countingSession
  memory := countingMemory n
  cmdline := none
  reopened := none
  retryMemory := .unreadable

/-- A process of `n` young Collections the held handle does not reach, found under this command line
and the binary of the session. -/
def relaunched (cmdline : String) (occupant n : ℕ) : PollEnv where
  occupant := occupant
  attached := none
  memory := .unreadable
  cmdline := some cmdline
  reopened := some ⟨countingMemory n, 0x10000, some ("/usr/bin/python3.8", 1)⟩
  retryMemory := countingMemory n

/-- The Record of a process of `n` young Collections. -/
def countingRecord (n : ℕ) : GcStat :=
  ⟨0, 0, 0, wordsBytes [BitVec.ofNat 64 n, 0, 0],
    ⟨24, [("collections", 0), ("collected", 8), ("uncollectable", 16)]⟩⟩

/-- **A process relaunched under the same command line has its Records refused** for the counters of
the one before. -/
theorem hides_relaunched : ¬ NeverHides (Secs fun w => w.toInt) 7
    [.poll 7 (attaching 0 5), .poll 7 (relaunched "python3.8 app.py" 1 1)] := by
  intro h
  have hlog : (run (Secs fun w => w.toInt) [.poll 7 (attaching 0 5)]).exporter =
      [.lifecycle 7 .started, .events 7 0 [countingRecord 5]] := by decide +kernel
  -- the new process's first Record is the first one offered, yet refused
  obtain ⟨r', hr', -⟩ := h.refused [.poll 7 (attaching 0 5)] _ [] rfl _
    [countingRecord 1, { countingRecord 0 with generation := 1 },
      { countingRecord 0 with generation := 2 }] rfl
    (fun records hm => by rw [hlog] at hm; simp [relaunched] at hm)
    [] (countingRecord 1) _ rfl (by decide) (by decide +kernel)
  cases hr'

/-- A process found under another command line is attached to anew, and read in full. -/
theorem never_hides_changed : NeverHides (Secs fun w => w.toInt) 7
    [.poll 7 (attaching 0 5), .poll 7 (relaunched "python3.8 other.py" 1 1),
      .poll 7 (attaching 1 1)] := by
  have hserved : served (Secs fun w => w.toInt) 7
      [.poll 7 (attaching 0 5), .poll 7 (relaunched "python3.8 other.py" 1 1)] = none := by
    decide +kernel
  have hchanged : readThrough ((run (Secs fun w => w.toInt) [.poll 7 (attaching 0 5)]).sessions 7)
      (relaunched "python3.8 other.py" 1 1) = .changed := by rfl
  refine (never_hides_iff (by decide)).mpr fun pre env post e session stats hr _ => ?_
  rcases pre with _ | ⟨a, _ | ⟨b, _ | ⟨c, pre⟩⟩⟩
  · rfl
  · obtain ⟨rfl, e'⟩ := List.cons.inj e
    obtain ⟨h, -⟩ := List.cons.inj e'
    obtain ⟨-, rfl⟩ := ContextOp.poll.inj h
    rw [hchanged] at hr
    cases hr
  · obtain ⟨rfl, e'⟩ := List.cons.inj e
    obtain ⟨rfl, -⟩ := List.cons.inj e'
    exact hserved
  · simp at e

end MonitorContext

end GcScope
