import GcScope.Monitor.Reuse
import GcScope.Monitor.RunLoop

/-!
# PIDs that stop being reported

The loop means to drop a PID it has seen once no other live PID reports it as a child. The PIDs it
tests are all live, and the live PIDs are in the set it tests them against, so the test never fires.

* `Vanished`, `Dropped`: a PID to drop, and what dropping it would come to.
* **`poll_mem_iteration`**: an iteration polls every PID that is live as it begins.
* **`drops_vanished_iff`**: the loop drops what vanishes in the runs where nothing does.
-/

set_option autoImplicit false

namespace GcScope

namespace LoopState

variable {F : Type} {W : WaitPolicy}

/-- The PID was seen before, is not the root, and no other live PID reports it any more. -/
def Vanished (s : LoopState F W) (mainPid : ℕ) (env : IterEnv) (pid : ℕ) : Prop :=
  pid ∈ s.seenPids ∧ pid ≠ mainPid ∧ ∀ p ∈ s.alivePids, p ≠ pid → pid ∉ env.children p

/-- The iteration from `s` to `s'` drops this PID. -/
structure Dropped (pid : ℕ) (s s' : LoopState F W) (ops : List ContextOp) : Prop where
  marked : .markDied pid ∈ ops
  session : s'.ctx.sessions pid = none
  cursor : s'.ctx.cursor.Blank pid
  flags : pid ∉ s'.ctx.overflowedPids ∧ pid ∉ s'.ctx.alivePids
  /-- A PID reported started is reported died once more. -/
  diedOnce : s'.ctx.exporter.count (.lifecycle pid .died) =
    s.ctx.exporter.count (.lifecycle pid .died) + if pid ∈ s.ctx.alivePids then 1 else 0
  notLive : pid ∉ s'.alivePids
  notPolled : ∀ env, .poll pid env ∉ ops

variable [F64 F]

theorem poll_mem_pollPid (env : IterEnv) (s : LoopState F W) (pid : ℕ) :
    .poll pid (env.poll pid) ∈ (pollPid env s pid).2 := by
  unfold pollPid
  simp only
  split_ifs <;> exact List.mem_cons_self

/-- **Every PID that is live as an iteration begins is polled in it.** -/
theorem poll_mem_iteration {s : LoopState F W} (h : s.Settled) (hl : s.left = false)
    {env : IterEnv} (hr : env.running = true) {pid : ℕ} (hp : pid ∈ s.alivePids) :
    .poll pid (env.poll pid) ∈ (iteration s env).2 := by
  have hfound : pid ∈ (s.discover env).1.alivePids := by
    rw [discover_of_settled h]
    exact mem_foldl_addPid.mpr (Or.inl hp)
  have hne : (s.discover env).1.alivePids.isEmpty = false :=
    List.isEmpty_eq_false_iff.mpr (List.ne_nil_of_mem hfound)
  obtain ⟨before, after, he⟩ := List.append_of_mem hfound
  have hpoll : .poll pid (env.poll pid) ∈ ((s.discover env).1.pollAll env).2 :=
    (Mealy.mem_outs _).mpr ⟨before, pid, after, he, poll_mem_pollPid env _ pid⟩
  rw [iteration, hl, hr]
  simp only [hne, Bool.not_true, Bool.false_eq_true, if_false]
  exact List.mem_append_right _ hpoll

/-! ## Whole runs -/

variable (F W) in
/-- In every iteration of the run, what vanishes is dropped. -/
def DropsVanished (mainPid : ℕ) (envs : List IterEnv) : Prop :=
  ∀ pre env post, envs = pre ++ env :: post →
    let s := Mealy.exec iteration (start mainPid : LoopState F W) pre
    s.left = false → env.running = true → ∀ pid, s.Vanished mainPid env pid →
      Dropped pid s (iteration s env).1 (iteration s env).2

variable (F W) in
/-- In no iteration of the run a PID vanishes. -/
def NoneVanishes (mainPid : ℕ) (envs : List IterEnv) : Prop :=
  ∀ pre env post, envs = pre ++ env :: post →
    let s := Mealy.exec iteration (start mainPid : LoopState F W) pre
    s.left = false → env.running = true → ∀ pid, ¬ s.Vanished mainPid env pid

/-- **What vanishes is dropped exactly in the runs where nothing vanishes**: a PID that does is live
and is polled. -/
theorem drops_vanished_iff (mainPid : ℕ) (envs : List IterEnv) :
    DropsVanished F W mainPid envs ↔ NoneVanishes F W mainPid envs := by
  constructor
  · intro h pre env post e s hl hr pid hv
    have hs : s.Settled := seenPids_subset mainPid pre
    exact (h pre env post e hl hr pid hv).notPolled _ (poll_mem_iteration hs hl hr (hs pid hv.1))
  · exact fun h pre env post e hl hr pid hv => absurd hv (h pre env post e hl hr pid)

/-! ## A child that leaves its parent -/

/-- The smallest PID first. -/
def ascending : HashOrder where
  list s := (List.range (s.sup id + 1)).filter fun pid => pid ∈ s
  nodup s := List.nodup_range.filter _
  mem s pid := by
    simp only [List.mem_filter, List.mem_range, decide_eq_true_eq, and_iff_right_iff_imp]
    exact fun h => Nat.lt_succ_of_le (Finset.le_sup (f := id) h)

/-- Process 1 reports these children, and every process answers the polls. -/
def answering (children : List ℕ) : IterEnv where
  running := true
  children pid := if pid = 1 then children else []
  seenOrder := ascending
  currentOrder := ascending
  poll pid := MonitorContext.attaching pid 5
  created _ := 0
  waited _ := 0
  runningAfter := true

/-- A child that is no longer reported is polled on. -/
theorem not_drops_orphan :
    ¬ DropsVanished (Secs fun w => w.toInt) (startupTimeoutPolicy 2000) 1
      [answering [2], answering []] := by
  intro h
  have hseen : 2 ∈ (Mealy.exec iteration (start 1 : LoopState (Secs fun w => w.toInt)
      (startupTimeoutPolicy 2000)) [answering [2]]).seenPids := by decide +kernel
  have hs : (Mealy.exec iteration (start 1 : LoopState (Secs fun w => w.toInt)
      (startupTimeoutPolicy 2000)) [answering [2]]).Settled := seenPids_subset 1 _
  have hl : (Mealy.exec iteration (start 1 : LoopState (Secs fun w => w.toInt)
      (startupTimeoutPolicy 2000)) [answering [2]]).left = false := by decide +kernel
  refine (h [answering [2]] (answering []) [] rfl hl rfl 2 ⟨hseen, by decide, ?_⟩).notPolled _
    (poll_mem_iteration hs hl rfl (hs 2 hseen))
  intro p _ _ hm
  simp [answering] at hm

end LoopState

end GcScope
