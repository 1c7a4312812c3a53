import GcScope.Monitor.Context

/-!
# The monitoring loop

Each iteration asks the live PIDs for their children, drops the PIDs that are gone, adds the new
ones and polls them all. What the operating system, the clock and the hash sets answer is input.

* `WaitPolicy`, `startupTimeoutPolicy`: whether a PID is polled on after a poll.
* `LoopState.iteration`, `runLoop`: one iteration, and a run with the marks at its end.
* **`seenPids_subset`**: every PID seen is live, in every run; with `discover_of_settled`, none is
  ever found gone.
* **`runLoop_ctx`**: a run of the loop is a run of the context's operations.
-/

set_option autoImplicit false

namespace GcScope

/-! ## Wait policies -/

/-- Per PID and poll: is it polled on. The clock is read when a policy is made and when it is
asked. -/
structure WaitPolicy where
  State : Type
  create : ℕ → State
  wait : State → PollStatus → ℕ → Bool × State

/-- A process gets `timeout` to answer first, and none after that. -/
structure StartupTimeoutPolicy where
  startTime : ℕ
  timeout : ℕ
  hasSeenAlive : Bool

namespace StartupTimeoutPolicy

def new (timeout now : ℕ) : StartupTimeoutPolicy := ⟨now, timeout, false⟩

def wait (policy : StartupTimeoutPolicy) (status : PollStatus) (now : ℕ) :
    Bool × StartupTimeoutPolicy :=
  match status with
  | .ok => (true, { policy with hasSeenAlive := true })
  | .invalidProcess =>
    if policy.hasSeenAlive then (false, policy)
    else (decide (now - policy.startTime < policy.timeout), policy)

end StartupTimeoutPolicy

def startupTimeoutPolicy (timeout : ℕ) : WaitPolicy where
  State := StartupTimeoutPolicy
  create := .new timeout
  wait := StartupTimeoutPolicy.wait

/-! ## One iteration -/

/-- An order a hash set may be gone through in. -/
structure HashOrder where
  list : Finset ℕ → List ℕ
  nodup : ∀ s, (list s).Nodup
  mem : ∀ s pid, pid ∈ list s ↔ pid ∈ s

/-- What one iteration is answered. -/
structure IterEnv where
  /-- The flag as the iteration starts. -/
  running : Bool
  children : ℕ → List ℕ
  seenOrder : HashOrder
  currentOrder : HashOrder
  poll : ℕ → PollEnv
  /-- The clock when a PID's policy is made, where it has none. -/
  created : ℕ → ℕ
  /-- The clock when a PID's policy is asked. -/
  waited : ℕ → ℕ
  /-- The flag after the polls. -/
  runningAfter : Bool

structure LoopState (F : Type) (W : WaitPolicy) where
  ctx : MonitorContext F
  alivePids : List ℕ
  pidPolicies : ℕ → Option W.State
  seenPids : Finset ℕ
  anyAlive : Bool
  /-- The loop has been left. -/
  left : Bool

/-- The live PIDs and the children they report. -/
def currentPidsSet (alivePids : List ℕ) (children : ℕ → List ℕ) : Finset ℕ :=
  alivePids.foldl (fun current pid => insert pid current ∪ (children pid).toFinset) ∅

/-- Add a PID that is not there yet. -/
def addPid (alivePids : List ℕ) (pid : ℕ) : List ℕ :=
  if pid ∈ alivePids then alivePids else alivePids ++ [pid]

namespace LoopState

variable {F : Type} [F64 F] {W : WaitPolicy}

def start (mainPid : ℕ) : LoopState F W := ⟨.new, [mainPid], fun _ => none, ∅, false, false⟩

/-- Mark a PID died and stop watching it. -/
def drop (s : LoopState F W) (pid : ℕ) : LoopState F W :=
  { s with
    ctx := s.ctx.markDied pid
    pidPolicies := Function.update s.pidPolicies pid none
    alivePids := s.alivePids.filter fun p => p ≠ pid }

/-- Drop a PID seen before that is not there now. -/
def dropVanished (current : Finset ℕ) (s : LoopState F W) (pid : ℕ) :
    LoopState F W × List ContextOp :=
  if pid ∈ current then (s, []) else (s.drop pid, [.markDied pid])

/-- Bring the live PIDs up to date. -/
def discover (s : LoopState F W) (env : IterEnv) : LoopState F W × List ContextOp :=
  let current := currentPidsSet s.alivePids env.children
  let seen := env.seenOrder.list s.seenPids
  let s' := Mealy.exec (dropVanished current) s seen
  ({ s' with
      seenPids := current
      alivePids := (env.currentOrder.list current).foldl addPid s'.alivePids },
    Mealy.outs (dropVanished current) s seen)

/-- Poll one PID, and drop it if its policy says so. -/
def pollPid (env : IterEnv) (s : LoopState F W) (pid : ℕ) : LoopState F W × List ContextOp :=
  let polled := s.ctx.poll pid (env.poll pid)
  let policy := (s.pidPolicies pid).getD (W.create (env.created pid))
  let waited := W.wait policy polled.2 (env.waited pid)
  let s := { s with
    ctx := polled.1
    pidPolicies := Function.update s.pidPolicies pid (some waited.2) }
  if waited.1 then ({ s with anyAlive := true }, [.poll pid (env.poll pid)])
  else ({ s.drop pid with seenPids := s.seenPids.erase pid },
    [.poll pid (env.poll pid), .markDied pid])

/-- Poll the PIDs live as the polls begin. -/
def pollAll (s : LoopState F W) (env : IterEnv) : LoopState F W × List ContextOp :=
  let s := { s with anyAlive := false }
  (Mealy.exec (pollPid env) s s.alivePids, Mealy.outs (pollPid env) s s.alivePids)

/-- One iteration and what it does with the context; none once the loop has been left. -/
def iteration (s : LoopState F W) (env : IterEnv) : LoopState F W × List ContextOp :=
  if s.left then (s, [])
  else if !env.running then ({ s with left := true }, [])
  else
    let found := s.discover env
    if found.1.alivePids.isEmpty then ({ found.1 with left := true }, found.2)
    else
      let polled := found.1.pollAll env
      ({ polled.1 with left := !polled.1.anyAlive || !env.runningAfter }, found.2 ++ polled.2)

/-- Mark a remaining PID died. -/
def markRemaining (s : LoopState F W) (pid : ℕ) : LoopState F W × List ContextOp :=
  ({ s with ctx := s.ctx.markDied pid }, [.markDied pid])

end LoopState

open LoopState in
/-- A run and what it does with the context. Cut off before the loop is left, it is still going. -/
def runLoop (F : Type) [F64 F] (W : WaitPolicy) (mainPid : ℕ) (envs : List IterEnv) :
    LoopState F W × List ContextOp :=
  let s := Mealy.exec iteration (start mainPid) envs
  let ops := Mealy.outs iteration (start (F := F) (W := W) mainPid) envs
  if s.left then
    (Mealy.exec markRemaining s s.alivePids, ops ++ Mealy.outs markRemaining s s.alivePids)
  else (s, ops)

namespace LoopState

variable {F : Type} {W : WaitPolicy}

/-! ## Who is live -/

theorem mem_currentPidsSet {alivePids : List ℕ} {children : ℕ → List ℕ} {pid : ℕ} :
    pid ∈ currentPidsSet alivePids children ↔
      ∃ p ∈ alivePids, pid = p ∨ pid ∈ children p := by
  have h : ∀ (l : List ℕ) (current : Finset ℕ),
      pid ∈ l.foldl (fun current pid => insert pid current ∪ (children pid).toFinset) current ↔
        pid ∈ current ∨ ∃ p ∈ l, pid = p ∨ pid ∈ children p := by
    intro l
    induction l with
    | nil => simp
    | cons p l ih =>
      intro current
      rw [List.foldl_cons, ih, Finset.mem_union, Finset.mem_insert, List.mem_toFinset]
      simp only [List.mem_cons, exists_eq_or_imp]
      rw [@or_comm (pid = p), or_assoc (a := pid ∈ current), or_assoc (a := pid ∈ current)]
  simpa [currentPidsSet] using h alivePids ∅

theorem mem_foldl_addPid {l alivePids : List ℕ} {pid : ℕ} :
    pid ∈ l.foldl addPid alivePids ↔ pid ∈ alivePids ∨ pid ∈ l := by
  induction l generalizing alivePids with
  | nil => simp
  | cons p l ih =>
    have hp : pid ∈ addPid alivePids p ↔ pid ∈ alivePids ∨ pid = p := by
      unfold addPid
      split_ifs with h
      · exact ⟨Or.inl, fun h' => h'.elim id fun e => e ▸ h⟩
      · simp
    rw [List.foldl_cons, ih, hp, List.mem_cons, or_assoc]

/-- Every PID seen is live. -/
def Settled (s : LoopState F W) : Prop := ∀ pid ∈ s.seenPids, pid ∈ s.alivePids

theorem dropVanished_of_subset (s : LoopState F W) (current : Finset ℕ) (seen : List ℕ)
    (h : ∀ pid ∈ seen, pid ∈ current) :
    Mealy.exec (dropVanished current) s seen = s ∧
      Mealy.outs (dropVanished current) s seen = [] := by
  induction seen with
  | nil => exact ⟨rfl, rfl⟩
  | cons pid seen ih =>
    have hp : dropVanished current s pid = (s, []) := if_pos (h pid List.mem_cons_self)
    rw [Mealy.exec_cons, Mealy.outs_cons, hp]
    exact ih fun p hp => h p (List.mem_cons_of_mem pid hp)

/-- **No PID is ever found gone**: the live PIDs are among the current ones, and the PIDs seen among
the live. -/
theorem discover_of_settled {s : LoopState F W} (h : s.Settled) (env : IterEnv) :
    s.discover env = ({ s with
      seenPids := currentPidsSet s.alivePids env.children
      alivePids := (env.currentOrder.list (currentPidsSet s.alivePids env.children)).foldl addPid
        s.alivePids }, []) := by
  obtain ⟨he, ho⟩ := dropVanished_of_subset s (currentPidsSet s.alivePids env.children)
    (env.seenOrder.list s.seenPids) fun pid hp =>
      mem_currentPidsSet.mpr ⟨pid, h pid ((env.seenOrder.mem _ _).mp hp), Or.inl rfl⟩
  unfold discover
  simp only
  rw [he, ho]

theorem settled_discover {s : LoopState F W} (h : s.Settled) (env : IterEnv) :
    (s.discover env).1.Settled := by
  rw [discover_of_settled h]
  exact fun pid hp => mem_foldl_addPid.mpr (Or.inr ((env.currentOrder.mem _ _).mpr hp))

variable [F64 F]

theorem settled_pollPid (env : IterEnv) {s : LoopState F W} (h : s.Settled) (pid : ℕ) :
    (pollPid env s pid).1.Settled := by
  unfold pollPid
  simp only
  split_ifs
  · exact h
  · intro p hp
    obtain ⟨hne, hp⟩ := Finset.mem_erase.mp hp
    exact List.mem_filter.mpr ⟨h p hp, by simpa using hne⟩

theorem settled_iteration {s : LoopState F W} (h : s.Settled) (env : IterEnv) :
    (iteration s env).1.Settled := by
  have hd := settled_discover h env
  unfold iteration
  simp only
  split_ifs
  · exact h
  · exact h
  · exact hd
  · exact Mealy.exec_induction (P := Settled)
      (s := { (s.discover env).1 with anyAlive := false }) hd
      fun t ht pid _ => settled_pollPid env ht pid

/-- **In every run every PID seen is live.** -/
theorem seenPids_subset (mainPid : ℕ) (envs : List IterEnv) :
    (Mealy.exec iteration (start (F := F) (W := W) mainPid) envs).Settled :=
  Mealy.exec_induction (fun pid hp => absurd hp (Finset.notMem_empty pid))
    fun _ hs env _ => settled_iteration hs env

/-! ## The loop drives the context -/

section Drives

variable {ι : Type} {step : LoopState F W → ι → LoopState F W × List ContextOp}

/-- The step moves the context by the operations it puts out. -/
def Drives (step : LoopState F W → ι → LoopState F W × List ContextOp) : Prop :=
  ∀ s i, (step s i).1.ctx = (step s i).2.foldl MonitorContext.apply s.ctx

theorem Drives.exec (h : Drives step) (s : LoopState F W) (is : List ι) :
    (Mealy.exec step s is).ctx = (Mealy.outs step s is).foldl MonitorContext.apply s.ctx := by
  induction is generalizing s with
  | nil => rfl
  | cons i is ih => rw [Mealy.exec_cons, Mealy.outs_cons, ih, List.foldl_append, h s i]

theorem drives_dropVanished (current : Finset ℕ) :
    Drives (dropVanished current : LoopState F W → _) := fun s pid => by
  unfold dropVanished
  split_ifs <;> rfl

theorem drives_pollPid (env : IterEnv) : Drives (pollPid env : LoopState F W → _) :=
  fun s pid => by
    unfold pollPid
    simp only
    split_ifs <;> rfl

theorem drives_iteration : Drives (iteration : LoopState F W → _) := fun s env => by
  have hd : (s.discover env).1.ctx = (s.discover env).2.foldl MonitorContext.apply s.ctx :=
    (drives_dropVanished _).exec s _
  unfold iteration
  simp only
  split_ifs
  · rfl
  · rfl
  · exact hd
  · rw [List.foldl_append, ← hd]
    exact (drives_pollPid env).exec { (s.discover env).1 with anyAlive := false } _

theorem drives_markRemaining : Drives (markRemaining : LoopState F W → _) := fun _ _ => rfl

end Drives

/-- **A run of the loop is a run of the context's operations.** -/
theorem runLoop_ctx (mainPid : ℕ) (envs : List IterEnv) :
    (runLoop F W mainPid envs).1.ctx = MonitorContext.run F (runLoop F W mainPid envs).2 := by
  have h := drives_iteration.exec (start (F := F) (W := W) mainPid) envs
  unfold runLoop
  simp only
  split_ifs
  · rw [drives_markRemaining.exec, h, MonitorContext.run, List.foldl_append]
    rfl
  · exact h

end LoopState

end GcScope
