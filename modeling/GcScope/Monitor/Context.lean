import GcScope.Monitor.Isolation
import GcScope.RemoteDebugging.Session

/-!
# The monitor context

Per process an attached session, its lifecycle and its part of the cursor. A poll attaches where no
session is held, reads, and hands what is new to the exporter; after a failed read it asks the
session to re-check the process.

* `MonitorContext.poll`, `MonitorContext.markDied`: the two operations of the loop.
* `readThrough`: what a poll makes of the session and of what the operating system answers, with
  **`poll_eq`** for its effect.
* `MonitorContext.run`: a run of operations, one after another.
-/

set_option autoImplicit false

namespace GcScope

inductive PollStatus where
  | ok
  | invalidProcess
  deriving DecidableEq

inductive ProcessLifecycle where
  | started
  | died
  deriving DecidableEq

/-- What the operating system answers while a PID is polled. Processes hold a PID one after another;
`occupant` numbers them. -/
structure PollEnv where
  occupant : ℕ
  /-- What attaching gives, where no session is held. -/
  attached : Option PySession
  /-- What reads through the held handle see. -/
  memory : ProcessMemory
  cmdline : Option String
  reopened : Option Reopened
  /-- What reads through the reopened handle see. -/
  retryMemory : ProcessMemory

/-- A call the exporter receives. Each Record goes through the conversion to trace events on its
way. -/
inductive ExporterCall where
  | lifecycle (pid : ℕ) (status : ProcessLifecycle)
  | events (pid occupant : ℕ) (records : List GcStat)
  deriving DecidableEq

structure MonitorContext (F : Type) where
  exporter : List ExporterCall
  sessions : ℕ → Option PySession
  cursor : Cursor F
  alivePids : Finset ℕ
  /-- Processes already told about for outrunning the bound on interpreters. -/
  overflowedPids : Finset ℕ

/-- The session, reading what its handle sees now. -/
def PySession.seeing (s : PySession) (memory : ProcessMemory) : PySession :=
  { s with memory := memory }

namespace MonitorContext

variable {F : Type} [F64 F]

def new : MonitorContext F := ⟨[], fun _ => none, .new, ∅, ∅⟩

/-- Keep a session for `pid`. -/
def hold (ctx : MonitorContext F) (pid : ℕ) (session : PySession) : MonitorContext F :=
  { ctx with sessions := Function.update ctx.sessions pid (some session) }

def markProcessLifecycle (ctx : MonitorContext F) (pid : ℕ) (status : ProcessLifecycle) :
    MonitorContext F := { ctx with exporter := ctx.exporter ++ [.lifecycle pid status] }

/-- Tell once, per process, that interpreters were dropped. -/
def warnIfInterpretersDropped (ctx : MonitorContext F) (pid : ℕ) : MonitorContext F :=
  if ctx.cursor.droppedCount pid = 0 then ctx
  else { ctx with overflowedPids := insert pid ctx.overflowedPids }

/-- One read's Records in, the new ones out. -/
def eventsFor (ctx : MonitorContext F) (pid : ℕ) (stats : List GcStat) :
    MonitorContext F × List GcStat :=
  let admitted := ctx.cursor.admitRecords pid stats
  ({ ctx with cursor := admitted.1 }.warnIfInterpretersDropped pid, admitted.2)

/-- A successful read: the process is alive, and its new Records go to the exporter. -/
def report (ctx : MonitorContext F) (pid occupant : ℕ) (stats : List GcStat) :
    MonitorContext F × PollStatus :=
  let ctx :=
    if pid ∈ ctx.alivePids then ctx
    else { ctx with alivePids := insert pid ctx.alivePids }.markProcessLifecycle pid .started
  let (ctx, events) := ctx.eventsFor pid stats
  ({ ctx with exporter := ctx.exporter ++ [.events pid occupant events] }, .ok)

/-- A process believed alive is reported dead, once. -/
def reportDeath (ctx : MonitorContext F) (pid : ℕ) : MonitorContext F :=
  if pid ∈ ctx.alivePids then
    { ctx with alivePids := ctx.alivePids.erase pid }.markProcessLifecycle pid .died
  else ctx

def onInvalid (ctx : MonitorContext F) (pid : ℕ) : MonitorContext F × PollStatus :=
  (ctx.reportDeath pid, .invalidProcess)

/-- Drop the session of `pid`, its cursor state and its warning. -/
def evict (ctx : MonitorContext F) (pid : ℕ) : MonitorContext F :=
  { ctx with
    sessions := Function.update ctx.sessions pid none
    cursor := ctx.cursor.forget pid
    overflowedPids := ctx.overflowedPids.erase pid }

/-- Read the stats of `pid` and hand the new Records to the exporter. -/
def poll (ctx : MonitorContext F) (pid : ℕ) (env : PollEnv) : MonitorContext F × PollStatus :=
  match (ctx.sessions pid).or env.attached with
  | none => (ctx, .invalidProcess)
  | some session =>
    let ctx := ctx.hold pid session
    match (session.seeing env.memory).gcStats true with
    | .ok stats => ctx.report pid env.occupant stats
    | .error _ =>
      match session.revalidate env.cmdline env.reopened with
      | (.fresh, session) =>
        let ctx := ctx.hold pid session
        match (session.seeing env.retryMemory).gcStats true with
        | .ok stats => ctx.report pid env.occupant stats
        | .error _ => ctx.onInvalid pid
      | (.changed, _) => (ctx.evict pid).onInvalid pid
      | (.dead, _) => ctx.onInvalid pid

/-- Give a process up. -/
def markDied (ctx : MonitorContext F) (pid : ℕ) : MonitorContext F := (ctx.evict pid).reportDeath pid

end MonitorContext

/-! ## What a poll makes of what it sees -/

/-- How a poll comes out, before its effect. -/
inductive PollOutcome where
  | unattached
  | read (session : PySession) (stats : List GcStat)
  | changed
  | failed (session : PySession)

/-- The part of a poll that looks at the process. -/
def readThrough (held : Option PySession) (env : PollEnv) : PollOutcome :=
  match held.or env.attached with
  | none => .unattached
  | some session =>
    match (session.seeing env.memory).gcStats true with
    | .ok stats => .read session stats
    | .error _ =>
      match session.revalidate env.cmdline env.reopened with
      | (.fresh, session) =>
        match (session.seeing env.retryMemory).gcStats true with
        | .ok stats => .read session stats
        | .error _ => .failed session
      | (.changed, _) => .changed
      | (.dead, _) => .failed session

namespace MonitorContext

variable {F : Type}

theorem hold_hold (ctx : MonitorContext F) (pid : ℕ) (s s' : PySession) :
    (ctx.hold pid s).hold pid s' = ctx.hold pid s' := by
  simp [hold, Function.update_idem]

theorem evict_hold (ctx : MonitorContext F) (pid : ℕ) (s : PySession) :
    (ctx.hold pid s).evict pid = ctx.evict pid := by
  simp [hold, evict, Function.update_idem]

variable [F64 F]

/-- **The effect of a poll, by how it comes out.** -/
theorem poll_eq (ctx : MonitorContext F) (pid : ℕ) (env : PollEnv) : ctx.poll pid env =
    match readThrough (ctx.sessions pid) env with
    | .unattached => (ctx, .invalidProcess)
    | .read session stats => (ctx.hold pid session).report pid env.occupant stats
    | .changed => (ctx.evict pid).onInvalid pid
    | .failed session => (ctx.hold pid session).onInvalid pid := by
  unfold poll readThrough
  cases (ctx.sessions pid).or env.attached with
  | none => rfl
  | some session =>
    simp only
    cases (session.seeing env.memory).gcStats true with
    | ok stats => rfl
    | error e =>
      simp only
      obtain ⟨answer, session'⟩ := session.revalidate env.cmdline env.reopened
      cases answer with
      | fresh =>
        simp only [hold_hold]
        cases (session'.seeing env.retryMemory).gcStats true <;> rfl
      | changed => simp only [evict_hold]
      | dead => rfl

end MonitorContext

/-! ## Runs -/

/-- What the loop does with the context. -/
inductive ContextOp where
  | poll (pid : ℕ) (env : PollEnv)
  | markDied (pid : ℕ)

/-- The process an operation is about. -/
def ContextOp.pid : ContextOp → ℕ
  | .poll pid _ => pid
  | .markDied pid => pid

namespace MonitorContext

variable {F : Type} [F64 F]

def apply (ctx : MonitorContext F) : ContextOp → MonitorContext F
  | .poll pid env => (ctx.poll pid env).1
  | .markDied pid => ctx.markDied pid

/-- The context after a run. -/
def run (F : Type) [F64 F] (ops : List ContextOp) : MonitorContext F := ops.foldl apply new

theorem run_concat (ops : List ContextOp) (op : ContextOp) :
    run F (ops ++ [op]) = (run F ops).apply op := by
  rw [run, List.foldl_append, List.foldl_cons, List.foldl_nil, ← run]

end MonitorContext

end GcScope
