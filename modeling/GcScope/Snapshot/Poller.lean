import Mathlib.Logic.Relation
import GcScope.Snapshot.Layers

/-!
# Watching one process

A poller holds one attached process and collects a snapshot at each poll. A read that fails is answered
by the session's re-check: where the process is the same one it is opened again and the read retried
once, elsewhere the poll fails.

* `SnapshotPoller.poll`: a poll, with `SnapshotPoller.retarget`.
* `Watched.Reattached`, `Watched.Follows`: a process opened again, once or any number of times.
* **`poll_spec`**: what a poll reads.
-/

set_option autoImplicit false

namespace GcScope

/-- What the operating system answers during a poll. -/
structure Answers where
  /-- What reads through the held handle see. -/
  memory : ProcessMemory
  cmdline : Option String
  reopened : Option Reopened
  /-- What reads through the reopened handle see. -/
  retryMemory : ProcessMemory

namespace Watched

variable (w : Watched)

/-- The process, with what its handle sees now. -/
def seeing (memory : ProcessMemory) : Watched :=
  { w with session := { w.session with memory := memory } }

/-- The process is opened again: the same binary, with the same version word at its runtime. -/
def Reattached (w' : Watched) : Prop :=
  ∃ r : Reopened, r.exeKey = w.session.exeKey ∧
    w' = { w with session := { w.session with memory := r.memory, runtimeAddr := r.runtimeAddr } } ∧
    ∀ hex, w.session.storedHex = some hex → w'.session.readU64 (r.runtimeAddr + 8) = .ok hex

/-- Opened again any number of times. -/
abbrev Follows (w' : Watched) : Prop := Relation.ReflTransGen Reattached w w'

variable {w}

theorem Follows.eq {w' : Watched} (h : w.Follows w') :
    w' = { w with session :=
      { w.session with memory := w'.session.memory, runtimeAddr := w'.session.runtimeAddr } } := by
  induction h with
  | refl => rfl
  | tail _ hstep ih =>
    obtain ⟨r, -, rfl, -⟩ := hstep
    rw [ih]

end Watched

structure SnapshotPoller where
  watched : Watched
  request : CollectRequest

namespace SnapshotPoller

variable {F : Type} [F64 F] (p : SnapshotPoller)

/-- Hold another process; where it cannot be attached the held one stays. -/
def retarget (attached : Option Watched) : SnapshotPoller × Bool :=
  match attached with
  | some watched => ({ p with watched }, true)
  | none => (p, false)

/-- One full snapshot. -/
def poll (answers : Answers) : Except CollectError (CollectedData F) × SnapshotPoller :=
  match (p.watched.seeing answers.memory).collectData p.request with
  | .ok data => (.ok data, p)
  | .error e =>
    match p.watched.session.revalidate answers.cmdline answers.reopened with
    | (.fresh, session) =>
      let p := { p with watched := { p.watched with session } }
      ((p.watched.seeing answers.retryMemory).collectData p.request, p)
    | (.changed, session) => (.error (.changed e), { p with watched := { p.watched with session } })
    | (.dead, session) => (.error (.dead e), { p with watched := { p.watched with session } })

theorem reattached_of_softReattach {w : Watched} {reopened : Option Reopened} {session : PySession}
    (h : w.session.softReattach reopened = some (true, session)) :
    w.Reattached { w with session } := by
  cases reopened with
  | none => cases h
  | some r =>
    unfold PySession.softReattach at h
    simp only [Option.bind_eq_bind, Option.bind_some] at h
    split_ifs at h with hkey
    · cases h
    · refine ⟨r, not_not.mp hkey, ?_⟩
      cases hx : w.session.storedHex with
      | none =>
        rw [hx] at h
        obtain rfl := (Prod.mk.inj (Option.some.inj h)).2
        exact ⟨by simp only [hx], fun hex hhex => nomatch hhex⟩
      | some hex =>
        rw [hx] at h
        dsimp only at h
        split at h
        · cases h
        rename_i word hword
        split_ifs at h with hne
        · cases h
        · obtain rfl := (Prod.mk.inj (Option.some.inj h)).2
          refine ⟨by simp only [hx], fun hex' hhex' => ?_⟩
          obtain rfl := Option.some.inj hhex'
          rw [← not_not.mp hne]
          exact hword

/-- A re-check keeps the session, or opens the process again. -/
theorem follows_of_revalidate (w : Watched) (cmdline : Option String) (reopened : Option Reopened) :
    w.Follows { w with session := (w.session.revalidate cmdline reopened).2 } := by
  unfold PySession.revalidate
  cases classifyCmdline w.session.cmdline cmdline with
  | gone => exact .refl
  | differs => exact .refl
  | inconclusive =>
    dsimp only
    rcases h : w.session.softReattach reopened with _ | ⟨_ | _, session⟩
    · exact .refl
    · exact .refl
    · exact .single (reattached_of_softReattach h)

/-- **What a poll reads**: a snapshot of the process it holds, opened again at most, through the handle
as it is in that poll. -/
theorem poll_spec (answers : Answers) :
    (p.poll (F := F) answers).2.request = p.request ∧
      p.watched.Follows (p.poll (F := F) answers).2.watched ∧
      ∀ data : CollectedData F, (p.poll answers).1 = .ok data → ∃ memory,
        (memory = answers.memory ∨ memory = answers.retryMemory) ∧
        ((p.poll (F := F) answers).2.watched.seeing memory).collectData p.request = .ok data := by
  have hfollows := follows_of_revalidate p.watched answers.cmdline answers.reopened
  unfold poll
  cases hread : (p.watched.seeing answers.memory).collectData (F := F) p.request with
  | ok data =>
    refine ⟨rfl, .refl, fun data' h => ⟨answers.memory, Or.inl rfl, ?_⟩⟩
    obtain rfl := Except.ok.inj h
    exact hread
  | error e =>
    rcases hrev : p.watched.session.revalidate answers.cmdline answers.reopened with ⟨answer, session⟩
    rw [hrev] at hfollows
    cases answer with
    | fresh => exact ⟨rfl, hfollows, fun data h => ⟨answers.retryMemory, Or.inr rfl, h⟩⟩
    | changed => exact ⟨rfl, hfollows, fun data h => nomatch h⟩
    | dead => exact ⟨rfl, hfollows, fun data h => nomatch h⟩

end SnapshotPoller

end GcScope
