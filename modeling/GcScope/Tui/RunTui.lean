import GcScope.Lib.Mealy
import GcScope.Snapshot.Poller

/-!
# The interactive loop

Each turn of the loop takes a key at most, polls the process and draws a frame. The view state, the held
process and a pending dump are carried from turn to turn; the loop ends on a key, at a failing poll or
when its time is up.

* `TuiState.handleKey`: the keys.
* `Loop.turn`: a turn, with what it puts out; `runTui` for a run of turns.
* `target`: the process the keys picked last, when, and how many turns ago.
* `Loop.Tracks`, `tracks_turn`: what the loop carries, and that a turn keeps it.
* `Puts`: what a turn puts out, from its key, its clock and what its poll answers.
* **`tui_shows_target`**: what is drawn and dumped in every turn of every run.
-/

set_option autoImplicit false

namespace GcScope

namespace Tui

/-! ## The view -/

inductive KeyCode where
  | char (c : Char)
  | esc
  | up
  | down
  | pageUp
  | pageDown
  | home
  | endKey
  | other
  deriving DecidableEq

structure TuiState where
  scroll : ℕ
  selectedEntry : ℕ
  debugOffsetsShowTree : Bool
  debugOffsetsShowHex : Bool
  showRuntimeHex : Bool
  gcOnly : Bool
  rateMs : ℕ
  glitchEnabled : Bool
  deriving DecidableEq

/-- What a rendering of a snapshot takes of the view. -/
structure RenderView where
  selectedEntry : ℕ
  debugOffsetsShowTree : Bool
  debugOffsetsShowHex : Bool
  showRuntimeHex : Bool
  gcOnly : Bool
  deriving DecidableEq

/-- What a key asks the loop to do. -/
inductive KeyOutcome where
  | proceed
  | quit
  | pickPid
  | dumpSnapshot
  deriving DecidableEq

/-- The largest scroll offset. -/
def u16Max : ℕ := 65535

def u64Max : ℕ := 18446744073709551615

namespace TuiState

def new (rateMs : ℕ) (glitchEnabled : Bool) : TuiState where
  scroll := 0
  selectedEntry := 0
  debugOffsetsShowTree := true
  debugOffsetsShowHex := true
  showRuntimeHex := false
  gcOnly := false
  rateMs
  glitchEnabled

variable (s : TuiState)

/-- What is left of the view for a rendering of a snapshot. -/
def render : RenderView :=
  ⟨s.selectedEntry, s.debugOffsetsShowTree, s.debugOffsetsShowHex, s.showRuntimeHex, s.gcOnly⟩

/-- The view of another process; the rate and the effect stay. -/
def resetView : TuiState := .new s.rateMs s.glitchEnabled

def clampEntry (entryCount : ℕ) : TuiState :=
  let maxEntry := entryCount - 1
  if maxEntry < s.selectedEntry then { s with selectedEntry := maxEntry } else s

def handleKey : KeyCode → TuiState × KeyOutcome
  | .char 'q' | .esc => (s, .quit)
  | .up | .char 'k' => ({ s with selectedEntry := s.selectedEntry - 1 }, .proceed)
  | .down | .char 'j' => ({ s with selectedEntry := min (s.selectedEntry + 1) u64Max }, .proceed)
  | .char 't' => ({ s with debugOffsetsShowTree := !s.debugOffsetsShowTree }, .proceed)
  | .char 'h' => ({ s with debugOffsetsShowHex := !s.debugOffsetsShowHex }, .proceed)
  | .char 'o' =>
    let shown := !(s.debugOffsetsShowTree || s.debugOffsetsShowHex)
    ({ s with debugOffsetsShowTree := shown, debugOffsetsShowHex := shown }, .proceed)
  | .char 'd' => ({ s with showRuntimeHex := !s.showRuntimeHex }, .proceed)
  | .char 'r' => ({ s with rateMs := max (s.rateMs - 10) 10 }, .proceed)
  | .char 'R' => ({ s with rateMs := min (s.rateMs + 10) u64Max }, .proceed)
  | .char 'g' => ({ s with gcOnly := !s.gcOnly }, .proceed)
  | .char 'G' => ({ s with glitchEnabled := !s.glitchEnabled }, .proceed)
  | .char 's' => (s, .dumpSnapshot)
  | .char 'p' => (s, .pickPid)
  | .pageUp => ({ s with scroll := s.scroll - 10 }, .proceed)
  | .pageDown => ({ s with scroll := min (s.scroll + 10) u16Max }, .proceed)
  | .home => ({ s with scroll := 0 }, .proceed)
  | .endKey => ({ s with scroll := u16Max }, .proceed)
  | _ => (s, .proceed)

end TuiState

/-! ## The loop -/

/-- What a turn meets: a key, what picking and attaching a process gives, what the poll reads, the clock,
the rows of the content area and what writing a file gives. -/
structure Turn where
  key : Option KeyCode
  picked : Option Pid
  attach : Pid → Option (PySession × DebugSizes)
  pickedAt : ℕ
  answers : Answers
  now : ℕ
  contentHeight : ℕ
  write : String → Except String Unit

/-- The process a turn changes over to. -/
def Turn.retargeted (t : Turn) : Option Watched := do
  let pid ← t.picked
  let (session, sizes) ← t.attach pid
  return { pid, session, sizes }

variable (F : Type)

/-- A frame on the screen. -/
structure Shown where
  pid : Pid
  frame : ℕ
  elapsed : ℕ
  /-- The view, its scroll offset as drawn. -/
  view : TuiState
  maxScroll : ℕ
  entryCount : ℕ
  data : CollectedData F
  dumpNote : String

inductive Output where
  | drawn (shown : Shown F)
  | dumped (path : String) (data : CollectedData F) (view : RenderView)
  | error (cause : CollectError)

variable {F}

inductive Ending where
  | quit
  | failed (cause : CollectError)
  | timeUp

structure Loop where
  poller : SnapshotPoller
  start : ℕ
  frame : ℕ
  state : TuiState
  pendingDump : Bool
  dumpNote : Option String

/-- What the loop is started with: how long it runs, in seconds, and how many lines a view of a snapshot
has. -/
structure Setting (F : Type) where
  durationSecs : Option ℕ
  lines : CollectedData F → RenderView → ℕ

namespace Loop

variable (l : Loop) (t : Turn)

/-- The loop at the start, with a process just attached. -/
def new (watched : Watched) (start rateMs : ℕ) (glitchEnabled : Bool) : Loop where
  poller := ⟨watched, .tui⟩
  start
  frame := 0
  state := .new rateMs glitchEnabled
  pendingDump := false
  dumpNote := none

/-- The key of a turn; `none` ends the loop. -/
def press : Option Loop :=
  match t.key with
  | none => some l
  | some code =>
    match l.state.handleKey code with
    | (_, .quit) => none
    | (state, .dumpSnapshot) => some { l with state, pendingDump := true }
    | (state, .pickPid) =>
      match l.poller.retarget t.retargeted with
      | (poller, true) =>
        some { l with poller, start := t.pickedAt, frame := 0, state := state.resetView }
      | (_, false) => some { l with state }
    | (state, .proceed) => some { l with state }

variable {F : Type} [F64 F]

/-- Write a dump that is pending. -/
def dump (data : CollectedData F) : Loop × List (Output F) :=
  if l.pendingDump then
    let path := toString l.poller.watched.pid ++ ".txt"
    let note := match t.write path with
      | .ok () => " — Saved " ++ path
      | .error e => " — Save failed: " ++ e
    ({ l with pendingDump := false, dumpNote := some note }, [.dumped path data l.state.render])
  else (l, [])

variable (setting : Setting F)

/-- Draw a frame, clamping the scroll offset to what there is to show. -/
def draw (elapsed : ℕ) (data : CollectedData F) : Loop × Shown F :=
  let lineCount := setting.lines data l.state.render % (u16Max + 1)
  let maxScroll := lineCount - (t.contentHeight - 2)
  let scroll := if maxScroll < l.state.scroll then maxScroll else l.state.scroll
  let l := { l with state := { l.state with scroll } }
  (l, {
    pid := l.poller.watched.pid
    frame := l.frame
    elapsed
    view := l.state
    maxScroll
    entryCount := data.interpreter.gc.generationStats.entries.length
    data
    dumpNote := l.dumpNote.getD "" })

def turn : Except Ending Loop × List (Output F) :=
  match l.press t with
  | none => (.error .quit, [])
  | some l =>
    match l.poller.poll t.answers with
    | (.error e, _) => (.error (.failed e), [.error e])
    | (.ok data, poller) =>
      let state := l.state.clampEntry data.interpreter.gc.generationStats.entries.length
      let (l, dumps) := { l with poller, state }.dump t data
      let elapsed := t.now - l.start
      let l := { l with frame := l.frame + 1 }
      if setting.durationSecs.any fun secs => decide (secs ≤ elapsed / 1000000000) then
        (.error .timeUp, dumps)
      else
        let (l, shown) := l.draw t setting elapsed data
        (.ok l, dumps ++ [Output.drawn shown])

end Loop

/-- A turn of a loop that may have ended. -/
def step {F : Type} [F64 F] (setting : Setting F) :
    Except Ending Loop → Turn → Except Ending Loop × List (Output F)
  | .error ending, _ => (.error ending, [])
  | .ok l, t => l.turn t setting

/-! ## The keys -/

namespace TuiState

section

variable {s : TuiState} {code : KeyCode}

/-- No key makes the loop poll faster than every 10 ms, if it did not. -/
theorem rate_handleKey {rateMs : ℕ} (h : min rateMs 10 ≤ s.rateMs) :
    min rateMs 10 ≤ (s.handleKey code).1.rateMs := by
  fun_cases handleKey s code <;> simp only [u64Max] <;> omega

theorem rateMs_clampEntry (entryCount : ℕ) : (s.clampEntry entryCount).rateMs = s.rateMs := by
  unfold clampEntry
  dsimp only
  split_ifs <;> rfl

end

variable (s : TuiState) (code : KeyCode)

theorem handleKey_dump_iff : (s.handleKey code).2 = .dumpSnapshot ↔ code = .char 's' := by
  fun_cases handleKey s code <;> simp_all

theorem handleKey_pick_iff : (s.handleKey code).2 = .pickPid ↔ code = .char 'p' := by
  fun_cases handleKey s code <;> simp_all

theorem handleKey_quit_iff : (s.handleKey code).2 = .quit ↔ code = .char 'q' ∨ code = .esc := by
  fun_cases handleKey s code <;> simp_all

end TuiState

/-! ## What the loop carries -/

/-- The process the keys picked last. -/
structure Target where
  watched : Watched
  /-- When it was picked. -/
  since : ℕ
  /-- The turns since, its own included. -/
  turns : ℕ

/-- The process a turn picks. -/
def Turn.pick (t : Turn) : Option Watched :=
  if t.key = some (.char 'p') then t.retargeted else none

/-- The key of the turn ends the loop. -/
def Turn.Quits (t : Turn) : Prop := t.key = some (.char 'q') ∨ t.key = some .esc

def aim (target : Target) (t : Turn) : Target :=
  match t.pick with
  | some watched => ⟨watched, t.pickedAt, 1⟩
  | none => { target with turns := target.turns + 1 }

/-- The target of a run of turns, from the process it was started with. -/
def target (watched : Watched) (start : ℕ) (turns : List Turn) : Target :=
  turns.foldl aim ⟨watched, start, 0⟩

theorem target_concat (watched : Watched) (start : ℕ) (turns : List Turn) (t : Turn) :
    target watched start (turns ++ [t]) = aim (target watched start turns) t := by
  rw [target, List.foldl_append]
  rfl

namespace Loop

/-- The process whose poll the turn makes: the one it picks, or else the held one. -/
def polled (l : Loop) (t : Turn) : Watched := t.pick.getD l.poller.watched

/-- The loop holds its target, counts its frames, and has no dump pending. -/
structure Tracks (rateMs : ℕ) (target : Target) (l : Loop) : Prop where
  request : l.poller.request = .tui
  follows : target.watched.Follows l.poller.watched
  start : l.start = target.since
  frame : l.frame = target.turns
  settled : l.pendingDump = false
  rate : min rateMs 10 ≤ l.state.rateMs

/-- The loop after the key of a turn. -/
structure Pressed (rateMs : ℕ) (target : Target) (held : Watched) (t : Turn) (l : Loop) : Prop where
  goes : ¬ t.Quits
  poller : l.poller = ⟨held, .tui⟩
  follows : target.watched.Follows held
  start : l.start = target.since
  frame : l.frame + 1 = target.turns
  pending : l.pendingDump = true ↔ t.key = some (.char 's')
  rate : min rateMs 10 ≤ l.state.rateMs

variable {rateMs : ℕ} {target : Target} {l l' : Loop} {t : Turn}

theorem pressed_of_pick_none (h : Tracks rateMs target l) (hpick : t.pick = none) (hgo : ¬ t.Quits)
    {state : TuiState} {pending : Bool} (hpending : pending = true ↔ t.key = some (.char 's'))
    (hrate : min rateMs 10 ≤ state.rateMs) :
    Pressed rateMs (aim target t) (l.polled t) t { l with state, pendingDump := pending } := by
  have haim : aim target t = { target with turns := target.turns + 1 } := by rw [aim, hpick]
  have hheld : l.polled t = l.poller.watched := by rw [polled, hpick, Option.getD_none]
  rw [haim, hheld]
  refine ⟨hgo, ?_, h.follows, h.start, congrArg (· + 1) h.frame, hpending, hrate⟩
  rw [← h.request]

/-- **What a key does**: it picks another process, asks for a dump, or changes the view alone. -/
theorem tracks_press (h : Tracks rateMs target l) (hp : l.press t = some l') :
    Pressed rateMs (aim target t) (l.polled t) t l' := by
  unfold press at hp
  cases hkey : t.key with
  | none =>
    rw [hkey] at hp
    obtain rfl := Option.some.inj hp
    have hpending : l.pendingDump = true ↔ t.key = some (.char 's') := by simp [h.settled, hkey]
    exact pressed_of_pick_none h (by simp [Turn.pick, hkey]) (by simp [Turn.Quits, hkey]) hpending h.rate
  | some code =>
    rw [hkey] at hp
    have hrate : min rateMs 10 ≤ (l.state.handleKey code).1.rateMs := TuiState.rate_handleKey h.rate
    have hdump := TuiState.handleKey_dump_iff l.state code
    have hpick := TuiState.handleKey_pick_iff l.state code
    have hquit := TuiState.handleKey_quit_iff l.state code
    rcases hk : l.state.handleKey code with ⟨state, outcome⟩
    rw [hk] at hrate hdump hpick hquit
    simp only [hk] at hp
    have hgo : outcome ≠ .quit → ¬ t.Quits := fun hne hq => hne (hquit.mpr (by
      simpa [Turn.Quits, hkey] using hq))
    cases outcome with
    | quit => cases hp
    | dumpSnapshot =>
      obtain rfl := Option.some.inj hp
      obtain rfl := hdump.mp rfl
      exact pressed_of_pick_none h (by simp [Turn.pick, hkey]) (hgo nofun) (by simp [hkey]) hrate
    | proceed =>
      obtain rfl := Option.some.inj hp
      have hs : code ≠ .char 's' := fun hs => nomatch hdump.mpr hs
      have hp : code ≠ .char 'p' := fun hp => nomatch hpick.mpr hp
      exact pressed_of_pick_none h (by simp [Turn.pick, hkey, hp]) (hgo nofun)
        (by simp [h.settled, hkey, hs]) hrate
    | pickPid =>
      obtain rfl := hpick.mp rfl
      have ht : t.pick = t.retargeted := by rw [Turn.pick, if_pos hkey]
      cases hret : t.retargeted with
      | none =>
        rw [hret] at hp
        obtain rfl := Option.some.inj hp
        exact pressed_of_pick_none h (ht.trans hret) (hgo nofun) (by simp [h.settled, hkey]) hrate
      | some watched =>
        rw [hret] at hp
        obtain rfl := Option.some.inj hp
        have haim : aim target t = ⟨watched, t.pickedAt, 1⟩ := by rw [aim, ht, hret]
        have hheld : l.polled t = watched := by rw [polled, ht, hret, Option.getD_some]
        rw [haim, hheld]
        refine ⟨hgo nofun, ?_, .refl, rfl, rfl, by simp [h.settled, hkey], hrate⟩
        rw [← h.request]

end Loop

/-! ## What a turn puts out -/

section Sound

variable {F : Type} [F64 F]

/-- A snapshot of a process, opened again any number of times since it was attached, read through the
handle as it is in the turn. -/
def SnapshotOf (w : Watched) (t : Turn) (data : CollectedData F) : Prop :=
  ∃ w' memory, w.Follows w' ∧ (memory = t.answers.memory ∨ memory = t.answers.retryMemory) ∧
    (w'.seeing memory).collectData .tui = .ok data

/-- The selected Entry is one of the snapshot's, if it has any. -/
def RenderView.Selects (view : RenderView) (data : CollectedData F) : Prop :=
  view.selectedEntry < max data.interpreter.gc.generationStats.entries.length 1

/-- A frame shows the target: its PID, the frames and the time since it was picked, a whole snapshot of
it in its layout, with a valid selection and a scroll offset that stops at the end. -/
structure Shown.Sound (setting : Setting F) (rateMs : ℕ) (target : Target) (t : Turn) (f : Shown F) :
    Prop where
  pid : f.pid = target.watched.pid
  frame : f.frame = target.turns
  elapsed : f.elapsed = t.now - target.since
  snapshot : SnapshotOf target.watched t f.data
  whole : f.data.WellFormed .tui
  layout : f.data.resolved = target.watched.session.resolved
  selects : f.view.render.Selects f.data
  scroll : f.view.scroll ≤ f.maxScroll ∧ f.maxScroll ≤ setting.lines f.data f.view.render
  rate : min rateMs 10 ≤ f.view.rateMs

/-- The loop has run as long as it should, counted from when the target was picked. -/
def TimeIsUp (setting : Setting F) (target : Target) (t : Turn) : Prop :=
  ∃ secs ∈ setting.durationSecs, secs ≤ (t.now - target.since) / 1000000000

/-- The dump of a turn: where its key asks for one, to the file of the target. -/
def dumpOf (target : Target) (t : Turn) (data : CollectedData F) (view : RenderView) :
    List (Output F) :=
  if t.key = some (.char 's') then [.dumped (toString target.watched.pid ++ ".txt") data view] else []

/-- What a turn of a running loop puts out, where its poll gives `answer`, and whether the loop ends
with it. -/
inductive Puts (setting : Setting F) (rateMs : ℕ) (target : Target) (t : Turn)
    (answer : Except CollectError (CollectedData F)) : Bool → List (Output F) → Prop
  | quit (key : t.Quits) : Puts setting rateMs target t answer true []
  | failed (goes : ¬ t.Quits) {e : CollectError} (read : answer = .error e) :
    Puts setting rateMs target t answer true [.error e]
  | timeUp (goes : ¬ t.Quits) {data : CollectedData F} (read : answer = .ok data)
      (up : TimeIsUp setting target t) {view : RenderView} (snapshot : SnapshotOf target.watched t data)
      (selects : view.Selects data) :
      Puts setting rateMs target t answer true (dumpOf target t data view)
  | drawn (goes : ¬ t.Quits) {f : Shown F} (read : answer = .ok f.data)
      (inTime : ¬ TimeIsUp setting target t) (sound : f.Sound setting rateMs target t) :
      Puts setting rateMs target t answer false
        (dumpOf target t f.data f.view.render ++ [.drawn f])

/-- **A dump is written exactly when `s` is pressed and the poll reads**, and it is of what it reads. -/
theorem Puts.dumped_iff {setting : Setting F} {rateMs : ℕ} {target : Target} {t : Turn}
    {answer : Except CollectError (CollectedData F)} {ends : Bool} {outs : List (Output F)}
    (h : Puts setting rateMs target t answer ends outs) (data : CollectedData F) :
    (∃ view, .dumped (toString target.watched.pid ++ ".txt") data view ∈ outs) ↔
      t.key = some (.char 's') ∧ answer = .ok data := by
  cases h with
  | quit key =>
    refine iff_of_false (fun ⟨view, hm⟩ => List.not_mem_nil hm) fun h => ?_
    rcases key with hq | hq <;> simp [h.1] at hq
  | failed goes read =>
    refine iff_of_false (fun ⟨view, hm⟩ => ?_) fun h => nomatch read.symm.trans h.2
    cases List.mem_singleton.mp hm
  | timeUp goes read up snapshot selects =>
    unfold dumpOf
    split_ifs with hs
    · simp only [hs, read, Except.ok.injEq, true_and, List.mem_singleton, Output.dumped.injEq]
      exact ⟨fun ⟨view, h⟩ => h.1.symm, fun h => ⟨_, h.symm, rfl⟩⟩
    · simp [hs]
  | drawn goes read inTime sound =>
    unfold dumpOf
    split_ifs with hs
    · simp only [hs, read, Except.ok.injEq, true_and, List.mem_append, List.mem_singleton,
        Output.dumped.injEq, reduceCtorEq, or_false]
      exact ⟨fun ⟨view, h⟩ => h.1.symm, fun h => ⟨_, h.symm, rfl⟩⟩
    · simp [hs]

end Sound

namespace Loop

variable {F : Type} [F64 F] {setting : Setting F} {rateMs : ℕ} {target : Target} {l l' : Loop}
  {t : Turn} {data : CollectedData F}

omit [F64 F] in
theorem selects_clampEntry (s : TuiState) (data : CollectedData F) :
    (s.clampEntry data.interpreter.gc.generationStats.entries.length).render.Selects data := by
  unfold TuiState.clampEntry RenderView.Selects
  dsimp only
  split_ifs <;> simp only [TuiState.render] <;> omega

theorem press_eq_none (h : l.press t = none) : t.Quits := by
  unfold press at h
  unfold Turn.Quits
  cases hkey : t.key with
  | none =>
    rw [hkey] at h
    cases h
  | some code =>
    rw [hkey] at h
    have hquit := TuiState.handleKey_quit_iff l.state code
    rcases hk : l.state.handleKey code with ⟨state, outcome⟩
    rw [hk] at hquit
    simp only [hk] at h
    cases outcome with
    | quit => simpa using hquit
    | dumpSnapshot => cases h
    | proceed => cases h
    | pickPid =>
      cases hret : t.retargeted with
      | none =>
        rw [hret] at h
        cases h
      | some watched =>
        rw [hret] at h
        cases h

omit [F64 F] in
variable (data) in
/-- **A pending dump is written**, and no other. -/
theorem dump_spec (hpid : l.poller.watched.pid = target.watched.pid)
    (hpending : l.pendingDump = true ↔ t.key = some (.char 's')) :
    (l.dump t data).2 = dumpOf target t data l.state.render ∧
      ∃ note, (l.dump t data).1 = { l with pendingDump := false, dumpNote := note } := by
  unfold dump dumpOf
  by_cases h : l.pendingDump = true
  · rw [if_pos h, if_pos (hpending.mp h), hpid]
    exact ⟨rfl, _, rfl⟩
  · rw [if_neg h, if_neg (mt hpending.mpr h)]
    exact ⟨rfl, l.dumpNote, by rw [← Bool.not_eq_true _ |>.mp h]⟩

/-- A frame drawn of the target is sound. -/
theorem draw_sound (hpid : l.poller.watched.pid = target.watched.pid)
    (hframe : l.frame = target.turns) (hsnapshot : SnapshotOf target.watched t data)
    (hselects : l.state.render.Selects data) (hrate : min rateMs 10 ≤ l.state.rateMs) :
    (l.draw t setting (t.now - target.since) data).2.Sound setting rateMs target t := by
  obtain ⟨w, memory, hfollows, hread, hdata⟩ := hsnapshot
  have hlayout : data.resolved = target.watched.session.resolved := by
    rw [Watched.resolved_of_collectData hdata, hfollows.eq]
    rfl
  refine ⟨hpid, hframe, rfl, ⟨w, memory, hfollows, hread, hdata⟩, Watched.collect_wellFormed hdata, hlayout,
    hselects, ⟨?_, ?_⟩, hrate⟩
  · unfold draw
    dsimp only
    split_ifs with h
    · exact le_rfl
    · exact not_lt.mp h
  · exact (Nat.sub_le _ _).trans (Nat.mod_le _ _)

/-- Whether a turn ends the loop. -/
def ends (next : Except Ending Loop) : Bool :=
  match next with
  | .ok _ => false
  | .error _ => true

/-- **A turn keeps what the loop carries**, and puts out what it should. -/
theorem tracks_turn (h : Tracks rateMs target l) :
    (∀ l', (l.turn (F := F) t setting).1 = .ok l' → Tracks rateMs (aim target t) l') ∧
      (aim target t).watched.Follows (l.polled t) ∧
      Puts setting rateMs (aim target t) t
        ((⟨l.polled t, .tui⟩ : SnapshotPoller).poll t.answers).1
        (ends (l.turn t setting).1) (l.turn t setting).2 := by
  unfold turn
  cases hp : l.press t with
  | none =>
    have hquits := press_eq_none hp
    have hpick : t.pick = none := by
      unfold Turn.pick
      rcases hquits with hq | hq <;> simp [hq]
    refine ⟨fun l' h => (nomatch h), ?_, Puts.quit hquits⟩
    rw [aim, polled, hpick]
    exact h.follows
  | some lp =>
    have hpressed := tracks_press h hp
    obtain ⟨hrequest, hfollows, hread⟩ := lp.poller.poll_spec (F := F) t.answers
    rw [← hpressed.poller]
    dsimp only
    rcases hpoll : lp.poller.poll (F := F) t.answers with ⟨e | data, poller⟩
    · exact ⟨fun l' h => (nomatch h), hpressed.follows, Puts.failed hpressed.goes rfl⟩
    · rw [hpoll] at hrequest hfollows hread
      rw [hpressed.poller] at hrequest hfollows
      have hheld : (aim target t).watched.Follows poller.watched := hpressed.follows.trans hfollows
      have hpid : poller.watched.pid = (aim target t).watched.pid := by rw [hheld.eq]
      obtain ⟨memory, hhandle, hdata⟩ := hread data rfl
      rw [hpressed.poller] at hdata
      have hsnapshot : SnapshotOf (aim target t).watched t data := ⟨_, memory, hheld, hhandle, hdata⟩
      have hselects := selects_clampEntry lp.state data
      have hrate : min rateMs 10 ≤ (lp.state.clampEntry
          data.interpreter.gc.generationStats.entries.length).rateMs := by
        rw [TuiState.rateMs_clampEntry]
        exact hpressed.rate
      dsimp only
      generalize lp.state.clampEntry data.interpreter.gc.generationStats.entries.length = state at *
      obtain ⟨hdumps, note, hdumped⟩ := dump_spec (l := { lp with poller, state }) data hpid
        hpressed.pending
      have hup : TimeIsUp setting (aim target t) t ↔ (setting.durationSecs.any fun secs =>
          decide (secs ≤ (t.now - lp.start) / 1000000000)) = true := by
        rw [hpressed.start, TimeIsUp]
        cases setting.durationSecs <;> simp
      rw [hdumps, hdumped]
      dsimp only
      split_ifs with htime
      · exact ⟨fun l' h => (nomatch h), hpressed.follows,
          Puts.timeUp hpressed.goes rfl (hup.mpr htime) hsnapshot hselects⟩
      · refine ⟨fun l' h => ?_, hpressed.follows, ?_⟩
        · obtain rfl := Except.ok.inj h
          exact ⟨hrequest, hheld, hpressed.start, hpressed.frame, rfl, hrate⟩
        · rw [hpressed.start]
          exact Puts.drawn hpressed.goes rfl (mt hup.mp htime) (draw_sound (l := { lp with
            poller, state, frame := lp.frame + 1, pendingDump := false, dumpNote := note })
            hpid hpressed.frame hsnapshot hselects hrate)

end Loop

/-- **What the loop shows.** In every turn of every run, whatever is pressed, picked and read: a frame
shows what the turn reads of the process the keys picked last, and the file of that process is written
exactly where `s` is pressed in that very turn and the poll reads. The loop ends by its keys, at a
failing poll or when its time is up, and puts out nothing from then on. -/
theorem tui_shows_target {F : Type} [F64 F] (setting : Setting F) (watched : Watched)
    (start rateMs : ℕ) (glitchEnabled : Bool) (turns : List Turn) (t : Turn) :
    let run := Mealy.exec (step setting) (.ok (.new watched start rateMs glitchEnabled)) turns
    let target := target watched start (turns ++ [t])
    let outs := (step setting run t).2
    match run with
    | .ok l =>
      let answer := ((⟨l.polled t, .tui⟩ : SnapshotPoller).poll t.answers).1
      target.watched.Follows (l.polled t) ∧
        Puts setting rateMs target t answer (Loop.ends (step setting run t).1) outs ∧
        ∀ data, (∃ view, .dumped (toString target.watched.pid ++ ".txt") data view ∈ outs) ↔
          t.key = some (.char 's') ∧ answer = .ok data
    | .error _ => outs = [] := by
  have hnew : Loop.Tracks rateMs ⟨watched, start, 0⟩ (.new watched start rateMs glitchEnabled) :=
    ⟨rfl, .refl, rfl, rfl, rfl, min_le_left _ _⟩
  have hrun : ∀ l, Mealy.exec (step setting) (.ok (.new watched start rateMs glitchEnabled)) turns =
      .ok l → l.Tracks rateMs (target watched start turns) := by
    refine Mealy.exec_history (P := fun pre (s : Except Ending Loop) =>
      ∀ l, s = .ok l → l.Tracks rateMs (target watched start pre)) (fun l h => ?_)
      fun pre t post _ hpre l' h => ?_
    · rw [← Except.ok.inj h]
      exact hnew
    · rw [target_concat]
      cases hs : Mealy.exec (step setting) (.ok (.new watched start rateMs glitchEnabled)) pre with
      | error ending =>
        rw [hs] at h
        cases h
      | ok l =>
        rw [hs] at h
        exact (Loop.tracks_turn (hpre l hs)).1 l' h
  cases hs : Mealy.exec (step setting) (.ok (.new watched start rateMs glitchEnabled)) turns with
  | error ending => rfl
  | ok l =>
    have hturn : _ ∧ _ ∧ Puts setting rateMs _ t _ _ _ := Loop.tracks_turn (hrun l hs)
    obtain ⟨-, hfollows, hputs⟩ := hturn
    rw [target_concat]
    exact ⟨hfollows, hputs, hputs.dumped_iff⟩

end Tui

end GcScope
