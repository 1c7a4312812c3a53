import Mathlib.Tactic.Common
import GcScope.Lib.Paced
import GcScope.Tui.GlitchSafe

/-!
# When the glitch animation shows

The timer behind the effects: once a frame it looks at the clock and starts or ends a glitch, or moves
the connection-lost sequence on. What it shows is drawn over the frame.

* `GlitchState`, `tick`, `updateJitter`: the timer.
* `overlay`, `drawFrames`: what is drawn over a frame, and a run of frames.
* `tick_cases`: what a look at the clock does.
* **`sequence_paced`**: how long the parts of the sequence last.
* **`frames_safe_iff`**: on which screens no run of frames panics.
-/

set_option autoImplicit false

namespace GcScope.Glitch

open ListFacts MachineInt

/-! ## The timer -/

/-- A moment, and a length of time, in nanoseconds. -/
abbrev Instant := ℕ

def fromMillis (ms : ℕ) : Instant := ms * 1000000

def fromSecs (secs : ℕ) : Instant := secs * 1000000000

structure GlitchState where
  glitchActive : Bool
  nextGlitchAt : Instant
  glitchEnd : Instant
  clActive : Bool
  /-- 0 = inactive, 1 = build-up, 2 = message. -/
  clPhase : ℕ
  clPhaseStart : Instant
  clEnd : Instant
  nextClShow : Instant
  clJx : ℤ
  clJy : ℤ
  clLastJitter : Instant

namespace GlitchState

def new (now : Instant) : GlitchState where
  glitchActive := false
  nextGlitchAt := now
  glitchEnd := now
  clActive := false
  clPhase := 0
  clPhaseStart := now
  clEnd := now
  nextClShow := now + fromSecs 30
  clJx := 0
  clJy := 0
  clLastJitter := now

/-- Advance the timers by one frame. -/
def tick (g : GlitchState) (now : Instant) (glitchEnabled : Bool) (rng : UInt32) :
    Option (GlitchState × UInt32) :=
  if ¬glitchEnabled then some (g, rng)
  else if g.clActive then
    if g.clPhase = 1 then
      if g.clPhaseStart + fromSecs 1 ≤ now then do
        let (msgDur, rng) ← randRange rng 4000 8000
        return ({ g with clPhase := 2, clPhaseStart := now, clEnd := now + fromMillis msgDur }, rng)
      else some (g, rng)
    else if g.clPhase = 2 ∧ g.clEnd ≤ now then do
      let (n, rng) ← randRange rng 1000 8000
      let delay ← checkedU32 (n * 2)
      let (interval, rng) ← randRange rng 25000 35000
      return ({ g with clActive := false, clPhase := 0, nextGlitchAt := now + fromMillis delay,
                       nextClShow := now + fromMillis interval }, rng)
    else some (g, rng)
  else if g.nextClShow ≤ now then
    some ({ g with clActive := true, clPhase := 1, clPhaseStart := now }, rng)
  else if g.glitchActive then
    if g.glitchEnd ≤ now then do
      let (delay, rng) ← randRange rng 1000 8000
      return ({ g with glitchActive := false, nextGlitchAt := now + fromMillis delay }, rng)
    else some (g, rng)
  else if g.nextGlitchAt ≤ now then do
    let (dur, rng) ← randRange rng 200 600
    return ({ g with glitchActive := true, glitchEnd := now + fromMillis dur }, rng)
  else some (g, rng)

/-- A shift of the box, from -1 to 1. -/
def jitter (n : ℕ) : ℤ := max (-1) (min ((n : ℤ) - 1) 1)

/-- Shift the box, five times a second at most and only while the message shows. -/
def updateJitter (g : GlitchState) (now : Instant) (rng : UInt32) : Option (GlitchState × UInt32) :=
  if g.clActive ∧ g.clPhase = 2 ∧ g.clLastJitter + fromMillis 200 ≤ now then do
    let (x, rng) ← randRange rng 0 2
    let (y, rng) ← randRange rng 0 2
    return ({ g with clJx := jitter x, clJy := jitter y, clLastJitter := now }, rng)
  else some (g, rng)

def shouldGlitch (g : GlitchState) (enabled : Bool) : Bool := enabled && !g.clActive && g.glitchActive

def shouldBuildup (g : GlitchState) (enabled : Bool) : Bool :=
  enabled && g.clActive && g.clPhase == 1

def shouldMsg (g : GlitchState) (enabled : Bool) : Bool := enabled && g.clActive && g.clPhase == 2

end GlitchState

/-! ## A frame -/

/-- What a frame finds: the clock before and while it is drawn, whether the effect is switched on, and
the screen as drawn so far. -/
structure Frame (Color Modifier : Type) where
  now : Instant
  drawnAt : Instant
  glitchEnabled : Bool
  area : Area
  buffer : Buffer Color Modifier area

variable {Color Modifier : Type} (R : Rounding) (ink : Ink Color Modifier)

/-- A length of time in seconds, as a double. -/
def asSecsF64 (d : Instant) : ℚ :=
  R.round (R.round (d / 1000000000 : ℕ) + R.round ((d % 1000000000 : ℕ) / 1000000000))

/-- How far the build-up has come. -/
def buildupProgress (g : GlitchState) (drawnAt : Instant) : ℚ :=
  min (asSecsF64 R (drawnAt - g.clPhaseStart)) 1

/-- Draw the effect that shows over the frame. -/
def overlay (g : GlitchState) (frame : Frame Color Modifier) (rng : UInt32) :
    Option (State Color Modifier frame.area) :=
  if g.shouldBuildup frame.glitchEnabled then
    applyConnectionLostBuildup R (frame.buffer, rng) (buildupProgress R g frame.drawnAt)
  else if g.shouldMsg frame.glitchEnabled then do
    let b ← drawConnectionLostBox ink frame.buffer g.clJx g.clJy
    let (count, rng) ← randRange rng 3 6
    glitches count (b, rng)
  else if g.shouldGlitch frame.glitchEnabled then applyGlitch (frame.buffer, rng)
  else some (frame.buffer, rng)

/-- The timer's part of a frame. -/
def advance (s : GlitchState × UInt32) (now : Instant) (glitchEnabled : Bool) :
    Option (GlitchState × UInt32) := do
  let (g, rng) ← s.1.tick now glitchEnabled s.2
  g.updateJitter now rng

/-- One frame: the timer moves on, and the effect that shows is drawn. -/
def drawFrame (s : GlitchState × UInt32) (frame : Frame Color Modifier) :
    Option (GlitchState × UInt32) := do
  let (g, rng) ← advance s frame.now frame.glitchEnabled
  let (_, rng) ← overlay R ink g frame rng
  return (g, rng)

/-- Frames one after another. -/
def drawFrames (s : GlitchState × UInt32) (frames : List (Frame Color Modifier)) :
    Option (GlitchState × UInt32) := frames.foldlM (drawFrame R ink) s

/-! ## What a look at the clock does -/

namespace GlitchState

/-- The states a look at the clock may lead to. -/
inductive Ticked (g : GlitchState) (now : Instant) (enabled : Bool) : GlitchState → Prop
  | idle (build : enabled = true → g.clActive = true → g.clPhase = 1 →
        now < g.clPhaseStart + fromSecs 1)
      (message : enabled = true → g.clActive = true → g.clPhase = 2 → now < g.clEnd)
      (calm : enabled = true → g.clActive = false → now < g.nextClShow) : Ticked g now enabled g
  | message {dur : ℕ} (active : g.clActive = true) (phase : g.clPhase = 1)
      (due : g.clPhaseStart + fromSecs 1 ≤ now) (least : 4000 ≤ dur) (most : dur ≤ 8000) :
      Ticked g now enabled
        { g with clPhase := 2, clPhaseStart := now, clEnd := now + fromMillis dur }
  | finish {delay interval : ℕ} (active : g.clActive = true) (phase : g.clPhase = 2)
      (due : g.clEnd ≤ now) (least : 25000 ≤ interval) (most : interval ≤ 35000) :
      Ticked g now enabled
        { g with clActive := false, clPhase := 0, nextGlitchAt := now + fromMillis delay,
                 nextClShow := now + fromMillis interval }
  | buildup (calm : g.clActive = false) (due : g.nextClShow ≤ now) :
      Ticked g now enabled { g with clActive := true, clPhase := 1, clPhaseStart := now }
  | clear {delay : ℕ} (calm : g.clActive = false) (early : now < g.nextClShow) :
      Ticked g now enabled
        { g with glitchActive := false, nextGlitchAt := now + fromMillis delay }
  | flicker {dur : ℕ} (calm : g.clActive = false) (early : now < g.nextClShow) :
      Ticked g now enabled { g with glitchActive := true, glitchEnd := now + fromMillis dur }

variable (g : GlitchState) (now : Instant) (rng : UInt32)

/-- **A look at the clock never fails**, and leads to one of these. -/
theorem tick_cases (enabled : Bool) :
    ∃ g' rng', g.tick now enabled rng = some (g', rng') ∧ g.Ticked now enabled g' := by
  unfold tick
  split_ifs with hoff hactive hbuild hbuilt hover hshow hglitch hend hnext
  · have hdur := draw_bounds (show 4000 ≤ 8000 by decide) rng
    rw [randRange_bind (by decide)]
    exact ⟨_, _, rfl, .message hactive hbuild hbuilt hdur.1 hdur.2⟩
  · refine ⟨_, _, rfl, .idle (fun _ _ _ => not_le.mp hbuilt) (fun _ _ h => ?_) fun _ h => ?_⟩
    · rw [hbuild] at h
      cases h
    · rw [hactive] at h
      cases h
  · have hn := draw_bounds (show 1000 ≤ 8000 by decide) rng
    rw [randRange_bind (by decide)]
    generalize draw rng 1000 8000 = n at hn ⊢
    have hinterval := draw_bounds (show 25000 ≤ 35000 by decide) n.2
    have hdelay : checkedU32 (n.1 * 2) = some (n.1 * 2) := if_pos (by omega)
    dsimp only
    rw [hdelay, Option.bind_eq_bind, Option.bind_some, randRange_bind (by decide)]
    exact ⟨_, _, rfl, .finish hactive hover.1 hover.2 hinterval.1 hinterval.2⟩
  · refine ⟨_, _, rfl, .idle (fun _ _ h => absurd h hbuild)
      (fun _ _ h => not_le.mp fun hle => hover ⟨h, hle⟩) fun _ h => ?_⟩
    rw [hactive] at h
    cases h
  · exact ⟨_, _, rfl, .buildup (Bool.not_eq_true _ ▸ hactive) hshow⟩
  · rw [randRange_bind (by decide)]
    exact ⟨_, _, rfl, .clear (Bool.not_eq_true _ ▸ hactive) (not_le.mp hshow)⟩
  · exact ⟨_, _, rfl, .idle (fun _ h => absurd h hactive) (fun _ h => absurd h hactive)
      fun _ _ => not_le.mp hshow⟩
  · rw [randRange_bind (by decide)]
    exact ⟨_, _, rfl, .flicker (Bool.not_eq_true _ ▸ hactive) (not_le.mp hshow)⟩
  · exact ⟨_, _, rfl, .idle (fun _ h => absurd h hactive) (fun _ h => absurd h hactive)
      fun _ _ => not_le.mp hshow⟩
  · exact ⟨_, _, rfl, .idle (fun h => absurd h hoff) (fun h => absurd h hoff) fun h => absurd h hoff⟩

theorem exists_updateJitter : ∃ x y t rng', g.updateJitter now rng =
    some ({ g with clJx := x, clJy := y, clLastJitter := t }, rng') := by
  unfold updateJitter
  split_ifs
  · rw [randRange_bind (by decide)]
    dsimp only
    rw [randRange_bind (by decide)]
    exact ⟨_, _, _, _, rfl⟩
  · exact ⟨g.clJx, g.clJy, g.clLastJitter, rng, rfl⟩

/-- The sequence is in one of its phases. -/
structure WellPhased : Prop where
  active_iff : g.clActive = true ↔ g.clPhase ≠ 0
  phase_le : g.clPhase ≤ 2

theorem wellPhased_new : (new now).WellPhased := ⟨by simp [new], Nat.zero_le 2⟩

variable {g now} {enabled : Bool} {g' : GlitchState}

theorem WellPhased.tick (h : g.WellPhased) (ht : g.Ticked now enabled g') : g'.WellPhased := by
  cases ht with
  | idle => exact h
  | message active _ _ _ _ => exact ⟨by simp [active], le_rfl⟩
  | finish _ _ _ _ _ => exact ⟨by simp, Nat.zero_le 2⟩
  | buildup _ _ => exact ⟨by simp, one_le_two⟩
  | clear calm _ => exact ⟨h.active_iff, h.phase_le⟩
  | flicker calm _ => exact ⟨h.active_iff, h.phase_le⟩

theorem WellPhased.calm_iff (h : g.WellPhased) : g.clActive = false ↔ g.clPhase = 0 := by
  rw [← Bool.not_eq_true, h.active_iff, not_not]

variable (g) in
/-- When the phase of the sequence is due to end. -/
def phaseEnd : Instant :=
  if g.clPhase = 0 then g.nextClShow
  else if g.clPhase = 1 then g.clPhaseStart + fromSecs 1
  else g.clEnd

theorem WellPhased.early (h : g.WellPhased) (build : g.clActive = true → g.clPhase = 1 →
      now < g.clPhaseStart + fromSecs 1) (message : g.clActive = true → g.clPhase = 2 → now < g.clEnd)
    (calm : g.clActive = false → now < g.nextClShow) : now < g.phaseEnd := by
  unfold phaseEnd
  split_ifs with h₀ h₁
  · exact calm (h.calm_iff.mpr h₀)
  · exact build (h.active_iff.mpr h₀) h₁
  · have hle := h.phase_le
    exact message (h.active_iff.mpr h₀) (by omega)

end GlitchState

/-! ## The pace of the sequence -/

/-- How long the phases last at least: calm, the build-up and the message. -/
def shortest : ℕ → Instant
  | 0 => fromSecs 25
  | 1 => fromSecs 1
  | _ => fromSecs 4

/-- How long they last at most. -/
def longest : ℕ → Instant
  | 0 => fromSecs 35
  | 1 => fromSecs 1
  | _ => fromSecs 8

/-- The phases of the sequence, over frames. -/
def pace (Color Modifier : Type) : Pace (GlitchState × UInt32) (Frame Color Modifier) ℕ where
  phase s := s.1.clPhase
  due s := s.1.phaseEnd
  clock frame := frame.now
  next phase := (phase + 1) % 3
  least := shortest
  most := longest

/-- What a change of phase tells. -/
def changed (now : Instant) (before after : GlitchState) : List (Instant × ℕ) :=
  if after.clPhase = before.clPhase then [] else [(now, after.clPhase)]

/-- One frame, and the change of phase it makes; the program ends at a frame that panics. -/
def frameStep (s : GlitchState × UInt32) (frame : Frame Color Modifier) :
    (GlitchState × UInt32) × List (Instant × ℕ) :=
  match drawFrame R ink s frame with
  | some s' => (s', changed frame.now s.1 s'.1)
  | none => (s, [])

variable (Color Modifier) in
open GlitchState in
theorem beat_of_ticked {g g' : GlitchState} {now : Instant} {enabled : Bool} {running : Prop}
    (rng rng' : UInt32) (hg : g.WellPhased) (h : g.Ticked now enabled g')
    (hrunning : running → enabled = true) :
    (pace Color Modifier).Beat running now (g, rng) ((g', rng'), changed now g g') := by
  cases h with
  | idle build message calm =>
    rw [changed, if_pos rfl]
    exact .stay rfl rfl fun h => hg.early (build (hrunning h)) (message (hrunning h))
      (calm (hrunning h))
  | clear calm early =>
    have hphase : g.clPhase = 0 := hg.calm_iff.mp calm
    rw [changed, if_pos rfl]
    exact .stay rfl rfl fun _ => early.trans_eq (if_pos hphase).symm
  | flicker calm early =>
    have hphase : g.clPhase = 0 := hg.calm_iff.mp calm
    rw [changed, if_pos rfl]
    exact .stay rfl rfl fun _ => early.trans_eq (if_pos hphase).symm
  | message active phase due least most =>
    have hdue : g.phaseEnd = g.clPhaseStart + fromSecs 1 := by simp [phaseEnd, phase]
    rw [changed, if_neg (by simp [phase])]
    refine .turn (hdue.trans_le due) (by simp [pace, phase]) ⟨?_, ?_⟩ <;>
      simp [pace, phaseEnd, shortest, longest, fromSecs, fromMillis] <;> omega
  | finish active phase due least most =>
    have hdue : g.phaseEnd = g.clEnd := by simp [phaseEnd, phase]
    rw [changed, if_neg (by simp [phase])]
    refine .turn (hdue.trans_le due) (by simp [pace, phase]) ⟨?_, ?_⟩ <;>
      simp [pace, phaseEnd, shortest, longest, fromSecs, fromMillis] <;> omega
  | buildup calm due =>
    have hphase : g.clPhase = 0 := hg.calm_iff.mp calm
    have hdue : g.phaseEnd = g.nextClShow := if_pos hphase
    rw [changed, if_neg (by simp [hphase])]
    refine .turn (hdue.trans_le due) (by simp [pace, hphase]) ⟨?_, ?_⟩ <;>
      simp [pace, phaseEnd, shortest, longest]

/-! ## What is drawn -/

/-- A screen that every effect fits, or that none is drawn on. -/
def Area.Fits (area : Area) : Prop :=
  area.width.toNat < 4 ∨ 8 ≤ area.width.toNat ∨ area.height.toNat < 2

theorem Area.Fits.not_tooNarrow {area : Area} (h : area.Fits) (rng : UInt32) :
    ¬TooNarrow area rng := by
  rintro ⟨hroom, hkind⟩
  unfold Area.Fits at h
  omega

theorem asSecsF64_nonneg (d : Instant) : 0 ≤ asSecsF64 R d := by
  have hzero : R.round 0 = 0 := by simpa using R.natCast 0 (Nat.zero_le _)
  have hround : ∀ q : ℚ, 0 ≤ q → 0 ≤ R.round q := fun q hq => hzero.symm.trans_le (R.mono hq)
  exact hround _ (add_nonneg (hround _ (Nat.cast_nonneg _)) (hround _ (by positivity)))

/-- How far a build-up has come lies between its start and its end. -/
def progressOf (g : GlitchState) (drawnAt : Instant) : Progress where
  value := buildupProgress R g drawnAt
  nonneg := le_min (asSecsF64_nonneg R _) zero_le_one
  le_one := min_le_right _ _

/-- **The effect that shows is drawn** on a screen that fits. -/
theorem isSome_overlay (g : GlitchState) {frame : Frame Color Modifier} (h : frame.area.Fits)
    (rng : UInt32) : (overlay R ink g frame rng).isSome = true := by
  unfold overlay
  split_ifs
  · exact (isSome_buildup_iff R _ (progressOf R g frame.drawnAt)).mpr fun k _ => h.not_tooNarrow _
  · obtain ⟨b, hb⟩ := exists_drawConnectionLostBox ink frame.buffer g.clJx g.clJy
    rw [hb, Option.bind_eq_bind, Option.bind_some, randRange_bind (by decide), ← Option.isSome_map]
    exact (guarded_glitches _ _).isSome_iff.mpr fun k _ => h.not_tooNarrow _
  · rw [← Option.isSome_map]
    exact (guarded_applyGlitch _).isSome_iff.mpr fun k _ => h.not_tooNarrow _
  · rfl

theorem exists_advance (s : GlitchState × UInt32) (now : Instant) (enabled : Bool) :
    ∃ g x y t rng, s.1.Ticked now enabled g ∧ advance s now enabled =
      some ({ g with clJx := x, clJy := y, clLastJitter := t }, rng) := by
  obtain ⟨g, rng, htick, hticked⟩ := s.1.tick_cases now s.2 enabled
  obtain ⟨x, y, t, rng', hjitter⟩ := g.exists_updateJitter now rng
  refine ⟨g, x, y, t, rng', hticked, ?_⟩
  rw [advance, htick]
  exact hjitter

/-- **What a frame does to the timer**, where it is drawn; it is drawn on a screen that fits. -/
theorem exists_drawFrame (s : GlitchState × UInt32) (frame : Frame Color Modifier) :
    (frame.area.Fits → (drawFrame R ink s frame).isSome = true) ∧
    ∀ s', drawFrame R ink s frame = some s' → ∃ g x y t, s.1.Ticked frame.now frame.glitchEnabled g ∧
      s'.1 = { g with clJx := x, clJy := y, clLastJitter := t } := by
  obtain ⟨g, x, y, t, rng, hticked, hadvance⟩ := exists_advance s frame.now frame.glitchEnabled
  have hframe : drawFrame R ink s frame =
      (overlay R ink { g with clJx := x, clJy := y, clLastJitter := t } frame rng).bind fun r =>
        some ({ g with clJx := x, clJy := y, clLastJitter := t }, r.2) := by
    rw [drawFrame, hadvance]
    rfl
  rw [hframe]
  constructor
  · intro hfits
    obtain ⟨r, hr⟩ := Option.isSome_iff_exists.mp (isSome_overlay R ink
      { g with clJx := x, clJy := y, clLastJitter := t } hfits rng)
    rw [hr]
    rfl
  · intro s' hs'
    obtain ⟨r, -, hr⟩ := Option.bind_eq_some_iff.mp hs'
    exact ⟨g, x, y, t, hticked, congrArg Prod.fst (Option.some.inj hr).symm⟩

/-! ## The results -/

/-- A frame keeps the sequence in one of its phases, and keeps the pace. -/
theorem beat_frameStep {s : GlitchState × UInt32} (h : s.1.WellPhased) (frame : Frame Color Modifier) :
    (frameStep R ink s frame).1.1.WellPhased ∧
      (pace Color Modifier).Beat (frame.glitchEnabled = true ∧ frame.area.Fits) frame.now s
        (frameStep R ink s frame) := by
  obtain ⟨hdrawn, hframe⟩ := exists_drawFrame R ink s frame
  unfold frameStep
  cases hs : drawFrame R ink s frame with
  | none =>
    refine ⟨h, .stay rfl rfl fun hon => ?_⟩
    have := hdrawn hon.2
    rw [hs] at this
    cases this
  | some s' =>
    obtain ⟨g, x, y, t, hticked, hs'⟩ := hframe s' hs
    obtain ⟨g', rng'⟩ := s'
    obtain rfl : g' = _ := hs'
    have hbeat := beat_of_ticked Color Modifier s.2 rng' h hticked
      (And.left : frame.glitchEnabled = true ∧ frame.area.Fits → _)
    have hphased := h.tick hticked
    exact ⟨⟨hphased.active_iff, hphased.phase_le⟩, hbeat.congr rfl rfl⟩

/-- A screen of blank cells. -/
def Buffer.blank (ink : Ink Color Modifier) (area : Area) : Buffer Color Modifier area where
  content := List.replicate (area.height.toNat * area.width.toNat) ⟨" ", ink.black, ink.red, ink.bold⟩
  filled := List.length_replicate

/-- An empty screen of 80 columns and 24 rows, at each of the moments. -/
def framesAt (moments : List Instant) : List (Frame Unit Unit) :=
  moments.map fun now => ⟨now, now, true, ⟨80, 24⟩, .blank ⟨(), (), ()⟩ ⟨80, 24⟩⟩

/-- **The pace of the connection-lost sequence.** Calm, build-up and message follow one another, from calm
when the program starts, and none is cut short, whatever the clock shows, the keys switch and the
screen is resized to; on screens that fit, while the effect is on and no two frames are more than `δ`
apart, none lasts longer than it should by more than `δ`. -/
theorem sequence_paced (t₀ : Instant) (rng : UInt32) (frames : List (Frame Color Modifier)) :
    let phases := (t₀, 0) :: Mealy.outs (frameStep R ink) (.new t₀, rng) frames
    phases.IsChain (fun a b => b.2 = (a.2 + 1) % 3 ∧ a.1 + shortest a.2 ≤ b.1) ∧
      ∀ δ, (∀ frame ∈ frames, frame.glitchEnabled = true ∧ frame.area.Fits) →
        (t₀ :: frames.map Frame.now).IsChain (fun s t => t ≤ s + δ) →
          phases.IsChain (fun a b => b.1 ≤ a.1 + longest a.2 + δ) ∧
            ∀ final ∈ phases.getLast?,
              (frames.map Frame.now).getLastD t₀ ≤ final.1 + longest final.2 := by
  have hset : (pace Color Modifier).SetAt t₀ (.new t₀, rng) := by
    constructor <;> simp [pace, GlitchState.phaseEnd, GlitchState.new, shortest, longest, fromSecs]
  have hstep := fun (s : GlitchState × UInt32) (h : s.1.WellPhased) frame (_ : frame ∈ frames) =>
    beat_frameStep R ink h frame
  have hnew : GlitchState.WellPhased (GlitchState.new t₀, rng).1 := GlitchState.wellPhased_new t₀
  refine ⟨Pace.isChain_least hstep hnew hset, fun δ hrun hclock => ?_⟩
  exact Pace.isChain_most hstep hnew hset hrun hclock
    (Nat.le_trans (Nat.le_add_right _ _) hset.1)

/-- Half a minute of calm, then the build-up and the message: with frames at most 29 seconds apart each
phase begins when it should. -/
theorem sequence_paced_message :
    let phases := (0, 0) :: Mealy.outs (frameStep .exact ⟨(), (), ()⟩) (.new 0, 12345)
      (framesAt [fromSecs 29, fromSecs 30, fromSecs 31])
    phases.IsChain (fun a b => b.2 = (a.2 + 1) % 3 ∧ a.1 + shortest a.2 ≤ b.1) ∧
      phases.IsChain fun a b => b.1 ≤ a.1 + longest a.2 + fromSecs 29 :=
  have h := sequence_paced .exact ⟨(), (), ()⟩ 0 12345
    (framesAt [fromSecs 29, fromSecs 30, fromSecs 31])
  ⟨h.1, (h.2 (fromSecs 29) (fun frame hframe => by
    obtain ⟨now, -, rfl⟩ := List.mem_map.mp hframe
    exact ⟨rfl, Or.inr (Or.inl (show 8 ≤ (80 : UInt16).toNat by decide))⟩) (by decide)).1⟩

theorem drawFrames_isSome {frames : List (Frame Color Modifier)}
    (h : ∀ frame ∈ frames, frame.area.Fits) (s : GlitchState × UInt32) :
    (drawFrames R ink s frames).isSome = true := by
  obtain ⟨s', hs'⟩ := exists_foldlM_total (f := drawFrame R ink) (fun s frame hframe =>
    Option.isSome_iff_exists.mp ((exists_drawFrame R ink s frame).1 (h frame hframe))) s
  rw [drawFrames, hs']
  rfl

theorem advance_new (t₀ : Instant) (rng : UInt32) : advance (.new t₀, rng) t₀ true =
    some ({ GlitchState.new t₀ with
      glitchActive := true, glitchEnd := t₀ + fromMillis (draw rng 200 600).1 },
      (draw rng 200 600).2) := by
  have hcalm : ¬t₀ + fromSecs 30 ≤ t₀ := by simp [fromSecs]
  simp only [advance, GlitchState.tick, GlitchState.new, not_true, if_false, Bool.false_eq_true,
    hcalm, le_refl, if_true, randRange_bind (show 600 < 2 ^ 32 - 1 by decide)]
  rfl

/-- **On which screens no run panics.** Whatever the seed, the clock and the keys, every run of frames on
screens of the given sizes comes through if and only if each of them is less than 4 or at least 8
columns wide, or less than 2 rows high. -/
theorem frames_safe_iff (sizes : Set Area) :
    (∀ t₀ rng (frames : List (Frame Color Modifier)), (∀ frame ∈ frames, frame.area ∈ sizes) →
      (drawFrames R ink (.new t₀, rng) frames).isSome = true) ↔
      ∀ area ∈ sizes, area.width.toNat < 4 ∨ 8 ≤ area.width.toNat ∨ area.height.toNat < 2 := by
  constructor
  · intro h area harea
    by_contra hsize
    -- the first frame starts a glitch, whose first effect is to swap the colors of a block
    have hnarrow : TooNarrow area (draw (draw 2 200 600).2 0 1).2 :=
      ⟨⟨by omega, by omega⟩, Or.inr ⟨by decide, by omega⟩⟩
    have hdrawn := h 0 2 [⟨0, 0, true, area, .blank ink area⟩] (by simpa using harea)
    have hglitch : (applyGlitch (Buffer.blank ink area, (draw 2 200 600).2)).isSome = true := by
      obtain ⟨s, hs⟩ := Option.isSome_iff_exists.mp hdrawn
      obtain ⟨s', hs', -⟩ := Option.bind_eq_some_iff.mp hs
      rw [drawFrame, advance_new, Option.bind_eq_bind, Option.bind_some] at hs'
      obtain ⟨r, hr, -⟩ := Option.bind_eq_some_iff.mp hs'
      exact Option.isSome_iff_exists.mpr ⟨r, hr⟩
    rw [← Option.isSome_map] at hglitch
    refine (guarded_applyGlitch _).isSome_iff.mp hglitch 0 ?_ hnarrow
    split_ifs <;> decide
  · intro h t₀ rng frames hframes
    exact drawFrames_isSome R ink (fun frame hframe => h _ (hframes frame hframe)) _

/-- A run on a terminal of 80 columns comes through. -/
theorem frames_safe_iff_wide : (drawFrames .exact ⟨(), (), ()⟩ (.new 0, 2)
    (framesAt [fromSecs 29, fromSecs 30, fromSecs 31])).isSome = true :=
  (frames_safe_iff .exact ⟨(), (), ()⟩ {⟨80, 24⟩}).mpr (by
    rintro area rfl
    exact Or.inr (Or.inl (by decide))) 0 2 _ (by
      intro frame hframe
      obtain ⟨now, -, rfl⟩ := List.mem_map.mp hframe
      rfl)

end GcScope.Glitch
