import Mathlib.Tactic.Common
import GcScope.Lib.Guarded
import GcScope.Lib.ListFacts
import GcScope.Lib.MachineInt
import GcScope.ListPids.Rows

/-!
# The dialog that picks a process

The dialog lists processes in a popup and lets the user move among those that can be watched. Each
turn draws the window of rows that holds the selection, then reads a key.

* `popupDims`, `capacityOf`, `scrollTo`, `renderDialog`: the popup and its window.
* `press`: the keys; `showPidDialog`: the loop, with what each turn showed and did.
* `supportedAtOrAfter_spec`, `supportedAtOrBefore_spec`: the searches for a row.
* `guarded_renderDialog`: when a frame is drawn, and what it shows.
* `press_spec`: what a key does to the selection.
* **`dialog_sound_iff`**: the dialogs whose selection stays valid and visible.
* `short_terminal_panics`: one that does not come through its first frame.
-/

set_option autoImplicit false

namespace GcScope

open ListFacts MachineInt

namespace PidDialog

/-! ## Rows -/

def isSupported (r : FlatRow) : Bool := r.isPython && r.runtimeFound && r.supportsStats

/-- Row `n` can be selected. -/
def Supported (rows : List FlatRow) (n : ℕ) : Prop := rows[n]?.any isSupported = true

instance (rows : List FlatRow) (n : ℕ) : Decidable (Supported rows n) := by
  unfold Supported; infer_instance

/-- First supported row at or after `start`, if any. -/
def supportedAtOrAfter (rows : List FlatRow) (start : ℕ) : Option ℕ :=
  (List.range' start (rows.length - start)).find? fun n => Supported rows n

/-- First supported row at or before `start`, if any. -/
def supportedAtOrBefore (rows : List FlatRow) (start : ℕ) : Option ℕ :=
  (List.range (min start (rows.length - 1) + 1)).reverse.find? fun n => Supported rows n

/-! ## The popup -/

/-- The size of the terminal. -/
structure Size where
  width : UInt16
  height : UInt16

/-- Popup width and height for a terminal and a number of rows. -/
def popupDims (area : Size) (numRows : ℕ) : Option (ℕ × ℕ) := do
  -- the product with the double 0.85, cut to an integer
  let popupW := 17 * area.width.toNat / 20
  let wanted ← checkedU16 (numRows % 2 ^ 16 + 4)
  return (popupW, max 12 (min (min wanted (area.height.toNat - 4)) 30))

/-- Number of data rows that fit inside a popup. -/
def capacityOf (popupH : ℕ) : ℕ := max (popupH - 4) 1

/-- How a row is drawn. -/
inductive RowStyle where
  | selected
  | dimmed
  | plain
  deriving DecidableEq

/-- What is drawn: the popup, and the rows in it with their styles. -/
structure Frame where
  popupX : ℕ
  popupY : ℕ
  popupW : ℕ
  popupH : ℕ
  lines : List (ℕ × RowStyle)
  status : String

/-- What the dialog remembers between turns. -/
structure Dialog where
  selected : ℕ
  cmdlineScroll : ℕ
  scrollOffset : ℕ

/-- Keep the selected row within the window. -/
def scrollTo (selected scrollOffset capacity : ℕ) : Option ℕ :=
  if selected < scrollOffset then some selected
  else do
    let bottom ← checkedU64 (scrollOffset + capacity)
    if bottom ≤ selected then checkedDiff (selected + 1) capacity else return scrollOffset

/-- The style of row `i`. -/
def rowStyle (selected i : ℕ) (row : FlatRow) : RowStyle :=
  if i = selected then .selected else if !isSupported row then .dimmed else .plain

/-- The popup with the rows from `top` to `stop`. -/
def frameAt (rows : List FlatRow) (selected popupX popupY popupW popupH top stop : ℕ) : Frame where
  popupX := popupX
  popupY := popupY
  popupW := popupW
  popupH := popupH
  lines := ((rows.mapIdx fun i row => (i, rowStyle selected i row)).take stop).drop top
  status := " " ++ (if 0 < top then "▲ " else "") ++ toString (top + 1) ++ "-" ++ toString stop ++
    " of " ++ toString rows.length ++ (if stop < rows.length then " ▼" else "") ++ " "

/-- Draw a turn: the new scroll offset, and the frame. -/
def renderDialog (rows : List FlatRow) (d : Dialog) (area : Size) : Option (ℕ × Frame) := do
  let (popupW, popupH) ← popupDims area rows.length
  let capacity := capacityOf popupH
  let spareW ← checkedDiff area.width.toNat popupW
  let spareH ← checkedDiff area.height.toNat popupH
  let offset ← scrollTo d.selected d.scrollOffset capacity
  -- never scrolled past the end
  let top := min offset (rows.length - capacity)
  let stop ← checkedU64 (top + capacity)
  return (top, frameAt rows d.selected (spareW / 2) (spareH / 2) popupW popupH top
    (min stop rows.length))

/-! ## The keys -/

inductive Key where
  | up
  | down
  | pageUp
  | pageDown
  | home
  | toEnd
  | left
  | right
  | enter
  | quit
  | other
  deriving DecidableEq

/-- The dialog goes on, or it closes with a process or without one. -/
inductive Outcome where
  | running (d : Dialog)
  | closed (pid : Option ℕ)

/-- A key, with `page` rows to a page. -/
def press (rows : List FlatRow) (page : ℕ) (d : Dialog) : Key → Option Outcome
  | .up =>
    let target := if 0 < d.selected then supportedAtOrBefore rows (d.selected - 1) else none
    return .running { d with selected := target.getD d.selected }
  | .down => do
    let start ← checkedU64 (d.selected + 1)
    return .running { d with selected := (supportedAtOrAfter rows start).getD d.selected }
  | .pageUp =>
    let target := d.selected - page
    return .running { d with selected := ((supportedAtOrBefore rows target).or
      (supportedAtOrAfter rows target)).getD d.selected }
  | .pageDown => do
    let below ← checkedU64 (d.selected + page)
    let last ← checkedDiff rows.length 1
    let target := min below last
    return .running { d with selected := ((supportedAtOrAfter rows target).or
      (supportedAtOrBefore rows target)).getD d.selected }
  | .home => return .running { d with selected := (supportedAtOrAfter rows 0).getD d.selected }
  | .toEnd => do
    let last ← checkedDiff rows.length 1
    return .running { d with selected := (supportedAtOrBefore rows last).getD d.selected }
  | .left => return .running { d with cmdlineScroll := d.cmdlineScroll - 4 }
  | .right => return .running { d with cmdlineScroll := min (d.cmdlineScroll + 4) (2 ^ 16 - 1) }
  | .enter => do
    let row ← rows[d.selected]?
    return if isSupported row then .closed (some row.pid) else .running d
  | .quit => return .closed none
  | .other => return .running d

/-! ## The loop -/

/-- One turn: the terminal as it is drawn to, as it is asked for the page, and the key, if one comes. -/
structure Turn where
  drawn : Size
  asked : Size
  key : Option Key

/-- What a turn showed and did. -/
structure Step where
  area : Size
  frame : Frame
  before : ℕ
  key : Option Key
  after : Outcome

/-- One turn of the loop. -/
def turn (rows : List FlatRow) (d : Dialog) (t : Turn) : Option Step := do
  let (top, frame) ← renderDialog rows d t.drawn
  let (_, pageH) ← popupDims t.asked rows.length
  let d := { d with scrollOffset := top }
  let after ← match t.key with
    | none => some (.running d)
    | some key => press rows (capacityOf pageH) d key
  return { area := t.drawn, frame, before := d.selected, key := t.key, after }

/-- The turns of the loop, until the dialog closes. -/
def loop (rows : List FlatRow) : Dialog → List Turn → Option (List Step)
  | _, [] => some []
  | d, t :: rest => do
    let step ← turn rows d t
    match step.after with
    | .closed _ => return [step]
    | .running d =>
      let steps ← loop rows d rest
      return step :: steps

/-- The dialog over a list of rows. -/
def showPidDialog (rows : List FlatRow) (turns : List Turn) : Except String (Option (List Step)) :=
  if rows = [] then .error "No Python processes found"
  else
    match supportedAtOrAfter rows 0 with
    | none => .error "No supported Python processes found"
    | some selected => .ok (loop rows ⟨selected, 0, 0⟩ turns)

/-! ## Searching for a row -/

section Search

variable {rows : List FlatRow} {start m n : ℕ}

theorem Supported.lt (h : Supported rows n) : n < rows.length := by
  by_contra hge
  rw [Supported, List.getElem?_eq_none (Nat.not_lt.mp hge)] at h
  cases h

/-- **The search forwards finds the first supported row.** -/
theorem supportedAtOrAfter_spec : supportedAtOrAfter rows start = some n ↔
    start ≤ n ∧ Supported rows n ∧ ∀ m, start ≤ m → m < n → ¬Supported rows m := by
  rw [supportedAtOrAfter, List.find?_range'_eq_some, List.mem_range'_1, decide_eq_true_eq]
  constructor
  · rintro ⟨hn, ⟨hle, -⟩, hfirst⟩
    exact ⟨hle, hn, fun m h₁ h₂ => by simpa using hfirst m h₁ h₂⟩
  · rintro ⟨hle, hn, hfirst⟩
    have hlt := hn.lt
    exact ⟨hn, ⟨hle, by omega⟩, fun m h₁ h₂ => by simpa using hfirst m h₁ h₂⟩

theorem supportedAtOrAfter_le (hm : Supported rows m) (hle : start ≤ m) :
    ∃ n ≤ m, supportedAtOrAfter rows start = some n := by
  cases h : supportedAtOrAfter rows start with
  | none =>
    have hno := List.find?_range'_eq_none.mp h m hle (by have := hm.lt; omega)
    simp [hm] at hno
  | some n =>
    obtain ⟨-, -, hfirst⟩ := supportedAtOrAfter_spec.mp h
    refine ⟨n, ?_, rfl⟩
    by_contra hnm
    exact hfirst m hle (Nat.not_le.mp hnm) hm

/-- **The search backwards finds the last supported row.** -/
theorem supportedAtOrBefore_spec (hrows : rows ≠ []) : supportedAtOrBefore rows start = some n ↔
    n ≤ start ∧ Supported rows n ∧ ∀ m, n < m → m ≤ start → ¬Supported rows m := by
  have hpos := List.length_pos_iff.mpr hrows
  rw [supportedAtOrBefore, find?_reverse_range_eq_some_iff, decide_eq_true_eq]
  constructor
  · rintro ⟨hlt, hn, hlast⟩
    refine ⟨by omega, hn, fun m h₁ h₂ hm => ?_⟩
    have := hm.lt
    exact of_decide_eq_false (hlast m h₁ (by omega)) hm
  · rintro ⟨hle, hn, hlast⟩
    have := hn.lt
    exact ⟨by omega, hn, fun m h₁ h₂ => decide_eq_false (hlast m h₁ (by omega))⟩

end Search

/-! ## The window -/

section Window

variable {rows : List FlatRow} {d : Dialog} {area : Size}

/-- The dimensions, where the number of rows as a word leaves room for the frame. -/
theorem guarded_popupDims (area : Size) (n : ℕ) : Guarded (popupDims area n)
    (n % 2 ^ 16 < 65532) (17 * area.width.toNat / 20,
      max 12 (min (min (n % 2 ^ 16 + 4) (area.height.toNat - 4)) 30)) := by
  have hwanted : Guarded (checkedU16 (n % 2 ^ 16 + 4)) (n % 2 ^ 16 + 4 < 2 ^ 16) (n % 2 ^ 16 + 4) :=
    Guarded.ite _ _
  have hdims := hwanted.bind (f := fun wanted => some (17 * area.width.toNat / 20,
    max 12 (min (min wanted (area.height.toNat - 4)) 30))) (Guarded.pure _)
  refine hdims.congr ?_
  rw [and_true]
  omega

/-- **The window is moved onto the selected row.** -/
theorem scrollTo_spec {selected offset capacity len : ℕ} (hsel : selected < len)
    (hoff : offset ≤ len) (hpos : 0 < capacity) (hcap : capacity ≤ 30) (hlen : len < 2 ^ 63) :
    ∃ o, scrollTo selected offset capacity = some o ∧ o ≤ selected ∧ selected < o + capacity := by
  rw [scrollTo]
  split_ifs with habove
  · exact ⟨selected, rfl, le_rfl, by omega⟩
  · have hbottom : checkedU64 (offset + capacity) = some (offset + capacity) := if_pos (by omega)
    rw [hbottom, Option.bind_eq_bind, Option.bind_some]
    split_ifs with hbelow
    · have hdiff : checkedDiff (selected + 1) capacity = some (selected + 1 - capacity) :=
        if_pos (by omega)
      exact ⟨_, hdiff, by omega, by omega⟩
    · exact ⟨offset, rfl, by omega, by omega⟩

/-- What a frame has to show: the selected row, all of its rows, and itself inside the terminal. -/
structure Frame.Shows (f : Frame) (area : Size) (selected : ℕ) : Prop where
  visible : (selected, .selected) ∈ f.lines
  rows_fit : f.lines.length + 4 ≤ f.popupH
  width_fits : f.popupX + f.popupW ≤ area.width.toNat
  height_fits : f.popupY + f.popupH ≤ area.height.toNat

theorem mem_window {α : Type} {l : List α} {top stop i : ℕ} {a : α} (ha : l[i]? = some a)
    (htop : top ≤ i) (hstop : i < stop) : a ∈ (l.take stop).drop top := by
  refine List.mem_iff_getElem?.mpr ⟨i - top, ?_⟩
  rw [List.getElem?_drop, Nat.add_sub_cancel' htop, List.getElem?_take_of_lt hstop, ha]

/-- Without room for the dimensions no frame is drawn, nor on a terminal of fewer than twelve lines. -/
theorem renderDialog_none
    (h : ¬(rows.length % 2 ^ 16 < 65532 ∧ 12 ≤ area.height.toNat)) : renderDialog rows d area = none := by
  rw [renderDialog]
  cases hdims : popupDims area rows.length with
  | none => rfl
  | some dims =>
    obtain ⟨hrows, rfl⟩ := (guarded_popupDims area rows.length dims).mp hdims
    have hheight : checkedDiff area.height.toNat
        (max 12 (min (min (rows.length % 2 ^ 16 + 4) (area.height.toNat - 4)) 30)) = none :=
      if_neg (by omega)
    simp only [Option.bind_eq_bind, Option.bind_some, hheight, Option.bind_none, Option.bind_fun_none]

/-- **A frame is drawn around the selected row.** -/
theorem renderDialog_some (hsel : Supported rows d.selected) (hoff : d.scrollOffset ≤ rows.length)
    (hlen : rows.length < 2 ^ 63) (hrows : rows.length % 2 ^ 16 < 65532)
    (hheight : 12 ≤ area.height.toNat) : ∃ top f, renderDialog rows d area = some (top, f) ∧
      top ≤ rows.length ∧ f.Shows area d.selected := by
  have hdims := (guarded_popupDims area rows.length).of_holds hrows
  obtain ⟨popupH, hpopup⟩ : ∃ popupH, popupH =
    max 12 (min (min (rows.length % 2 ^ 16 + 4) (area.height.toNat - 4)) 30) := ⟨_, rfl⟩
  rw [← hpopup] at hdims
  have hspareW : checkedDiff area.width.toNat (17 * area.width.toNat / 20) =
      some (area.width.toNat - 17 * area.width.toNat / 20) := if_pos (by omega)
  have hspareH : checkedDiff area.height.toNat popupH = some (area.height.toNat - popupH) :=
    if_pos (by omega)
  have hcap : capacityOf popupH = popupH - 4 := by unfold capacityOf; omega
  have hlt := hsel.lt
  have hroom : 0 < popupH - 4 := by omega
  obtain ⟨offset, hscroll, hle, hin⟩ := scrollTo_spec hlt hoff hroom (by omega) hlen
  obtain ⟨top, htop⟩ : ∃ top, top = min offset (rows.length - (popupH - 4)) := ⟨_, rfl⟩
  have hstop : checkedU64 (top + (popupH - 4)) = some (top + (popupH - 4)) := if_pos (by omega)
  refine ⟨top, frameAt rows d.selected ((area.width.toNat - 17 * area.width.toNat / 20) / 2)
    ((area.height.toNat - popupH) / 2) (17 * area.width.toNat / 20) popupH top
    (min (top + (popupH - 4)) rows.length), ?_, by omega, ?_⟩
  · simp only [renderDialog, hdims, Option.bind_eq_bind, Option.bind_some, hcap, hspareW, hspareH,
      hscroll, ← htop, hstop]
    rfl
  · have hrow := List.getElem?_eq_getElem hlt
    have hline : (rows.mapIdx fun i row => (i, rowStyle d.selected i row))[d.selected]? =
        some (d.selected, .selected) := by
      rw [List.getElem?_mapIdx, hrow, Option.map_some, rowStyle, if_pos rfl]
    refine ⟨mem_window hline (by omega) (by omega), ?_, ?_, ?_⟩
    · simp only [frameAt, List.length_drop, List.length_take, List.length_mapIdx]
      omega
    · dsimp only [frameAt]
      omega
    · dsimp only [frameAt]
      omega

end Window

/-! ## A key -/

/-- The key closes a dialog whose selection is supported. -/
def Key.closes : Key → Bool
  | .enter => true
  | .quit => true
  | _ => false

/-- The key goes towards the first row. -/
def Key.isUp : Key → Bool
  | .up => true
  | .pageUp => true
  | _ => false

/-- The key goes towards the last row. -/
def Key.isDown : Key → Bool
  | .down => true
  | .pageDown => true
  | _ => false

/-- Where a key may move the selection. -/
structure Moves (rows : List FlatRow) (key : Key) (selected selected' : ℕ) : Prop where
  valid : Supported rows selected'
  upwards : key.isUp = true → selected' ≤ selected
  downwards : key.isDown = true → selected ≤ selected'

theorem Moves.refl {rows : List FlatRow} {n : ℕ} (h : Supported rows n) (key : Key) :
    Moves rows key n n := ⟨h, fun _ => le_rfl, fun _ => le_rfl⟩

section Press

variable {rows : List FlatRow} {d : Dialog} {page : ℕ}

theorem getD_of_forall {P : ℕ → Prop} {o : Option ℕ} {n : ℕ} (ho : ∀ m, o = some m → P m) (hn : P n) :
    P (o.getD n) := by
  cases o with
  | none => exact hn
  | some m => exact ho m rfl

theorem forall_or {P : ℕ → Prop} {o o' : Option ℕ} (ho : ∀ m, o = some m → P m)
    (ho' : ∀ m, o' = some m → P m) (m : ℕ) (h : o.or o' = some m) : P m := by
  cases o with
  | none => exact ho' m h
  | some n => exact ho m h

/-- **A key moves the selection to a supported row**, in its own direction if at all. -/
theorem press_spec (hsel : Supported rows d.selected) (hlen : rows.length < 2 ^ 63)
    (hpage : page ≤ 30) (key : Key) : ∃ out, press rows page d key = some out ∧
      match out with
      | .running d' => key.closes = false ∧ d'.scrollOffset = d.scrollOffset ∧
          Moves rows key d.selected d'.selected
      | .closed _ => key.closes = true := by
  have hlt := hsel.lt
  have hrows : rows ≠ [] := List.length_pos_iff.mp (by omega)
  have hlast : checkedDiff rows.length 1 = some (rows.length - 1) := if_pos (by omega)
  have hafter : ∀ {start n}, supportedAtOrAfter rows start = some n → Supported rows n :=
    fun h => (supportedAtOrAfter_spec.mp h).2.1
  have hbefore : ∀ {start n}, supportedAtOrBefore rows start = some n → Supported rows n :=
    fun h => ((supportedAtOrBefore_spec hrows).mp h).2.1
  cases key with
  | up =>
    refine ⟨_, rfl, rfl, rfl, getD_of_forall (fun m hm => ?_) (.refl hsel _)⟩
    split_ifs at hm with hpos
    obtain ⟨hle, hm', -⟩ := (supportedAtOrBefore_spec hrows).mp hm
    exact ⟨hm', fun _ => by omega, (nomatch ·)⟩
  | down =>
    have hstart : checkedU64 (d.selected + 1) = some (d.selected + 1) := if_pos (by omega)
    rw [press, hstart]
    refine ⟨_, rfl, rfl, rfl, getD_of_forall (fun m hm => ?_) (.refl hsel _)⟩
    obtain ⟨hle, hm', -⟩ := supportedAtOrAfter_spec.mp hm
    exact ⟨hm', (nomatch ·), fun _ => by omega⟩
  | pageUp =>
    refine ⟨_, rfl, rfl, rfl, getD_of_forall (forall_or (fun m hm => ?_) fun m hm => ?_)
      (.refl hsel _)⟩
    · obtain ⟨hle, hm', -⟩ := (supportedAtOrBefore_spec hrows).mp hm
      exact ⟨hm', fun _ => by omega, (nomatch ·)⟩
    · -- the selected row itself is behind the target
      obtain ⟨n, hn, hfound⟩ := supportedAtOrAfter_le hsel (Nat.sub_le d.selected page)
      obtain rfl := Option.some.inj (hfound.symm.trans hm)
      exact ⟨hafter hm, fun _ => hn, (nomatch ·)⟩
  | pageDown =>
    have hbelow : checkedU64 (d.selected + page) = some (d.selected + page) := if_pos (by omega)
    rw [press, hbelow, hlast]
    refine ⟨_, rfl, rfl, rfl, getD_of_forall (forall_or (fun m hm => ?_) fun m hm => ?_)
      (.refl hsel _)⟩
    · obtain ⟨hle, hm', -⟩ := supportedAtOrAfter_spec.mp hm
      exact ⟨hm', (nomatch ·), fun _ => by omega⟩
    · -- the selected row itself is before the target
      obtain ⟨-, hm', hlater⟩ := (supportedAtOrBefore_spec hrows).mp hm
      refine ⟨hm', (nomatch ·), fun _ => ?_⟩
      by_contra hsm
      exact hlater d.selected (Nat.not_le.mp hsm) (by omega) hsel
  | home =>
    refine ⟨_, rfl, rfl, rfl, getD_of_forall (fun m hm => ?_) (.refl hsel _)⟩
    exact ⟨hafter hm, (nomatch ·), (nomatch ·)⟩
  | toEnd =>
    rw [press, hlast]
    refine ⟨_, rfl, rfl, rfl, getD_of_forall (fun m hm => ?_) (.refl hsel _)⟩
    exact ⟨hbefore hm, (nomatch ·), (nomatch ·)⟩
  | left => exact ⟨_, rfl, rfl, rfl, .refl hsel _⟩
  | right => exact ⟨_, rfl, rfl, rfl, .refl hsel _⟩
  | enter =>
    have hrow := List.getElem?_eq_getElem hlt
    have hsup : isSupported rows[d.selected] = true := by
      rw [Supported, hrow] at hsel
      exact hsel
    refine ⟨.closed (some rows[d.selected].pid), ?_, rfl⟩
    rw [press, hrow, Option.bind_eq_bind, Option.bind_some, hsup]
    rfl
  | quit => exact ⟨_, rfl, rfl⟩
  | other => exact ⟨_, rfl, rfl, rfl, .refl hsel _⟩

end Press

/-! ## The run -/

/-- The rows of a dialog that opens: a vector, with a supported row in it. -/
structure PidRows where
  rows : List FlatRow
  sized : rows.length < 2 ^ 63
  supported : ∃ n, Supported rows n

/-- What a turn has to show and do. -/
structure Step.Sound (rows : List FlatRow) (s : Step) : Prop where
  valid : Supported rows s.before
  shows_selected : s.frame.Shows s.area s.before
  valid_after : ∀ d, s.after = .running d → Supported rows d.selected
  upwards : s.key.any Key.isUp = true → ∀ d, s.after = .running d → d.selected ≤ s.before
  downwards : s.key.any Key.isDown = true → ∀ d, s.after = .running d → s.before ≤ d.selected

/-- The turns up to the key that closes the dialog. -/
def untilClosed : List Turn → List Turn
  | [] => []
  | t :: rest => if t.key.any Key.closes then [t] else t :: untilClosed rest

/-- A turn is drawn on a terminal of twelve lines or more, and the rows can be counted with the frame. -/
def Turn.Roomy (rows : List FlatRow) (t : Turn) : Prop :=
  rows.length % 2 ^ 16 < 65532 ∧ 12 ≤ t.drawn.height.toNat

section Runs

variable {R : PidRows} {d : Dialog} {t : Turn}

theorem turn_none (h : ¬t.Roomy R.rows) : turn R.rows d t = none := by
  rw [turn, renderDialog_none h]
  rfl

/-- **What one turn shows and does.** -/
theorem turn_some (hsel : Supported R.rows d.selected) (hoff : d.scrollOffset ≤ R.rows.length)
    (h : t.Roomy R.rows) : ∃ s, turn R.rows d t = some s ∧ s.key = t.key ∧ s.Sound R.rows ∧
      match s.after with
      | .running d' => t.key.any Key.closes = false ∧ d'.scrollOffset ≤ R.rows.length
      | .closed _ => t.key.any Key.closes = true := by
  obtain ⟨top, f, hdraw, htop, hshows⟩ := renderDialog_some hsel hoff R.sized h.1 h.2
  have hasked := (guarded_popupDims t.asked R.rows.length).of_holds h.1
  obtain ⟨pageH, hpageH, hpage⟩ : ∃ pageH, popupDims t.asked R.rows.length =
      some (17 * t.asked.width.toNat / 20, pageH) ∧ capacityOf pageH ≤ 30 :=
    ⟨_, hasked, by unfold capacityOf; omega⟩
  cases hkey : t.key with
  | none =>
    refine ⟨⟨t.drawn, f, d.selected, none, .running { d with scrollOffset := top }⟩, ?_, rfl, ?_, rfl,
      htop⟩
    · simp only [turn, hdraw, hpageH, hkey, Option.bind_eq_bind, Option.bind_some]
      rfl
    · refine ⟨hsel, hshows, fun d' hd => ?_, (nomatch ·), (nomatch ·)⟩
      obtain rfl := Outcome.running.inj hd
      exact hsel
  | some key =>
    obtain ⟨out, hpress, hout⟩ := press_spec (d := { d with scrollOffset := top }) hsel R.sized hpage key
    refine ⟨⟨t.drawn, f, d.selected, some key, out⟩, ?_, rfl, ?_, ?_⟩
    · simp only [turn, hdraw, hpageH, hkey, Option.bind_eq_bind, Option.bind_some, hpress]
      rfl
    · have hmoves : ∀ d', out = .running d' → Moves R.rows key d.selected d'.selected := by
        rintro d' rfl
        exact hout.2.2
      exact ⟨hsel, hshows, fun d' hd => (hmoves d' hd).valid, fun hup d' hd =>
        (hmoves d' hd).upwards hup, fun hdown d' hd => (hmoves d' hd).downwards hdown⟩
    · cases out with
      | running d' => exact ⟨hout.1, hout.2.1.trans_le htop⟩
      | closed pid => exact hout

/-- **What a run shows and does**, from any dialog with a valid selection. -/
theorem loop_sound_iff (turns : List Turn) (hsel : Supported R.rows d.selected)
    (hoff : d.scrollOffset ≤ R.rows.length) :
    (∃ steps, loop R.rows d turns = some steps ∧
      steps.map Step.key = (untilClosed turns).map Turn.key ∧ ∀ s ∈ steps, s.Sound R.rows) ↔
      ∀ t ∈ untilClosed turns, t.Roomy R.rows := by
  induction turns generalizing d with
  | nil =>
    exact iff_of_true ⟨[], rfl, rfl, fun _ hs => absurd hs List.not_mem_nil⟩
      fun _ ht => absurd ht List.not_mem_nil
  | cons t rest ih =>
    by_cases hroomy : t.Roomy R.rows
    · obtain ⟨s, hturn, hkey, hsound, hafter⟩ := turn_some hsel hoff hroomy
      rw [loop, hturn, Option.bind_eq_bind, Option.bind_some, untilClosed]
      cases hout : s.after with
      | closed pid =>
        rw [hout] at hafter
        have hcloses : t.key.any Key.closes = true := hafter
        rw [if_pos hcloses]
        refine iff_of_true ⟨[s], rfl, ?_, List.forall_mem_singleton.mpr hsound⟩
          (List.forall_mem_singleton.mpr hroomy)
        rw [List.map_singleton, List.map_singleton, hkey]
      | running d' =>
        rw [hout] at hafter
        obtain ⟨hopen, hoff'⟩ := hafter
        rw [if_neg (Bool.eq_false_iff.mp hopen), List.forall_mem_cons,
          ← ih (hsound.valid_after d' hout) hoff']
        dsimp only
        rw [and_iff_right hroomy, Option.bind_eq_bind]
        constructor
        · rintro ⟨steps, hsteps, hkeys, hall⟩
          obtain ⟨steps', hsteps', hcons⟩ := Option.bind_eq_some_iff.mp hsteps
          obtain rfl := Option.some.inj hcons
          exact ⟨steps', hsteps', (List.cons.inj hkeys).2, (List.forall_mem_cons.mp hall).2⟩
        · rintro ⟨steps, hsteps, hkeys, hall⟩
          refine ⟨s :: steps, ?_, ?_, List.forall_mem_cons.mpr ⟨hsound, hall⟩⟩
          · rw [hsteps]
            rfl
          · rw [List.map_cons, List.map_cons, hkey, hkeys]
    · refine iff_of_false ?_ fun h => hroomy (h t ?_)
      · rintro ⟨steps, hsteps, -⟩
        rw [loop, turn_none hroomy] at hsteps
        cases hsteps
      · rw [untilClosed]
        split_ifs <;> exact List.mem_cons_self

end Runs

/-- **Which dialogs stay valid and visible.** Every turn comes through, keeps the selection on a
supported row inside the window, and moves it in the direction of the key, exactly where each terminal
that is drawn to has twelve lines and the number of rows, as a word of 16 bits, leaves room for the
frame. -/
theorem dialog_sound_iff (R : PidRows) (turns : List Turn) :
    (∃ steps, showPidDialog R.rows turns = .ok (some steps) ∧
      steps.map Step.key = (untilClosed turns).map Turn.key ∧ ∀ s ∈ steps, s.Sound R.rows) ↔
      ∀ t ∈ untilClosed turns, R.rows.length % 2 ^ 16 < 65532 ∧ 12 ≤ t.drawn.height.toNat := by
  obtain ⟨n, hn⟩ := R.supported
  obtain ⟨first, -, hfirst⟩ := supportedAtOrAfter_le hn (Nat.zero_le n)
  have hsel : Supported R.rows first := (supportedAtOrAfter_spec.mp hfirst).2.1
  have hrows : R.rows ≠ [] := List.length_pos_iff.mp (by have := hn.lt; omega)
  have hloop := loop_sound_iff (R := R) (d := ⟨first, 0, 0⟩) turns hsel (Nat.zero_le _)
  have hshow : showPidDialog R.rows turns = .ok (loop R.rows ⟨first, 0, 0⟩ turns) := by
    rw [showPidDialog, if_neg hrows, hfirst]
  simp only [hshow, Except.ok.injEq]
  exact hloop

/-- One watchable process. -/
def oneProcess : List FlatRow := [⟨1, "python", "", "python app.py", true, some "3.14.0", true, true⟩]

/-- A dialog of it opens. -/
def oneRow : PidRows := ⟨oneProcess, by decide, 0, rfl⟩

/-- On a terminal of 24 lines the dialog is shown until its process is picked. -/
theorem dialog_sound_iff_roomy : ∃ steps,
    showPidDialog oneProcess [⟨⟨80, 24⟩, ⟨80, 24⟩, some .down⟩, ⟨⟨80, 24⟩, ⟨80, 24⟩, some .enter⟩] =
      .ok (some steps) ∧
    steps.map Step.key = [some .down, some .enter] ∧ ∀ s ∈ steps, s.Sound oneProcess :=
  (dialog_sound_iff oneRow _).mpr (by decide)

/-- **A terminal of eleven lines has no room above the popup.** -/
theorem short_terminal_panics :
    Supported oneProcess 0 ∧ showPidDialog oneProcess [⟨⟨80, 11⟩, ⟨80, 11⟩, none⟩] = .ok none :=
  ⟨rfl, rfl⟩

end PidDialog

end GcScope
