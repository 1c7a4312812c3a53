import Mathlib.Algebra.Order.Floor.Ring
import Mathlib.Data.Rat.Floor
import GcScope.Lib.Guarded
import GcScope.Lib.ListFacts
import GcScope.Lib.MachineInt

/-!
# The glitch animation

Effects drawn over a finished frame, at places and of sizes that a small generator picks.

* `xorshift32`, `randRange`: the generator.
* `applyOneGlitch`, `applyGlitch`, `applyConnectionLostBuildup`, `drawConnectionLostBox`: the effects.
-/

set_option autoImplicit false

namespace GcScope.Glitch

open MachineInt

/-! ## The screen -/

structure Cell (Color Modifier : Type) where
  symbol : String
  fg : Color
  bg : Color
  modifier : Modifier

/-- The size of a screen. -/
structure Area where
  width : UInt16
  height : UInt16

/-- The cells of a screen, row by row. -/
structure Buffer (Color Modifier : Type) (area : Area) where
  content : List (Cell Color Modifier)
  filled : content.length = area.height.toNat * area.width.toNat

/-- The ink of the box. -/
structure Ink (Color Modifier : Type) where
  black : Color
  red : Color
  bold : Modifier

variable {Color Modifier : Type} {area : Area}

def Cell.setChar (c : Cell Color Modifier) (ch : Char) : Cell Color Modifier :=
  { c with symbol := String.singleton ch }

namespace Buffer

/-- A cell, if it is on the screen. -/
def cell (b : Buffer Color Modifier area) (idx : ℕ) : Option (Cell Color Modifier) := b.content[idx]?

/-- Change a cell, if it is on the screen. -/
def modify (b : Buffer Color Modifier area) (idx : ℕ)
    (f : Cell Color Modifier → Cell Color Modifier) : Option (Buffer Color Modifier area) :=
  if idx < b.content.length then
    some ⟨b.content.modify idx f, (List.length_modify ..).trans b.filled⟩
  else none

end Buffer

/-! ## The generator -/

/-- The next state, which is the number drawn as well. -/
def xorshift32 (state : UInt32) : UInt32 :=
  let x := state ^^^ (state <<< 13)
  let x := x ^^^ (x >>> 17)
  x ^^^ (x <<< 5)

/-- A number from `least` to `most`, and the generator after it. -/
def randRange (rng : UInt32) (least most : ℕ) : Option (ℕ × UInt32) :=
  if most ≤ least then some (least, rng)
  else do
    let span ← checkedU32 (most - least + 1)
    let n ← checkedU32 (least + (xorshift32 rng).toNat % span)
    return (n, xorshift32 rng)

/-! ## The effects -/

/-- A screen, and the generator. -/
abbrev State (Color Modifier : Type) (area : Area) := Buffer Color Modifier area × UInt32

/-- Put a random character in a cell. -/
def scribble (s : State Color Modifier area) (idx : ℕ) : Option (State Color Modifier area) := do
  let (n, rng) ← randRange s.2 33 126
  let b ← s.1.modify idx fun c => c.setChar (Char.ofNat (n % 2 ^ 8))
  return (b, rng)

/-- Shift a row rightwards, and scribble over what is left free. -/
def tearRow (shift y : ℕ) (s : State Color Modifier area) : Option (State Color Modifier area) := do
  let w := area.width.toNat
  let saved ← (List.range' shift (w - shift)).mapM fun x => do
    let idx ← checkedDiff (y * w + x) shift
    s.1.cell idx
  let b ← saved.zipIdx.foldlM (fun b (c, i) => b.modify (y * w + shift + i) fun cell =>
    { cell with symbol := c.symbol, fg := c.fg, bg := c.bg }) s.1
  (List.range shift).foldlM (fun s x => scribble s (y * w + x)) (b, s.2)

/-- Screen tear: shift a block of rows rightwards. -/
def screenTear (s : State Color Modifier area) : Option (State Color Modifier area) := do
  let w := area.width.toNat
  let h := area.height.toNat
  let (tearH, rng) ← randRange s.2 2 (min 6 h)
  let spareH ← checkedDiff h tearH
  let (tearY, rng) ← randRange rng 0 spareH
  let (shift, rng) ← randRange rng 3 (min 10 w)
  (List.range tearH).foldlM (fun s dy => tearRow shift (tearY + dy) s) (s.1, rng)

structure Block where
  x : ℕ
  y : ℕ
  width : ℕ
  height : ℕ

/-- A block of cells, `least` to `most` wide. -/
def randBlock (area : Area) (rng : UInt32) (least most : ℕ) : Option (Block × UInt32) := do
  let w := area.width.toNat
  let h := area.height.toNat
  let (bw, rng) ← randRange rng least (min most w)
  let (bh, rng) ← randRange rng 2 (min 6 h)
  let spareW ← checkedDiff w bw
  let (bx, rng) ← randRange rng 0 spareW
  let spareH ← checkedDiff h bh
  let (top, rng) ← randRange rng 0 spareH
  return (⟨bx, top, bw, bh⟩, rng)

/-- Go over the cells of a block, row by row. -/
def overBlock (area : Area) {σ : Type} (block : Block) (f : σ → ℕ → Option σ) (s : σ) : Option σ :=
  (List.range' block.y block.height).foldlM (fun s y =>
    (List.range' block.x block.width).foldlM (fun s x => f s (y * area.width.toNat + x)) s) s

/-- Block corruption: replace symbols with random ASCII. -/
def blockCorruption (s : State Color Modifier area) : Option (State Color Modifier area) := do
  let (block, rng) ← randBlock area s.2 5 30
  overBlock area block scribble (s.1, rng)

/-- Color invert: swap fg and bg in a rectangle. -/
def colorInvert (s : State Color Modifier area) : Option (State Color Modifier area) := do
  let (block, rng) ← randBlock area s.2 8 40
  let b ← overBlock area block (fun (b : Buffer Color Modifier area) idx =>
    b.modify idx fun c => { c with fg := c.bg, bg := c.fg }) s.1
  return (b, rng)

def applyOneGlitch (s : State Color Modifier area) : Option (State Color Modifier area) :=
  if area.width.toNat < 4 ∨ area.height.toNat < 2 then some s
  else do
    let (kind, rng) ← randRange s.2 0 2
    match kind with
    | 0 => screenTear (s.1, rng)
    | 1 => blockCorruption (s.1, rng)
    | 2 => colorInvert (s.1, rng)
    | _ => return (s.1, rng)

/-- Effects one after another. -/
def glitches (count : ℕ) (s : State Color Modifier area) : Option (State Color Modifier area) :=
  (List.range count).foldlM (fun s _ => applyOneGlitch s) s

def applyGlitch (s : State Color Modifier area) : Option (State Color Modifier area) := do
  let (coin, rng) ← randRange s.2 0 1
  glitches (if coin = 0 then 1 else 2) (s.1, rng)

/-! ## The connection-lost sequence -/

/-- Rounding to a double: it keeps the order, and leaves small integers alone. -/
structure Rounding where
  round : ℚ → ℚ
  mono : Monotone round
  natCast : ∀ n : ℕ, n ≤ 2 ^ 53 → round n = n

/-- Arithmetic without rounding. -/
def Rounding.exact : Rounding := ⟨id, monotone_id, fun _ _ => rfl⟩

/-- The cast of a double to an unsigned word, which cuts off the fraction and saturates. -/
def truncate (bits : ℕ) (q : ℚ) : ℕ := min ⌊q⌋.toNat (2 ^ bits - 1)

variable (R : Rounding)

/-- The effects of a frame: from 2 at the start to 20 at the end. -/
def buildupCount (progress : ℚ) : ℕ := 2 + truncate 32 (R.round (progress * 18))

/-- Corrupt the bottom half of the screen. -/
def corruptBottom (s : State Color Modifier area) : Option (State Color Modifier area) := do
  let w := area.width.toNat
  let h := area.height.toNat
  let bh := h / 2
  if bh = 0 then return s
  let bw := truncate 64 (R.round (w * R.round (6 / 10)))
  let spareW ← checkedDiff w bw
  let (bx, rng) ← randRange s.2 0 spareW
  (List.range bh).foldlM (fun s dy => do
    let top ← checkedDiff h bh
    let last ← checkedDiff h 1
    (List.range' bx bw).foldlM (fun s x => scribble s (min (top + dy) last * w + x)) s) (s.1, rng)

def applyConnectionLostBuildup (s : State Color Modifier area) (progress : ℚ) :
    Option (State Color Modifier area) :=
  if area.width.toNat < 4 ∨ area.height.toNat < 2 then some s
  else do
    let count ← checkedU32 (buildupCount R progress)
    let s ← glitches count s
    if R.round (85 / 100) ≤ progress then corruptBottom R s else return s

/-- A text in the middle of a line. -/
def centred (width : ℕ) (text : List Char) : List Char :=
  let spare := width - text.length
  List.replicate (spare / 2) ' ' ++ text ++ List.replicate (spare - spare / 2) ' '

def boxW : ℕ := 22

def boxH : ℕ := 5

/-- The rows of the box. -/
def boxRows : List (List Char) :=
  let edge := ['+'] ++ List.replicate (boxW - 2) '-' ++ ['+']
  let line (text : String) := ['|'] ++ centred (boxW - 2) text.toList ++ ['|']
  [edge, line "", line "CONNECTION LOST", line "", edge]

/-- The place, or the nearest one of the first `n`. -/
def clampTo (n : ℕ) (place : ℤ) : ℕ := (min (max place 0) ((n : ℤ) - 1)).toNat

def drawConnectionLostBox (ink : Ink Color Modifier) (b : Buffer Color Modifier area) (jx jy : ℤ) :
    Option (Buffer Color Modifier area) :=
  let w := area.width.toNat
  let h := area.height.toNat
  if w < 22 ∨ h < 7 then some b
  else do
    let spareW ← checkedDiff w boxW
    let spareH ← checkedDiff h boxH
    let bx : ℤ := (spareW / 2 : ℕ) + jx
    let top : ℤ := (spareH / 2 : ℕ) + jy
    boxRows.zipIdx.foldlM (fun b (row, dy) => row.zipIdx.foldlM (fun b (ch, dx) =>
      b.modify (clampTo h (top + dy) * w + clampTo w (bx + dx)) fun c =>
        { c.setChar ch with
          fg := ink.black
          bg := ink.red
          modifier := if dy = 2 then ink.bold else c.modifier }) b) b

end GcScope.Glitch
