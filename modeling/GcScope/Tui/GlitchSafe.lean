import Mathlib.Tactic.GCongr
import Mathlib.Tactic.Linarith
import Mathlib.Tactic.NormNum
import GcScope.Tui.Glitch

/-!
# What the glitch animation touches

An effect picks its size between a least one and the size of the screen. Where the screen is smaller
than the least size, the effect does not fit.

* `draw`, `pickBlock`, `afterGlitch`: what is drawn, and the generator afterwards.
* `exists_overBlock`, `exists_tearRow`: loops that stay on the screen.
* `guarded_applyOneGlitch`, `guarded_applyGlitch`: when effects go through.
* **`animation_safe_iff`**: when a frame stays on the screen, and on which screens every frame does.
* `narrow_screen_panics`: an effect that does not fit.
-/

set_option autoImplicit false

namespace GcScope.Glitch

open ListFacts MachineInt

variable {Color Modifier : Type} {area : Area}

/-! ## What is drawn -/

/-- A number from `least` to `most`, and the generator after it. -/
def draw (rng : UInt32) (least most : ℕ) : ℕ × UInt32 :=
  if most ≤ least then (least, rng)
  else (least + (xorshift32 rng).toNat % (most - least + 1), xorshift32 rng)

theorem draw_bounds {least most : ℕ} (h : least ≤ most) (rng : UInt32) :
    least ≤ (draw rng least most).1 ∧ (draw rng least most).1 ≤ most := by
  unfold draw
  split_ifs with hle
  · exact ⟨le_rfl, h⟩
  · have hmod : (xorshift32 rng).toNat % (most - least + 1) < most - least + 1 :=
      Nat.mod_lt _ (Nat.succ_pos _)
    dsimp only
    omega

theorem draw_of_le {least most : ℕ} (h : most ≤ least) (rng : UInt32) :
    draw rng least most = (least, rng) := if_pos h

/-- **The generator is drawn from without overflow.** -/
theorem randRange_eq {most : ℕ} (h : most < 2 ^ 32 - 1) (rng : UInt32) (least : ℕ) :
    randRange rng least most = some (draw rng least most) := by
  unfold randRange draw
  split_ifs with hle
  · rfl
  · have hmod : (xorshift32 rng).toNat % (most - least + 1) < most - least + 1 :=
      Nat.mod_lt _ (Nat.succ_pos _)
    have hspan : checkedU32 (most - least + 1) = some (most - least + 1) := if_pos (by omega)
    have hsum : checkedU32 (least + (xorshift32 rng).toNat % (most - least + 1)) =
        some (least + (xorshift32 rng).toNat % (most - least + 1)) := if_pos (by omega)
    rw [hspan, Option.bind_eq_bind, Option.bind_some, hsum]
    rfl

theorem randRange_bind {β : Type} {most : ℕ} (h : most < 2 ^ 32 - 1) (rng : UInt32) (least : ℕ)
    (f : ℕ × UInt32 → Option β) : (randRange rng least most >>= f) = f (draw rng least most) := by
  rw [randRange_eq h, Option.bind_eq_bind, Option.bind_some]

theorem checkedDiff_bind {β : Type} {m n : ℕ} (h : n ≤ m) (f : ℕ → Option β) :
    (checkedDiff m n >>= f) = f (m - n) := by
  rw [checkedDiff, if_pos h, Option.bind_eq_bind, Option.bind_some]

/-! ## Cells on the screen -/

theorem cell_lt {x y : ℕ} (hy : y < area.height.toNat) (hx : x < area.width.toNat) :
    y * area.width.toNat + x < area.height.toNat * area.width.toNat :=
  calc y * area.width.toNat + x < (y + 1) * area.width.toNat := by rw [Nat.succ_mul]; omega
    _ ≤ area.height.toNat * area.width.toNat := Nat.mul_le_mul_right _ hy

theorem Buffer.exists_modify (b : Buffer Color Modifier area) {idx : ℕ}
    (h : idx < area.height.toNat * area.width.toNat)
    (f : Cell Color Modifier → Cell Color Modifier) : ∃ b', b.modify idx f = some b' :=
  ⟨_, if_pos (b.filled.symm ▸ h)⟩

theorem Buffer.exists_cell (b : Buffer Color Modifier area) {idx : ℕ}
    (h : idx < area.height.toNat * area.width.toNat) : ∃ c, b.cell idx = some c :=
  ⟨_, List.getElem?_eq_getElem (b.filled.symm ▸ h)⟩

theorem exists_scribble (s : State Color Modifier area) {idx : ℕ}
    (h : idx < area.height.toNat * area.width.toNat) :
    ∃ b, scribble s idx = some (b, xorshift32 s.2) := by
  obtain ⟨b, hb⟩ := s.1.exists_modify h fun c =>
    c.setChar (Char.ofNat ((draw s.2 33 126).1 % 2 ^ 8))
  refine ⟨b, ?_⟩
  rw [scribble, randRange_bind (by decide)]
  change (s.1.modify idx fun c => c.setChar (Char.ofNat ((draw s.2 33 126).1 % 2 ^ 8))).bind _ = _
  rw [hb]
  rfl

/-! ## Loops on the screen -/

/-- The block lies on the screen. -/
structure Block.OnScreen (block : Block) (area : Area) : Prop where
  right : block.x + block.width ≤ area.width.toNat
  bottom : block.y + block.height ≤ area.height.toNat

/-- **A loop over a block on the screen stays on the screen.** -/
theorem exists_overBlock {σ : Type} {block : Block} (hblock : block.OnScreen area)
    {P : ℕ → σ → Prop} {f : σ → ℕ → Option σ} {s : σ} (hs : P 0 s)
    (hf : ∀ i s, ∀ idx < area.height.toNat * area.width.toNat, P i s →
      ∃ s', f s idx = some s' ∧ P (i + 1) s') :
    ∃ s', overBlock area block f s = some s' ∧ P (block.height * block.width) s' := by
  have hrow : ∀ i s, ∀ y ∈ List.range' block.y block.height, P (i * block.width) s →
      ∃ s', (List.range' block.x block.width).foldlM (fun s x => f s (y * area.width.toNat + x)) s =
        some s' ∧ P ((i + 1) * block.width) s' := by
    intro i s y hy hP
    obtain ⟨hy₁, hy₂⟩ := List.mem_range'_1.mp hy
    have hend := exists_foldlM_eq (l := List.range' block.x block.width)
      (f := fun s x => f s (y * area.width.toNat + x)) hP fun j s x hx hPs => by
      obtain ⟨hx₁, hx₂⟩ := List.mem_range'_1.mp hx
      have hright := hblock.right
      have hbottom := hblock.bottom
      exact hf j s _ (cell_lt (by omega) (by omega)) hPs
    rwa [List.length_range', ← Nat.succ_mul] at hend
  have hzero : P (0 * block.width) s := by rwa [Nat.zero_mul]
  have hall := exists_foldlM_eq (P := fun i s => P (i * block.width) s) hzero hrow
  rwa [List.length_range', Nat.zero_add] at hall

theorem exists_draws {α : Type}
    {f : State Color Modifier area → α → Option (State Color Modifier area)} {l : List α}
    (next : UInt32 → UInt32) (s : State Color Modifier area)
    (h : ∀ s, ∀ a ∈ l, ∃ b, f s a = some (b, next s.2)) :
    ∃ b, l.foldlM f s = some (b, next^[l.length] s.2) := by
  obtain ⟨s', hs', hrng⟩ := exists_foldlM_eq
    (P := fun i (t : State Color Modifier area) => t.2 = next^[i] s.2) (n := 0) (b := s) rfl
    fun i t a ha ht => by
      obtain ⟨b, hb⟩ := h t a ha
      exact ⟨_, hb, by rw [Function.iterate_succ_apply', ht]⟩
  rw [Nat.zero_add] at hrng
  exact ⟨s'.1, by rw [hs', ← hrng]⟩

theorem exists_scribbleBlock {block : Block} (hblock : block.OnScreen area)
    (s : State Color Modifier area) : ∃ b, overBlock area block scribble s =
      some (b, xorshift32^[block.height * block.width] s.2) := by
  obtain ⟨s', hs', hrng⟩ := exists_overBlock hblock
    (P := fun i (t : State Color Modifier area) => t.2 = xorshift32^[i] s.2) (s := s) rfl
    fun i t idx hidx ht => by
      obtain ⟨b, hb⟩ := exists_scribble t hidx
      exact ⟨_, hb, by rw [Function.iterate_succ_apply', ht]⟩
  exact ⟨s'.1, by rw [hs', ← hrng]⟩

theorem exists_tearRow {shift y : ℕ} (hy : y < area.height.toNat) (hshift : shift ≤ area.width.toNat)
    (s : State Color Modifier area) : ∃ b, tearRow shift y s = some (b, xorshift32^[shift] s.2) := by
  have hread : ∀ x ∈ List.range' shift (area.width.toNat - shift), ∃ c, (do
      let idx ← checkedDiff (y * area.width.toNat + x) shift
      s.1.cell idx) = some c ∧ True := by
    intro x hx
    obtain ⟨hx₁, hx₂⟩ := List.mem_range'_1.mp hx
    have hcell : y * area.width.toNat + x < area.height.toNat * area.width.toNat :=
      cell_lt hy (by omega)
    have hleft : y * area.width.toNat + x - shift < area.height.toNat * area.width.toNat := by omega
    obtain ⟨c, hc⟩ := s.1.exists_cell hleft
    rw [checkedDiff_bind (by omega)]
    exact ⟨c, hc, trivial⟩
  obtain ⟨saved, hsaved, hall⟩ := exists_mapM_eq hread
  have hlen : saved.length = area.width.toNat - shift := by
    rw [← hall.length_eq, List.length_range']
  have hwrite : ∀ (b : Buffer Color Modifier area), ∀ ci ∈ saved.zipIdx, ∃ b',
      b.modify (y * area.width.toNat + shift + ci.2) (fun cell =>
        { cell with symbol := ci.1.symbol, fg := ci.1.fg, bg := ci.1.bg }) = some b' := by
    intro b ci hci
    have hi := List.snd_lt_of_mem_zipIdx hci
    have hcell : y * area.width.toNat + (shift + ci.2) < area.height.toNat * area.width.toNat :=
      cell_lt hy (by omega)
    exact b.exists_modify (by omega) _
  obtain ⟨b, hb⟩ := exists_foldlM_total hwrite s.1
  obtain ⟨b', hb'⟩ := exists_draws (l := List.range shift) xorshift32 (b, s.2) fun s x hx =>
    exists_scribble s (cell_lt hy (x := x) (by have := List.mem_range.mp hx; omega))
  rw [List.length_range] at hb'
  refine ⟨b', ?_⟩
  rw [tearRow, hsaved, Option.bind_eq_bind, Option.bind_some, hb]
  exact hb'

/-! ## The effects -/

/-- The block an effect picks, and the generator afterwards. -/
def pickBlock (area : Area) (rng : UInt32) (least most : ℕ) : Block × UInt32 :=
  let bw := draw rng least (min most area.width.toNat)
  let bh := draw bw.2 2 (min 6 area.height.toNat)
  let bx := draw bh.2 0 (area.width.toNat - bw.1)
  let top := draw bx.2 0 (area.height.toNat - bh.1)
  (⟨bx.1, top.1, bw.1, bh.1⟩, top.2)

/-- The generator after a screen tear. -/
def afterTear (area : Area) (rng : UInt32) : UInt32 :=
  let tearH := draw rng 2 (min 6 area.height.toNat)
  let tearY := draw tearH.2 0 (area.height.toNat - tearH.1)
  let shift := draw tearY.2 3 (min 10 area.width.toNat)
  (xorshift32^[shift.1])^[tearH.1] shift.2

/-- The generator after block corruption. -/
def afterCorruption (area : Area) (rng : UInt32) : UInt32 :=
  let picked := pickBlock area rng 5 30
  xorshift32^[picked.1.height * picked.1.width] picked.2

/-- The generator after an effect that goes through. -/
def afterGlitch (area : Area) (rng : UInt32) : UInt32 :=
  if area.width.toNat < 4 ∨ area.height.toNat < 2 then rng
  else
    let kind := draw rng 0 2
    match kind.1 with
    | 0 => afterTear area kind.2
    | 1 => afterCorruption area kind.2
    | _ => (pickBlock area kind.2 8 40).2

/-- The next effect is drawn on a screen it does not fit. -/
def TooNarrow (area : Area) (rng : UInt32) : Prop :=
  (4 ≤ area.width.toNat ∧ 2 ≤ area.height.toNat) ∧
    ((draw rng 0 2).1 = 1 ∧ area.width.toNat < 5 ∨ (draw rng 0 2).1 = 2 ∧ area.width.toNat < 8)

instance (area : Area) (rng : UInt32) : Decidable (TooNarrow area rng) := by
  unfold TooNarrow; infer_instance

section Effects

variable (hh : 2 ≤ area.height.toNat)

include hh

theorem pickBlock_onScreen {least most : ℕ} (hmost : least ≤ most) (hleast : least ≤ area.width.toNat)
    (rng : UInt32) : (pickBlock area rng least most).1.OnScreen area := by
  have htwo : 2 ≤ min 6 area.height.toNat := Nat.le_min.mpr ⟨by decide, hh⟩
  dsimp only [pickBlock]
  have hbw := draw_bounds (Nat.le_min.mpr ⟨hmost, hleast⟩) rng
  generalize draw rng least (min most area.width.toNat) = bw at hbw ⊢
  have hbh := draw_bounds htwo bw.2
  generalize draw bw.2 2 (min 6 area.height.toNat) = bh at hbh ⊢
  have hbx := draw_bounds (Nat.zero_le (area.width.toNat - bw.1)) bh.2
  generalize draw bh.2 0 (area.width.toNat - bw.1) = bx at hbx ⊢
  have htop := draw_bounds (Nat.zero_le (area.height.toNat - bh.1)) bx.2
  constructor
  · dsimp only
    omega
  · dsimp only
    omega

/-- **A block is picked where its least width fits**, and nowhere else. -/
theorem guarded_randBlock {least most : ℕ} (hmost : least ≤ most) (rng : UInt32) :
    Guarded (randBlock area rng least most) (least ≤ area.width.toNat)
      (pickBlock area rng least most) := by
  have hwlt := area.width.toNat_lt
  have hhlt := area.height.toNat_lt
  have htwo : 2 ≤ min 6 area.height.toNat := Nat.le_min.mpr ⟨by decide, hh⟩
  dsimp only [randBlock, pickBlock]
  rw [randRange_bind (by omega)]
  by_cases hleast : least ≤ area.width.toNat
  · have hbw := draw_bounds (Nat.le_min.mpr ⟨hmost, hleast⟩) rng
    generalize draw rng least (min most area.width.toNat) = bw at hbw ⊢
    have hbh := draw_bounds htwo bw.2
    rw [randRange_bind (by omega)]
    generalize draw bw.2 2 (min 6 area.height.toNat) = bh at hbh ⊢
    rw [checkedDiff_bind (by omega), randRange_bind (by omega)]
    generalize draw bh.2 0 (area.width.toNat - bw.1) = bx
    rw [checkedDiff_bind (by omega), randRange_bind (by omega)]
    exact (Guarded.pure _).congr (iff_of_true trivial hleast)
  · -- the width drawn is the least one, which does not fit
    have hdiff : checkedDiff area.width.toNat least = none := if_neg hleast
    rw [draw_of_le (by omega), randRange_bind (by omega)]
    dsimp only
    rw [hdiff]
    exact .none_of_not hleast _

theorem guarded_onBlock {least most : ℕ} (hmost : least ≤ most) (rng : UInt32)
    (next : Block × UInt32 → UInt32) {f : Block × UInt32 → Option (State Color Modifier area)}
    (hf : ∀ p, p.1.OnScreen area → ∃ b, f p = some (b, next p)) :
    Guarded (((randBlock area rng least most).bind f).map Prod.snd) (least ≤ area.width.toNat)
      (next (pickBlock area rng least most)) := by
  have hpick := guarded_randBlock hh hmost rng
  by_cases hleast : least ≤ area.width.toNat
  · obtain ⟨b, hb⟩ := hf _ (pickBlock_onScreen hh hmost hleast rng)
    rw [hpick.of_holds hleast, Option.bind_some, hb]
    exact (Guarded.pure _).congr (iff_of_true trivial hleast)
  · rw [hpick.eq_none hleast]
    exact .none_of_not hleast _

theorem guarded_blockCorruption (s : State Color Modifier area) :
    Guarded ((blockCorruption s).map Prod.snd) (5 ≤ area.width.toNat) (afterCorruption area s.2) :=
  guarded_onBlock hh (by decide) s.2 (fun p => xorshift32^[p.1.height * p.1.width] p.2)
    fun p hp => exists_scribbleBlock hp (s.1, p.2)

theorem guarded_colorInvert (s : State Color Modifier area) :
    Guarded ((colorInvert s).map Prod.snd) (8 ≤ area.width.toNat) (pickBlock area s.2 8 40).2 := by
  refine guarded_onBlock hh (by decide) s.2 Prod.snd fun p hp => ?_
  obtain ⟨b, hb, -⟩ := exists_overBlock hp (P := fun _ (_ : Buffer Color Modifier area) => True)
    (s := s.1) (f := fun b idx => b.modify idx fun c => { c with fg := c.bg, bg := c.fg }) trivial
    fun _ b idx hidx _ => by
      obtain ⟨b', hb'⟩ := b.exists_modify hidx fun c => { c with fg := c.bg, bg := c.fg }
      exact ⟨b', hb', trivial⟩
  refine ⟨b, ?_⟩
  dsimp only
  rw [hb]
  rfl

theorem exists_screenTear (hw : 4 ≤ area.width.toNat) (s : State Color Modifier area) :
    ∃ b, screenTear s = some (b, afterTear area s.2) := by
  have hwlt := area.width.toNat_lt
  have hhlt := area.height.toNat_lt
  have htwo : 2 ≤ min 6 area.height.toNat := Nat.le_min.mpr ⟨by decide, hh⟩
  have hthree : 3 ≤ min 10 area.width.toNat := Nat.le_min.mpr ⟨by decide, by omega⟩
  dsimp only [screenTear, afterTear]
  have htearH := draw_bounds htwo s.2
  rw [randRange_bind (by omega)]
  generalize draw s.2 2 (min 6 area.height.toNat) = tearH at htearH ⊢
  have htearY := draw_bounds (Nat.zero_le (area.height.toNat - tearH.1)) tearH.2
  rw [checkedDiff_bind (by omega), randRange_bind (by omega)]
  generalize draw tearH.2 0 (area.height.toNat - tearH.1) = tearY at htearY ⊢
  have hshift := draw_bounds hthree tearY.2
  rw [randRange_bind (by omega)]
  generalize draw tearY.2 3 (min 10 area.width.toNat) = shift at hshift ⊢
  have hrow : ∀ (s : State Color Modifier area), ∀ dy ∈ List.range tearH.1,
      ∃ b, tearRow shift.1 (tearY.1 + dy) s = some (b, xorshift32^[shift.1] s.2) := by
    intro s dy hdy
    have hlt := List.mem_range.mp hdy
    exact exists_tearRow (by omega) (by omega) s
  obtain ⟨b, hb⟩ := exists_draws xorshift32^[shift.1] (s.1, shift.2) hrow
  rw [List.length_range] at hb
  exact ⟨b, hb⟩

end Effects

/-- **An effect goes through unless the screen is too narrow for it.** -/
theorem guarded_applyOneGlitch (s : State Color Modifier area) :
    Guarded ((applyOneGlitch s).map Prod.snd) (¬TooNarrow area s.2) (afterGlitch area s.2) := by
  unfold applyOneGlitch afterGlitch TooNarrow
  by_cases hroom : area.width.toNat < 4 ∨ area.height.toNat < 2
  · rw [if_pos hroom, if_pos hroom]
    exact (Guarded.pure _).congr (iff_of_true trivial fun h => by omega)
  · have hkind := draw_bounds (Nat.zero_le 2) s.2
    rw [if_neg hroom, if_neg hroom, randRange_bind (by decide)]
    rw [not_or, Nat.not_lt, Nat.not_lt] at hroom
    dsimp only
    generalize draw s.2 0 2 = kind at hkind ⊢
    obtain ⟨kind, rng⟩ := kind
    dsimp only at hkind ⊢
    match kind, hkind with
    | 0, _ =>
      obtain ⟨b, hb⟩ := exists_screenTear hroom.2 hroom.1 (s.1, rng)
      rw [hb]
      exact (Guarded.pure _).congr (iff_of_true trivial (by omega))
    | 1, _ => exact (guarded_blockCorruption hroom.2 (s.1, rng)).congr (by omega)
    | 2, _ => exact (guarded_colorInvert hroom.2 (s.1, rng)).congr (by omega)

/-- Effects one after another go through when each fits where the generator then is. -/
theorem guarded_glitches (count : ℕ) (s : State Color Modifier area) :
    Guarded ((glitches count s).map Prod.snd)
      (∀ k < count, ¬TooNarrow area ((afterGlitch area)^[k] s.2)) ((afterGlitch area)^[count] s.2) :=
  Guarded.foldlM_range (P := fun rng => ¬TooNarrow area rng) guarded_applyOneGlitch count s

/-- **A frame of the plain glitch goes through** when its one or two effects fit. -/
theorem guarded_applyGlitch (s : State Color Modifier area) :
    let coin := draw s.2 0 1
    let count := if coin.1 = 0 then 1 else 2
    Guarded ((applyGlitch s).map Prod.snd)
      (∀ k < count, ¬TooNarrow area ((afterGlitch area)^[k] coin.2))
      ((afterGlitch area)^[count] coin.2) := by
  dsimp only
  rw [applyGlitch, randRange_bind (by decide)]
  exact guarded_glitches _ (s.1, (draw s.2 0 1).2)

/-! ## The connection-lost sequence -/

section ConnectionLost

variable (R : Rounding)

theorem Rounding.round_le {q : ℚ} {n : ℕ} (hn : n ≤ 2 ^ 53) (h : q ≤ n) : R.round q ≤ n :=
  (R.mono h).trans_eq (R.natCast n hn)

theorem truncate_le (bits : ℕ) {n : ℕ} {q : ℚ} (h : q ≤ n) : truncate bits q ≤ n := by
  have hfloor : ⌊q⌋ ≤ n := by exact_mod_cast (Int.floor_le q).trans h
  unfold truncate
  omega

theorem buildupCount_le {progress : ℚ} (h : progress ≤ 1) : buildupCount R progress ≤ 20 := by
  have hproduct : progress * 18 ≤ (18 : ℕ) := by push_cast; linarith
  have := truncate_le 32 (R.round_le (by decide) hproduct)
  unfold buildupCount
  omega

theorem bottomWidth_le (w : ℕ) (hw : w < 2 ^ 16) :
    truncate 64 (R.round (w * R.round (6 / 10))) ≤ w := by
  have hpart : R.round (6 / 10) ≤ (1 : ℕ) := R.round_le (by decide) (by norm_num)
  refine truncate_le 64 (R.round_le (by omega) ?_)
  calc (w : ℚ) * R.round (6 / 10) ≤ w * 1 := by gcongr; exact_mod_cast hpart
    _ = w := mul_one _

theorem exists_corruptBottom (s : State Color Modifier area) : ∃ s', corruptBottom R s = some s' := by
  have hwlt := area.width.toNat_lt
  have hbw := bottomWidth_le R area.width.toNat hwlt
  dsimp only [corruptBottom]
  generalize truncate 64 (R.round (area.width.toNat * R.round (6 / 10))) = bw at hbw ⊢
  split_ifs with hrows
  · exact ⟨s, rfl⟩
  · have hbx := draw_bounds (Nat.zero_le (area.width.toNat - bw)) s.2
    rw [checkedDiff_bind hbw, randRange_bind (by omega)]
    generalize draw s.2 0 (area.width.toNat - bw) = bx at hbx ⊢
    refine exists_foldlM_total (fun s dy _ => ?_) (s.1, bx.2)
    rw [checkedDiff_bind (by omega), checkedDiff_bind (by omega)]
    refine exists_foldlM_total (fun s x hx => ?_) s
    obtain ⟨hx₁, hx₂⟩ := List.mem_range'_1.mp hx
    have hy : min (area.height.toNat - area.height.toNat / 2 + dy) (area.height.toNat - 1) <
        area.height.toNat := by omega
    have hxw : x < area.width.toNat := by omega
    obtain ⟨b, hb⟩ := exists_scribble s (cell_lt hy hxw)
    exact ⟨(b, xorshift32 s.2), hb⟩

end ConnectionLost

theorem clampTo_lt {n : ℕ} (hn : 0 < n) (place : ℤ) : clampTo n place < n := by
  unfold clampTo
  omega

/-- **The box is drawn on the screen** wherever it is shifted to. -/
theorem exists_drawConnectionLostBox (ink : Ink Color Modifier) (b : Buffer Color Modifier area)
    (jx jy : ℤ) : ∃ b', drawConnectionLostBox ink b jx jy = some b' := by
  dsimp only [drawConnectionLostBox]
  split_ifs with hsmall
  · exact ⟨b, rfl⟩
  · rw [not_or, Nat.not_lt, Nat.not_lt] at hsmall
    have hw : boxW ≤ area.width.toNat := hsmall.1
    have hh : boxH ≤ area.height.toNat := Nat.le_trans (by decide) hsmall.2
    rw [checkedDiff_bind hw, checkedDiff_bind hh]
    refine exists_foldlM_total (fun b row _ => exists_foldlM_total (fun b ch _ => ?_) b) b
    exact b.exists_modify (cell_lt (clampTo_lt (by omega) _) (clampTo_lt (by omega) _)) _

/-! ## The animation -/

/-- How far a build-up has come. -/
structure Progress where
  value : ℚ
  nonneg : 0 ≤ value
  le_one : value ≤ 1

/-- How far the box is shifted. -/
structure Jitter where
  value : ℤ
  low : -1 ≤ value
  high : value ≤ 1

/-- **When a build-up frame goes through**: when each of its effects fits. -/
theorem isSome_buildup_iff (R : Rounding) (s : State Color Modifier area) (progress : Progress) :
    (applyConnectionLostBuildup R s progress.value).isSome = true ↔
      ∀ k < buildupCount R progress.value, ¬TooNarrow area ((afterGlitch area)^[k] s.2) := by
  unfold applyConnectionLostBuildup
  by_cases hsmall : area.width.toNat < 4 ∨ area.height.toNat < 2
  · rw [if_pos hsmall]
    refine iff_of_true rfl fun k _ hnarrow => ?_
    obtain ⟨hroom, -⟩ := hnarrow
    omega
  · have hle := buildupCount_le R progress.le_one
    have hcount : checkedU32 (buildupCount R progress.value) = some (buildupCount R progress.value) :=
      if_pos (by omega)
    rw [if_neg hsmall, hcount, Option.bind_eq_bind, Option.bind_some,
      ← (guarded_glitches (buildupCount R progress.value) s).isSome_iff, Option.isSome_map]
    cases glitches (buildupCount R progress.value) s with
    | none => rfl
    | some s' =>
      obtain ⟨s'', hs''⟩ := exists_corruptBottom R s'
      rw [Option.bind_eq_bind, Option.bind_some]
      split_ifs with hlate
      · rw [hs'']
        exact iff_of_true rfl rfl
      · exact iff_of_true rfl rfl

/-- A frame of the animation comes through: no cell outside the screen is looked up, and no difference
falls below zero. -/
structure Safe (R : Rounding) (ink : Ink Color Modifier) (s : State Color Modifier area)
    (progress : Progress) (jx jy : Jitter) : Prop where
  glitch : (applyOneGlitch s).isSome = true
  buildup : (applyConnectionLostBuildup R s progress.value).isSome = true
  box : (drawConnectionLostBox ink s.1 jx.value jy.value).isSome = true

/-- A frame is safe when each effect of its build-up fits. -/
theorem frame_safe_iff (R : Rounding) (ink : Ink Color Modifier) (s : State Color Modifier area)
    (progress : Progress) (jx jy : Jitter) : Safe R ink s progress jx jy ↔
      ∀ k < buildupCount R progress.value, ¬TooNarrow area ((afterGlitch area)^[k] s.2) := by
  rw [← isSome_buildup_iff R s progress]
  refine ⟨Safe.buildup, fun hbuildup => ⟨?_, hbuildup, ?_⟩⟩
  · -- the first effect starts from the same state
    have hfirst := (isSome_buildup_iff R s progress).mp hbuildup 0 (Nat.lt_of_lt_of_le Nat.zero_lt_two
      (Nat.le_add_right 2 _))
    rw [← Option.isSome_map]
    exact (guarded_applyOneGlitch s).isSome_iff.mpr hfirst
  · obtain ⟨b, hb⟩ := exists_drawConnectionLostBox ink s.1 jx.value jy.value
    rw [hb]
    rfl

/-- An effect does not fit on a screen that is 4 to 7 columns wide and has two rows, from some state. -/
theorem exists_tooNarrow (hw : 4 ≤ area.width.toNat) (hw8 : area.width.toNat < 8)
    (hh : 2 ≤ area.height.toNat) : TooNarrow area 12345 := by
  have hkind : (draw 12345 0 2).1 = 2 := by decide
  exact ⟨⟨hw, hh⟩, Or.inr ⟨hkind, hw8⟩⟩

/-- **When the animation stays on the screen.** A frame does when each effect of its build-up fits where
the generator then is; every frame does on the screens that are less than 4 or at least 8 columns
wide, or less than 2 rows high, and on no others. -/
theorem animation_safe_iff (R : Rounding) (ink : Ink Color Modifier)
    (b : Buffer Color Modifier area) :
    (∀ rng progress jx jy, Safe R ink (b, rng) progress jx jy ↔
      ∀ k < buildupCount R progress.value, ¬TooNarrow area ((afterGlitch area)^[k] rng)) ∧
    ((∀ rng progress jx jy, Safe R ink (b, rng) progress jx jy) ↔
      area.width.toNat < 4 ∨ 8 ≤ area.width.toNat ∨ area.height.toNat < 2) := by
  refine ⟨fun rng progress jx jy => frame_safe_iff R ink (b, rng) progress jx jy, fun hsafe => ?_, ?_⟩
  · by_contra hsize
    have hnarrow : TooNarrow area 12345 := exists_tooNarrow (by omega) (by omega) (by omega)
    have hone := (hsafe 12345 ⟨0, le_rfl, zero_le_one⟩ ⟨0, by decide, by decide⟩
      ⟨0, by decide, by decide⟩).glitch
    rw [← Option.isSome_map] at hone
    exact (guarded_applyOneGlitch _).isSome_iff.mp hone hnarrow
  · intro hsize rng progress jx jy
    refine (frame_safe_iff R ink (b, rng) progress jx jy).mpr fun k _ hnarrow => ?_
    obtain ⟨hroom, hkind⟩ := hnarrow
    omega

/-- A screen of 8 columns and 2 rows. -/
def wideScreen : Buffer Unit Unit ⟨8, 2⟩ := ⟨List.replicate 16 ⟨" ", (), (), ()⟩, rfl⟩

/-- Every effect fits a screen of 8 columns, half way through the build-up. -/
theorem animation_safe_iff_wide : Safe .exact ⟨(), (), ()⟩ (wideScreen, 12345)
    ⟨1 / 2, by norm_num, by norm_num⟩ ⟨-1, by decide, by decide⟩ ⟨1, by decide, by decide⟩ :=
  (animation_safe_iff .exact ⟨(), (), ()⟩ wideScreen).2.mpr (Or.inr (Or.inl (by decide))) _ _ _ _

/-- A screen of 7 columns and 2 rows. -/
def narrowScreen : Buffer Unit Unit ⟨7, 2⟩ := ⟨List.replicate 14 ⟨" ", (), (), ()⟩, rfl⟩

/-- **The block of colors to invert is 8 columns wide at least**, on a screen of 7. -/
theorem narrow_screen_panics : applyOneGlitch (narrowScreen, 12345) = none := by decide

end GcScope.Glitch
