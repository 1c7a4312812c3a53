import Mathlib.Data.List.FinRange
import Mathlib.Tactic.Ring

/-!
# Little-endian words in byte buffers

`bytes n v` are the `n` lowest bytes of `v`, lowest first, and `value` reads them back. A 64-bit
word is eight of them: `wordBytes`, read from a buffer by `readWord`, which answers `none` where
the buffer is too short.

* `value_bytes`: reading back what was written.
* `wordsBytes_drop`, `wordsBytes_take`: a buffer of words is cut at word boundaries.
* **`readWord_wordsBytes`**: word `i` of a buffer of words is read at byte `8 * i`.
* `flatMap_chunk`: cutting one record out of a row of records of equal length.
-/

set_option autoImplicit false

namespace LittleEndian

/-- The `n` lowest bytes of `v`, lowest first. -/
def bytes : ℕ → ℕ → List UInt8
  | 0, _ => []
  | n + 1, v => UInt8.ofNat v :: bytes n (v / 256)

/-- The number a byte string denotes, lowest byte first. -/
def value : List UInt8 → ℕ
  | [] => 0
  | b :: bs => b.toNat + 256 * value bs

@[simp] theorem length_bytes (n v : ℕ) : (bytes n v).length = n := by
  induction n generalizing v with
  | zero => rfl
  | succ n ih => rw [bytes, List.length_cons, ih]

/-- **Reading back what was written.** -/
theorem value_bytes (n v : ℕ) : value (bytes n v) = v % 256 ^ n := by
  induction n generalizing v with
  | zero => simp [bytes, value, Nat.mod_one]
  | succ n ih =>
    have h8 : (2 : ℕ) ^ 8 = 256 := rfl
    rw [bytes, value, ih, UInt8.toNat_ofNat', h8, pow_succ' 256 n, Nat.mod_mul]

/-- The bytes of a 64-bit word. -/
def wordBytes (w : BitVec 64) : List UInt8 := bytes 8 w.toNat

/-- The 64-bit word at byte `off`, if the buffer holds all of it. -/
def readWord (buf : List UInt8) (off : ℕ) : Option (BitVec 64) :=
  if off + 8 ≤ buf.length then some (BitVec.ofNat 64 (value ((buf.drop off).take 8))) else none

@[simp] theorem length_wordBytes (w : BitVec 64) : (wordBytes w).length = 8 := length_bytes 8 _

theorem ofNat_value_wordBytes (w : BitVec 64) : BitVec.ofNat 64 (value (wordBytes w)) = w := by
  rw [wordBytes, value_bytes]
  apply BitVec.eq_of_toNat_eq
  have := w.isLt
  rw [BitVec.toNat_ofNat]
  omega

theorem readWord_eq_none_iff (buf : List UInt8) (off : ℕ) :
    readWord buf off = none ↔ buf.length < off + 8 := by
  unfold readWord
  split_ifs with h
  · simp; omega
  · simp; omega

/-! ## Buffers of words -/

/-- A buffer made of words. -/
def wordsBytes (ws : List (BitVec 64)) : List UInt8 := ws.flatMap wordBytes

@[simp] theorem wordsBytes_nil : wordsBytes [] = [] := rfl

@[simp] theorem wordsBytes_cons (w : BitVec 64) (ws : List (BitVec 64)) :
    wordsBytes (w :: ws) = wordBytes w ++ wordsBytes ws := rfl

@[simp] theorem length_wordsBytes (ws : List (BitVec 64)) :
    (wordsBytes ws).length = 8 * ws.length := by
  induction ws with
  | nil => rfl
  | cons w ws ih => rw [wordsBytes_cons, List.length_append, length_wordBytes, ih,
      List.length_cons]; ring

theorem wordsBytes_drop (ws : List (BitVec 64)) (n : ℕ) :
    (wordsBytes ws).drop (8 * n) = wordsBytes (ws.drop n) := by
  induction n generalizing ws with
  | zero => rfl
  | succ n ih =>
    cases ws with
    | nil => simp
    | cons w ws =>
      rw [wordsBytes_cons, List.drop_succ_cons, show 8 * (n + 1) = 8 + 8 * n by ring,
        ← List.drop_drop, List.drop_left' (length_wordBytes w), ih]

theorem wordsBytes_take (ws : List (BitVec 64)) (n : ℕ) :
    (wordsBytes ws).take (8 * n) = wordsBytes (ws.take n) := by
  induction n generalizing ws with
  | zero => rfl
  | succ n ih =>
    cases ws with
    | nil => simp
    | cons w ws =>
      rw [wordsBytes_cons, List.take_succ_cons, wordsBytes_cons,
        show 8 * (n + 1) = (wordBytes w).length + 8 * n by rw [length_wordBytes]; ring,
        List.take_length_add_append, ih]

/-- **Word `i` of a buffer of words is read at byte `8 * i`.** -/
theorem readWord_wordsBytes (ws : List (BitVec 64)) (i : ℕ) :
    readWord (wordsBytes ws) (8 * i) = ws[i]? := by
  rcases lt_or_ge i ws.length with hi | hi
  · have hd : ws.drop i = ws[i] :: ws.drop (i + 1) := List.drop_eq_getElem_cons hi
    unfold readWord
    rw [length_wordsBytes, if_pos (by omega), wordsBytes_drop, hd, wordsBytes_cons,
      List.take_left' (length_wordBytes _), ofNat_value_wordBytes, List.getElem?_eq_getElem hi]
  · rw [List.getElem?_eq_none hi, readWord_eq_none_iff, length_wordsBytes]
    omega

/-! ## Rows of records -/

variable {α : Type*} {n c : ℕ} {f : Fin n → List α}

theorem length_flatMap_chunks (hf : ∀ i, (f i).length = c) :
    ((List.finRange n).flatMap f).length = c * n := by
  rw [List.length_flatMap, List.map_congr_left fun i _ => hf i]
  simp [mul_comm]

theorem flatMap_chunk (hf : ∀ i, (f i).length = c) (post : List α) (i : Fin n) :
    (((List.finRange n).flatMap f ++ post).drop (c * i)).take c = f i := by
  induction n with
  | zero => exact i.elim0
  | succ n ih =>
    have hrow : (List.finRange (n + 1)).flatMap f =
        f 0 ++ (List.finRange n).flatMap fun j => f j.succ := by
      rw [List.finRange_succ, List.flatMap_cons, List.flatMap_map]
    rw [hrow, List.append_assoc]
    induction i using Fin.cases with
    | zero => rw [Fin.val_zero, mul_zero, List.drop_zero, List.take_left' (hf 0)]
    | succ j =>
      rw [Fin.val_succ, show c * (j + 1) = c + c * j by ring, ← List.drop_drop,
        List.drop_left' (hf 0)]
      exact ih (fun j => hf j.succ) j

end LittleEndian
