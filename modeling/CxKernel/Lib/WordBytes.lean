import Mathlib.Data.Nat.Notation
import Mathlib.Logic.Function.Basic

/-! A memory of words read and written a byte at a time, the least significant byte
first. A word has `n` bytes and lies at a multiple of `n`. -/

namespace WordBytes

variable {w : ℕ} (n : ℕ)

/-- The byte at an address. -/
def byteAt (mem : ℕ → BitVec w) (a : ℕ) : BitVec 8 :=
  (mem (a / n * n)).extractLsb' (8 * (a % n)) 8

/-- The word with its byte `k` replaced. -/
def insertByte (word : BitVec w) (k : ℕ) (b : BitVec 8) : BitVec w :=
  (word &&& ~~~((0xFF#8).setWidth w <<< (8 * k))) ||| b.setWidth w <<< (8 * k)

def setByte (mem : ℕ → BitVec w) (a : ℕ) (b : BitVec 8) : ℕ → BitVec w :=
  Function.update mem (a / n * n) (insertByte (mem (a / n * n)) (a % n) b)

/-- Bytes copied one after the other, each read when its turn has come. -/
def copyBytes (mem : ℕ → BitVec w) (dst src : ℕ → ℕ) (len : ℕ) : ℕ → BitVec w :=
  (List.range len).foldl (fun mem i => setByte n mem (dst i) (byteAt n mem (src i))) mem

theorem getLsbD_insertByte (word : BitVec w) (k : ℕ) (b : BitVec 8) {i : ℕ} (hi : i < w) :
    (insertByte word k b).getLsbD i =
      if 8 * k ≤ i ∧ i < 8 * k + 8 then b.getLsbD (i - 8 * k) else word.getLsbD i := by
  have hones : ∀ j, (0xFF#8).getLsbD j = decide (j < 8) := by
    intro j
    by_cases hj : j < 8
    · revert j
      decide
    · rw [BitVec.getLsbD_of_ge _ _ (Nat.le_of_not_lt hj), decide_eq_false hj]
  rw [insertByte, BitVec.getLsbD_or, BitVec.getLsbD_and, BitVec.getLsbD_not,
    BitVec.getLsbD_shiftLeft, BitVec.getLsbD_shiftLeft, BitVec.getLsbD_setWidth,
    BitVec.getLsbD_setWidth, hones]
  by_cases hk : 8 * k ≤ i
  · by_cases h8 : i < 8 * k + 8
    · simp [hi, hk, h8, show ¬ i < 8 * k by omega, show i - 8 * k < w by omega,
        show i - 8 * k < 8 by omega]
    · simp [hi, hk, h8, show ¬ i < 8 * k by omega, show ¬ i - 8 * k < 8 by omega,
        BitVec.getLsbD_of_ge b (i - 8 * k) (by omega)]
  · simp [hi, hk, show i < 8 * k by omega]

theorem extract_insertByte {word : BitVec w} {j k : ℕ} {b : BitVec 8} (hj : 8 * j + 8 ≤ w) :
    (insertByte word k b).extractLsb' (8 * j) 8 =
      if j = k then b else word.extractLsb' (8 * j) 8 := by
  apply BitVec.eq_of_getLsbD_eq
  intro i hi
  rw [BitVec.getLsbD_extractLsb', getLsbD_insertByte word k b (by omega)]
  by_cases hjk : j = k
  · subst hjk
    simp [hi]
  · rw [if_neg (by omega), if_neg hjk, BitVec.getLsbD_extractLsb']

section Laws

variable {n} (hn : 0 < n) (hw : 8 * n ≤ w) {mem : ℕ → BitVec w} {dst src : ℕ → ℕ} {len : ℕ}

include hn hw in
/-- A byte that was written reads back, and the others are as they were. -/
theorem byteAt_setByte (a : ℕ) (b : BitVec 8) (a' : ℕ) :
    byteAt n (setByte n mem a b) a' = if a' = a then b else byteAt n mem a' := by
  have hlt := Nat.mod_lt a' hn
  have hdiv := Nat.div_add_mod a n
  have hdiv' := Nat.div_add_mod a' n
  unfold byteAt setByte
  by_cases hword : a' / n * n = a / n * n
  · rw [hword, Function.update_self, extract_insertByte (by omega)]
    congr 1
    rw [Nat.mul_comm] at hdiv hdiv'
    exact propext ⟨fun h => by omega, fun h => by rw [h]⟩
  · rw [Function.update_of_ne hword, if_neg]
    rintro rfl
    exact hword rfl

theorem setByte_of_ne {a a' : ℕ} (b : BitVec 8) (h : a / n * n ≠ a') :
    setByte n mem a b a' = mem a' := Function.update_of_ne (Ne.symm h) _ _

theorem copyBytes_succ : copyBytes n mem dst src (len + 1) =
    setByte n (copyBytes n mem dst src len) (dst len)
      (byteAt n (copyBytes n mem dst src len) (src len)) := by
  rw [copyBytes, List.range_succ, List.foldl_append]
  rfl

/-- Copying leaves every word alone that has none of the bytes written. -/
theorem copyBytes_of_ne {a : ℕ} (h : ∀ i < len, dst i / n * n ≠ a) :
    copyBytes n mem dst src len a = mem a := by
  induction len with
  | zero => rfl
  | succ len ih =>
    rw [copyBytes_succ, setByte_of_ne _ (h len len.lt_succ_self)]
    exact ih fun i hi => h i (Nat.lt_succ_of_lt hi)

include hn hw in
theorem byteAt_copyBytes_of_ne {a : ℕ} (h : ∀ i < len, dst i ≠ a) :
    byteAt n (copyBytes n mem dst src len) a = byteAt n mem a := by
  induction len with
  | zero => rfl
  | succ len ih =>
    rw [copyBytes_succ, byteAt_setByte hn hw, if_neg (Ne.symm (h len len.lt_succ_self))]
    exact ih fun i hi => h i (Nat.lt_succ_of_lt hi)

include hn hw in
/-- Where no byte is read after it was overwritten, and none is written twice, the copy
has the bytes the source had. -/
theorem byteAt_copyBytes (hdst : ∀ i < len, ∀ j < i, dst j ≠ dst i)
    (hsrc : ∀ i < len, ∀ j < i, dst j ≠ src i) {k : ℕ} (hk : k < len) :
    byteAt n (copyBytes n mem dst src len) (dst k) = byteAt n mem (src k) := by
  induction len with
  | zero => exact absurd hk (Nat.not_lt_zero k)
  | succ len ih =>
    rw [copyBytes_succ, byteAt_setByte hn hw]
    rcases Nat.lt_succ_iff_lt_or_eq.mp hk with hlt | rfl
    · rw [if_neg (hdst len len.lt_succ_self k hlt)]
      exact ih (fun i hi => hdst i (Nat.lt_succ_of_lt hi))
        (fun i hi => hsrc i (Nat.lt_succ_of_lt hi)) hlt
    · rw [if_pos rfl]
      exact byteAt_copyBytes_of_ne hn hw (hsrc k k.lt_succ_self)

end Laws

end WordBytes
