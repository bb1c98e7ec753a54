import Mathlib.Algebra.Group.Nat.Defs
import Mathlib.Data.Int.Notation
import Mathlib.Data.Nat.Notation

/-! Machine words read as numbers: masking off low bits, rounding up to a power of two
with or without a carry out of the word, and dividing small negative numbers. -/

namespace Words

variable {w : ℕ}

theorem toNat_and_not (x m : BitVec w) : (x &&& ~~~m).toNat = x.toNat - (x &&& m).toNat := by
  have hdisj : (x &&& ~~~m) &&& (x &&& m) = 0#w := by ext i hi; simp; grind
  have hor : (x &&& ~~~m) ||| (x &&& m) = x := by ext i hi; simp; grind
  have hadd := BitVec.toNat_add_of_and_eq_zero hdisj
  rw [BitVec.add_eq_or_of_and_eq_zero _ _ hdisj, hor] at hadd
  omega

theorem toNat_sub_one {a : BitVec w} (hpos : 0 < a.toNat) : (a - 1).toNat = a.toNat - 1 := by
  have hw : w ≠ 0 := by
    rintro rfl
    have := a.isLt
    omega
  have hone : (1 : BitVec w).toNat = 1 := by
    simp [Nat.mod_eq_of_lt (Nat.one_lt_two_pow hw)]
  rw [BitVec.toNat_sub_of_le (by rw [BitVec.le_def, hone]; exact hpos), hone]

/-- Clearing the bits below a power of two rounds down to a multiple of it. -/
theorem toNat_and_not_sub_one {a : BitVec w} {k : ℕ} (ha : a.toNat = 2 ^ k) (x : BitVec w) :
    (x &&& ~~~(a - 1)).toNat = x.toNat - x.toNat % 2 ^ k := by
  have hne : 0 < a.toNat := ha ▸ Nat.two_pow_pos k
  rw [toNat_and_not, BitVec.toNat_and, toNat_sub_one hne, ha, Nat.and_two_pow_sub_one_eq_mod]

/-- Adding `a - 1` and clearing the low bits: the least multiple of `a` from `x`
on, when no carry is lost. -/
theorem toNat_roundUp {a : BitVec w} {k : ℕ} (ha : a.toNat = 2 ^ k) {x : BitVec w}
    (hx : x.toNat + (2 ^ k - 1) < 2 ^ w) :
    let r := ((x + a - 1) &&& ~~~(a - 1)).toNat
    x.toNat ≤ r ∧ r < x.toNat + 2 ^ k ∧ 2 ^ k ∣ r := by
  have hne : 0 < a.toNat := ha ▸ Nat.two_pow_pos k
  have hsum : (x + a - 1).toNat = x.toNat + (2 ^ k - 1) := by
    rw [BitVec.sub_eq_add_neg, BitVec.add_assoc, ← BitVec.sub_eq_add_neg, BitVec.toNat_add,
      toNat_sub_one hne, ha, Nat.mod_eq_of_lt hx]
  have hpos := Nat.two_pow_pos k
  have hmod := Nat.mod_lt (x.toNat + (2 ^ k - 1)) hpos
  intro r
  have hr : r = x.toNat + (2 ^ k - 1) - (x.toNat + (2 ^ k - 1)) % 2 ^ k := by
    rw [← hsum]; exact toNat_and_not_sub_one ha _
  refine ⟨by omega, by omega, ?_⟩
  rw [hr]
  exact Nat.dvd_sub_mod _

theorem roundUp_le {a : BitVec w} {k : ℕ} (ha : a.toNat = 2 ^ k) {x : BitVec w}
    (hx : x.toNat + (2 ^ k - 1) < 2 ^ w) {n : ℕ} (hn : 2 ^ k ∣ n) (hxn : x.toNat ≤ n) :
    ((x + a - 1) &&& ~~~(a - 1)).toNat ≤ n := by
  obtain ⟨-, hlt, hdvd⟩ := toNat_roundUp ha hx
  obtain ⟨p, hp⟩ := hdvd
  obtain ⟨q, rfl⟩ := hn
  rw [hp] at hlt ⊢
  refine Nat.mul_le_mul_left _ (Nat.le_of_lt_succ (Nat.lt_of_not_le fun hqp => ?_))
  have hle := Nat.mul_le_mul_left (2 ^ k) hqp
  rw [Nat.mul_succ] at hle
  omega

/-- A carry lost while rounding up leaves zero. -/
theorem roundUp_eq_zero {a : BitVec w} {k : ℕ} (ha : a.toNat = 2 ^ k) {x : BitVec w}
    (hx : 2 ^ w ≤ x.toNat + (2 ^ k - 1)) : ((x + a - 1) &&& ~~~(a - 1)).toNat = 0 := by
  have hne : 0 < a.toNat := ha ▸ Nat.two_pow_pos k
  have hxl := x.isLt
  have hal := a.isLt
  have hsum : (x + a - 1).toNat = x.toNat + (2 ^ k - 1) - 2 ^ w := by
    rw [BitVec.sub_eq_add_neg, BitVec.add_assoc, ← BitVec.sub_eq_add_neg, BitVec.toNat_add,
      toNat_sub_one hne, ha, Nat.mod_eq_sub_mod hx, Nat.mod_eq_of_lt (by omega)]
  rw [toNat_and_not_sub_one ha, hsum, Nat.mod_eq_of_lt (by omega)]
  omega

theorem toInt_of_two_mul_le {x : BitVec w} {n : ℕ} (hx : x.toNat = 2 ^ w - n) (hn : 0 < n)
    (hlt : 2 * n ≤ 2 ^ w) : x.toInt = -(n : ℤ) := by
  rw [BitVec.toInt_eq_toNat_cond, hx]
  split <;> omega

/-- Signed division of a small negative number by a small positive one. -/
theorem toNat_sdiv_of_neg {x y : BitVec w} {n : ℕ} (hx : x.toNat = 2 ^ w - n)
    (hlt : 2 * n ≤ 2 ^ w) (hy : 2 * y.toNat < 2 ^ w) (hpos : 0 < n / y.toNat) :
    (x.sdiv y).toNat = 2 ^ w - n / y.toNat := by
  have hle : n / y.toNat ≤ n := Nat.div_le_self n y.toNat
  have hyi : y.toInt = (y.toNat : ℤ) := by
    rw [BitVec.toInt_eq_toNat_cond, if_pos hy]
  have hd : (x.sdiv y).toInt = -((n / y.toNat : ℕ) : ℤ) := by
    rw [BitVec.toInt_sdiv, toInt_of_two_mul_le hx (by omega) hlt, hyi, Int.neg_tdiv,
      ← Int.ofNat_tdiv, Int.bmod_eq_of_le] <;> omega
  rw [BitVec.toInt_eq_toNat_cond] at hd
  split at hd <;> omega

end Words
