import CxKernel.Spec.Bit
import Mathlib.Algebra.Group.Nat.Defs
import Mathlib.Tactic.SplitIfs

/-! A field is the bits `index` to `index + bits` of the word: reading it shifts them down,
assigning replaces them and no others. Copying one field to another of its type is no
assignment of its value: it replaces the whole word. -/

namespace CxKernel.BitField

variable {w index bits : ℕ}

theorem getLsbD_mask (hbits : bits < 32) {i : ℕ} (hi : i < w) :
    (mask w bits).getLsbD i = decide (i < bits) := by
  have hpow : 2 ^ bits < 2 ^ 32 := Nat.pow_lt_pow_right (by omega) hbits
  have hpos := Nat.two_pow_pos bits
  have hshift : (1#32 <<< bits).toNat = 2 ^ bits := by
    rw [BitVec.toNat_shiftLeft, Nat.shiftLeft_eq, BitVec.toNat_ofNat, Nat.mod_eq_of_lt] <;> omega
  have hmask : ((1#32 <<< bits) - 1#32).toNat = 2 ^ bits - 1 := by
    rw [BitVec.toNat_sub_of_le (by rw [BitVec.le_def, hshift]; exact hpos), hshift]
    rfl
  rw [mask, BitVec.getLsbD_setWidth, BitVec.getLsbD, hmask, Nat.testBit_two_pow_sub_one]
  simp [hi]

theorem getLsbD_get (hbits : bits < 32) (word : BitVec w) {i : ℕ} (hi : i < w) :
    (get index bits word).getLsbD i = (decide (i < bits) && word.getLsbD (index + i)) := by
  have hp : i < promoted w := Nat.lt_of_lt_of_le hi (Nat.le_max_left w 32)
  rw [get, BitVec.getLsbD_setWidth, BitVec.getLsbD_and, BitVec.getLsbD_ushiftRight,
    BitVec.getLsbD_setWidth, BitVec.getLsbD_setWidth, getLsbD_mask hbits hi]
  by_cases hw : index + i < promoted w
  · simp [hi, hp, hw, Bool.and_comm]
  · have hge : w ≤ index + i := Nat.le_trans (Nat.le_max_left w 32) (Nat.le_of_not_lt hw)
    simp [BitVec.getLsbD_of_ge word _ hge]

theorem getLsbD_assign (hbits : bits < 32) (word value : BitVec w) {i : ℕ} (hi : i < w) :
    (assign index bits word value).getLsbD i =
      if index ≤ i ∧ i < index + bits then value.getLsbD (i - index) else word.getLsbD i := by
  have hp : i < promoted w := Nat.lt_of_lt_of_le hi (Nat.le_max_left w 32)
  simp only [assign, BitVec.getLsbD_setWidth, BitVec.getLsbD_or, BitVec.getLsbD_and,
    BitVec.getLsbD_not, BitVec.getLsbD_shiftLeft, hi, hp, decide_true, Bool.true_and]
  by_cases hlo : index ≤ i
  · have hsub : i - index < w := by omega
    have hsubp : i - index < promoted w := Nat.lt_of_lt_of_le hsub (Nat.le_max_left w 32)
    rw [getLsbD_mask hbits hsub]
    by_cases hhi : i < index + bits
    · have hin : i - index < bits := by omega
      simp [hlo, hhi, hin, hsubp, Nat.not_lt.mpr hlo]
    · have hout : ¬ i - index < bits := by omega
      simp [hhi, hout]
  · simp [hlo, Nat.lt_of_not_le hlo]

/-! Assigning a value. -/

section Assign

variable (hbits : bits < 32) (hfit : index + bits ≤ w) (word x y : BitVec w)

include hbits hfit

/-- A field within the word: every bit is the value's or stays. -/
theorem getLsbD_assign_fit (i : ℕ) : (assign index bits word x).getLsbD i =
    if index ≤ i ∧ i < index + bits then x.getLsbD (i - index) else word.getLsbD i := by
  by_cases hi : i < w
  · exact getLsbD_assign hbits word x hi
  · rw [if_neg (by omega), BitVec.getLsbD_of_ge _ i (by omega), BitVec.getLsbD_of_ge _ i (by omega)]

theorem toNat_get_assign : (get index bits (assign index bits word x)).toNat =
    x.toNat % 2 ^ bits := by
  apply Nat.eq_of_testBit_eq
  intro i
  rw [Nat.testBit_mod_two_pow, BitVec.testBit_toNat, BitVec.testBit_toNat]
  by_cases hi : i < w
  · rw [getLsbD_get hbits _ hi, getLsbD_assign_fit hbits hfit]
    by_cases hin : i < bits
    · rw [if_pos (by omega), Nat.add_sub_cancel_left]
    · simp [hin]
  · rw [BitVec.getLsbD_of_ge _ i (by omega), decide_eq_false (by omega), Bool.false_and]

theorem get_assign_disjoint {index' bits' : ℕ} (hbits' : bits' < 32)
    (h : index' + bits' ≤ index ∨ index + bits ≤ index') :
    get index' bits' (assign index bits word x) = get index' bits' word := by
  apply BitVec.eq_of_getLsbD_eq
  intro k hk
  rw [getLsbD_get hbits' _ hk, getLsbD_get hbits' _ hk, getLsbD_assign_fit hbits hfit]
  by_cases hin : k < bits'
  · rw [if_neg (by omega)]
  · simp [hin]

theorem assign_get : assign index bits word (get index bits word) = word := by
  apply BitVec.eq_of_getLsbD_eq
  intro i hi
  rw [getLsbD_assign_fit hbits hfit]
  split_ifs with h
  · rw [getLsbD_get hbits _ (by omega), decide_eq_true (by omega), Bool.true_and,
      Nat.add_sub_cancel' h.1]
  · rfl

theorem assign_assign :
    assign index bits (assign index bits word x) y = assign index bits word y := by
  apply BitVec.eq_of_getLsbD_eq
  intro i hi
  simp only [getLsbD_assign_fit hbits hfit]
  split_ifs <;> rfl

theorem get_eq_zero_iff :
    get index bits word = 0 ↔ ∀ k < bits, word.getLsbD (index + k) = false := by
  rw [BitVec.ofNat_eq_ofNat, BitVec.zero_iff_eq_false]
  constructor
  · intro h k hk
    have hbit := h k
    rwa [getLsbD_get hbits _ (by omega), decide_eq_true hk, Bool.true_and] at hbit
  · intro h k
    by_cases hk : k < w
    · rw [getLsbD_get hbits _ hk]
      by_cases hin : k < bits
      · rw [h k hin, Bool.and_false]
      · rw [decide_eq_false hin, Bool.false_and]
    · exact BitVec.getLsbD_of_ge _ k (Nat.le_of_not_lt hk)

/-- `operator bool` tests the field in place. -/
theorem test_eq_false_iff :
    test index bits word = false ↔ ∀ k < bits, word.getLsbD (index + k) = false := by
  have hp : w ≤ promoted w := Nat.le_max_left w 32
  rw [test, bne_eq_false_iff_eq, BitVec.ofNat_eq_ofNat, BitVec.zero_iff_eq_false]
  simp only [BitVec.getLsbD_and, BitVec.getLsbD_setWidth, BitVec.getLsbD_shiftLeft]
  constructor
  · intro h k hk
    have hbit := h (index + k)
    rw [Nat.add_sub_cancel_left, getLsbD_mask hbits (by omega)] at hbit
    simpa [hk, show index + k < promoted w by omega, show k < promoted w by omega,
      show ¬ index + k < index by omega] using hbit
  · intro h i
    by_cases hin : index ≤ i ∧ i < index + bits
    · have hbit := h (i - index) (by omega)
      rw [Nat.add_sub_cancel' hin.1] at hbit
      rw [hbit, Bool.and_false, Bool.false_and]
    · by_cases hlo : index ≤ i
      · have hmask : (mask w bits).getLsbD (i - index) = false := by
          by_cases hi : i - index < w
          · rw [getLsbD_mask hbits hi, decide_eq_false (by omega)]
          · exact BitVec.getLsbD_of_ge _ _ (Nat.le_of_not_lt hi)
        rw [hmask, Bool.and_false, Bool.and_false, Bool.and_false]
      · rw [decide_eq_true (Nat.lt_of_not_le hlo), Bool.not_true, Bool.and_false, Bool.false_and,
          Bool.and_false]

end Assign

/-- The laws of a lens that sees the bits `index` to `index + bits`. Another field sees the
value in the bits the two share. -/
structure Lawful (w index bits : ℕ) : Prop where
  get_assign : ∀ word x : BitVec w,
    (get index bits (assign index bits word x)).toNat = x.toNat % 2 ^ bits
  assign_get : ∀ word : BitVec w, assign index bits word (get index bits word) = word
  assign_assign : ∀ word x y : BitVec w,
    assign index bits (assign index bits word x) y = assign index bits word y
  outside : ∀ (word x : BitVec w) (i : ℕ), ¬ (index ≤ i ∧ i < index + bits) →
    (assign index bits word x).getLsbD i = word.getLsbD i
  shared : ∀ (word x : BitVec w) (index' bits' : ℕ), bits' < 32 → index' + bits' ≤ w →
    ∀ k < bits', (get index' bits' (assign index bits word x)).getLsbD k =
      if index ≤ index' + k ∧ index' + k < index + bits then x.getLsbD (index' + k - index)
      else (get index' bits' word).getLsbD k
  disjoint : ∀ (word x : BitVec w) (index' bits' : ℕ), bits' < 32 →
    index' + bits' ≤ index ∨ index + bits ≤ index' →
    get index' bits' (assign index bits word x) = get index' bits' word
  test_iff : ∀ word : BitVec w, test index bits word = true ↔ get index bits word ≠ 0

variable (w index bits) in
/-- Assignment of a value is a lawful lens. -/
theorem lawful (hbits : bits < 32) (hfit : index + bits ≤ w) : Lawful w index bits where
  get_assign := toNat_get_assign hbits hfit
  assign_get := assign_get hbits hfit
  assign_assign := assign_assign hbits hfit
  outside word x i h := by rw [getLsbD_assign_fit hbits hfit, if_neg h]
  shared word x index' bits' hbits' hfit' k hk := by
    rw [getLsbD_get hbits' _ (by omega), getLsbD_get hbits' _ (by omega),
      getLsbD_assign_fit hbits hfit, decide_eq_true hk, Bool.true_and, Bool.true_and]
  disjoint word x _ _ hbits' h := get_assign_disjoint hbits hfit word x hbits' h
  test_iff word := by
    rw [Ne, get_eq_zero_iff hbits hfit, ← test_eq_false_iff hbits hfit, Bool.not_eq_false]

/-- The highest field a word of two bytes can have. -/
theorem lawful_top : Lawful 16 8 8 := lawful 16 8 8 (by decide) (by decide)

/-! Copying a field. -/

/-- What `d.f = s.f` should leave in the word of `d`. -/
def Copied (index bits : ℕ) (d s result : BitVec w) : Prop :=
  ∀ i < w, result.getLsbD i = if index ≤ i ∧ i < index + bits then s.getLsbD i else d.getLsbD i

instance (d s result : BitVec w) : Decidable (Copied index bits d s result) :=
  inferInstanceAs (Decidable (∀ i < w, _ = _))

/-- The assignment of the value read from the other field does, and it alone. -/
theorem copied_iff_eq_assign (hbits : bits < 32) {d s result : BitVec w} :
    Copied index bits d s result ↔ result = assign index bits d (get index bits s) := by
  have hassign : ∀ i < w, (assign index bits d (get index bits s)).getLsbD i =
      if index ≤ i ∧ i < index + bits then s.getLsbD i else d.getLsbD i := by
    intro i hi
    rw [getLsbD_assign hbits d _ hi]
    split_ifs with h
    · rw [getLsbD_get hbits _ (by omega), decide_eq_true (by omega), Bool.true_and,
        Nat.add_sub_cancel' h.1]
    · rfl
  constructor
  · intro h
    apply BitVec.eq_of_getLsbD_eq
    intro i hi
    rw [h i hi, hassign i hi]
  · intro h i hi
    rw [h, hassign i hi]

variable (index bits) in
/-- The copy the compiler supplies does where the two words agree outside the field. -/
theorem copied_copy_iff (d s : BitVec w) :
    Copied index bits d s (copy d s) ↔
      ∀ i < w, ¬ (index ≤ i ∧ i < index + bits) → d.getLsbD i = s.getLsbD i := by
  constructor
  · intro h i hi hout
    have hbit := h i hi
    rw [if_neg hout, copy] at hbit
    exact hbit.symm
  · intro h i hi
    rw [copy]
    split_ifs with hin
    · rfl
    · exact (h i hi hin).symm

/-- The capability of a root, copied into flags that are clear: `is_root` comes along. -/
theorem copied_copy_isRoot : ¬ Copied 0 4 (0 : BitVec 8) 0x2F (copy 0 0x2F) := by decide

end CxKernel.BitField
