import CxKernel.Lib.ByteMem
import Mathlib.Logic.Function.Basic

/-! Arrays of words in a memory of bytes, and areas of memory that are apart. -/

namespace ByteMem

variable {n k w w' : ℕ} {m m' : Bytes} {a b : BitVec 64}

/-- `n` bytes at `a` and `k` bytes at `b` have none in common. -/
def Apart (a : BitVec 64) (n : ℕ) (b : BitVec 64) (k : ℕ) : Prop :=
  ∀ i < n, ∀ j < k, a + .ofNat 64 i ≠ b + .ofNat 64 j

theorem Apart.symm (h : Apart a n b k) : Apart b k a n := fun i hi j hj => Ne.symm (h j hj i hi)

/-- An area around the bytes. -/
theorem Apart.mono (h : Apart a n b k) {i n' : ℕ} (hi : i + n' ≤ n) :
    Apart (a + .ofNat 64 i) n' b k := by
  intro i' hi' j hj
  rw [BitVec.add_assoc, ← BitVec.ofNat_add]
  exact h (i + i') (by omega) j hj

theorem store_of_apart {v : BitVec w} (h : Apart b ((w + 7) / 8) a n) :
    ∀ i < n, store m b v (a + .ofNat 64 i) = m (a + .ofNat 64 i) := by
  intro i hi
  refine store_of_not v fun hin => h (a + .ofNat 64 i - b).toNat (by omega) i hi ?_
  rw [BitVec.ofNat_toNat, BitVec.setWidth_eq, BitVec.add_comm, BitVec.sub_add_cancel]

theorem pushAll_of_apart {vs : List (BitVec 64)} (hlen : 8 * vs.length < 2 ^ 64)
    (h : Apart (a - .ofNat 64 (8 * vs.length)) (8 * vs.length) b n) :
    ∀ i < n, (pushAll m a vs).1 (b + .ofNat 64 i) = m (b + .ofNat 64 i) := by
  intro i hi
  refine pushAll_frame hlen (Classical.not_not.mp fun hout => ?_)
  rw [not_or, Nat.not_lt] at hout
  obtain ⟨hpos, hin⟩ := hout
  refine h (8 * vs.length - (a - (b + .ofNat 64 i)).toNat) (by omega) i hi ?_
  generalize b + BitVec.ofNat 64 i = c at hpos hin ⊢
  bv_omega

/-- Word `i` of the `k` words at `a` is `t i`. -/
def IsArray (w : ℕ) (m : Bytes) (a : BitVec 64) (k : ℕ) (t : ℕ → BitVec w) : Prop :=
  ∀ i < k, load w m (a + .ofNat 64 (w / 8 * i)) = t i

namespace IsArray

variable {t : ℕ → BitVec w}

/-- The bytes of the array decide. -/
theorem congr (hw : w = 8 * n) (h : IsArray w m a k t)
    (hm : ∀ i < n * k, m' (a + .ofNat 64 i) = m (a + .ofNat 64 i)) : IsArray w m' a k t := by
  subst hw
  intro i hi
  refine (load_congr fun j hj => ?_).trans (h i hi)
  have hend : n * (i + 1) ≤ n * k := Nat.mul_le_mul_left n hi
  rw [Nat.mul_succ] at hend
  rw [BitVec.add_assoc, ← BitVec.ofNat_add, Nat.mul_div_cancel_left n (by decide : 0 < 8)]
  exact hm (n * i + j) (by omega)

theorem store_apart (hw : w = 8 * n) (h : IsArray w m a k t) {v : BitVec w'}
    (hb : Apart b ((w' + 7) / 8) a (n * k)) : IsArray w (ByteMem.store m b v) a k t :=
  h.congr hw (store_of_apart hb)

/-- A store into the array writes one word of it. -/
theorem store (hw : w = 8 * n) (h : IsArray w m a k t) (hk : 8 * (n * k) ≤ 2 ^ 64) {i : ℕ}
    (hi : i < k) (v : BitVec w) :
    IsArray w (store m (a + .ofNat 64 (w / 8 * i)) v) a k (Function.update t i v) := by
  subst hw
  have hend : ∀ i < k, n * i + n ≤ n * k := fun i hi => Nat.mul_le_mul_left n hi
  have hi' := hend i hi
  intro j hj
  have hj' := hend j hj
  by_cases hji : j = i
  · subst hji
    rw [Function.update_self, load_store (by omega)]
  · rw [Function.update_of_ne hji, ← h j hj, Nat.mul_div_cancel_left n (by decide : 0 < 8)]
    refine load_congr fun l hl => store_of_not v fun hin => ?_
    rcases Nat.lt_or_gt_of_ne hji with hlt | hlt
    · have hstep : n * j + n ≤ n * i := Nat.mul_le_mul_left n hlt
      generalize n * i = x, n * j = y at *
      bv_omega
    · have hstep : n * i + n ≤ n * j := Nat.mul_le_mul_left n hlt
      generalize n * i = x, n * j = y at *
      bv_omega

/-- The next word. -/
theorem snoc (hw : w = 8 * n) (h : IsArray w m a k t) (hk : 8 * (n * (k + 1)) ≤ 2 ^ 64) :
    IsArray w (ByteMem.store m (a + .ofNat 64 (w / 8 * k)) (t k)) a (k + 1) t := by
  have hall : IsArray w m a (k + 1) fun i => load w m (a + .ofNat 64 (w / 8 * i)) := fun _ _ => rfl
  intro i hi
  rw [hall.store hw hk k.lt_succ_self (t k) i hi]
  rcases Nat.lt_succ_iff_lt_or_eq.mp hi with hlt | rfl
  · rw [Function.update_of_ne (Nat.ne_of_lt hlt)]
    exact h i hlt
  · rw [Function.update_self]

end IsArray

end ByteMem
