import Mathlib.Algebra.Group.Nat.Defs
import Mathlib.Data.Nat.Notation

/-! Words in a memory of bytes, the least significant byte first, at addresses that wrap
around at 2^64; and a stack of words that grows down in it. -/

namespace ByteMem

abbrev Bytes := BitVec 64 → BitVec 8

variable {w : ℕ} {m m' : Bytes} {a b sp : BitVec 64}

/-- The first `n` bytes at `a`, as the low end of a word. -/
def loadBytes (w : ℕ) (m : Bytes) (a : BitVec 64) : ℕ → BitVec w
  | 0 => 0
  | n + 1 => loadBytes w m a n ||| (m (a + .ofNat 64 n)).setWidth w <<< (8 * n)

/-- The word of `w` bits at `a`. -/
def load (w : ℕ) (m : Bytes) (a : BitVec 64) : BitVec w := loadBytes w m a ((w + 7) / 8)

def store (m : Bytes) (a : BitVec 64) (v : BitVec w) : Bytes := fun b =>
  if 8 * (b - a).toNat < w then v.extractLsb' (8 * (b - a).toNat) 8 else m b

theorem getLsbD_loadBytes {i n : ℕ} (hi : i < w) : (loadBytes w m a n).getLsbD i =
    (decide (i < 8 * n) && (m (a + .ofNat 64 (i / 8))).getLsbD (i % 8)) := by
  induction n with
  | zero => simp [loadBytes]
  | succ n ih =>
    rw [loadBytes, BitVec.getLsbD_or, ih, BitVec.getLsbD_shiftLeft, BitVec.getLsbD_setWidth]
    by_cases hlt : i < 8 * n
    · simp [hlt, show i < 8 * (n + 1) by omega]
    by_cases hlast : i < 8 * (n + 1)
    · have hdiv : i / 8 = n := by omega
      have hmod : i % 8 = i - 8 * n := by omega
      simp [hi, hlt, hlast, hdiv, hmod, show i - 8 * n < w by omega]
    · simp [hlt, hlast, BitVec.getLsbD_of_ge (m (a + .ofNat 64 n)) (i - 8 * n) (by omega)]

theorem getLsbD_load {i : ℕ} (hi : i < w) :
    (load w m a).getLsbD i = (m (a + .ofNat 64 (i / 8))).getLsbD (i % 8) := by
  rw [load, getLsbD_loadBytes hi, decide_eq_true (by omega), Bool.true_and]

theorem load_congr (h : ∀ k, 8 * k < w → m (a + .ofNat 64 k) = m' (a + .ofNat 64 k)) :
    load w m a = load w m' a := by
  apply BitVec.eq_of_getLsbD_eq
  intro i hi
  rw [getLsbD_load hi, getLsbD_load hi, h (i / 8) (by omega)]

theorem load_eq_zero (h : ∀ k, 8 * k < w → m (a + .ofNat 64 k) = 0) : load w m a = 0 := by
  apply BitVec.eq_of_getLsbD_eq
  intro i hi
  rw [getLsbD_load hi, h (i / 8) (by omega), BitVec.ofNat_eq_ofNat, BitVec.ofNat_eq_ofNat,
    BitVec.getLsbD_zero, BitVec.getLsbD_zero]

theorem add_ofNat_sub {k : ℕ} (hk : k < 2 ^ 64) : (a + .ofNat 64 k - a).toNat = k := by
  rw [BitVec.add_comm, BitVec.add_sub_cancel, BitVec.toNat_ofNat, Nat.mod_eq_of_lt hk]

theorem load_store (hw : w ≤ 2 ^ 64) (v : BitVec w) : load w (store m a v) a = v := by
  apply BitVec.eq_of_getLsbD_eq
  intro i hi
  have hbyte : (a + .ofNat 64 (i / 8) - a).toNat = i / 8 := add_ofNat_sub (by omega)
  rw [getLsbD_load hi, store, hbyte, if_pos (by omega), BitVec.getLsbD_extractLsb']
  simp only [Nat.mod_lt i (show 8 > 0 by decide), decide_true, Bool.true_and, Nat.div_add_mod]

/-- A part of a word, at its own address. -/
theorem load_add {w' k : ℕ} (h : 8 * k + w' ≤ w) :
    load w' m (a + .ofNat 64 k) = (load w m a).extractLsb' (8 * k) w' := by
  apply BitVec.eq_of_getLsbD_eq
  intro i hi
  rw [getLsbD_load hi, BitVec.getLsbD_extractLsb', decide_eq_true hi, Bool.true_and,
    getLsbD_load (by omega), BitVec.add_assoc, ← BitVec.ofNat_add,
    Nat.mul_add_div (by decide : 8 > 0), Nat.mul_add_mod]

theorem store_of_not (v : BitVec w) (h : ¬ 8 * (b - a).toNat < w) : store m a v b = m b := if_neg h

theorem store_zero (hb : m b = 0) : store m a (0 : BitVec w) b = 0 := by
  by_cases hin : 8 * (b - a).toNat < w
  · rw [store, if_pos hin]
    simp
  · rw [store_of_not _ hin, hb]

/-! A stack of 64-bit words, from its top `sp` down. -/

/-- Memory and stack pointer after the words are pushed. -/
def pushAll (m : Bytes) (sp : BitVec 64) : List (BitVec 64) → Bytes × BitVec 64
  | [] => (m, sp)
  | v :: vs => pushAll (store m (sp - 8) v) (sp - 8) vs

variable {vs : List (BitVec 64)}

theorem pushAll_sp : (pushAll m sp vs).2 = sp - .ofNat 64 (8 * vs.length) := by
  induction vs generalizing m sp with
  | nil => simp [pushAll]
  | cons v vs ih =>
    rw [pushAll, ih, List.length_cons]
    bv_omega

/-- Bytes that are not between the old and the new top stay. -/
theorem pushAll_frame (hlen : 8 * vs.length < 2 ^ 64)
    (h : (sp - a).toNat = 0 ∨ 8 * vs.length < (sp - a).toNat) : (pushAll m sp vs).1 a = m a := by
  induction vs generalizing m sp with
  | nil => rfl
  | cons v vs ih =>
    rw [List.length_cons] at hlen h
    rw [pushAll, ih (by omega) (by right; bv_omega), store_of_not]
    bv_omega

theorem load_pushAll (hlen : 8 * vs.length < 2 ^ 64) {i : ℕ} (hi : i < vs.length) :
    load 64 (pushAll m sp vs).1 (sp - .ofNat 64 (8 * (i + 1))) = vs[i] := by
  induction vs generalizing m sp i with
  | nil => exact absurd hi (Nat.not_lt_zero i)
  | cons v vs ih =>
    rw [List.length_cons] at hlen hi
    rw [pushAll]
    cases i with
    | zero =>
      have hkeep : load 64 (pushAll (store m (sp - 8) v) (sp - 8) vs).1 (sp - 8) =
          load 64 (store m (sp - 8) v) (sp - 8) :=
        load_congr fun k hk => pushAll_frame (by omega) (by bv_omega)
      exact hkeep.trans (load_store (by decide) v)
    | succ i =>
      have haddr : sp - .ofNat 64 (8 * (i + 1 + 1)) = sp - 8 - .ofNat 64 (8 * (i + 1)) := by
        bv_omega
      rw [haddr, List.getElem_cons_succ]
      exact ih (by omega) (by omega)

end ByteMem
