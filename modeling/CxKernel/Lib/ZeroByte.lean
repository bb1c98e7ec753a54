import Mathlib.Data.List.GetD
import Mathlib.Data.Nat.Digits.Lemmas

/-! A word has a zero byte exactly if subtracting one from each of its bytes sets a top bit
that was clear. A borrow only comes out of a zero byte, so the lowest one is not disturbed. -/

namespace ZeroByte

open Nat (ofDigits)

variable {n : ℕ} {ds pre post : List ℕ}

theorem testBit_ofDigits (h : ∀ d ∈ ds, d < 256) (i : ℕ) {j : ℕ} (hj : j < 8) :
    (ofDigits 256 ds).testBit (8 * i + j) = (ds.getD i 0).testBit j := by
  induction ds generalizing i with
  | nil => simp
  | cons d ds ih =>
    have hd : d < 2 ^ 8 := h d List.mem_cons_self
    rw [Nat.ofDigits_cons, Nat.add_comm, show 256 = 2 ^ 8 from rfl,
      Nat.testBit_two_pow_mul_add _ hd]
    cases i with
    | zero => rw [if_pos (by omega), Nat.mul_zero, Nat.zero_add, List.getD_cons_zero]
    | succ i =>
      rw [if_neg (by omega), List.getD_cons_succ, show 8 * (i + 1) + j - 8 = 8 * i + j by omega]
      exact ih (fun d hd => h d (List.mem_cons_of_mem _ hd)) i

/-- Without a zero byte there is no borrow. -/
theorem ofDigits_sub_one (h : ∀ d ∈ ds, d ≠ 0) :
    ofDigits 256 (ds.map (· - 1)) + ofDigits 256 (List.replicate ds.length 1) =
      ofDigits 256 ds := by
  induction ds with
  | nil => rfl
  | cons d ds ih =>
    have hd := h d List.mem_cons_self
    have hrest := ih fun d hd => h d (List.mem_cons_of_mem _ hd)
    rw [List.map_cons, List.length_cons, List.replicate_succ, Nat.ofDigits_cons, Nat.ofDigits_cons,
      Nat.ofDigits_cons]
    omega

theorem ofDigits_ones_lt (n : ℕ) : ofDigits 256 (List.replicate n 1) < 256 ^ n := by
  have hlt := Nat.ofDigits_lt_base_pow_length (b := 256) (l := List.replicate n 1) (by decide)
    fun d hd => by rw [List.eq_of_mem_replicate hd]; decide
  rwa [List.length_replicate] at hlt

/-- The lowest zero byte turns to all ones, with what is below it and what is above. -/
theorem sub_ones_eq (pre post : List ℕ) (hpre : ∀ d ∈ pre, d ≠ 0) (n : ℕ)
    (hn : n = (pre ++ 0 :: post).length) :
    ∃ rest, 256 ^ n - ofDigits 256 (List.replicate n 1) + ofDigits 256 (pre ++ 0 :: post) =
      ofDigits 256 (pre.map (· - 1) ++ [255]) + 256 ^ (pre.length + 1) * rest := by
  have hlow := ofDigits_sub_one hpre
  have hprelt := ofDigits_ones_lt pre.length
  obtain ⟨k, hk⟩ := Nat.exists_eq_add_of_lt (ofDigits_ones_lt post.length)
  have hlen : n = pre.length + (post.length + 1) := by
    rw [hn, List.length_append, List.length_cons]
  refine ⟨k + ofDigits 256 post, ?_⟩
  rw [hlen, List.replicate_add, List.replicate_succ, Nat.ofDigits_append, Nat.ofDigits_append,
    Nat.ofDigits_append, Nat.ofDigits_cons, Nat.ofDigits_cons, List.length_replicate,
    List.length_map, Nat.ofDigits_singleton, ← hlow, Nat.pow_add, Nat.pow_succ 256 post.length,
    Nat.pow_succ 256 pre.length, hk]
  generalize ofDigits 256 (List.replicate post.length 1) = o
  generalize ofDigits 256 post = d
  generalize 256 ^ pre.length = q at *
  have hall : q * ((o + k + 1) * 256) = 256 * (q * o) + 256 * (q * k) + 256 * q := by ring
  have hones : q * (1 + 256 * o) = q + 256 * (q * o) := by ring
  have hword : q * (0 + 256 * d) = 256 * (q * d) := by ring
  have hrest : q * 256 * (k + d) = 256 * (q * k) + 256 * (q * d) := by ring
  omega

theorem mem_map_lt {f : ℕ → ℕ} (hds : ∀ d ∈ ds, d < 256) (hf : ∀ d, f d ≤ d) :
    ∀ d ∈ ds.map f, d < 256 := by
  intro d hd
  obtain ⟨c, hc, rfl⟩ := List.mem_map.mp hd
  exact (hf c).trans_lt (hds c hc)

theorem testBit_ones {k : ℕ} (hk : k < 256) (i : ℕ) {j : ℕ} (hj : j < 8) :
    (ofDigits 256 (List.replicate n k)).testBit (8 * i + j) =
      (decide (i < n) && k.testBit j) := by
  rw [testBit_ofDigits (fun d hd => by rwa [List.eq_of_mem_replicate hd]) i hj]
  by_cases hi : i < n
  · rw [List.getD_replicate _ hi, decide_eq_true hi, Bool.true_and]
  · rw [List.getD_eq_default _ _ (by rw [List.length_replicate]; omega), decide_eq_false hi,
      Bool.false_and, Nat.zero_testBit]

/-- In a byte that is not zero, subtracting one sets no top bit. -/
theorem testBit_sub_one {d : ℕ} (hd : d < 256) (hne : d ≠ 0) :
    ((d - 1).testBit 7 && !d.testBit 7) = false := by
  have hall : ∀ d < 256, d ≠ 0 → ((d - 1).testBit 7 && !d.testBit 7) = false := by decide +kernel
  exact hall d hd hne

section Test

variable {x lo hi : BitVec (8 * n)} (hn : ds.length = n) (hds : ∀ d ∈ ds, d < 256)
  (hx : x.toNat = ofDigits 256 ds) (hlo : lo.toNat = ofDigits 256 (List.replicate n 1))

include hn hds hx hlo

omit hds in
/-- A word without a zero byte, less one in each of its bytes. -/
theorem toNat_sub_ones (hzero : 0 ∉ ds) : (x - lo).toNat = ofDigits 256 (ds.map (· - 1)) := by
  have hsame := ofDigits_sub_one fun d hd he => hzero (he ▸ hd)
  have hle := (ofDigits_ones_lt n).le
  have hlt := x.isLt
  rw [hn, ← hx] at hsame
  rw [Nat.pow_mul] at hlt
  rw [BitVec.toNat_sub, hlo, Nat.pow_mul, ← hsame]
  have hsum : (2 ^ 8) ^ n - ofDigits 256 (List.replicate n 1) +
      (ofDigits 256 (ds.map (· - 1)) + ofDigits 256 (List.replicate n 1)) =
      (2 ^ 8) ^ n + ofDigits 256 (ds.map (· - 1)) := by
    rw [show (2 ^ 8) ^ n = 256 ^ n from rfl]
    omega
  rw [hsum, Nat.add_mod_left, Nat.mod_eq_of_lt (by omega)]

/-- In a word with a zero byte, the lowest one has its top bit set. -/
theorem getLsbD_sub_ones (hsplit : ds = pre ++ 0 :: post) (hpre : 0 ∉ pre) :
    (x - lo).getLsbD (8 * pre.length + 7) = true := by
  obtain ⟨rest, hrest⟩ := sub_ones_eq pre post
    (fun d hd he => hpre (he ▸ hd)) n (by rw [← hsplit, hn])
  have hlen : pre.length < n := by
    rw [← hn, hsplit, List.length_append, List.length_cons]
    omega
  have hbytes : ∀ d ∈ pre.map (· - 1) ++ [255], d < 256 := by
    intro d hd
    rcases List.mem_append.mp hd with hd | hd
    · refine mem_map_lt (fun c hc => hds c ?_) (fun d => Nat.sub_le d 1) d hd
      rw [hsplit]
      exact List.mem_append_left _ hc
    · rw [List.mem_singleton.mp hd]
      decide
  have hlow := Nat.ofDigits_lt_base_pow_length (b := 256) (by decide) hbytes
  rw [List.length_append, List.length_map, List.length_singleton] at hlow
  rw [BitVec.getLsbD, BitVec.toNat_sub, hx, hlo, Nat.testBit_mod_two_pow, decide_eq_true (by omega),
    Bool.true_and, Nat.pow_mul, hsplit]
  rw [show (2 ^ 8) ^ n = 256 ^ n from rfl, hrest, Nat.add_comm,
    show 256 ^ (pre.length + 1) = 2 ^ (8 * (pre.length + 1)) from (Nat.pow_mul 2 8 _).symm,
    Nat.testBit_two_pow_mul_add _ (by rwa [Nat.pow_mul]), if_pos (by omega),
    testBit_ofDigits hbytes _ (by decide),
    List.getD_append_right _ _ _ _ (by rw [List.length_map])]
  rw [List.length_map, Nat.sub_self]
  rfl

theorem test_ne_zero_iff (hhi : hi.toNat = ofDigits 256 (List.replicate n 128)) :
    (x - lo) &&& ~~~x &&& hi ≠ 0 ↔ 0 ∈ ds := by
  have hxbit : ∀ i j, j < 8 → x.getLsbD (8 * i + j) = (ds.getD i 0).testBit j := by
    intro i j hj
    rw [BitVec.getLsbD, hx, testBit_ofDigits hds i hj]
  refine ⟨fun hne => ?_, fun hzero he => ?_⟩
  · by_contra hzero
    refine hne (BitVec.eq_of_getLsbD_eq fun m hm => ?_)
    obtain ⟨i, j, hj, rfl⟩ : ∃ i j, j < 8 ∧ m = 8 * i + j :=
      ⟨m / 8, m % 8, Nat.mod_lt m (by decide), (Nat.div_add_mod m 8).symm⟩
    have hi : i < n := by omega
    have hsub : (x - lo).getLsbD (8 * i + j) = (ds.getD i 0 - 1).testBit j := by
      rw [BitVec.getLsbD, toNat_sub_ones hn hx hlo hzero,
        testBit_ofDigits (mem_map_lt hds fun d => Nat.sub_le d 1) i hj]
      congr 1
      exact List.getD_map ds 0 (· - 1)
    have hmem : ds.getD i 0 ∈ ds := by
      rw [List.getD_eq_getElem _ _ (hn ▸ hi)]
      exact List.getElem_mem _
    rw [BitVec.getLsbD_and, BitVec.getLsbD_and, BitVec.getLsbD_not, hsub, hxbit i j hj,
      BitVec.getLsbD, hhi, testBit_ones (by decide) i hj, decide_eq_true hm, Bool.true_and]
    by_cases h7 : j = 7
    · rw [h7, testBit_sub_one (hds _ hmem) fun he => hzero (he ▸ hmem)]
      simp
    · have htop : (128).testBit j = false := by
        interval_cases j <;> first | rfl | exact absurd rfl h7
      rw [htop]
      simp
  · obtain ⟨pre, post, hsplit, hpre⟩ := List.eq_append_cons_of_mem hzero
    have hlen : pre.length < n := by
      rw [← hn, hsplit, List.length_append, List.length_cons]
      omega
    have hbit := congrArg (BitVec.getLsbD · (8 * pre.length + 7)) he
    rw [BitVec.getLsbD_and, BitVec.getLsbD_and, BitVec.getLsbD_not,
      getLsbD_sub_ones hn hds hx hlo hsplit hpre, hxbit _ 7 (by decide), BitVec.getLsbD, hhi,
      testBit_ones (by decide) _ (by decide), decide_eq_true hlen, decide_eq_true (by omega),
      hsplit, List.getD_append_right _ _ _ _ le_rfl, Nat.sub_self, List.getD_cons_zero,
      Nat.zero_testBit, BitVec.ofNat_eq_ofNat, BitVec.getLsbD_zero] at hbit
    exact absurd hbit (by decide)

end Test

end ZeroByte
