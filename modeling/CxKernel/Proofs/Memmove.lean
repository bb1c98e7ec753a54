import CxKernel.Lib.CopyCells
import CxKernel.Proofs.Strlen

/-! `memcpy` and `memmove`. A copy upwards only overwrites sources it has read if the
destination is below, a copy downwards if it is above. -/

namespace CxKernel.Strings

open CopyCells

variable {n : ℕ} {mem : Mem n} {d s dest src len : Ptr n} {k : ℕ}

/-- The cells `copyUp` copies, and `copyDown` in the other order. -/
def cells (d s : Ptr n) (k : ℕ) : List (Ptr n × Ptr n) :=
  (List.range k).map fun i => (d + .ofNat _ i, s + .ofNat _ i)

theorem add_one_add_ofNat (p : Ptr n) (i : ℕ) : p + 1 + .ofNat _ i = p + .ofNat _ (i + 1) := by
  rw [Nat.add_comm i 1]
  exact add_ofNat_add p 1 i

theorem cells_succ (d s : Ptr n) (k : ℕ) : cells d s (k + 1) = (d, s) :: cells (d + 1) (s + 1) k := by
  simp only [cells, List.range_succ_eq_map, List.map_cons, List.map_map, BitVec.add_zero,
    Function.comp_def, add_one_add_ofNat]

theorem copyUp_eq : copyUp d s k mem = copyCells mem (cells d s k) := by
  induction k generalizing d s mem with
  | zero => rfl
  | succ k ih => rw [cells_succ, copyUp, copyCells, ih]

theorem copyDown_eq : copyDown (d + .ofNat _ k - 1) (s + .ofNat _ k - 1) k mem =
    copyCells mem (cells d s k).reverse := by
  induction k generalizing mem with
  | zero => rfl
  | succ k ih =>
    have hlast : ∀ p : Ptr n, p + .ofNat _ (k + 1) - 1 = p + .ofNat _ k := by
      intro p
      rw [BitVec.ofNat_add, ← BitVec.add_assoc]
      exact BitVec.add_sub_cancel _ _
    have hcells : (cells d s (k + 1)).reverse =
        (d + .ofNat _ k, s + .ofNat _ k) :: (cells d s k).reverse := by
      rw [cells, List.range_succ, List.map_append, List.reverse_append]
      rfl
    rw [hlast, hlast, hcells, copyDown, copyCells, ih]

theorem toNat_add_ofNat {p : Ptr n} {i : ℕ} (h : p.toNat + i < 2 ^ (8 * n)) :
    (p + .ofNat _ i).toNat = p.toNat + i := by
  rw [BitVec.toNat_add, BitVec.toNat_ofNat, Nat.mod_eq_of_lt (by omega : i < 2 ^ (8 * n)),
    Nat.mod_eq_of_lt h]

/-- Inside the address space, an address is one number only. -/
theorem toNat_add_eq {p q : Ptr n} {i j : ℕ} (hp : p.toNat + i < 2 ^ (8 * n))
    (hq : q.toNat + j < 2 ^ (8 * n)) (he : p + .ofNat _ i = q + .ofNat _ j) :
    p.toNat + i = q.toNat + j := by
  rw [← toNat_add_ofNat hp, he, toNat_add_ofNat hq]

theorem mem_cells {p : Ptr n × Ptr n} :
    p ∈ cells d s k ↔ ∃ i < k, p = (d + .ofNat _ i, s + .ofNat _ i) := by
  simp only [cells, List.mem_map, List.mem_range, eq_comm]

/-- What is copied does not come before what it overwrites. -/
theorem ordered_cells (hfits : d.toNat + k ≤ 2 ^ (8 * n))
    (hsrc : ∀ i j, i < j → j < k → d + .ofNat _ i ≠ s + .ofNat _ j) : Ordered (cells d s k) := by
  refine List.pairwise_map.mpr (List.pairwise_lt_range.imp_of_mem fun {i j} hi hj hij => ?_)
  rw [List.mem_range] at hi hj
  refine ⟨hsrc i j hij hj, fun he => ?_⟩
  have hnat := toNat_add_eq (by omega) (by omega) he
  omega

theorem ordered_cells_reverse (hfits : d.toNat + k ≤ 2 ^ (8 * n))
    (hsrc : ∀ i j, i < j → j < k → d + .ofNat _ j ≠ s + .ofNat _ i) :
    Ordered (cells d s k).reverse := by
  refine List.pairwise_reverse.mpr (List.pairwise_map.mpr
    (List.pairwise_lt_range.imp_of_mem fun {i j} hi hj hij => ?_))
  rw [List.mem_range] at hi hj
  refine ⟨hsrc i j hij hj, fun he => ?_⟩
  have hnat := toNat_add_eq (by omega) (by omega) he
  omega

/-- The bytes at `d` are those that were at `s`, and the others as they were. -/
structure Copied (mem mem' : Mem n) (d s : Ptr n) (k : ℕ) : Prop where
  copy : ∀ i < k, mem' (d + .ofNat _ i) = mem (s + .ofNat _ i)
  frame : ∀ a, (∀ i < k, a ≠ d + .ofNat _ i) → mem' a = mem a

theorem copied_copyCells {ps : List (Ptr n × Ptr n)} (hps : ∀ p, p ∈ ps ↔ p ∈ cells d s k)
    (h : Ordered ps) : Copied mem (copyCells mem ps) d s k := by
  refine ⟨fun i hi => ?_, fun a ha => ?_⟩
  · exact copyCells_of_mem h ((hps _).mpr (mem_cells.mpr ⟨i, hi, rfl⟩))
  · refine copyCells_of_notMem fun p hp => ?_
    obtain ⟨i, hi, rfl⟩ := mem_cells.mp ((hps p).mp hp)
    exact (ha i hi).symm

/-- A copy between ranges that do not overlap. -/
theorem copied_memcpy (hfits : dest.toNat + len.toNat ≤ 2 ^ (8 * n))
    (hapart : ∀ i < len.toNat, ∀ j < len.toNat, dest + .ofNat _ i ≠ src + .ofNat _ j) :
    Copied mem (memcpy mem dest src len) dest src len.toNat := by
  rw [memcpy, copyUp_eq]
  refine copied_copyCells (fun _ => Iff.rfl) (ordered_cells hfits fun i j hij hj => ?_)
  exact hapart i (hij.trans hj) j hj

/-- A copy between any ranges. -/
theorem copied_memmove (hdest : dest.toNat + len.toNat ≤ 2 ^ (8 * n))
    (hsrc : src.toNat + len.toNat ≤ 2 ^ (8 * n)) :
    Copied mem (memmove mem dest src len) dest src len.toNat := by
  unfold memmove
  split_ifs with hlt
  · rw [copyUp_eq]
    refine copied_copyCells (fun _ => Iff.rfl) (ordered_cells hdest fun i j hij hj he => ?_)
    have hnat := toNat_add_eq (by omega) (by omega) he
    rw [BitVec.lt_def] at hlt
    omega
  · have hlast : ∀ p : Ptr n, p + (len - 1) = p + .ofNat _ len.toNat - 1 := by
      intro p
      rw [BitVec.ofNat_toNat, BitVec.setWidth_eq, BitVec.sub_eq_add_neg, BitVec.sub_eq_add_neg,
        BitVec.add_assoc]
    rw [hlast, hlast, copyDown_eq]
    refine copied_copyCells (fun _ => List.mem_reverse)
      (ordered_cells_reverse hdest fun i j hij hj he => ?_)
    have hnat := toNat_add_eq (by omega) (by omega) he
    rw [BitVec.lt_def] at hlt
    omega

/-- `memmove` moves the bytes that were there, however the two ranges lie. -/
theorem memmove_exact (mem : Mem n) (hdest : dest.toNat + len.toNat ≤ 2 ^ (8 * n))
    (hsrc : src.toNat + len.toNat ≤ 2 ^ (8 * n)) :
    (∀ i < len.toNat,
      memmove mem dest src len (dest + .ofNat _ i) = mem (src + .ofNat _ i)) ∧
    ∀ a : Ptr n, ¬ (dest.toNat ≤ a.toNat ∧ a.toNat < dest.toNat + len.toNat) →
      memmove mem dest src len a = mem a := by
  have hcopied : Copied mem (memmove mem dest src len) dest src len.toNat :=
    copied_memmove hdest hsrc
  refine ⟨hcopied.copy, fun a ha => hcopied.frame a fun i hi he => ha ?_⟩
  rw [he, toNat_add_ofNat (by omega)]
  omega

/-- Every byte is the low end of its address. -/
def lowBytes : Mem 8 := fun p => p.setWidth 8

/-- Four bytes moved up by one. -/
theorem memmove_exact_up : memmove lowBytes 0x1001 0x1000 4 0x1004 = 3 ∧
    memmove lowBytes 0x1001 0x1000 4 0x1005 = 5 := by
  obtain ⟨hcopy, hframe⟩ := memmove_exact lowBytes
    (by decide : (0x1001 : Ptr 8).toNat + (4 : Ptr 8).toNat ≤ 2 ^ 64)
    (by decide : (0x1000 : Ptr 8).toNat + (4 : Ptr 8).toNat ≤ 2 ^ 64)
  exact ⟨hcopy 3 (by decide), hframe 0x1005 (by decide)⟩

end CxKernel.Strings
