import CxKernel.Lib.ZeroByte
import CxKernel.Spec.Strings
import Mathlib.Order.Bounds.Basic

/-! `strlen` against the loop over bytes that it stands for. -/

namespace CxKernel.Strings

variable {n : ℕ} {r : Ptr n → Bool} {mem : Mem n} {str p : Ptr n} {i j k : ℕ}

theorem add_ofNat_add (p : Ptr n) (i j : ℕ) :
    p + .ofNat _ i + .ofNat _ j = p + .ofNat _ (i + j) := by
  rw [BitVec.add_assoc, BitVec.ofNat_add]

theorem add_ofNat_one (p : Ptr n) (i : ℕ) : p + .ofNat _ i + 1 = p + .ofNat _ (i + 1) :=
  add_ofNat_add p i 1

theorem add_ofNat_sub_self (p : Ptr n) (i : ℕ) : p + .ofNat _ i - p = .ofNat _ i := by
  rw [BitVec.add_comm, BitVec.add_sub_cancel]

/-- One byte after the other. -/
def scan (mem : Mem n) (str ptr : Ptr n) : Option (Ptr n) :=
  haveI scan : Mem n → Ptr n → Ptr n → Option (Ptr n) := by apply scan
  if mem ptr = 0 then some (ptr - str) else scan mem str (ptr + 1)
partial_fixpoint

/-- The string at `str` ends with the NUL at `k`. -/
structure FirstNul (mem : Mem n) (str : Ptr n) (k : ℕ) : Prop where
  nul : mem (str + .ofNat _ k) = 0
  before : ∀ i < k, mem (str + .ofNat _ i) ≠ 0
  lt : k < 2 ^ (8 * n)

theorem FirstNul.isLeast (h : FirstNul mem str k) :
    IsLeast {i : ℕ | mem (str + .ofNat _ i) = 0} k :=
  ⟨h.nul, fun i hi => Nat.le_of_not_lt fun hlt => h.before i hlt hi⟩

/-- Memory wraps, so some NUL comes first. -/
theorem exists_firstNul (hk : mem (str + .ofNat _ k) = 0) : ∃ k, FirstNul mem str k := by
  have hex : ∃ k, mem (str + .ofNat _ k) = 0 := ⟨k, hk⟩
  refine ⟨Nat.find hex, Nat.find_spec hex, fun i hi => Nat.find_min hex hi, ?_⟩
  have hmod : mem (str + .ofNat _ (Nat.find hex % 2 ^ (8 * n))) = 0 := by
    have hsame : BitVec.ofNat (8 * n) (Nat.find hex % 2 ^ (8 * n)) = .ofNat _ (Nat.find hex) := by
      apply BitVec.eq_of_toNat_eq
      rw [BitVec.toNat_ofNat, BitVec.toNat_ofNat, Nat.mod_mod]
    rw [hsame]
    exact Nat.find_spec hex
  exact (Nat.find_min' hex hmod).trans_lt (Nat.mod_lt _ (Nat.two_pow_pos _))

/-- The C string `s` at `p`, inside the address space. -/
structure CStr (mem : Mem n) (p : Ptr n) (s : List (BitVec 8)) : Prop where
  byte : ∀ i (h : i < s.length), mem (p + .ofNat _ i) = s[i]
  nonzero : 0 ∉ s
  nul : mem (p + .ofNat _ s.length) = 0
  fits : p.toNat + s.length < 2 ^ (8 * n)

theorem CStr.firstNul {s : List (BitVec 8)} (h : CStr mem p s) : FirstNul mem p s.length where
  nul := h.nul
  before i hi he := h.nonzero (he ▸ h.byte i hi ▸ List.getElem_mem hi)
  lt := Nat.lt_of_le_of_lt (Nat.le_add_left _ _) h.fits

theorem CStr.getD {s : List (BitVec 8)} (h : CStr mem p s) (hi : i ≤ s.length) :
    mem (p + .ofNat _ i) = s.getD i 0 := by
  rcases hi.lt_or_eq with hlt | rfl
  · rw [h.byte i hlt, List.getD_eq_getElem _ _ hlt]
  · rw [h.nul, List.getD_eq_default _ _ le_rfl]

/-! One word. -/

/-- The bytes from `p` on. -/
def bytesAt (mem : Mem n) (p : Ptr n) : List ℕ :=
  (List.range n).map fun i => (mem (p + .ofNat _ i)).toNat

theorem mem_bytesAt_lt {d : ℕ} (hd : d ∈ bytesAt mem p) : d < 256 := by
  obtain ⟨i, -, rfl⟩ := List.mem_map.mp hd
  exact (mem (p + .ofNat _ i)).isLt

theorem zero_mem_bytesAt_iff : 0 ∈ bytesAt mem p ↔ ∃ i < n, mem (p + .ofNat _ i) = 0 := by
  simp only [bytesAt, List.mem_map, List.mem_range]
  refine exists_congr fun i => and_congr_right fun _ => ?_
  exact BitVec.toNat_inj (y := 0)

theorem toNat_loadLong : (loadLong mem p).toNat = Nat.ofDigits 256 (bytesAt mem p) := by
  have hlt := Nat.ofDigits_lt_base_pow_length (b := 256) (by decide)
    fun d (hd : d ∈ bytesAt mem p) => mem_bytesAt_lt hd
  rw [bytesAt, List.length_map, List.length_range] at hlt
  rw [loadLong, BitVec.toNat_ofNat, Nat.pow_mul]
  exact Nat.mod_eq_of_lt hlt

section Word

variable (hn : n = 4 ∨ n = 8)

include hn

theorem toNat_lomagic : (lomagic : Ptr n).toNat = Nat.ofDigits 256 (List.replicate n 1) := by
  rcases hn with rfl | rfl <;> decide

theorem toNat_himagic : (himagic : Ptr n).toNat = Nat.ofDigits 256 (List.replicate n 128) := by
  rcases hn with rfl | rfl <;> decide

/-- The test on a word is exact. -/
theorem test_iff : (loadLong mem p - lomagic) &&& ~~~(loadLong mem p) &&& himagic ≠ 0 ↔
    ∃ i < n, mem (p + .ofNat _ i) = 0 := by
  rw [ZeroByte.test_ne_zero_iff (by rw [bytesAt, List.length_map, List.length_range])
    (fun d => mem_bytesAt_lt) toNat_loadLong (toNat_lomagic hn) (toNat_himagic hn)]
  exact zero_mem_bytesAt_iff

theorem firstNul_eq : firstNul mem p =
    (List.range n).find? fun i => mem (p + BitVec.ofNat _ i) = 0 := by
  rcases hn with rfl | rfl <;> rfl

/-- From any byte up to the NUL, the word loop finds it, and no word begins behind it. -/
theorem FirstNul.wordLoop_eq (h : FirstNul mem str k)
    (hr : ∀ i ≤ k, r (str + .ofNat _ i) = true) (hi : i ≤ k) :
    wordLoop r mem str (str + .ofNat _ i) = some (.ofNat _ k) := by
  induction hd : k - i using Nat.strongRecOn generalizing i with
  | ind d ih =>
    have hpos : 0 < n := by omega
    rw [wordLoop, readLong, if_pos (hr i hi), Option.bind_eq_bind, Option.bind_some]
    by_cases hin : k < i + n
    · have hword : ∃ j < n, mem (str + .ofNat _ i + .ofNat _ j) = 0 := by
        refine ⟨k - i, by omega, ?_⟩
        rw [add_ofNat_add, Nat.add_sub_cancel' hi]
        exact h.nul
      have hfirst : firstNul mem (str + .ofNat _ i) = some (k - i) := by
        rw [firstNul_eq hn, List.find?_range_eq_some]
        refine ⟨?_, List.mem_range.mpr (by omega), fun j hj => ?_⟩
        · rw [decide_eq_true_eq, add_ofNat_add, Nat.add_sub_cancel' hi]
          exact h.nul
        · rw [Bool.not_eq_true', decide_eq_false_iff_not, add_ofNat_add]
          exact h.before (i + j) (by omega)
      rw [if_pos ((test_iff hn).mpr hword), hfirst]
      dsimp only
      rw [add_ofNat_sub_self, ← BitVec.ofNat_add, Nat.add_sub_cancel' hi]
      rfl
    · have hword : ¬ ∃ j < n, mem (str + .ofNat _ i + .ofNat _ j) = 0 := by
        rintro ⟨j, hj, hnul⟩
        rw [add_ofNat_add] at hnul
        exact h.before (i + j) (by omega) hnul
      rw [if_neg ((test_iff hn).not.mpr hword), add_ofNat_add]
      exact ih (k - (i + n)) (by omega) (by omega) rfl

theorem FirstNul.strlenFrom_eq (h : FirstNul mem str k)
    (hr : ∀ i ≤ k, r (str + .ofNat _ i) = true) (hi : i ≤ k) :
    strlenFrom r mem str (str + .ofNat _ i) = some (.ofNat _ k) := by
  induction hd : k - i generalizing i with
  | zero =>
    obtain rfl : i = k := by omega
    rw [strlenFrom, readByte, if_pos (hr i hi), Option.bind_eq_bind, Option.bind_some,
      if_pos h.nul, add_ofNat_sub_self, h.wordLoop_eq hn hr le_rfl]
    exact ite_self _
  | succ d ih =>
    rw [strlenFrom, readByte, if_pos (hr i hi), Option.bind_eq_bind, Option.bind_some,
      if_neg (h.before i (by omega)), h.wordLoop_eq hn hr hi, add_ofNat_one,
      ih (by omega) (by omega), ite_self]

/-- Where its bytes may be read, the string is measured. -/
theorem FirstNul.strlenIn_eq (h : FirstNul mem str k)
    (hr : ∀ i ≤ k, r (str + .ofNat _ i) = true) : strlenIn r mem str = some (.ofNat _ k) := by
  have hstart := h.strlenFrom_eq hn hr (Nat.zero_le k)
  rwa [BitVec.add_zero] at hstart

theorem FirstNul.strlen_eq (h : FirstNul mem str k) : strlen mem str = some (.ofNat _ k) :=
  h.strlenIn_eq hn fun _ _ => rfl

end Word

theorem CStr.strlen_eq (hn : n = 4 ∨ n = 8) {s : List (BitVec 8)} (h : CStr mem p s) :
    strlen mem p = some (.ofNat _ s.length) := h.firstNul.strlen_eq hn

theorem FirstNul.scan_eq (h : FirstNul mem str k) (hi : i ≤ k) :
    scan mem str (str + .ofNat _ i) = some (.ofNat _ k) := by
  induction hd : k - i generalizing i with
  | zero =>
    obtain rfl : i = k := by omega
    rw [scan, if_pos h.nul, add_ofNat_sub_self]
  | succ d ih =>
    rw [scan, if_neg (h.before i (by omega)), add_ofNat_one]
    exact ih (by omega) (by omega)

/-- With words of four or eight bytes `strlen` ends, if there is a NUL anywhere, and counts the
bytes before the first one, as the loop over bytes does. -/
theorem strlen_exact (hn : n = 4 ∨ n = 8) (mem : Mem n) (str : Ptr n) {k : ℕ}
    (hk : mem (str + .ofNat _ k) = 0) :
    ∃ len, strlen mem str = some len ∧ scan mem str str = some len ∧
      IsLeast {i : ℕ | mem (str + .ofNat _ i) = 0} len.toNat := by
  obtain ⟨k, h⟩ := exists_firstNul hk
  have hscan := h.scan_eq (Nat.zero_le k)
  rw [BitVec.add_zero] at hscan
  refine ⟨.ofNat _ k, h.strlen_eq hn, hscan, ?_⟩
  rw [BitVec.toNat_ofNat, Nat.mod_eq_of_lt h.lt]
  exact h.isLeast

/-- Ones, but for a NUL in the middle of a word. -/
def oneNul : Mem 8 := fun p => if p = 0x1006 then 0 else 1

theorem strlen_exact_three : ∃ len, strlen oneNul 0x1003 = some len ∧
    scan oneNul 0x1003 0x1003 = some len ∧
    IsLeast {i : ℕ | oneNul (0x1003 + .ofNat _ i) = 0} len.toNat :=
  strlen_exact (Or.inr rfl) oneNul 0x1003 (k := 3) (by decide)

end CxKernel.Strings
