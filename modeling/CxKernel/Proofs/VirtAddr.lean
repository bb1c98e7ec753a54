import CxKernel.Spec.Paging
import Mathlib.Data.Set.Function
import Mathlib.Tactic.Ring

/-! Virtual addresses and their four table indices: canonical addresses are told apart
by them, and `virt_from_index` builds the address from the indices. Between canonical pages
and quadruples of indices it is a bijection. -/

namespace CxKernel.Paging

theorem toNat_tableIndex (shift : ℕ) (v : BitVec 64) :
    (tableIndex shift v).toNat = (v.extractLsb' shift 9).toNat := by
  have hm : v.toNat >>> shift &&& 511 = (v.toNat >>> shift) % 512 :=
    Nat.and_two_pow_sub_one_eq_mod _ 9
  have hlt := Nat.mod_lt (v.toNat >>> shift) (show 0 < 512 by decide)
  have h511 : (0x1FF : BitVec 64).toNat = 511 := rfl
  rw [tableIndex, BitVec.toNat_setWidth, BitVec.toNat_and, BitVec.toNat_ushiftRight, h511, hm,
    BitVec.extractLsb'_toNat]
  omega

theorem setWidth_tableIndex (shift : ℕ) (v : BitVec 64) :
    (tableIndex shift v).setWidth 9 = v.extractLsb' shift 9 := by
  have hlt := (v.extractLsb' shift 9).isLt
  apply BitVec.eq_of_toNat_eq
  rw [BitVec.toNat_setWidth, toNat_tableIndex]
  omega

/-- Bit 47 is copied into the bits above it. -/
theorem canonicalize_getLsbD (v : BitVec 64) {k : ℕ} (hlt : k < 64) :
    (canonicalize v).getLsbD k = v.getLsbD (min k 47) := by
  rw [canonicalize, BitVec.getLsbD_sshiftRight, decide_eq_false (by omega), Bool.not_false,
    Bool.true_and]
  by_cases hk : k < 48
  · rw [if_pos (by omega), BitVec.getLsbD_shiftLeft, Nat.min_eq_left (by omega)]
    simp [show 16 + k < 64 by omega]
  · rw [if_neg (by omega), Nat.min_eq_right (by omega), BitVec.msb_eq_getLsbD_last]
    simp

/-- Canonical, and not in the slot of the self-reference. -/
def Mappable (v : BitVec 64) : Prop := Canonical v ∧ pml4eIndex v ≠ 511

theorem Canonical.getLsbD {v : BitVec 64} (h : Canonical v) {k : ℕ} (hk : 47 ≤ k) (hlt : k < 64) :
    v.getLsbD k = v.getLsbD 47 := by
  rw [← h, canonicalize_getLsbD v hlt, canonicalize_getLsbD v (by omega), Nat.min_eq_right hk,
    Nat.min_self]

theorem canonical_iff {v : BitVec 64} :
    Canonical v ↔ ∀ k, 47 ≤ k → k < 64 → v.getLsbD k = v.getLsbD 47 := by
  constructor
  · intro h k hk hlt
    exact h.getLsbD hk hlt
  · intro h
    apply BitVec.eq_of_getLsbD_eq
    intro k hk
    rw [canonicalize_getLsbD v hk]
    rcases Nat.le_total k 47 with hle | hge
    · rw [Nat.min_eq_left hle]
    · rw [Nat.min_eq_right hge, h k hge hk]

/-- Canonical addresses with the same indices are on the same page. -/
theorem page_eq_of_path_eq {v w : BitVec 64} (hv : Canonical v) (hw : Canonical w)
    (h : path v = path w) : v >>> 12 = w >>> 12 := by
  have hbit : ∀ k, 12 ≤ k → k < 48 → v.getLsbD k = w.getLsbD k := by
    intro k hk hlt
    simp only [path, List.cons.injEq, and_true] at h
    obtain ⟨h39, h30, h21, h12⟩ := h
    have hat : ∀ s, v.extractLsb' s 9 = w.extractLsb' s 9 → s ≤ k → k < s + 9 →
        v.getLsbD k = w.getLsbD k := by
      intro s he hs hsk
      have := congrArg (BitVec.getLsbD · (k - s)) he
      simpa [BitVec.getLsbD_extractLsb', show k - s < 9 by omega, show s + (k - s) = k by omega]
        using this
    rcases (by omega : 39 ≤ k ∨ 30 ≤ k ∧ k < 39 ∨ 21 ≤ k ∧ k < 30 ∨ k < 21) with
      hs | hs | hs | hs
    · exact hat 39 h39 hs (by omega)
    · exact hat 30 h30 hs.1 (by omega)
    · exact hat 21 h21 hs.1 (by omega)
    · exact hat 12 h12 hk (by omega)
  apply BitVec.eq_of_getLsbD_eq
  intro k hk
  rw [BitVec.getLsbD_ushiftRight, BitVec.getLsbD_ushiftRight]
  by_cases hlt : 12 + k < 48
  · exact hbit _ (by omega) hlt
  · by_cases h64 : 12 + k < 64
    · rw [hv.getLsbD (by omega) h64, hw.getLsbD (by omega) h64]
      exact hbit 47 (by omega) (by omega)
    · simp [BitVec.getLsbD_of_ge _ _ (Nat.le_of_not_lt h64)]

/-- Conversely, addresses on one page have the same indices. -/
theorem path_eq_of_page_eq {v w : BitVec 64} (h : v >>> 12 = w >>> 12) : path v = path w := by
  have hn := congrArg BitVec.toNat h
  rw [BitVec.toNat_ushiftRight, BitVec.toNat_ushiftRight, Nat.shiftRight_eq_div_pow,
    Nat.shiftRight_eq_div_pow] at hn
  have hat : ∀ s, 12 ≤ s → v.extractLsb' s 9 = w.extractLsb' s 9 := by
    intro s hs
    apply BitVec.eq_of_toNat_eq
    rw [BitVec.extractLsb'_toNat, BitVec.extractLsb'_toNat, Nat.shiftRight_eq_div_pow,
      Nat.shiftRight_eq_div_pow, show s = 12 + (s - 12) by omega, Nat.pow_add,
      ← Nat.div_div_eq_div_mul, ← Nat.div_div_eq_div_mul, hn]
  simp [path, hat]

/-- The alignment check of the source, on numbers. -/
theorem pageAligned_iff {a : BitVec 64} :
    a % .ofNat 64 pageSize = 0 ↔ a.toNat % pageSize = 0 := by
  rw [← BitVec.toNat_inj, BitVec.toNat_umod]
  rfl

/-! The address built from four indices. -/

/-- The number four indices make. -/
def indexSum (a b c d : BitVec 16) : ℕ :=
  a.toNat % 512 * 2 ^ 39 + b.toNat % 512 * 2 ^ 30 + c.toNat % 512 * 2 ^ 21 + d.toNat % 512 * 2 ^ 12

theorem toNat_index (a : BitVec 16) : ((a &&& 0x1FF).setWidth 64).toNat = a.toNat % 512 := by
  have hm : a.toNat &&& 511 = a.toNat % 512 := Nat.and_two_pow_sub_one_eq_mod _ 9
  have h511 : (0x1FF : BitVec 16).toNat = 511 := rfl
  rw [BitVec.toNat_setWidth, BitVec.toNat_and, h511, hm]
  omega

/-- Fields that do not overlap add up. -/
theorem or_shiftLeft_eq {x y s : ℕ} (h : y < 2 ^ s) : x <<< s ||| y = x * 2 ^ s + y := by
  rw [← Nat.shiftLeft_add_eq_or_of_lt h, Nat.shiftLeft_eq]

theorem toNat_canonicalize_mod (v : BitVec 64) :
    (canonicalize v).toNat % 2 ^ 48 = v.toNat % 2 ^ 48 := by
  apply Nat.eq_of_testBit_eq
  intro k
  rw [Nat.testBit_mod_two_pow, Nat.testBit_mod_two_pow]
  by_cases hk : k < 48
  · have hbit := canonicalize_getLsbD v (show k < 64 by omega)
    rw [Nat.min_eq_left (by omega)] at hbit
    rw [show (canonicalize v).toNat.testBit k = (canonicalize v).getLsbD k from rfl, hbit]
    rfl
  · simp [hk]

/-- Four indices of nine bits, put side by side. -/
theorem or_indices {a b c d : ℕ} (hb : b < 512) (hc : c < 512) (hd : d < 512) :
    a <<< 39 ||| b <<< 30 ||| c <<< 21 ||| d <<< 12 =
      a * 2 ^ 39 + b * 2 ^ 30 + c * 2 ^ 21 + d * 2 ^ 12 := by
  have hab : a * 2 ^ 39 + b * 2 ^ 30 = (a * 512 + b) <<< 30 := by
    rw [Nat.shiftLeft_eq]
    ring
  have habc : (a * 512 + b) * 2 ^ 30 + c * 2 ^ 21 = ((a * 512 + b) * 512 + c) <<< 21 := by
    rw [Nat.shiftLeft_eq]
    ring
  rw [or_shiftLeft_eq (by rw [Nat.shiftLeft_eq]; omega), Nat.shiftLeft_eq b, hab,
    or_shiftLeft_eq (by rw [Nat.shiftLeft_eq]; omega), Nat.shiftLeft_eq c, habc,
    or_shiftLeft_eq (by rw [Nat.shiftLeft_eq]; omega)]
  simp only [Nat.shiftLeft_eq]
  ring

theorem toNat_index_shiftLeft (a : BitVec 16) {s : ℕ} (hs : s ≤ 39) :
    ((a &&& 0x1FF).setWidth 64 <<< s).toNat = (a.toNat % 512) <<< s := by
  have ha := Nat.mod_lt a.toNat (show 0 < 512 by decide)
  have hpow : 2 ^ s ≤ 2 ^ 39 := Nat.pow_le_pow_right (by decide) hs
  have hlt : a.toNat % 512 * 2 ^ s < 2 ^ 64 := by
    have := Nat.mul_le_mul (Nat.le_of_lt ha) hpow
    omega
  rw [BitVec.toNat_shiftLeft, toNat_index, Nat.shiftLeft_eq, Nat.mod_eq_of_lt hlt]

theorem toNat_virtFromIndex_mod (a b c d : BitVec 16) :
    (virtFromIndex a b c d).toNat % 2 ^ 48 = indexSum a b c d := by
  have ha := Nat.mod_lt a.toNat (show 0 < 512 by decide)
  have hb := Nat.mod_lt b.toNat (show 0 < 512 by decide)
  have hc := Nat.mod_lt c.toNat (show 0 < 512 by decide)
  have hd := Nat.mod_lt d.toNat (show 0 < 512 by decide)
  rw [virtFromIndex, toNat_canonicalize_mod, BitVec.toNat_or, BitVec.toNat_or, BitVec.toNat_or,
    toNat_index_shiftLeft a (by omega), toNat_index_shiftLeft b (by omega),
    toNat_index_shiftLeft c (by omega), toNat_index_shiftLeft d (by omega), or_indices hb hc hd]
  unfold indexSum
  omega

theorem canonical_virtFromIndex (a b c d : BitVec 16) : Canonical (virtFromIndex a b c d) := by
  apply BitVec.eq_of_getLsbD_eq
  intro k hk
  rw [virtFromIndex, canonicalize_getLsbD _ hk, canonicalize_getLsbD _ hk,
    canonicalize_getLsbD _ (by omega), Nat.min_assoc, Nat.min_self]

/-- The indices of an address inside the page built from four of them, and its offset. -/
theorem path_virtFromIndex_add (a b c d : BitVec 16) {o : BitVec 64} (ho : o.toNat < 4096) :
    path (virtFromIndex a b c d + o) = [a.setWidth 9, b.setWidth 9, c.setWidth 9, d.setWidth 9] ∧
      (virtFromIndex a b c d + o).toNat % 4096 = o.toNat := by
  have hsum := toNat_virtFromIndex_mod a b c d
  rw [indexSum] at hsum
  have ha := Nat.mod_lt a.toNat (show 0 < 512 by decide)
  have hb := Nat.mod_lt b.toNat (show 0 < 512 by decide)
  have hc := Nat.mod_lt c.toNat (show 0 < 512 by decide)
  have hd := Nat.mod_lt d.toNat (show 0 < 512 by decide)
  have hv := (virtFromIndex a b c d).isLt
  have hadd : (virtFromIndex a b c d + o).toNat = (virtFromIndex a b c d).toNat + o.toNat := by
    rw [BitVec.toNat_add]
    omega
  have hat : ∀ s x, (virtFromIndex a b c d + o).toNat / 2 ^ s % 512 = x % 512 →
      (virtFromIndex a b c d + o).extractLsb' s 9 = BitVec.ofNat 9 x := by
    intro s x hx
    apply BitVec.eq_of_toNat_eq
    rw [BitVec.extractLsb'_toNat, Nat.shiftRight_eq_div_pow, BitVec.toNat_ofNat]
    exact hx
  rw [hadd] at hat ⊢
  refine ⟨?_, by omega⟩
  rw [path, hat 39 a.toNat (by omega), hat 30 b.toNat (by omega), hat 21 c.toNat (by omega),
    hat 12 d.toNat (by omega)]
  simp

theorem mappable_virtFromIndex {i j k l : BitVec 9} (hi : i ≠ 511) :
    let v := virtFromIndex (i.setWidth 16) (j.setWidth 16) (k.setWidth 16) (l.setWidth 16)
    Mappable v ∧ path v = [i, j, k, l] := by
  have hwidth : ∀ x : BitVec 9, (x.setWidth 16).setWidth 9 = x := fun x => by
    rw [BitVec.setWidth_setWidth_of_le _ (by decide), BitVec.setWidth_eq]
  have hpath := (path_virtFromIndex_add (i.setWidth 16) (j.setWidth 16) (k.setWidth 16)
    (l.setWidth 16) (o := 0#64) (by decide)).1
  rw [BitVec.add_zero, hwidth, hwidth, hwidth, hwidth] at hpath
  refine ⟨⟨canonical_virtFromIndex _ _ _ _, fun h => hi ?_⟩, hpath⟩
  rw [path, List.cons.injEq] at hpath
  apply BitVec.eq_of_toNat_eq
  rw [← hpath.1, ← toNat_tableIndex, ← pml4eIndex, h]
  rfl

/-! Indices out of an address, and back. -/

theorem toNat_tableIndex_lt (shift : ℕ) (v : BitVec 64) : (tableIndex shift v).toNat < 512 := by
  rw [toNat_tableIndex]
  exact (v.extractLsb' shift 9).isLt

/-- An index below 512 is told by its nine bits. -/
theorem tableIndex_eq {shift : ℕ} {v : BitVec 64} {i : BitVec 16} (hi : i.toNat < 512)
    (h : v.extractLsb' shift 9 = i.setWidth 9) : tableIndex shift v = i := by
  apply BitVec.eq_of_toNat_eq
  rw [toNat_tableIndex, h, BitVec.toNat_setWidth, Nat.mod_eq_of_lt hi]

/-- The addresses whose bits 47 to 63 agree and that start a page. -/
def canonicalPages : Set (BitVec 64) :=
  {a | (∀ k, 47 ≤ k → k < 64 → a.getLsbD k = a.getLsbD 47) ∧ a.toNat % pageSize = 0}

theorem mem_canonicalPages {a : BitVec 64} :
    a ∈ canonicalPages ↔ Canonical a ∧ a.toNat % pageSize = 0 :=
  and_congr_left fun _ => canonical_iff.symm

variable {i j k l : BitVec 16}

variable (i j k l) in
theorem virtFromIndex_page : path (virtFromIndex i j k l) =
      [i.setWidth 9, j.setWidth 9, k.setWidth 9, l.setWidth 9] ∧
    virtFromIndex i j k l ∈ canonicalPages := by
  have hadd := path_virtFromIndex_add i j k l (o := 0#64) (by decide)
  rw [BitVec.add_zero] at hadd
  exact ⟨hadd.1, mem_canonicalPages.mpr ⟨canonical_virtFromIndex i j k l, hadd.2⟩⟩

theorem indices_virtFromIndex (hi : i.toNat < 512) (hj : j.toNat < 512) (hk : k.toNat < 512)
    (hl : l.toNat < 512) :
    pml4eIndex (virtFromIndex i j k l) = i ∧ pdpteIndex (virtFromIndex i j k l) = j ∧
      pdeIndex (virtFromIndex i j k l) = k ∧ pteIndex (virtFromIndex i j k l) = l := by
  have hpath := (virtFromIndex_page i j k l).1
  simp only [path, List.cons.injEq, and_true] at hpath
  obtain ⟨h39, h30, h21, h12⟩ := hpath
  exact ⟨tableIndex_eq hi h39, tableIndex_eq hj h30, tableIndex_eq hk h21, tableIndex_eq hl h12⟩

/-- The page of an address is the one its indices build. -/
theorem virtFromIndex_indices {a : BitVec 64} (ha : a ∈ canonicalPages) :
    virtFromIndex (pml4eIndex a) (pdpteIndex a) (pdeIndex a) (pteIndex a) = a := by
  obtain ⟨hpath, hpage⟩ := virtFromIndex_page (pml4eIndex a) (pdpteIndex a) (pdeIndex a) (pteIndex a)
  obtain ⟨hcanon, halign⟩ := mem_canonicalPages.mp hpage
  obtain ⟨hcanon', halign'⟩ := mem_canonicalPages.mp ha
  simp only [pml4eIndex, pdpteIndex, pdeIndex, pteIndex, setWidth_tableIndex] at hpath
  have hshift := page_eq_of_path_eq hcanon hcanon' hpath
  have hdiv := congrArg BitVec.toNat hshift
  rw [BitVec.toNat_ushiftRight, BitVec.toNat_ushiftRight, Nat.shiftRight_eq_div_pow,
    Nat.shiftRight_eq_div_pow] at hdiv
  apply BitVec.eq_of_toNat_eq
  rw [← Nat.div_add_mod (virtFromIndex _ _ _ _).toNat pageSize, halign,
    ← Nat.div_add_mod a.toNat pageSize, halign']
  exact congrArg (pageSize * · + 0) hdiv

/-- Four table indices, from the highest level down. -/
abbrev Indices := BitVec 16 × BitVec 16 × BitVec 16 × BitVec 16

def Indices.Small (q : Indices) : Prop :=
  q.1.toNat < 512 ∧ q.2.1.toNat < 512 ∧ q.2.2.1.toNat < 512 ∧ q.2.2.2.toNat < 512

def Indices.virt (q : Indices) : BitVec 64 := virtFromIndex q.1 q.2.1 q.2.2.1 q.2.2.2

def indices (a : BitVec 64) : Indices := (pml4eIndex a, pdpteIndex a, pdeIndex a, pteIndex a)

theorem indices_small (a : BitVec 64) : (indices a).Small :=
  ⟨toNat_tableIndex_lt 39 a, toNat_tableIndex_lt 30 a, toNat_tableIndex_lt 21 a,
    toNat_tableIndex_lt 12 a⟩

theorem Indices.Small.indices_virt {q : Indices} (h : q.Small) : indices q.virt = q := by
  obtain ⟨hi, hj, hk, hl⟩ := indices_virtFromIndex h.1 h.2.1 h.2.2.1 h.2.2.2
  rw [indices, Indices.virt, hi, hj, hk, hl]

/-- Indices and canonical pages are in bijection, each direction inverse to the other. -/
theorem index_codec :
    (∀ i j k l : BitVec 16, i.toNat < 512 → j.toNat < 512 → k.toNat < 512 → l.toNat < 512 →
      pml4eIndex (virtFromIndex i j k l) = i ∧ pdpteIndex (virtFromIndex i j k l) = j ∧
        pdeIndex (virtFromIndex i j k l) = k ∧ pteIndex (virtFromIndex i j k l) = l ∧
        virtFromIndex i j k l ∈ canonicalPages) ∧
    (∀ a ∈ canonicalPages,
      virtFromIndex (pml4eIndex a) (pdpteIndex a) (pdeIndex a) (pteIndex a) = a) ∧
    Set.BijOn Indices.virt {q | q.Small} canonicalPages := by
  refine ⟨fun i j k l hi hj hk hl => ?_, fun a ha => virtFromIndex_indices ha, ?_, ?_, ?_⟩
  · obtain ⟨h39, h30, h21, h12⟩ := indices_virtFromIndex hi hj hk hl
    exact ⟨h39, h30, h21, h12, (virtFromIndex_page i j k l).2⟩
  · exact fun q _ => (virtFromIndex_page q.1 q.2.1 q.2.2.1 q.2.2.2).2
  · intro q hq q' hq' he
    rw [← Indices.Small.indices_virt hq, he, Indices.Small.indices_virt hq']
  · exact fun a ha => ⟨indices a, indices_small a, virtFromIndex_indices ha⟩

end CxKernel.Paging
