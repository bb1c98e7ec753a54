import CxKernel.Lib.Words
import CxKernel.Proofs.Bootstrap
import CxKernel.Spec.LoadElf

/-! `is_page_reserved` against the bytes of the ranges. It probes two addresses, cut down to
32 bits, and takes the last byte of a range for the first one past it. -/

namespace CxKernel.Loader

open Paging

/-! One range, and the page of its bytes. -/

namespace Range

/-- Page `p` has a byte of the range. -/
def Meets (r : Range) (p : ℕ) : Prop :=
  ∃ a, p * pageSize ≤ a ∧ a < (p + 1) * pageSize ∧ r.beginAddr.toNat ≤ a ∧ a ≤ r.endAddr.toNat

/-- The range goes on behind the first byte of the page, or begins further in and goes on
behind the first byte of the next page. -/
def Seen (r : Range) (p : ℕ) : Prop :=
  r.Before (p * pageSize) ∨
    p * pageSize < r.beginAddr.toNat ∧ r.beginAddr.toNat < (p + 1) * pageSize ∧
      (p + 1) * pageSize < r.endAddr.toNat

/-- The range ends with the first byte of the page, or lies in the page behind that byte; it
may have the first byte of the next page too. -/
def Missed (r : Range) (p : ℕ) : Prop :=
  r.beginAddr.toNat ≤ p * pageSize ∧ r.endAddr.toNat = p * pageSize ∨
    p * pageSize < r.beginAddr.toNat ∧ r.beginAddr.toNat < (p + 1) * pageSize ∧
      r.beginAddr.toNat ≤ r.endAddr.toNat ∧ r.endAddr.toNat ≤ (p + 1) * pageSize

/-- The range begins with the next page, and has more than one byte. -/
def Follows (r : Range) (p : ℕ) : Prop :=
  r.beginAddr.toNat = (p + 1) * pageSize ∧ (p + 1) * pageSize < r.endAddr.toNat

variable {r : Range} {p : ℕ}

theorem meets_iff : r.Meets p ↔ r.Seen p ∨ r.Missed p := by
  unfold Meets Seen Missed Before pageSize
  refine ⟨?_, ?_⟩
  · rintro ⟨a, hpa, hap, hba, hae⟩
    omega
  · intro h
    exact ⟨max (p * 4096) r.beginAddr.toNat, by omega, by omega, by omega, by omega⟩

theorem before_iff :
    r.Before (p * pageSize) ∨ r.Before ((p + 1) * pageSize) ↔ r.Seen p ∨ r.Follows p := by
  unfold Seen Follows Before pageSize
  omega

end Range

/-! The test. -/

/-- The test is right about page `p`. -/
def ReservedExact (reserved : List Range) (p : BitVec 64) : Prop :=
  isPageReserved reserved p = true ↔ ∃ r ∈ reserved, r.Meets p.toNat

/-- Below 4 GiB, some range is seen, or else one is missed where one follows. On the last page
there, the probe of address 0 hits in any case. Further up the two addresses, in 32 bits, hit
nothing. -/
def ProbesSuffice (reserved : List Range) (p : ℕ) : Prop :=
  if p + 1 < 2 ^ 20 then
    (∃ r ∈ reserved, r.Seen p) ∨ ((∃ r ∈ reserved, r.Missed p) ↔ ∃ r ∈ reserved, r.Follows p)
  else if p + 1 = 2 ^ 20 then ∃ r ∈ reserved, r.Meets p
  else ∀ r ∈ reserved, ¬ r.Before (p * pageSize % 2 ^ 32) ∧
    ¬ r.Before ((p + 1) * pageSize % 2 ^ 32)

section Ranges

variable {reserved : List Range} {p : BitVec 64}

theorem reservedExact_iff_of_low (hp : p.toNat + 1 < 2 ^ 20) :
    ReservedExact reserved p ↔ (∃ r ∈ reserved, r.Seen p.toNat) ∨
      ((∃ r ∈ reserved, r.Missed p.toNat) ↔ ∃ r ∈ reserved, r.Follows p.toNat) := by
  have hhere : p.toNat * pageSize % 2 ^ 32 = p.toNat * pageSize := by
    rw [pageSize]
    omega
  have hnext : (p.toNat + 1) * pageSize % 2 ^ 32 = (p.toNat + 1) * pageSize := by
    rw [pageSize]
    omega
  rw [ReservedExact, isPageReserved_iff, hhere, hnext]
  simp only [Range.before_iff, Range.meets_iff, and_or_left, exists_or]
  by_cases hseen : ∃ r ∈ reserved, r.Seen p.toNat
  · exact iff_of_true (iff_of_true (Or.inl hseen) (Or.inl hseen)) (Or.inl hseen)
  · rw [or_iff_right hseen, or_iff_right hseen, or_iff_right hseen]
    exact iff_comm

theorem reservedExact_iff_of_last (hnull : ⟨0, .ofNat 64 pageSize - 1⟩ ∈ reserved)
    (hp : p.toNat + 1 = 2 ^ 20) :
    ReservedExact reserved p ↔ ∃ r ∈ reserved, r.Meets p.toNat := by
  have hhit : isPageReserved reserved p = true := by
    refine isPageReserved_iff.mpr ⟨_, hnull, Or.inr ?_⟩
    rw [hp]
    exact ⟨by decide, by decide⟩
  exact iff_true_left hhit

theorem reservedExact_iff_of_high (hlow : ∀ r ∈ reserved, r.endAddr.toNat < 2 ^ 32)
    (hp : 2 ^ 20 ≤ p.toNat) :
    ReservedExact reserved p ↔ ∀ r ∈ reserved, ¬ r.Before (p.toNat * pageSize % 2 ^ 32) ∧
      ¬ r.Before ((p.toNat + 1) * pageSize % 2 ^ 32) := by
  have hnone : ¬ ∃ r ∈ reserved, r.Meets p.toNat := by
    rintro ⟨r, hr, a, hpa, -, -, hae⟩
    have hend := hlow r hr
    rw [pageSize] at hpa
    omega
  rw [ReservedExact, iff_false_right hnone, isPageReserved_iff]
  simp only [not_exists, not_and, not_or]

end Ranges

/-! The four ranges. -/

/-- The loader's image and the memory map end at addresses of the loader, which have 32 bits. -/
structure Addressable (img : Image) (mmap : MmapTag) : Prop where
  image : 0 < img.loaderEnd.toNat
  tag : 0 < mmap.addr.toNat + mmap.size.toNat
  tagEnd : mmap.addr.toNat + mmap.size.toNat ≤ 2 ^ 32

section Bootstrap

variable {img : Image} {mmap : MmapTag}

theorem Addressable.endAddr_lt (h : Addressable img mmap) (module : ModuleTag) :
    ∀ r ∈ reservedMemory img (mmapRange mmap) module.range, r.endAddr.toNat < 2 ^ 32 := by
  have himage := h.image
  have htag := h.tag
  have htagEnd := h.tagEnd
  simp only [reservedMemory, List.forall_mem_cons]
  refine ⟨by decide, ?_, ?_, ?_, fun r hr => absurd hr List.not_mem_nil⟩
  · have hend := img.loaderEnd.isLt
    have hwide : (img.loaderEnd.setWidth 64).toNat = img.loaderEnd.toNat :=
      BitVec.toNat_setWidth_of_le (by decide)
    rw [Words.toNat_sub_one (hwide ▸ himage), hwide]
    omega
  · have hwide : (mmap.addr.setWidth 64 + mmap.size.setWidth 64).toNat =
        mmap.addr.toNat + mmap.size.toNat := by
      rw [BitVec.toNat_add, BitVec.toNat_setWidth_of_le (by decide),
        BitVec.toNat_setWidth_of_le (by decide), Nat.mod_eq_of_lt (by omega)]
    rw [mmapRange, Words.toNat_sub_one (hwide ▸ htag), hwide]
    omega
  · rw [ModuleTag.range, BitVec.toNat_setWidth_of_le (by decide)]
    exact BitVec.isLt _

/-- The test with the ranges `bootstrap_pmm` fills in. -/
theorem is_page_reserved_exact_iff (h : Addressable img mmap) (module : ModuleTag)
    (p : BitVec 64) :
    ReservedExact (reservedMemory img (mmapRange mmap) module.range) p ↔
      ProbesSuffice (reservedMemory img (mmapRange mmap) module.range) p.toNat := by
  unfold ProbesSuffice
  split_ifs with hlow hlast
  · exact reservedExact_iff_of_low hlow
  · exact reservedExact_iff_of_last List.mem_cons_self hlast
  · exact reservedExact_iff_of_high (h.endAddr_lt module) (by omega)

end Bootstrap

/-! A loader at 1 MiB, with a memory map and a module behind it. -/

def lowImage : Image := ⟨0x100000, 0x104000⟩

def lowMmap : MmapTag := ⟨0x110100, 0x100, []⟩

def lowModule : ModuleTag := ⟨0x120000, 0x130000⟩

def lowRanges : List Range := reservedMemory lowImage (mmapRange lowMmap) lowModule.range

theorem is_page_reserved_exact_iff_low : ReservedExact lowRanges 0x101 := by
  refine (is_page_reserved_exact_iff ⟨by decide, by decide, by decide⟩ lowModule 0x101).mpr ?_
  rw [ProbesSuffice, if_pos (by decide)]
  refine Or.inl ⟨⟨0x100000, 0x103FFF⟩, ?_, Or.inl ⟨by decide, by decide⟩⟩
  exact List.mem_cons_of_mem _ List.mem_cons_self

/-- The memory map lies inside of its page, and the image begins behind one: the first page
is not reserved, the second is. -/
theorem reserved_page_misjudged :
    isPageReserved lowRanges 0x110 = false ∧ ¬ ReservedExact lowRanges 0x110 ∧
      isPageReserved lowRanges 0xFF = true ∧ ¬ ReservedExact lowRanges 0xFF := by
  have hmissed : isPageReserved lowRanges 0x110 = false := by decide
  have hhit : isPageReserved lowRanges 0xFF = true := by decide
  refine ⟨hmissed, ?_, hhit, ?_⟩
  · intro hexact
    have hmeets : ∃ r ∈ lowRanges, r.Meets 0x110 := by
      refine ⟨mmapRange lowMmap, ?_, 0x110100, by decide, by decide, by decide, by decide⟩
      exact List.mem_cons_of_mem _ (List.mem_cons_of_mem _ List.mem_cons_self)
    rw [hexact.mpr hmeets] at hmissed
    cases hmissed
  · intro hexact
    obtain ⟨r, hr, hmeets⟩ := hexact.mp hhit
    have hnone : ∀ r ∈ lowRanges, ¬ (r.beginAddr.toNat < 0x100000 ∧ 0xFF000 ≤ r.endAddr.toNat) := by
      decide
    obtain ⟨a, hpa, hap, hba, hae⟩ := hmeets
    exact hnone r hr ⟨hba.trans_lt hap, hpa.trans hae⟩

end CxKernel.Loader
