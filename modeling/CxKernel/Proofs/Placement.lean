import CxKernel.Proofs.LoaderPages
import CxKernel.Proofs.SearchRun

/-! Where the page database is put. The bounds of `search_run` may wrap, and the run it finds may
lie outside the region; but the probes look at 32 bits of an address only, and the pages found are
clear of what is reserved. -/

namespace CxKernel.Loader

open Paging

section Clear

variable {reserved : List Range} {pages base limit : BitVec 64} {n a b : ℕ}

/-- The probes of pages 4 GiB apart are the same. -/
theorem isPageReserved_congr (h : a % 2 ^ 20 = b % 2 ^ 20) :
    isPageReserved reserved (.ofNat 64 a) = isPageReserved reserved (.ofNat 64 b) := by
  have hfirst : (BitVec.ofNat 64 a).toNat * pageSize % 2 ^ 32 =
      (BitVec.ofNat 64 b).toNat * pageSize % 2 ^ 32 := by
    rw [BitVec.toNat_ofNat, BitVec.toNat_ofNat, pageSize]
    omega
  have hnext : ((BitVec.ofNat 64 a).toNat + 1) * pageSize % 2 ^ 32 =
      ((BitVec.ofNat 64 b).toNat + 1) * pageSize % 2 ^ 32 := by
    rw [Nat.add_mul, Nat.add_mul, Nat.add_mod, hfirst, ← Nat.add_mod]
  rw [Bool.eq_iff_iff, isPageReserved_iff, isPageReserved_iff, hfirst, hnext]

theorem FreePages.congr (h : a % 2 ^ 20 = b % 2 ^ 20) (ha : FreePages reserved n a) :
    FreePages reserved n b := fun i hi => by
  rw [← ha i hi]
  refine isPageReserved_congr ?_
  omega

theorem searchRun_clear {result : BitVec 64} (hroom : ∃ p, FreePages reserved pages.toNat p)
    (hpages : pages.toNat ≤ 2 ^ 52) (h : searchRun reserved pages base limit = some result) :
    FreePages reserved pages.toNat (result.toNat / pageSize) := by
  have hbase : base.toNat / pageSize < 2 ^ 52 := by
    rw [pageSize]
    omega
  have hbound := (limit / .ofNat 64 pageSize - pages).isLt
  rw [searchRun_eq] at h
  rcases searchRunFrom_cases reserved pages (base.toNat / pageSize)
    (limit / .ofNat 64 pageSize - pages).toNat with ⟨a, hleast, hfound⟩ | ⟨-, hnone⟩
  · obtain rfl := Option.some.inj (hfound.symm.trans h)
    obtain ⟨⟨-, hlt, hrun⟩, hmin⟩ := hleast
    by_cases hwrap : a + pages.toNat < 2 ^ 64
    · refine FreePages.congr ?_ ((hasRun_iff hwrap).mp hrun)
      rw [BitVec.toNat_mul, BitVec.toNat_ofNat, BitVec.toNat_ofNat, pageSize]
      omega
    · -- the search would have stopped at the run there is, seen 2^52 pages further up
      obtain ⟨p, hp⟩ := hroom
      have hrun' : hasRun reserved pages (.ofNat 64 (2 ^ 52 + p % 2 ^ 20)) = true :=
        (hasRun_iff (by omega)).mpr (hp.congr (by omega))
      have hle := hmin ⟨by omega, by omega, hrun'⟩
      omega
  · exact absurd (h.symm.trans hnone) (by simp)

/-- Where the pages would wrap the search stops at the first page, which is not at `0` either. -/
theorem searchRun_ne_zero {result : BitVec 64}
    (hzero : isPageReserved reserved (.ofNat 64 0) = true) (hpos : 0 < pages.toNat)
    (hpages : pages.toNat < 2 ^ 52) (h : searchRun reserved pages base limit = some result) :
    result ≠ 0 := by
  rintro rfl
  have hbase : base.toNat / pageSize < 2 ^ 52 := by
    rw [pageSize]
    omega
  rw [searchRun_eq] at h
  rcases searchRunFrom_cases reserved pages (base.toNat / pageSize)
    (limit / .ofNat 64 pageSize - pages).toNat with ⟨a, hleast, hfound⟩ | ⟨-, hnone⟩
  · have hat := congrArg BitVec.toNat (Option.some.inj (hfound.symm.trans h))
    rw [BitVec.toNat_mul, BitVec.toNat_ofNat, BitVec.toNat_ofNat, pageSize] at hat
    obtain ⟨⟨-, hlt, hrun⟩, hmin⟩ := hleast
    by_cases hwrap : a + pages.toNat < 2 ^ 64
    · have hfree := (hasRun_iff hwrap).mp hrun 0 hpos
      rw [Nat.add_zero, isPageReserved_congr (b := 0) (by simp at hat; omega), hzero] at hfree
      cases hfree
    · have hrun' : hasRun reserved pages (.ofNat 64 (2 ^ 64 - pages.toNat)) = true := by
        have hstop : (BitVec.ofNat 64 (2 ^ 64 - pages.toNat) + pages).toNat = 0 := by
          rw [BitVec.toNat_add, BitVec.toNat_ofNat]
          omega
        rw [hasRun, hstop, Nat.zero_sub]
        rfl
      have hle := hmin ⟨by omega, by omega, hrun'⟩
      simp at hat
      omega
  · exact absurd (h.symm.trans hnone) (by simp)

end Clear

section Early

variable {reserved : List Range} {pages : BitVec 64} {n : ℕ} {mmapIt : List MmapEntry}
  {result : BitVec 64}

theorem earlyPmmAllocCts_searchRun (h : earlyPmmAllocCts reserved pages n mmapIt = some result) :
    ∃ base limit, searchRun reserved pages base limit = some result := by
  induction n generalizing mmapIt with
  | zero => cases h
  | succ n ih =>
    unfold earlyPmmAllocCts at h
    split at h
    · cases h
    · dsimp only at h
      split at h
      · next hrun =>
        obtain rfl := Option.some.inj h
        exact ⟨_, _, hrun⟩
      · exact ih h

theorem earlyPmmAllocCts_clear (hroom : ∃ p, FreePages reserved pages.toNat p)
    (hpages : pages.toNat ≤ 2 ^ 52)
    (h : earlyPmmAllocCts reserved pages n mmapIt = some result) :
    FreePages reserved pages.toNat (result.toNat / pageSize) := by
  obtain ⟨base, limit, hrun⟩ := earlyPmmAllocCts_searchRun h
  exact searchRun_clear hroom hpages hrun

end Early

section Place

variable {img : Image} {res : Range} {mmap : MmapTag} {place : BitVec 64}

/-- The first byte of a page of the database, and the first behind it, are in none of the ranges
that are reserved when the place is chosen; as long as there is such a run of pages anywhere. -/
theorem pfndb_place_clear (hplace : pfndbPlace img res mmap = some place)
    (hroom : ∃ p, FreePages (reservedMemory img (mmapRange mmap) res)
      (pfndbPages mmap.entries).toNat p) :
    FreePages (reservedMemory img (mmapRange mmap) res) (pfndbPages mmap.entries).toNat
      (place.toNat / pageSize) := by
  refine earlyPmmAllocCts_clear hroom ?_ hplace
  have hsize : (BitVec.ofNat 64 pageSize).toNat = 4096 := rfl
  rw [pfndbPages, BitVec.toNat_udiv, hsize]
  omega

end Place

theorem pfndb_place_clear_pc :
    FreePages (reservedMemory pcImage (mmapRange flatMmap) pcModule)
      (pfndbPages flatMmap.entries).toNat ((0x9000 : BitVec 64).toNat / pageSize) :=
  pfndb_place_clear (by decide +kernel) ⟨9, by unfold FreePages; decide +kernel⟩

end CxKernel.Loader
