import CxKernel.Proofs.ReservedPages
import Mathlib.Order.Bounds.Basic
import Mathlib.Tactic.Common

/-! `search_run` against the runs there are. Its bound on the start of a run, an unsigned
difference, leaves out the last start, and wraps when the region ends too low. -/

namespace CxKernel.Loader

open Paging

/-! The two loops, over page numbers. -/

section Loops

variable {reserved : List Range} {pages : BitVec 64}

/-- `n` pages from page `a` on, none of them reserved. -/
def FreePages (reserved : List Range) (n a : ℕ) : Prop :=
  ∀ i < n, isPageReserved reserved (.ofNat 64 (a + i)) = false

theorem hasRun_iff {a : ℕ} (h : a + pages.toNat < 2 ^ 64) :
    hasRun reserved pages (.ofNat 64 a) = true ↔ FreePages reserved pages.toNat a := by
  have ha : (BitVec.ofNat 64 a).toNat = a := by
    rw [BitVec.toNat_ofNat, Nat.mod_eq_of_lt (by omega)]
  have hcount : (BitVec.ofNat 64 a + pages).toNat - (BitVec.ofNat 64 a).toNat = pages.toNat := by
    rw [BitVec.toNat_add, ha, Nat.mod_eq_of_lt h]
    omega
  rw [hasRun, hcount, List.all_eq_true]
  refine forall_congr' fun i => ?_
  rw [List.mem_range, Bool.not_eq_true', BitVec.ofNat_add]

/-- The inner loop's bound wraps, and there is no page to look at. -/
theorem hasRun_of_wrap {a : ℕ} (ha : a < 2 ^ 64) (h : 2 ^ 64 ≤ a + pages.toNat) :
    hasRun reserved pages (.ofNat 64 a) = true := by
  have hpages := pages.isLt
  have hcount : (BitVec.ofNat 64 a + pages).toNat - (BitVec.ofNat 64 a).toNat = 0 := by
    rw [BitVec.toNat_add, BitVec.toNat_ofNat, Nat.mod_eq_of_lt ha]
    omega
  rw [hasRun, hcount]
  rfl

/-- The starts from `lo` up to `hi` at which the inner loop finds a run. -/
def starts (reserved : List Range) (pages : BitVec 64) (lo hi : ℕ) : Set ℕ :=
  {a | lo ≤ a ∧ a < hi ∧ hasRun reserved pages (.ofNat 64 a) = true}

/-- The outer loop stops at the lowest of them. -/
theorem searchRunFrom_cases (reserved : List Range) (pages : BitVec 64) (lo hi : ℕ) :
    (∃ a, IsLeast (starts reserved pages lo hi) a ∧
      searchRunFrom reserved pages (hi - lo) (.ofNat 64 lo) =
        some (.ofNat 64 a * .ofNat 64 pageSize)) ∨
    (∀ a, a ∉ starts reserved pages lo hi) ∧
      searchRunFrom reserved pages (hi - lo) (.ofNat 64 lo) = none := by
  induction hn : hi - lo generalizing lo with
  | zero =>
    refine Or.inr ⟨?_, rfl⟩
    rintro a ⟨hlo, hhi, -⟩
    omega
  | succ n ih =>
    rw [searchRunFrom]
    by_cases hrun : hasRun reserved pages (.ofNat 64 lo) = true
    · rw [if_pos hrun]
      refine Or.inl ⟨lo, ⟨⟨le_rfl, by omega, hrun⟩, ?_⟩, rfl⟩
      exact fun a ha => ha.1
    · rw [if_neg hrun]
      have hsame : starts reserved pages lo hi = starts reserved pages (lo + 1) hi := by
        ext a
        refine ⟨?_, ?_⟩
        · rintro ⟨hlo, hhi, ha⟩
          have hne : a ≠ lo := fun he => hrun (he ▸ ha)
          exact ⟨by omega, hhi, ha⟩
        · rintro ⟨hlo, hhi, ha⟩
          exact ⟨by omega, hhi, ha⟩
      rw [hsame, show BitVec.ofNat 64 lo + 1 = .ofNat 64 (lo + 1) from
        (BitVec.ofNat_add lo 1).symm]
      exact ih (lo + 1) (by omega)

end Loops

/-! The call. -/

/-- The byte address `a` begins a run of `n` free pages inside the region. -/
def FreeRun (reserved : List Range) (n : ℕ) (base limit : BitVec 64) (a : ℕ) : Prop :=
  pageSize ∣ a ∧ base.toNat ≤ a ∧ a + n * pageSize ≤ limit.toNat ∧
    FreePages reserved n (a / pageSize)

/-- `search_run` finds the lowest run, if there is one. -/
def SearchExact (reserved : List Range) (pages base limit : BitVec 64) : Prop :=
  match searchRun reserved pages base limit with
  | some result => IsLeast {a | FreeRun reserved pages.toNat base limit a} result.toNat
  | none => ∀ a, ¬ FreeRun reserved pages.toNat base limit a

/-- For `n` pages between the pages `b` and `l`. In a region that ends no lower than at page
`n`, the run right at the end is not the lowest one; in one that does, no run of any pages
begins below the bound that has wrapped. -/
def EndIrrelevant (reserved : List Range) (n b l : ℕ) : Prop :=
  if n ≤ l then
    b + n ≤ l → FreePages reserved n (l - n) → ∃ p, b ≤ p ∧ p + n < l ∧ FreePages reserved n p
  else 2 ^ 64 + l ≤ b + n ∨ l = 0 ∧ ∀ p, b ≤ p → p + n < 2 ^ 64 → ¬ FreePages reserved n p

section Call

variable {reserved : List Range} {pages base limit : BitVec 64}

theorem toNat_div_pageSize (x : BitVec 64) :
    (x / .ofNat 64 pageSize).toNat = x.toNat / pageSize := BitVec.toNat_udiv

theorem searchRun_eq (reserved : List Range) (pages base limit : BitVec 64) :
    searchRun reserved pages base limit =
      searchRunFrom reserved pages
        ((limit / .ofNat 64 pageSize - pages).toNat - base.toNat / pageSize)
        (.ofNat 64 (base.toNat / pageSize)) := by
  have hbase : base / .ofNat 64 pageSize = .ofNat 64 (base.toNat / pageSize) := by
    rw [← toNat_div_pageSize, BitVec.ofNat_toNat, BitVec.setWidth_eq]
  rw [searchRun, hbase, BitVec.toNat_ofNat, ← toNat_div_pageSize, Nat.mod_eq_of_lt (BitVec.isLt _)]

/-- Runs in terms of page numbers. -/
theorem freeRun_iff (reserved : List Range) (n : ℕ) (hbase : base.toNat % pageSize = 0)
    (hlimit : limit.toNat % pageSize = 0) (p : ℕ) : FreeRun reserved n base limit (p * pageSize) ↔
      base.toNat / pageSize ≤ p ∧ p + n ≤ limit.toNat / pageSize ∧ FreePages reserved n p := by
  unfold FreeRun
  rw [Nat.mul_div_cancel p (by decide : 0 < pageSize)]
  unfold pageSize at *
  have hbegin : base.toNat ≤ p * 4096 ↔ base.toNat / 4096 ≤ p := by omega
  have hend : p * 4096 + n * 4096 ≤ limit.toNat ↔ p + n ≤ limit.toNat / 4096 := by omega
  rw [hbegin, hend]
  exact and_iff_right (Nat.dvd_mul_left _ _)

theorem FreeRun.exists_page {n a : ℕ} (h : FreeRun reserved n base limit a) :
    ∃ p, a = p * pageSize := by
  obtain ⟨p, rfl⟩ := h.1
  exact ⟨p, Nat.mul_comm _ _⟩

theorem toNat_page {p : ℕ} (hp : p < 2 ^ 52) :
    (BitVec.ofNat 64 p * BitVec.ofNat 64 pageSize).toNat = p * pageSize := by
  have hsize : pageSize = 4096 := rfl
  rw [BitVec.toNat_mul, BitVec.toNat_ofNat, BitVec.toNat_ofNat, hsize]
  omega

/-- A region that ends at page `pages` or above: all starts but the last. -/
theorem mem_starts_iff (h : pages.toNat ≤ limit.toNat / pageSize) (p : ℕ) :
    p ∈ starts reserved pages (base.toNat / pageSize)
        (limit / .ofNat 64 pageSize - pages).toNat ↔
      base.toNat / pageSize ≤ p ∧ p + pages.toNat < limit.toNat / pageSize ∧
        FreePages reserved pages.toNat p := by
  have hlt := (Nat.div_le_self limit.toNat pageSize).trans_lt limit.isLt
  have hbound : (limit / .ofNat 64 pageSize - pages).toNat =
      limit.toNat / pageSize - pages.toNat := by
    rw [← toNat_div_pageSize] at h ⊢
    exact BitVec.toNat_sub_of_le h
  rw [hbound]
  refine ⟨?_, ?_⟩
  · rintro ⟨hb, hp, hrun⟩
    exact ⟨hb, by omega, (hasRun_iff (by omega)).mp hrun⟩
  · rintro ⟨hb, hp, hfree⟩
    exact ⟨hb, by omega, (hasRun_iff (by omega)).mpr hfree⟩

/-- A region that ends lower: the bound is far above it. -/
theorem toNat_bound_wrap (h : limit.toNat / pageSize < pages.toNat) :
    (limit / .ofNat 64 pageSize - pages).toNat =
      2 ^ 64 + limit.toNat / pageSize - pages.toNat := by
  have hpages := pages.isLt
  have hlt := (Nat.div_le_self limit.toNat pageSize).trans_lt limit.isLt
  rw [BitVec.toNat_sub, toNat_div_pageSize]
  generalize limit.toNat / pageSize = l at *
  omega

/-- What the call comes to, by its outer loop. -/
theorem searchExact_of_found {p : ℕ}
    (hrun : searchRun reserved pages base limit = some (.ofNat 64 p * .ofNat 64 pageSize)) :
    SearchExact reserved pages base limit ↔ IsLeast {a | FreeRun reserved pages.toNat base limit a}
      (BitVec.ofNat 64 p * .ofNat 64 pageSize).toNat := by
  rw [SearchExact, hrun]

theorem searchExact_of_none (hrun : searchRun reserved pages base limit = none) :
    SearchExact reserved pages base limit ↔ ∀ a, ¬ FreeRun reserved pages.toNat base limit a := by
  rw [SearchExact, hrun]

section Aligned

variable (reserved) (hbase : base.toNat % pageSize = 0) (hlimit : limit.toNat % pageSize = 0)

include hbase hlimit

theorem no_freeRun_of_low (h : limit.toNat / pageSize < pages.toNat) (a : ℕ) :
    ¬ FreeRun reserved pages.toNat base limit a := by
  intro ha
  obtain ⟨p, rfl⟩ := ha.exists_page
  obtain ⟨-, hp, -⟩ := (freeRun_iff _ _ hbase hlimit p).mp ha
  omega

theorem searchExact_iff_of_le (h : pages.toNat ≤ limit.toNat / pageSize) :
    SearchExact reserved pages base limit ↔
      (base.toNat / pageSize + pages.toNat ≤ limit.toNat / pageSize →
        FreePages reserved pages.toNat (limit.toNat / pageSize - pages.toNat) →
        ∃ p, base.toNat / pageSize ≤ p ∧ p + pages.toNat < limit.toNat / pageSize ∧
          FreePages reserved pages.toNat p) := by
  have hruns := freeRun_iff reserved pages.toNat hbase hlimit
  have hloop := searchRunFrom_cases reserved pages (base.toNat / pageSize)
    (limit / .ofNat 64 pageSize - pages).toNat
  rw [← searchRun_eq] at hloop
  rcases hloop with ⟨p, ⟨hp, hleast⟩, hrun⟩ | ⟨hnone, hrun⟩
  · obtain ⟨hb, hl, hfree⟩ := (mem_starts_iff h p).mp hp
    have hpage : (BitVec.ofNat 64 p * BitVec.ofNat 64 pageSize).toNat = p * pageSize := by
      refine toNat_page ?_
      have hlt := limit.isLt
      unfold pageSize at hl
      omega
    rw [searchExact_of_found hrun, hpage]
    refine iff_of_true ⟨(hruns p).mpr ⟨hb, hl.le, hfree⟩, ?_⟩ fun _ _ => ⟨p, hb, hl, hfree⟩
    intro a ha
    obtain ⟨q, rfl⟩ := FreeRun.exists_page ha
    obtain ⟨hbq, hlq, hfreeq⟩ := (hruns q).mp ha
    refine Nat.mul_le_mul_right _ ?_
    -- a run right at the end lies above the one the loop found
    rcases hlq.lt_or_eq with hlt | heq
    · exact hleast ((mem_starts_iff h q).mpr ⟨hbq, hlt, hfreeq⟩)
    · omega
  · rw [searchExact_of_none hrun]
    refine ⟨?_, ?_⟩
    · intro hno hb hlast
      refine absurd ((hruns _).mpr ⟨by omega, by omega, hlast⟩) (hno _)
    · intro hlast a ha
      obtain ⟨q, rfl⟩ := ha.exists_page
      obtain ⟨hbq, hlq, hfreeq⟩ := (hruns q).mp ha
      have hfound : ∃ p, base.toNat / pageSize ≤ p ∧
          p + pages.toNat < limit.toNat / pageSize ∧ FreePages reserved pages.toNat p := by
        rcases hlq.lt_or_eq with hlt | heq
        · exact ⟨q, hbq, hlt, hfreeq⟩
        · refine hlast (by omega) ?_
          rwa [← heq, Nat.add_sub_cancel]
      obtain ⟨p, hp⟩ := hfound
      exact hnone p ((mem_starts_iff h p).mpr hp)

theorem searchExact_iff_of_lt (h : limit.toNat / pageSize < pages.toNat) :
    SearchExact reserved pages base limit ↔
      2 ^ 64 + limit.toNat / pageSize ≤ base.toNat / pageSize + pages.toNat ∨
      limit.toNat / pageSize = 0 ∧ ∀ p, base.toNat / pageSize ≤ p → p + pages.toNat < 2 ^ 64 →
        ¬ FreePages reserved pages.toNat p := by
  have hno := no_freeRun_of_low reserved hbase hlimit h
  have hpages := pages.isLt
  have hb := (Nat.div_le_self base.toNat pageSize).trans_lt base.isLt
  have hloop := searchRunFrom_cases reserved pages (base.toNat / pageSize)
    (limit / .ofNat 64 pageSize - pages).toNat
  rw [← searchRun_eq, toNat_bound_wrap h] at hloop
  generalize base.toNat / pageSize = b at *
  generalize limit.toNat / pageSize = l at *
  rcases hloop with ⟨p, ⟨⟨hbp, hp, hfound⟩, -⟩, hrun⟩ | ⟨hnone, hrun⟩
  · rw [searchExact_of_found hrun]
    refine iff_of_false (fun hleast => hno _ hleast.1) ?_
    rintro (hfar | ⟨hzero, hnone⟩)
    · omega
    · exact hnone p hbp (by omega) ((hasRun_iff (by omega)).mp hfound)
  · rw [searchExact_of_none hrun]
    refine iff_of_true hno ?_
    by_cases hfar : 2 ^ 64 + l ≤ b + pages.toNat
    · exact Or.inl hfar
    · refine Or.inr ⟨?_, fun p hbp hp hfree => ?_⟩
      · -- else the inner loop wraps below the bound
        by_contra hne
        refine hnone (max b (2 ^ 64 - pages.toNat)) ⟨by omega, by omega, ?_⟩
        exact hasRun_of_wrap (by omega) (by omega)
      · exact hnone p ⟨hbp, by omega, (hasRun_iff hp).mpr hfree⟩

/-- The call is exact where neither the comparison nor the wrap of its bound matters. -/
theorem search_run_exact_iff (pages : BitVec 64) :
    SearchExact reserved pages base limit ↔
      EndIrrelevant reserved pages.toNat (base.toNat / pageSize) (limit.toNat / pageSize) := by
  unfold EndIrrelevant
  split_ifs with h
  · exact searchExact_iff_of_le reserved hbase hlimit h
  · exact searchExact_iff_of_lt reserved hbase hlimit (Nat.lt_of_not_le h)

end Aligned

end Call

/-! With the ranges of a loader at 1 MiB. -/

theorem freePages_lowRanges : FreePages lowRanges 4 0x200 := by
  unfold FreePages
  decide

theorem search_run_exact_iff_four : SearchExact lowRanges 2 0x200000 0x204000 := by
  refine (search_run_exact_iff lowRanges (by decide) (by decide) 2).mpr ?_
  rw [EndIrrelevant, if_pos (by decide)]
  exact fun _ _ => ⟨0x200, by decide, by decide, fun i hi =>
    freePages_lowRanges i (Nat.lt_of_lt_of_le hi (by decide))⟩

/-- A region of one free page, and one that is too small for the run: the call finds nothing
in the first, and something behind the second. -/
theorem search_run_misses_last :
    searchRun lowRanges 1 0x200000 0x201000 = none ∧
      ¬ SearchExact lowRanges 1 0x200000 0x201000 ∧
      searchRun lowRanges 2 0 0x1000 = some 0x1000 ∧ ¬ SearchExact lowRanges 2 0 0x1000 := by
  have hnone : searchRun lowRanges 1 0x200000 0x201000 = none := by decide
  have hsome : searchRun lowRanges 2 0 0x1000 = some 0x1000 := by decide
  refine ⟨hnone, ?_, hsome, ?_⟩
  · rw [searchExact_of_none hnone]
    intro hno
    refine hno 0x200000 ⟨by decide, by decide, by decide, fun i hi => ?_⟩
    exact freePages_lowRanges i (Nat.lt_of_lt_of_le hi (by decide))
  · rw [SearchExact, hsome]
    exact fun hleast => no_freeRun_of_low _ (by decide) (by decide) (by decide) _ hleast.1

end CxKernel.Loader
