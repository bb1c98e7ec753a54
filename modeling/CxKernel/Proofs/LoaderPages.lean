import CxKernel.Proofs.LoaderPaging

/-! The loader's page lists over a run of allocations. The free list starts out in
ascending order and only loses its front, so every call hands out the lowest free page,
and never one the page database lies in. -/

namespace CxKernel.Loader

open LinkedList Paging

/-! Where the database is put. -/

theorem searchRunFrom_aligned {reserved : List Range} {pages : BitVec 64} {n : ℕ}
    {ptr result : BitVec 64} (h : searchRunFrom reserved pages n ptr = some result) :
    result.toNat % pageSize = 0 := by
  induction n generalizing ptr with
  | zero => cases h
  | succ n ih =>
    unfold searchRunFrom at h
    split_ifs at h with hrun
    · obtain rfl := Option.some.inj h
      simp only [pageSize, BitVec.toNat_mul, BitVec.toNat_ofNat]
      omega
    · exact ih h

theorem earlyPmmAllocCts_aligned {reserved : List Range} {pages : BitVec 64} {n : ℕ}
    {mmapIt : List MmapEntry} {result : BitVec 64}
    (h : earlyPmmAllocCts reserved pages n mmapIt = some result) :
    result.toNat % pageSize = 0 := by
  induction n generalizing mmapIt with
  | zero => cases h
  | succ n ih =>
    unfold earlyPmmAllocCts at h
    split at h
    · cases h
    · dsimp only at h
      split at h
      · next hrun =>
        obtain rfl := Option.some.inj h
        exact searchRunFrom_aligned hrun
      · exact ih h

/-- The database lies below 4 GiB as a whole. -/
structure PlacedLow (img : Image) (res : Range) (mmap : MmapTag) (place : BitVec 64) : Prop where
  found : pfndbPlace img res mmap = some place
  low : place.toNat + (pfndbBytes mmap.entries).toNat ≤ 2 ^ 32

/-- Page `i` has a byte the database lies on. -/
def OverlapsPfndb (mmap : MmapTag) (place : BitVec 64) (page : BitVec 64) : Prop :=
  ∃ a, page.toNat ≤ a ∧ a < page.toNat + pageSize ∧ place.toNat ≤ a ∧
    a < place.toNat + (pfndbBytes mmap.entries).toNat

theorem toNat_totalPages_lt (entries : List MmapEntry) : (totalPages entries).toNat < 2 ^ 52 := by
  have hlt := (largestPhysAddr entries).isLt
  have hsize : (BitVec.ofNat 64 pageSize).toNat = 4096 := rfl
  rw [totalPages, BitVec.toNat_udiv, hsize]
  omega

theorem toNat_pfndbBytes (entries : List MmapEntry) :
    (pfndbBytes entries).toNat = (totalPages entries).toNat * sizeofPage := by
  have hlt := toNat_totalPages_lt entries
  rw [pfndbBytes, BitVec.toNat_mul, BitVec.toNat_ofNat, sizeofPage]
  omega

section Placed

variable {img : Image} {res : Range} {mmap : MmapTag} {mem : PhysMem} {place : BitVec 64}
  {s : Globals}

theorem PlacedLow.pages_lt (h : PlacedLow img res mmap place) :
    (totalPages mmap.entries).toNat ≤ 2 ^ 27 := by
  have hlow := h.low
  rw [toNat_pfndbBytes, sizeofPage] at hlow
  omega

/-- A page that `is_page_reserved` lets through, addressed in 32 bits, is clear of the
database: its first byte is not in the range of the database, which starts on a page. -/
theorem PlacedLow.not_overlaps (h : PlacedLow img res mmap place) {i : ℕ}
    (hlow : (pageAddr i).toNat < 2 ^ 32)
    (hfree : isPageReserved (rangesInForce img res mmap place) (.ofNat 64 i) = false) :
    ¬ OverlapsPfndb mmap place (pageAddr i) := by
  rintro ⟨a, hpa, hap, hda, had⟩
  have halign := earlyPmmAllocCts_aligned h.found
  have hplace := h.low
  have hpage : (pageAddr i).toNat % pageSize = 0 := by
    simp only [pageAddr, pageSize, BitVec.toNat_mul, BitVec.toNat_ofNat]
    omega
  have hstart : (place.setWidth 32).setWidth 64 = place := by
    apply BitVec.eq_of_toNat_eq
    simp only [BitVec.toNat_setWidth]
    omega
  have hend : (place + pfndbBytes mmap.entries).toNat =
      place.toNat + (pfndbBytes mmap.entries).toNat := by
    rw [BitVec.toNat_add, Nat.mod_eq_of_lt (by omega)]
  have hprobe : (BitVec.ofNat 64 i).toNat * pageSize % 2 ^ 32 = (pageAddr i).toNat := by
    rw [← toNat_probe, BitVec.toNat_setWidth]
    exact Nat.mod_eq_of_lt hlow
  have hin : Range.Before ⟨(place.setWidth 32).setWidth 64,
      (place.setWidth 32).setWidth 64 + pfndbBytes mmap.entries⟩ (pageAddr i).toNat := by
    unfold Range.Before
    dsimp only
    rw [hstart, hend]
    rw [pageSize] at *
    omega
  refine Bool.eq_false_iff.mp hfree (isPageReserved_iff.mpr ⟨_, ?_, Or.inl (hprobe ▸ hin)⟩)
  exact List.mem_cons_of_mem _ (List.mem_cons_of_mem _ List.mem_cons_self)

end Placed

/-! A run of allocations. -/

/-- As many calls of `pmm_alloc_page`, none of which asserts, and their pages in order. -/
def allocRun : ℕ → Globals → Option (List (BitVec 64) × Globals)
  | 0, s => some ([], s)
  | n + 1, s => do
    let (page, s) ← pmmAllocPage s
    let (pages, s) ← allocRun n s
    return (page :: pages, s)

/-- The lists are well formed and disjoint and hold each descriptor once, the free ones
in ascending order. -/
def PageLists (total : ℕ) (s : Globals) : Prop :=
  ∃ σ, Represents s.pool σ ∧ (σ .freelist ++ σ .rsrvlist).Perm (List.range total) ∧
    (σ .freelist).Pairwise (· < ·)

section Run

variable {s s' : Globals} {σ : PfnList → List ℕ} {n : ℕ} {pages : List (BitVec 64)}

/-- A run moves the front of the free list behind the reserved one. -/
theorem allocRun_spec (h : Represents s.pool σ) (hrun : allocRun n s = some (pages, s')) :
    pages = ((σ .freelist).take n).map pageAddr ∧
      Represents s'.pool (Function.update (Function.update σ .freelist ((σ .freelist).drop n))
        .rsrvlist (σ .rsrvlist ++ (σ .freelist).take n)) := by
  induction n generalizing s σ pages with
  | zero =>
    unfold allocRun at hrun
    obtain ⟨rfl, rfl⟩ := Prod.mk.inj (Option.some.inj hrun)
    refine ⟨rfl, ?_⟩
    rw [List.drop_zero, Function.update_eq_self, List.take_zero, List.append_nil,
      Function.update_eq_self]
    exact h
  | succ n ih =>
    unfold allocRun at hrun
    cases hfree : σ .freelist with
    | nil =>
      rw [pmmAllocPage_nil h hfree] at hrun
      cases hrun
    | cons i rest =>
      obtain ⟨pool, halloc, hrep⟩ := pmmAllocPage_cons h hfree
      rw [halloc, Option.bind_eq_bind, Option.bind_some] at hrun
      obtain ⟨⟨pages', s₁⟩, hrun', hret⟩ := Option.bind_eq_some_iff.mp hrun
      obtain ⟨rfl, rfl⟩ := Prod.mk.inj (Option.some.inj hret)
      obtain ⟨rfl, hrep'⟩ := ih hrep hrun'
      have hrest : Function.update (Function.update σ .freelist rest) .rsrvlist
          (σ .rsrvlist ++ [i]) .freelist = rest := by
        rw [Function.update_of_ne (by decide), Function.update_self]
      rw [hrest, Function.update_self, List.append_assoc, List.singleton_append,
        Function.update_comm (by decide : PfnList.rsrvlist ≠ .freelist), Function.update_idem,
        Function.update_idem] at hrep'
      exact ⟨by rw [hrest, List.take_succ_cons, List.map_cons], hrep'⟩

theorem allocRun_lists {total : ℕ} (h : Represents s.pool σ)
    (hperm : (σ .freelist ++ σ .rsrvlist).Perm (List.range total))
    (hsort : (σ .freelist).Pairwise (· < ·)) (hrun : allocRun n s = some (pages, s')) :
    PageLists total s' := by
  obtain ⟨-, hrep⟩ := allocRun_spec h hrun
  refine ⟨_, hrep, ?_, ?_⟩
  · rw [Function.update_self, Function.update_of_ne (by decide), Function.update_self]
    have hback : σ .rsrvlist ++ (σ .freelist).take n ++ (σ .freelist).drop n =
        σ .rsrvlist ++ σ .freelist := by
      rw [List.append_assoc, List.take_append_drop]
    refine List.perm_append_comm.trans ?_
    rw [hback]
    exact List.perm_append_comm.trans hperm
  · rw [Function.update_of_ne (by decide), Function.update_self]
    exact hsort.sublist (List.drop_sublist n _)

/-- The next call asserts if nothing is free, and else takes the lowest free page. -/
theorem PageLists.next {total : ℕ} (h : PageLists total s) (htotal : total ≤ 2 ^ 27) :
    (pmmAllocPage s = none ↔ ∀ i, ¬ OnFree s i) ∧
    ∀ page s', pmmAllocPage s = some (page, s') →
      ∃ i, IsLeast {j | OnFree s j} i ∧ page.toNat = pageSize * i := by
  obtain ⟨σ, hσ, hperm, hsort⟩ := h
  cases hfree : σ .freelist with
  | nil =>
    have hnone := pmmAllocPage_nil hσ hfree
    refine ⟨⟨fun _ i hi => ?_, fun _ => hnone⟩, fun page s' halloc => ?_⟩
    · rw [onFree_iff hσ, hfree] at hi
      exact List.not_mem_nil hi
    · rw [hnone] at halloc
      cases halloc
  | cons i rest =>
    obtain ⟨pool, halloc, -⟩ := pmmAllocPage_cons hσ hfree
    have hi : OnFree s i := by
      rw [onFree_iff hσ, hfree]
      exact List.mem_cons_self
    have hlt : i < total := by
      rw [← List.mem_range, ← hperm.mem_iff, hfree]
      exact List.mem_append_left _ List.mem_cons_self
    refine ⟨⟨fun hnone => ?_, fun hno => absurd hi (hno i)⟩, fun page s' halloc' => ?_⟩
    · rw [halloc] at hnone
      cases hnone
    · rw [halloc] at halloc'
      obtain ⟨rfl, -⟩ := Prod.mk.inj (Option.some.inj halloc')
      refine ⟨i, ⟨hi, fun j hj => ?_⟩, ?_⟩
      · rw [Set.mem_ofPred_eq, onFree_iff hσ, hfree] at hj
        rw [hfree] at hsort
        rcases List.mem_cons.mp hj with rfl | hj
        · exact le_rfl
        · exact (List.rel_of_pairwise_cons hsort hj).le
      · simp only [pageAddr, pageSize, BitVec.toNat_mul, BitVec.toNat_ofNat]
        omega

end Run

/-- The run of allocations after a start with the database below 4 GiB. -/
theorem alloc_run_lowest_free {img : Image} {res : Range} {mmap : MmapTag} {place : BitVec 64}
    (h : PlacedLow img res mmap place) (mem : PhysMem) :
    ∃ s, bootstrapPmm img res mmap mem = some s ∧
      ∀ n pages s', allocRun n s = some (pages, s') → (∀ page ∈ pages, page.toNat < 2 ^ 32) →
        PageLists (totalPages mmap.entries).toNat s' ∧
        pages.Nodup ∧ (∀ page ∈ pages, ¬ OverlapsPfndb mmap place page) ∧
        (pmmAllocPage s' = none ↔ ∀ i, ¬ OnFree s' i) ∧
        ∀ page s'', pmmAllocPage s' = some (page, s'') →
          ∃ i, IsLeast {j | OnFree s' j} i ∧ page.toNat = pageSize * i := by
  have htotal := h.pages_lt
  obtain ⟨s, hs⟩ := exists_bootstrapPmm mem h.found (by omega)
  obtain ⟨place', hplace', hb⟩ := bootstrapPmm_booted hs
  obtain rfl : place = place' := Option.some.inj (h.found.symm.trans hplace')
  refine ⟨s, hs, fun n pages s' hrun hlow => ?_⟩
  set free := sorted (rangesInForce img res mmap place)
    (List.range (totalPages mmap.entries).toNat) .freelist with hfree
  have hsort : free.Pairwise (· < ·) := List.pairwise_lt_range.sublist List.filter_sublist
  have hlists := allocRun_lists hb.pool (sorted_partition _ _) hsort hrun
  obtain ⟨rfl, -⟩ := allocRun_spec hb.pool hrun
  rw [← hfree] at hlow ⊢
  have hmem : ∀ i ∈ free.take n, i < (totalPages mmap.entries).toNat ∧
      isPageReserved (rangesInForce img res mmap place) (.ofNat 64 i) = false :=
    fun i hi => mem_freelist_iff.mp (List.mem_of_mem_take hi)
  refine ⟨hlists, ?_, ?_, hlists.next htotal⟩
  · refine List.Nodup.map_on (fun i hi j hj hij => ?_) (hsort.imp ne_of_lt).take
    have hi' := (hmem i hi).1
    have hj' := (hmem j hj).1
    have hnat := congrArg BitVec.toNat hij
    simp only [pageAddr, pageSize, BitVec.toNat_mul, BitVec.toNat_ofNat] at hnat
    omega
  · intro page hp
    obtain ⟨i, hi, rfl⟩ := List.mem_map.mp hp
    exact h.not_overlaps (hlow _ hp) (hmem i hi).2

/-- A machine of 8 MiB, at its first allocation. -/
theorem alloc_run_lowest_free_flat :
    ∃ s, bootstrapPmm pcImage pcModule flatMmap (fun _ => 0) = some s ∧
      ∀ page s', pmmAllocPage s = some (page, s') →
        ∃ i, IsLeast {j | OnFree s j} i ∧ page.toNat = pageSize * i := by
  have hplace : PlacedLow pcImage pcModule flatMmap 0x9000 :=
    ⟨by decide +kernel, by decide +kernel⟩
  obtain ⟨s, hs, hrun⟩ := alloc_run_lowest_free hplace fun _ => 0
  exact ⟨s, hs, (hrun 0 [] s rfl fun _ hp => absurd hp List.not_mem_nil).2.2.2.2⟩

end CxKernel.Loader
