import CxKernel.Proofs.ListPool
import CxKernel.Spec.Loader

/-! The page lists the loader starts with. Every page below the highest available
address goes onto one of the two lists by the reserved ranges alone. -/

namespace CxKernel.Loader

open LinkedList Paging

/-! The test of a page. -/

/-- Address `a` is in the range, and not its last byte. -/
def Range.Before (r : Range) (a : ℕ) : Prop := r.beginAddr.toNat ≤ a ∧ a < r.endAddr.toNat

theorem isIn_iff {ptr : BitVec 32} {r : Range} :
    isIn ptr r = true ↔ r.Before ptr.toNat := by
  have hptr : (ptr.setWidth 64).toNat = ptr.toNat := BitVec.toNat_setWidth_of_le (by decide)
  rw [isIn, Bool.and_eq_true, decide_eq_true_iff, decide_eq_true_iff, ge_iff_le, BitVec.le_def,
    BitVec.lt_def, hptr]
  rfl

theorem toNat_probe (page : BitVec 64) :
    ((page * .ofNat 64 pageSize).setWidth 32).toNat = page.toNat * pageSize % 2 ^ 32 := by
  rw [BitVec.toNat_setWidth, BitVec.toNat_mul, Nat.mod_mod_of_dvd _ (by decide)]
  rfl

theorem toNat_nextProbe (page : BitVec 64) :
    (((page + 1) * .ofNat 64 pageSize).setWidth 32).toNat =
      (page.toNat + 1) * pageSize % 2 ^ 32 := by
  rw [toNat_probe, BitVec.toNat_add, show (1 : BitVec 64).toNat = 1 from rfl, pageSize]
  omega

theorem isPageReserved_iff {reserved : List Range} {page : BitVec 64} :
    isPageReserved reserved page = true ↔ ∃ r ∈ reserved,
      r.Before (page.toNat * pageSize % 2 ^ 32) ∨
        r.Before ((page.toNat + 1) * pageSize % 2 ^ 32) := by
  rw [isPageReserved, List.any_eq_true]
  refine exists_congr fun r => and_congr_right fun _ => ?_
  rw [Bool.or_eq_true, isIn_iff, isIn_iff, toNat_probe, toNat_nextProbe]

/-! Sorting pages onto the lists. -/

/-- The list page `i` is put on. -/
def listOf (reserved : List Range) (i : ℕ) : PfnList :=
  if isPageReserved reserved (.ofNat 64 i) then .rsrvlist else .freelist

/-- What the lists hold once the pages in `l` are sorted. -/
def sorted (reserved : List Range) (l : List ℕ) (j : PfnList) : List ℕ :=
  l.filter fun i => listOf reserved i = j

theorem classifyPage_eq (reserved : List Range) (pool : Pool PfnList ℕ) (i : ℕ) :
    classifyPage reserved pool i = pool.pushBack (listOf reserved i) i := by
  unfold classifyPage listOf
  split <;> rfl

theorem mem_sorted {reserved : List Range} {l : List ℕ} {j : PfnList} {i : ℕ} :
    i ∈ sorted reserved l j ↔ i ∈ l ∧ listOf reserved i = j := by
  simp [sorted]

theorem sorted_append_singleton (reserved : List Range) (l : List ℕ) (i : ℕ) :
    sorted reserved (l ++ [i]) = Function.update (sorted reserved l) (listOf reserved i)
      (sorted reserved l (listOf reserved i) ++ [i]) := by
  funext j
  by_cases hj : j = listOf reserved i
  · subst hj
    simp [sorted]
  · simp [sorted, hj, Ne.symm hj]

theorem length_sorted (reserved : List Range) (l : List ℕ) :
    (sorted reserved l .freelist).length + (sorted reserved l .rsrvlist).length = l.length := by
  induction l with
  | nil => rfl
  | cons i l ih =>
    simp only [sorted] at ih ⊢
    cases h : listOf reserved i <;> simp [h] <;> omega

theorem sorted_partition (reserved : List Range) (l : List ℕ) :
    (sorted reserved l .freelist ++ sorted reserved l .rsrvlist).Perm l := by
  have hnot : ∀ i, decide (listOf reserved i = .rsrvlist) =
      !decide (listOf reserved i = .freelist) := by
    intro i
    cases listOf reserved i <;> rfl
  simp only [sorted, hnot]
  exact List.filter_append_perm _ l

/-- One turn of the loop takes the pages below `n` to the pages below `n + 1`. -/
theorem classifyPage_range {reserved : List Range} {pool : Pool PfnList ℕ} {n : ℕ}
    (h : Represents pool (sorted reserved (List.range n))) :
    ∃ pool', classifyPage reserved pool n = some pool' ∧
      Represents pool' (sorted reserved (List.range (n + 1))) := by
  have hfresh : ∀ j, n ∉ sorted reserved (List.range n) j := fun j hn => by
    simpa using (mem_sorted.mp hn).1
  rw [classifyPage_eq, List.range_succ, sorted_append_singleton]
  exact h.pushBack _ hfresh

theorem foldlM_classifyPage (reserved : List Range) {pool : Pool PfnList ℕ}
    (h : Represents pool fun _ => []) (n : ℕ) :
    ∃ pool', (List.range n).foldlM (classifyPage reserved) pool = some pool' ∧
      Represents pool' (sorted reserved (List.range n)) := by
  induction n with
  | zero => exact ⟨pool, rfl, h⟩
  | succ n ih =>
    obtain ⟨p, hp, hrep⟩ := ih
    obtain ⟨p', hp', hrep'⟩ := classifyPage_range hrep
    exact ⟨p', by simp [List.range_succ, List.foldlM_append, hp, hp'], hrep'⟩

theorem pfnListSize_eq {pool : Pool PfnList ℕ} {σ : PfnList → List ℕ} (h : Represents pool σ)
    (j : PfnList) : pfnListSize pool j = some (.ofNat 32 (σ j).length) := by
  simp [pfnListSize, (h.lists j).size_eq]

/-- The check at the end of `bootstrap_pmm`, for as many pages as 32 bits count. -/
theorem count_sorted {reserved : List Range} {pages : BitVec 64} (hpages : pages.toNat < 2 ^ 32) :
    (BitVec.ofNat 32 (sorted reserved (List.range pages.toNat) .freelist).length +
      BitVec.ofNat 32 (sorted reserved (List.range pages.toNat) .rsrvlist).length).setWidth 64 =
      pages := by
  rw [← BitVec.ofNat_add, length_sorted, List.length_range]
  apply BitVec.eq_of_toNat_eq
  simp only [BitVec.toNat_setWidth, BitVec.toNat_ofNat]
  omega

/-- The ranges in force while pages are sorted, for a database placed at `place`. -/
def rangesInForce (img : Image) (res : Range) (mmap : MmapTag) (place : BitVec 64) : List Range :=
  pfndbReserved img res (place.setWidth 32) (pfndbBytes mmap.entries)

/-- What the loader starts with. -/
structure Booted (img : Image) (res : Range) (mmap : MmapTag) (mem : PhysMem) (place : BitVec 64)
    (s : Globals) : Prop where
  pool : Represents s.pool
    (sorted (rangesInForce img res mmap place) (List.range (totalPages mmap.entries).toNat))
  arr : s.pfndbArr = place.setWidth 32
  pages : s.totalPhysPgs = totalPages mmap.entries
  mem : s.mem = mem

theorem bootstrapPmm_booted {img : Image} {res : Range} {mmap : MmapTag} {mem : PhysMem}
    {s : Globals} (h : bootstrapPmm img res mmap mem = some s) :
    ∃ place, pfndbPlace img res mmap = some place ∧ Booted img res mmap mem place s := by
  obtain ⟨place, hplace, h⟩ := Option.bind_eq_some_iff.mp h
  obtain ⟨pool, hpool, hrep⟩ := foldlM_classifyPage (rangesInForce img res mmap place)
    (represents_new ⟨fun _ => none, fun _ => none⟩) (totalPages mmap.entries).toNat
  refine ⟨place, hplace, ?_⟩
  simp only [rangesInForce, Pool.new] at hpool
  simp only [hpool, Option.bind_eq_bind, Option.bind_some, pfnListSize_eq hrep] at h
  split at h
  · cases h
  · cases h
    exact ⟨hrep, rfl, rfl, rfl⟩

/-- Where the database finds a place and its pages can be counted in 32 bits, the
loader does start. -/
theorem exists_bootstrapPmm {img : Image} {res : Range} {mmap : MmapTag} (mem : PhysMem)
    {place : BitVec 64} (hplace : pfndbPlace img res mmap = some place)
    (hpages : (totalPages mmap.entries).toNat < 2 ^ 32) :
    ∃ s, bootstrapPmm img res mmap mem = some s := by
  obtain ⟨pool, hpool, hrep⟩ := foldlM_classifyPage (rangesInForce img res mmap place)
    (represents_new ⟨fun _ => none, fun _ => none⟩) (totalPages mmap.entries).toNat
  simp only [rangesInForce, Pool.new] at hpool
  simp [bootstrapPmm, hplace, hpool, pfnListSize_eq hrep, count_sorted hpages]

/-! Which of those pages are usable memory. -/

/-- The byte at `a` belongs to an available entry. -/
def AvailableByte (entries : List MmapEntry) (a : ℕ) : Prop :=
  ∃ e ∈ entries, e.type = memoryAvailable ∧ e.addr.toNat ≤ a ∧ a < e.addr.toNat + e.len.toNat

/-- Every page a walk over the free list meets lies wholly inside available entries. -/
def FreelistUsable (entries : List MmapEntry) (s : Globals) : Prop :=
  ∃ free, visit s.pool.links (s.pool.lists .freelist) = some free ∧
    ∀ i ∈ free, ∀ a, a / pageSize = i → AvailableByte entries a

/-- Every byte below the top that no available entry covers is in a page the
reserved ranges catch. -/
def HolesReserved (img : Image) (res : Range) (mmap : MmapTag) : Prop :=
  ∀ place, pfndbPlace img res mmap = some place →
    ∀ a, a / pageSize < (totalPages mmap.entries).toNat → ¬ AvailableByte mmap.entries a →
      isPageReserved (rangesInForce img res mmap place) (.ofNat 64 (a / pageSize))

theorem Booted.visit_freelist {img : Image} {res : Range} {mmap : MmapTag} {mem : PhysMem}
    {place : BitVec 64} {s : Globals} (h : Booted img res mmap mem place s) :
    visit s.pool.links (s.pool.lists .freelist) = some (sorted (rangesInForce img res mmap place)
      (List.range (totalPages mmap.entries).toNat) .freelist) :=
  (h.pool.lists .freelist).visit_eq

theorem mem_freelist_iff {reserved : List Range} {n i : ℕ} :
    i ∈ sorted reserved (List.range n) .freelist ↔
      i < n ∧ isPageReserved reserved (.ofNat 64 i) = false := by
  rw [mem_sorted, List.mem_range]
  unfold listOf
  cases isPageReserved reserved (.ofNat 64 i) <;> simp

/-- The pages above all ranges are free. -/
theorem le_length_freelist {reserved : List Range} {lo n : ℕ} (hn : n < 2 ^ 20)
    (habove : ∀ r ∈ reserved, r.endAddr.toNat ≤ lo * pageSize) :
    n - lo ≤ (sorted reserved (List.range n) .freelist).length := by
  have hsub : List.range' lo (n - lo) ⊆ sorted reserved (List.range n) .freelist := by
    intro i hi
    obtain ⟨hlo, hhi⟩ := List.mem_range'_1.mp hi
    refine mem_freelist_iff.mpr ⟨by omega, Bool.eq_false_iff.mpr fun hres => ?_⟩
    obtain ⟨r, hr, hprobe⟩ := isPageReserved_iff.mp hres
    have hend := habove r hr
    rw [BitVec.toNat_ofNat] at hprobe
    unfold Range.Before at hprobe
    rw [pageSize] at *
    omega
  have hle := (List.subperm_of_subset List.nodup_range' hsub).length_le
  rwa [List.length_range'] at hle

theorem Booted.holesReserved {img : Image} {res : Range} {mmap : MmapTag} {mem : PhysMem}
    {place : BitVec 64} {s : Globals} (h : Booted img res mmap mem place s)
    (hplace : pfndbPlace img res mmap = some place) (hu : FreelistUsable mmap.entries s) :
    HolesReserved img res mmap := by
  obtain ⟨free, hvisit, hfree⟩ := hu
  rw [h.visit_freelist, Option.some_inj] at hvisit
  subst hvisit
  intro place' hplace' a ha hhole
  rw [hplace, Option.some_inj] at hplace'
  subst hplace'
  by_contra hres
  exact hhole (hfree _ (mem_freelist_iff.mpr ⟨ha, by simpa using hres⟩) a rfl)

theorem Booted.freelistUsable {img : Image} {res : Range} {mmap : MmapTag} {mem : PhysMem}
    {place : BitVec 64} {s : Globals} (h : Booted img res mmap mem place s)
    (hplace : pfndbPlace img res mmap = some place) (hh : HolesReserved img res mmap) :
    FreelistUsable mmap.entries s := by
  refine ⟨_, h.visit_freelist, fun i hi a ha => ?_⟩
  obtain ⟨hlt, hres⟩ := mem_freelist_iff.mp hi
  by_contra hhole
  have hin := hh place hplace a (ha ▸ hlt) hhole
  rw [ha, hres] at hin
  exact Bool.false_ne_true hin

/-- The free list is made of usable memory exactly when the reserved ranges happen to
catch every hole of the memory map. -/
theorem freelist_usable_iff {img : Image} {res : Range} {mmap : MmapTag} {mem : PhysMem}
    {s : Globals} (h : bootstrapPmm img res mmap mem = some s) :
    FreelistUsable mmap.entries s ↔ HolesReserved img res mmap := by
  obtain ⟨place, hplace, hb⟩ := bootstrapPmm_booted h
  exact ⟨hb.holesReserved hplace, hb.freelistUsable hplace⟩

def pcImage : Image := ⟨0x100000, 0x110000⟩

def pcModule : Range := ⟨0x120000, 0x13FFFF⟩

/-- Memory without a hole. -/
def flatMmap : MmapTag := ⟨0x8000, 40, [⟨0, 0x800000, memoryAvailable⟩]⟩

theorem freelist_usable_iff_flat :
    ∃ s, bootstrapPmm pcImage pcModule flatMmap (fun _ => 0) = some s ∧
      FreelistUsable flatMmap.entries s := by
  have hplace : pfndbPlace pcImage pcModule flatMmap = some 0x9000 := by decide +kernel
  have hpages : (totalPages flatMmap.entries).toNat = 0x800 := by decide +kernel
  obtain ⟨s, hs⟩ := exists_bootstrapPmm (fun _ => 0) hplace (by omega)
  refine ⟨s, hs, (freelist_usable_iff hs).mpr fun place _ a ha hhole => ?_⟩
  rw [hpages, pageSize] at ha
  have hlt : a < 0x800000 := by omega
  exact absurd ⟨_, List.mem_singleton_self _, rfl, Nat.zero_le _, by simpa using hlt⟩ hhole

/-- A PC's memory map: low memory, the hole above it that video memory is in, the
firmware, extended memory. -/
def pcMmap : MmapTag := ⟨0x8000, 88, [⟨0, 0xA0000, memoryAvailable⟩, ⟨0xF0000, 0x10000, 2⟩,
  ⟨0x100000, 0x700000, memoryAvailable⟩]⟩

/-- Page `0xA0`, in the hole, is handed out as free. -/
theorem hole_on_freelist :
    (pcMmap.entries.Pairwise fun a b => a.addr.toNat + a.len.toNat ≤ b.addr.toNat) ∧
    ∃ s, bootstrapPmm pcImage pcModule pcMmap (fun _ => 0) = some s ∧
      ¬ FreelistUsable pcMmap.entries s := by
  have hplace : pfndbPlace pcImage pcModule pcMmap = some 0x9000 := by decide +kernel
  have hpages : (totalPages pcMmap.entries).toNat = 0x800 := by decide +kernel
  obtain ⟨s, hs⟩ := exists_bootstrapPmm (fun _ => 0) hplace (by omega)
  refine ⟨by decide, s, hs, fun hu => ?_⟩
  obtain ⟨place, hplace', hb⟩ := bootstrapPmm_booted hs
  obtain rfl : 0x9000 = place := Option.some_inj.mp (hplace.symm.trans hplace')
  have hhole : ¬ AvailableByte pcMmap.entries 0xA0000 := by
    simp [AvailableByte, pcMmap, memoryAvailable]
  have hres := hb.holesReserved hplace hu _ hplace 0xA0000 (by rw [hpages]; decide) hhole
  exact absurd hres (by decide +kernel)

end CxKernel.Loader
