import CxKernel.Lib.Runs
import CxKernel.Proofs.Handoff
import CxKernel.Proofs.Main
import CxKernel.Proofs.PageConservation
import CxKernel.Proofs.Placement

/-! From the loader's page allocator to the kernel's. What `main` leaves free is the kernel's
free list, and whatever the kernel's allocator is asked for, it deals in nothing else. -/

namespace CxKernel.Pmm

open LinkedList Runs

variable {s : Callers} {σ : PageList → List (BitVec 64)} {pages : List (BitVec 64)}

/-- A list that is filled while it has pages loses them, and the account is of the others. -/
theorem Accounts.refill (h : Accounts pages s σ) {l : PageList} (hl : l ≠ .freelist)
    (count : BitVec 32) :
    ∃ lists', s.step (.allocPages count l) = some { s with lists := lists' } ∧
      Accounts (pages.filter (· ∉ σ l)) { s with lists := lists' } (allocSeqs count.toNat l σ) := by
  obtain ⟨lists', hstep, hrep⟩ := step_allocPages h hl count
  refine ⟨lists', hstep, hrep, h.held, fun page hp hon => ?_, fun page => ?_⟩
  · obtain ⟨j, -, hj⟩ := (onSome_allocSeqs hl count.toNat).mp hon
    exact h.apart page hp ⟨j, hj⟩
  · rw [List.mem_filter, decide_eq_true_eq, onSome_allocSeqs hl, h.all]
    refine ⟨?_, ?_⟩
    · rintro ⟨hheld | ⟨j, hj⟩, hnot⟩
      · exact Or.inl hheld
      · exact Or.inr ⟨j, fun he => hnot (he ▸ hj), hj⟩
    · rintro (hheld | ⟨j, hjl, hj⟩)
      · exact ⟨Or.inl hheld, fun hin => h.apart page hheld ⟨l, hin⟩⟩
      · exact ⟨Or.inr ⟨j, hj⟩, fun hin => hjl (h.lists.disjoint j l page hj hin)⟩

/-- No call brings a page in. -/
theorem Accounts.step_subset (h : Accounts pages s σ) {c : Call} (hc : s.Legal c) :
    ∃ s' pages' σ', s.step c = some s' ∧ pages' ⊆ pages ∧ Accounts pages' s' σ' := by
  cases c with
  | allocPages count l =>
    obtain ⟨lists', hstep, h'⟩ := h.refill hc count
    exact ⟨_, _, _, hstep, List.filter_subset_self _, h'⟩
  | allocSingle =>
    obtain ⟨s', σ', hstep, h'⟩ := h.allocSingle
    exact ⟨s', pages, σ', hstep, List.Subset.refl _, h'⟩
  | freePages l =>
    obtain ⟨s', σ', hstep, h'⟩ := h.freePages hc
    exact ⟨s', pages, σ', hstep, List.Subset.refl _, h'⟩
  | freeSingle page =>
    obtain ⟨s', σ', hstep, h'⟩ := h.freeSingle hc
    exact ⟨s', pages, σ', hstep, List.Subset.refl _, h'⟩

theorem Accounts.run_subset (h : Accounts pages s σ) {calls : List Call}
    (hlegal : s.AlongRun Callers.Legal calls) :
    ∃ s' pages' σ', run Callers.step s calls = some s' ∧ pages' ⊆ pages ∧
      Accounts pages' s' σ' := by
  induction calls generalizing s pages σ with
  | nil => exact ⟨s, pages, σ, rfl, List.Subset.refl _, h⟩
  | cons c cs ih =>
    obtain ⟨s₁, pages₁, σ₁, hstep, hsub, h₁⟩ := h.step_subset hlegal.1
    obtain ⟨s', pages', σ', hrun, hsub', h'⟩ := ih h₁ (hlegal.2 s₁ hstep)
    exact ⟨s', pages', σ', run_cons.mpr ⟨s₁, hstep, hrun⟩, List.Subset.trans hsub' hsub, h'⟩

theorem Accounts.mem_of_at (h : Accounts pages s σ) {page : BitVec 64} {place : Place}
    (hat : s.At page place) : page ∈ pages := by
  cases place with
  | on l => exact (h.all page).mpr (Or.inr ⟨l, h.at_on_iff.mp hat⟩)
  | held => exact (h.all page).mpr (Or.inl hat)

/-- The end of a run keeps the account its states keep. -/
theorem ConservedAlong.after_run {calls : List Call} {s' : Callers}
    (h : ConservedAlong pages s calls) (hrun : run Callers.step s calls = some s') :
    Conserved pages s' := by
  induction calls generalizing s with
  | nil => exact Option.some.inj hrun ▸ h
  | cons c cs ih =>
    obtain ⟨-, s₁, hstep, h₁⟩ := h
    obtain ⟨s₂, hstep₂, hrun⟩ := run_cons.mp hrun
    obtain rfl := Option.some.inj (hstep.symm.trans hstep₂)
    exact ih h₁ hrun

end CxKernel.Pmm

namespace CxKernel.Loader

open LinkedList Paging Runs Handoff Pmm

/-! What is handed over. -/

/-- What `main` hands over, with the lists as they lie in memory. -/
def handOver (s : Globals) : LoaderState × PfnDb :=
  handoff s.pfndbArr s.totalPhysPgs (layoutDb s.pfndbArr s.pool) (layoutHeads s.pfndbArr s.pool)

/-- The kernel's allocator before the first call. -/
def entryCallers (s : Globals) : Callers where
  lists := kernelLists (handOver s).1 (handOver s).2
  held := []

section HandOver

variable {s : Globals} {σ : PfnList → List ℕ}

theorem start_entryCallers
    (h : ValidDb s.pfndbArr s.totalPhysPgs.toNat (layoutDb s.pfndbArr s.pool)
      (layoutHeads s.pfndbArr s.pool) σ) :
    Start ((σ .freelist).map (descAddr kernelPfndbBase)) (entryCallers s) := by
  refine ⟨⟨fun l => ?_, fun l l' page hp hp' => ?_⟩, rfl⟩
  · cases l with
    | freelist => exact h.isList_handed .freelist
    | _ => exact isList_new _
  · have honly : ∀ {l : PageList}, page ∈ Function.update (fun _ => []) PageList.freelist
        ((σ .freelist).map (descAddr kernelPfndbBase)) l → l = .freelist := by
      intro l hl
      by_contra hne
      rw [Function.update_of_ne hne] at hl
      cases hl
    rw [honly hp, honly hp']

end HandOver

section Boot

variable {img : Image} {module : ModuleTag} {mmap : MmapTag} {mem : PhysMem} {phdrs : List Phdr}
  {place : BitVec 64} {s₀ s₁ s' s : Globals}

/-- The null page is reserved, so the database is not put there. -/
theorem Machine.pfndbArr_ne_zero (hm : Machine img module mmap place)
    (hb : Booted img module.range mmap mem place s₀)
    (hpos : 0 < (totalPages mmap.entries).toNat) : s₀.pfndbArr ≠ 0 := by
  have hlow := hm.placed.low
  have hbytes := toNat_pfndbBytes mmap.entries
  have hsmall : (pfndbBytes mmap.entries).toNat ≤ 2 ^ 32 := by omega
  have hpages := toNat_pfndbPages hsmall
  obtain ⟨base, limit, hrun⟩ := earlyPmmAllocCts_searchRun hm.placed.found
  have hzero : isPageReserved (reservedMemory img (mmapRange mmap) module.range) (.ofNat 64 0) =
      true := by
    rw [reservedMemory, isPageReserved, List.any_cons]
    exact Bool.or_eq_true_iff.mpr (Or.inl (by decide))
  rw [sizeofPage] at hbytes
  have hplace := searchRun_ne_zero hzero (by omega) (by omega) hrun
  intro harr
  have hnat : place.toNat % 2 ^ 32 = 0 := by
    rw [← BitVec.toNat_setWidth, ← hb.arr, harr]
    rfl
  refine hplace (BitVec.eq_of_toNat_eq ?_)
  rw [show (0 : BitVec 64).toNat = 0 from rfl]
  omega

theorem BootRun.sameDb (he : LegalElf module phdrs)
    (hrun : BootRun img module mmap mem phdrs s₀ s₁ s' s) : SameDb s₀ s := by
  obtain ⟨u, hstack, hdb⟩ := Option.bind_eq_some_iff.mp hrun.finish
  rw [mapPfndb, ← run_eq_foldlM] at hdb
  exact ((hrun.toMainRun.sameDb he).trans (mapStack_sameDb hstack)).trans
    (sameDb_run (fun _ _ _ => mapPage_sameDb) hdb)

/-- The database that is handed over is a valid one. -/
theorem BootRun.validDb (he : LegalElf module phdrs) (hm : Machine img module mmap place)
    (hrun : BootRun img module mmap mem phdrs s₀ s₁ s' s) :
    ∃ σ, Represents s.pool σ ∧ (σ .freelist).Pairwise (· < ·) ∧
      ValidDb s.pfndbArr s.totalPhysPgs.toNat (layoutDb s.pfndbArr s.pool)
        (layoutHeads s.pfndbArr s.pool) σ := by
  obtain ⟨place', hplace, hb⟩ := bootstrapPmm_booted hrun.boot
  obtain rfl := Option.some.inj (hm.placed.found.symm.trans hplace)
  have hsame := hrun.sameDb he
  have hstart : PageLists (totalPages mmap.entries).toNat s₀ :=
    ⟨_, hb.pool, sorted_partition _ _, List.pairwise_lt_range.sublist List.filter_sublist⟩
  have hpos : 0 < (totalPages mmap.entries).toNat := by
    obtain ⟨⟨ret, t⟩, hset, -⟩ := Option.bind_eq_some_iff.mp hrun.paging
    obtain ⟨⟨page, t₁⟩, halloc, -⟩ := Option.bind_eq_some_iff.mp hset
    obtain ⟨i, htakes, -⟩ := pmmAllocPage_takes ⟨_, hb.pool⟩ halloc
    have hlt := (mem_freelist_iff.mp ((onFree_iff hb.pool i).mp htakes.free)).1
    omega
  obtain ⟨σ, hσ, hperm, hsort⟩ := hsame.lists _ hstart
  refine ⟨σ, hσ, hsort, validDb_layout hσ ?_ ?_ ?_⟩
  · rw [hsame.arr]
    exact hm.pfndbArr_ne_zero hb hpos
  · have hlow := hm.placed.low
    have hle := Nat.mod_le place.toNat (2 ^ 32)
    rw [toNat_pfndbBytes] at hlow
    rw [Fits, hsame.arr, hsame.total, hb.arr, hb.pages, BitVec.toNat_setWidth]
    omega
  · rw [hsame.total, hb.pages]
    exact hperm

/-- The pages of the database were never free, and nothing was written there but the lists. -/
theorem BootRun.intact (he : LegalElf module phdrs) (hm : Machine img module mmap place)
    (hrun : BootRun img module mmap mem phdrs s₀ s₁ s' s) {a : ℕ} (hlo : s.pfndbArr.toNat ≤ a)
    (hhi : a < s.pfndbArr.toNat + s.pfndbSzPgs.toNat * pageSize) : s.mem a = mem a := by
  obtain ⟨place', hplace, hb⟩ := bootstrapPmm_booted hrun.boot
  obtain rfl := Option.some.inj (hm.placed.found.symm.trans hplace)
  have hpages := bootstrapPmm_pages hrun.boot
  have hsame := hrun.sameDb he
  have hdb := hm.dbFits hb hpages
  have haligned := hdb.aligned
  have hlow := hdb.low
  rw [hsame.arr] at hlo hhi
  rw [hsame.pages] at hhi
  have hpage : a / pageSize =
      (dbFrame s₀.pfndbArr ((a - s₀.pfndbArr.toNat) / pageSize)).toNat := by
    rw [dbFrame, BitVec.toNat_ofNat]
    rw [pageSize] at *
    omega
  have hin : (a - s₀.pfndbArr.toNat) / pageSize < s₀.pfndbSzPgs.toNat := by
    rw [pageSize] at *
    omega
  exact ((hrun.kept he hm hb).kept _ (hm.not_onFree hb hpages hin)).2 a hpage

/-- Page `n` is left free by `main`, holds no page table and is mapped nowhere above the first
2 MiB. -/
def Unused (s : Globals) (n : ℕ) : Prop :=
  OnFree s n ∧ NoTable s n ∧
    ∀ v, Mappable v → 0x200000 ≤ v.toNat → translated s v ≠ some (.ofNat 40 n)

/-- What the kernel makes of the page database: `main` has written nothing over it, its assertions
hold, its free list is what `main` left free, and over any run of its allocator a page that is on
a list or in a caller's hand is one of these; no call asserts, and if lists are only filled when
they are empty, none is lost. `mem` is what the loader was started with. -/
structure KernelPages (mem : PhysMem) (s : Globals) : Prop where
  intact : ∀ a, s.pfndbArr.toNat ≤ a → a < s.pfndbArr.toNat + s.pfndbSzPgs.toNat * pageSize →
    s.mem a = mem a
  check : kernelEntryCheck (handOver s).1 (handOver s).2 = some true
  free : ∃ ns : List ℕ, ns.Pairwise (· < ·) ∧ (∀ n, n ∈ ns ↔ OnFree s n) ∧
    visit (entryCallers s).lists.links ((entryCallers s).lists.lists .freelist) =
      some (ns.map (descAddr kernelPfndbBase))
  run : ∀ calls, (entryCallers s).AlongRun Callers.Legal calls →
    ∃ k, run Callers.step (entryCallers s) calls = some k ∧
      (∀ page place, k.At page place → ∃ n, page = descAddr kernelPfndbBase n ∧ Unused s n) ∧
      ((entryCallers s).AlongRun AllocsEmpty calls →
        ∀ n, OnFree s n → ∃! place, k.At (descAddr kernelPfndbBase n) place)

end Boot

end CxKernel.Loader
