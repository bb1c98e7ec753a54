import CxKernel.Proofs.LoadLoop

/-! The kernel in memory against its ELF file. The loop copies whole pages out of the
file, so what follows a segment's data in memory ends up where zeros belong. -/

namespace CxKernel.Loader

open LinkedList Paging WordBytes Runs

/-- The bytes of a page of a segment read as the file has them. -/
def JobLoaded (module : ModuleTag) (mem : PhysMem) (s : Globals) (j : Job) : Prop :=
  ∀ k < pageSize, j.2.toNat + k < j.1.pMemsz.toNat →
    readVirt s (jobVirt j + .ofNat 64 k) = some (imageByte module mem j.1 (j.2.toNat + k))

/-- What the copy of a page reads past the data of the segment is zero by then. -/
def ZeroTail (image : BitVec 32) (s : Globals) (j : Job) : Prop :=
  ∀ page s₁ s₂, pmmAllocPage s = some (page, s₁) →
    mapPage s₁ page (jobVirt j) loadFlags = some s₂ →
    ∀ k < pageSize, j.1.pFilesz.toNat ≤ j.2.toNat + k → j.2.toNat + k < j.1.pMemsz.toNat →
      byteAt 8 s₂.mem ((copySource image j).toNat + k) = 0

/-- So it is in the file already. -/
def ZeroInFile (image : BitVec 32) (mem : PhysMem) (j : Job) : Prop :=
  ∀ k < pageSize, j.1.pFilesz.toNat ≤ j.2.toNat + k → j.2.toNat + k < j.1.pMemsz.toNat →
    byteAt 8 mem ((copySource image j).toNat + k) = 0

/-- What is read behind the data is among the pages `F`. -/
def TailIn (image : BitVec 32) (F : ℕ → Prop) (j : Job) : Prop :=
  ∀ k < pageSize, j.1.pFilesz.toNat ≤ j.2.toNat + k → j.2.toNat + k < j.1.pMemsz.toNat →
    F (((copySource image j).toNat + k) / pageSize)

/-- A state on the way to `s'`, with the pages `js` still to load. The pages `F` of memory,
with the file's data among them, are as they were in `mem` and remain so. -/
structure Loading (module : ModuleTag) (phdrs : List Phdr) (mem : PhysMem) (F : ℕ → Prop)
    (s s' : Globals) (js : List Job) : Prop where
  inv : Inv s
  pages : ∀ j ∈ js, PageJob phdrs j
  sized : ∀ j ∈ js, j.1.pFilesz ≠ j.1.pMemsz → j.1.pMemsz.toNat < 2 ^ 32
  apart : js.Pairwise fun j j' => jobVirt j >>> 12 ≠ jobVirt j' >>> 12
  unmapped : ∀ j ∈ js, translated s (jobVirt j) = none
  data : ∀ q, FilePage module phdrs q → F q
  kept : ∀ q, F q → NoTable s q ∧ ∀ a, a / pageSize = q → s.mem a = mem a
  low : ∀ n, HandsOut s s' n → n < 2 ^ 20 ∧ ¬ F n

section Loading

variable {module : ModuleTag} {phdrs : List Phdr} {mem : PhysMem} {F : ℕ → Prop}
  {s s₁ s' : Globals} {j : Job} {js : List Job} (he : LegalElf module phdrs)

/-- What the loop takes before it ends is fit to be taken. -/
theorem Loading.taken {t : Globals} (hl : Loading module phdrs mem F s s' js)
    (hfree : ∀ n, OnFree s' n → OnFree t n) {n : ℕ} (hn : HandsOut s t n) : n < 2 ^ 20 ∧ ¬ F n :=
  hl.low n (hn.widen (fun _ hk => hk) hfree)

/-- A byte that is kept is in place in a state that comes next. -/
theorem Loading.keptByte {t : Globals} (hl : Loading module phdrs mem F s s' js)
    (hgrows : Grows s t) (hfree : ∀ n, OnFree s' n → OnFree t n) {a : ℕ}
    (ha : F (a / pageSize)) : byteAt 8 t.mem a = byteAt 8 mem a := by
  obtain ⟨htable, hmem⟩ := hl.kept _ ha
  have hkept : ¬ HandsOut s t (a / pageSize) := fun hn => (hl.taken hfree hn).2 ha
  have hsame := (hgrows.keeps _ htable hkept).2
  exact byteAt_congr (fun b hb => (hsame b hb).trans (hmem b hb)) rfl

include he

theorem Loading.inPlace (hl : Loading module phdrs mem F s s' (j :: js))
    (hstep : loadPage module.modStart s j = some s₁) (hfree : ∀ n, OnFree s' n → OnFree s₁ n)
    (hsize : j.1.pFilesz = j.1.pMemsz) :
    ∃ f, PageDone s s₁ j f ∧ FilePage module phdrs f.toNat ∧ JobLoaded module mem s₁ j := by
  have hj := hl.pages j List.mem_cons_self
  obtain ⟨f, hdone, hf, hpage⟩ := loadPage_inPlace he hj hl.inv
    (hl.unmapped j List.mem_cons_self) hstep
    (fun n hn => (hl.taken hfree hn).1) hsize
    fun q hq => ⟨(hl.kept q (hl.data q hq)).1, fun hn => (hl.taken hfree hn).2 (hl.data q hq)⟩
  refine ⟨f, hdone, hpage, fun k hk hin => ?_⟩
  have hdata : f.toNat * pageSize + k =
      module.modStart.toNat + j.1.pOffset.toNat + (j.2.toNat + k) := by omega
  have hfile : j.2.toNat + k < j.1.pFilesz.toNat := hsize ▸ hin
  rw [readVirt_add (he.jobVirt_aligned hj) hdone.mapped hk, imageByte, if_pos hfile, hdata,
    hl.keptByte hdone.grows hfree (hl.data _ (hj.filePage hfile))]

theorem Loading.copy (hl : Loading module phdrs mem F s s' (j :: js))
    (hstep : loadPage module.modStart s j = some s₁) (hfree : ∀ n, OnFree s' n → OnFree s₁ n)
    (hsize : j.1.pFilesz ≠ j.1.pMemsz) :
    ∃ n s₂ s₃, n < 2 ^ 20 ∧ PageCopied module.modStart s s₁ j n s₂ s₃ := by
  have hlow : ∀ n, HandsOut s s₁ n → n < 2 ^ 20 := fun n hn => (hl.taken hfree hn).1
  obtain ⟨n, s₂, s₃, hcopy⟩ := loadPage_copied he (hl.pages j List.mem_cons_self) hl.inv
    (hl.unmapped j List.mem_cons_self) hstep hlow hsize (hl.sized j List.mem_cons_self hsize)
  exact ⟨n, s₂, s₃, hlow n hcopy.out, hcopy⟩

theorem Loading.copied (hl : Loading module phdrs mem F s s' (j :: js))
    (hstep : loadPage module.modStart s j = some s₁) (hfree : ∀ n, OnFree s' n → OnFree s₁ n)
    (hsize : j.1.pFilesz ≠ j.1.pMemsz) :
    ∃ f, PageDone s s₁ j f ∧ ¬ OnFree s₁ f.toNat ∧
      (JobLoaded module mem s₁ j ↔ ZeroTail module.modStart s j) := by
  have hj := hl.pages j List.mem_cons_self
  obtain ⟨n, s₂, s₃, hn, hcopy⟩ := hl.copy he hstep hfree hsize
  have hnat : (BitVec.ofNat 40 n).toNat = n := by
    rw [BitVec.toNat_ofNat, Nat.mod_eq_of_lt (by omega)]
  have hread : ∀ k < pageSize, readVirt s₁ (jobVirt j + .ofNat 64 k) =
      some (byteAt 8 s₃.mem ((copySource module.modStart j).toNat + k)) := by
    intro k hk
    rw [readVirt_add (he.jobVirt_aligned hj) hcopy.done.mapped hk, hnat, hcopy.bytes k hk]
  refine ⟨_, hcopy.done, hnat.symm ▸ hcopy.out.2, fun hloaded => ?_, fun hzero k hk hin => ?_⟩
  · intro page t₁ t₂ halloc hmap k hk hfile hin
    obtain ⟨rfl, rfl⟩ := Prod.mk.inj (Option.some.inj (hcopy.alloc.symm.trans halloc))
    obtain rfl := Option.some.inj (hcopy.map.symm.trans hmap)
    have hbyte := (hread k hk).symm.trans (hloaded k hk hin)
    rw [imageByte, if_neg (by omega)] at hbyte
    exact Option.some.inj hbyte
  · rw [hread k hk, imageByte]
    split
    · next hfile =>
      rw [(he.toNat_data hj hfile).1]
      exact congrArg some (hl.keptByte hcopy.grows (fun m hm => (hcopy.lists m).mp (hfree m hm))
        (hl.data _ (hj.filePage hfile)))
    · next hfile =>
      rw [hzero _ _ _ hcopy.alloc hcopy.map k hk (by omega) hin]

/-- A step of the loop: the page reads right exactly when the copy read zeros, and it
stays as it is. -/
theorem Loading.step (hl : Loading module phdrs mem F s s' (j :: js))
    (hstep : loadPage module.modStart s j = some s₁) (hfree : ∀ n, OnFree s' n → OnFree s₁ n) :
    ∃ f, PageDone s s₁ j f ∧ ¬ HandsOut s₁ s' f.toNat ∧
      (JobLoaded module mem s₁ j ↔ ZeroTail module.modStart s j) := by
  by_cases hsize : j.1.pFilesz = j.1.pMemsz
  · obtain ⟨f, hdone, hpage, hloaded⟩ := hl.inPlace he hstep hfree hsize
    refine ⟨f, hdone, fun hn => ?_, fun _ => ?_, fun _ => hloaded⟩
    · exact (hl.low _ (hn.widen hdone.grows.shrinks fun _ hk => hk)).2 (hl.data _ hpage)
    · intro _ _ _ _ _ k _ hfile hin
      rw [hsize] at hfile
      omega
  · obtain ⟨f, hdone, hout, hiff⟩ := hl.copied he hstep hfree hsize
    exact ⟨f, hdone, fun hn => hout hn.1, hiff⟩

theorem Loading.next (hl : Loading module phdrs mem F s s' (j :: js)) {f : BitVec 40}
    (hdone : PageDone s s₁ j f) (hfree : ∀ n, OnFree s' n → OnFree s₁ n) :
    Loading module phdrs mem F s₁ s' js := by
  obtain ⟨hapart, hrest⟩ := List.pairwise_cons.mp hl.apart
  refine ⟨hdone.inv, fun i hi => ?_, fun i hi => ?_, hrest, fun i hi => ?_, hl.data,
    fun q hq => ?_, ?_⟩
  · exact hl.pages i (List.mem_cons_of_mem _ hi)
  · exact hl.sized i (List.mem_cons_of_mem _ hi)
  · have hi' := List.mem_cons_of_mem j hi
    rw [hdone.other _ (he.mappable (hl.pages i hi')) (hapart i hi).symm]
    exact hl.unmapped i hi'
  · obtain ⟨htable, hmem⟩ := hl.kept q hq
    have hkept : ¬ HandsOut s s₁ q := fun hn => (hl.taken hfree hn).2 hq
    obtain ⟨htable', hsame⟩ := hdone.grows.keeps q htable hkept
    exact ⟨htable', fun a ha => (hsame a ha).trans (hmem a ha)⟩
  · exact fun n hn => hl.low n (hn.widen hdone.grows.shrinks fun _ hk => hk)

/-- What was loaded stays loaded. -/
theorem JobLoaded.iff_of_grows (hj : PageJob phdrs j) {f : BitVec 40} (hgrows : Grows s₁ s')
    (hmapped : translated s₁ (jobVirt j) = some f) (htable : NoTable s₁ f.toNat)
    (hout : ¬ HandsOut s₁ s' f.toNat) :
    JobLoaded module mem s' j ↔ JobLoaded module mem s₁ j := by
  have hread : ∀ k < pageSize, readVirt s' (jobVirt j + .ofNat 64 k) =
      readVirt s₁ (jobVirt j + .ofNat 64 k) := fun k =>
    hgrows.readVirt (he.mappable hj) (he.jobVirt_aligned hj) hmapped htable hout
  refine ⟨fun h k hk hin => ?_, fun h k hk hin => ?_⟩
  · rw [← hread k hk, h k hk hin]
  · rw [hread k hk, h k hk hin]

/-- A run of the loop: every page reads right in the end exactly when every copy read
zeros where it was made. -/
theorem Loading.run_iff (hl : Loading module phdrs mem F s s' js)
    (hrun : run (loadPage module.modStart) s js = some s') :
    Grows s s' ∧ ((∀ j ∈ js, JobLoaded module mem s' j) ↔
      AlongRun (loadPage module.modStart) (ZeroTail module.modStart) s js) := by
  induction js generalizing s with
  | nil =>
    obtain rfl := Option.some.inj hrun
    exact ⟨Grows.refl s, by simp [AlongRun]⟩
  | cons j js ih =>
    obtain ⟨s₁, hstep, hrun₁⟩ := run_cons.mp hrun
    have hs₁ := (shrinks_loadPage hl.inv.lists hstep).1
    obtain ⟨-, hfree⟩ := shrinks_loadPages hs₁.1 hrun₁
    obtain ⟨f, hdone, hout, hiff⟩ := hl.step he hstep hfree
    obtain ⟨hgrows, hrest⟩ := ih (hl.next he hdone hfree) hrun₁
    have hkept : JobLoaded module mem s' j ↔ JobLoaded module mem s₁ j :=
      JobLoaded.iff_of_grows he (hl.pages j List.mem_cons_self) hgrows hdone.mapped
        hdone.noTable hout
    refine ⟨hdone.grows.trans hgrows, ?_⟩
    rw [List.forall_mem_cons, alongRun_cons hstep, hkept, hiff, hrest]

theorem Loading.zeroTail_iff (hl : Loading module phdrs mem F s s' (j :: js))
    (hstep : loadPage module.modStart s j = some s₁) (hfree : ∀ n, OnFree s' n → OnFree s₁ n)
    (hF : TailIn module.modStart F j) :
    ZeroTail module.modStart s j ↔ ZeroInFile module.modStart mem j := by
  by_cases hsize : j.1.pFilesz = j.1.pMemsz
  · refine ⟨fun _ k _ hfile hin => ?_, fun _ _ _ _ _ _ k _ hfile hin => ?_⟩
    · rw [hsize] at hfile
      omega
    · rw [hsize] at hfile
      omega
  · obtain ⟨n, s₂, s₃, -, hcopy⟩ := hl.copy he hstep hfree hsize
    have hread : ∀ k < pageSize, j.1.pFilesz.toNat ≤ j.2.toNat + k →
        j.2.toNat + k < j.1.pMemsz.toNat →
        byteAt 8 s₃.mem ((copySource module.modStart j).toNat + k) =
          byteAt 8 mem ((copySource module.modStart j).toNat + k) := fun k hk hfile hin =>
      hl.keptByte hcopy.grows (fun m hm => (hcopy.lists m).mp (hfree m hm)) (hF k hk hfile hin)
    refine ⟨fun hzero k hk hfile hin => ?_, fun hzero page t₁ t₂ halloc hmap k hk hfile hin => ?_⟩
    · rw [← hread k hk hfile hin]
      exact hzero _ _ _ hcopy.alloc hcopy.map k hk hfile hin
    · obtain ⟨rfl, rfl⟩ := Prod.mk.inj (Option.some.inj (hcopy.alloc.symm.trans halloc))
      obtain rfl := Option.some.inj (hcopy.map.symm.trans hmap)
      rw [hread k hk hfile hin]
      exact hzero k hk hfile hin

/-- Where the pages copied are kept, the copies read zeros if the file has them. -/
theorem Loading.alongRun_iff (hl : Loading module phdrs mem F s s' js)
    (hrun : run (loadPage module.modStart) s js = some s')
    (hF : ∀ j ∈ js, TailIn module.modStart F j) :
    AlongRun (loadPage module.modStart) (ZeroTail module.modStart) s js ↔
      ∀ j ∈ js, ZeroInFile module.modStart mem j := by
  induction js generalizing s with
  | nil => simp [AlongRun]
  | cons j js ih =>
    obtain ⟨hj, hrest⟩ := List.forall_mem_cons.mp hF
    obtain ⟨s₁, hstep, hrun₁⟩ := run_cons.mp hrun
    have hs₁ := (shrinks_loadPage hl.inv.lists hstep).1
    obtain ⟨-, hfree⟩ := shrinks_loadPages hs₁.1 hrun₁
    obtain ⟨f, hdone, -⟩ := hl.step he hstep hfree
    rw [alongRun_cons hstep, List.forall_mem_cons, hl.zeroTail_iff he hstep hfree hj,
      ih (hl.next he hdone hfree) hrun₁ hrest]

end Loading

/-! From the start. -/

/-- `main` up to the end of the load loop: what it has after `bootstrap_pmm`, before the
loop and after it. -/
structure MainRun (img : Image) (module : ModuleTag) (mmap : MmapTag) (mem : PhysMem)
    (phdrs : List Phdr) (s₀ s s' : Globals) : Prop where
  boot : bootstrapPmm img module.range mmap mem = some s₀
  paging : startPaging s₀ = some s
  load : loadElf module.modStart phdrs s = some s'

/-- Every byte of every segment reads as the file has it. -/
def KernelImage (module : ModuleTag) (phdrs : List Phdr) (mem : PhysMem) (s : Globals) : Prop :=
  ∀ ph ∈ loads phdrs, ∀ k < ph.pMemsz.toNat,
    readVirt s (ph.pVaddr + .ofNat 64 k) = some (imageByte module mem ph k)

/-- A file is loaded when its pages are. -/
theorem kernelImage_iff_jobs {module : ModuleTag} {phdrs : List Phdr} {mem : PhysMem}
    {s : Globals} :
    KernelImage module phdrs mem s ↔ ∀ j ∈ jobs phdrs, JobLoaded module mem s j := by
  have hsplit : ∀ (v : BitVec 64) (i k : ℕ),
      v + .ofNat 64 i + .ofNat 64 k = v + .ofNat 64 (i + k) := fun v i k => by
    rw [BitVec.add_assoc, ← BitVec.ofNat_add]
  refine ⟨fun h j hj k hk hin => ?_, fun h ph hload k hk => ?_⟩
  · have hread := h j.1 (mem_jobs hj).load _ hin
    rw [← hsplit, BitVec.ofNat_toNat, BitVec.setWidth_eq] at hread
    exact hread
  · have hlt := ph.pMemsz.isLt
    have hnat := toNat_pageOffset (hk.trans hlt)
    have hsum : k / pageSize * pageSize + k % pageSize = k := Nat.div_add_mod' k pageSize
    have hread := h _ (jobs_cover hload hk) (k % pageSize) (Nat.mod_lt k (by decide))
    dsimp only [jobVirt] at hread
    rw [hsplit, hnat, hsum] at hread
    exact hread hk

section MainRun

variable {img : Image} {module : ModuleTag} {mmap : MmapTag} {mem : PhysMem} {phdrs : List Phdr}
  {s₀ s s' : Globals}

theorem MainRun.loading {F : ℕ → Prop} (he : LegalElf module phdrs)
    (hm : MainRun img module mmap mem phdrs s₀ s s')
    (hdata : ∀ q, FilePage module phdrs q → F q)
    (hlow : ∀ n, HandsOut s₀ s' n → n < 2 ^ 20 ∧ ¬ F n) :
    Loading module phdrs mem F s s' (jobs phdrs) ∧
      run (loadPage module.modStart) s (jobs phdrs) = some s' := by
  obtain ⟨place, -, hb⟩ := bootstrapPmm_booted hm.boot
  obtain ⟨⟨ret, s₁⟩, hset, hid⟩ := Option.bind_eq_some_iff.mp hm.paging
  obtain ⟨-, hrun⟩ := (loadElf_iff_run he.fits).mp hm.load
  have hs₀ : WellFormed s₀ := ⟨_, hb.pool⟩
  -- no page becomes free on the way
  obtain ⟨hs₁, hfree₁⟩ := setupPaging_wellFormed hs₀ hset
  obtain ⟨hs, hfree⟩ := shrinks_identityMap hs₁ hid
  obtain ⟨-, hfree'⟩ := shrinks_loadPages hs hrun
  obtain ⟨r, hpaging⟩ := setupPaging_set hs₀ hset fun n hn =>
    (hlow n (hn.widen (fun _ hk => hk) fun k hk => hfree k (hfree' k hk))).1
  obtain ⟨hinv, hgrows, hsame⟩ := identityMap_mapped hpaging.inv hid fun n hn =>
    (hlow n (hn.widen hfree₁ hfree')).1
  have hlow' : ∀ n, HandsOut s s' n → n < 2 ^ 20 ∧ ¬ F n := fun n hn =>
    hlow n (hn.widen (fun k hk => hfree₁ k (hfree k hk)) fun _ hk => hk)
  refine ⟨⟨hinv, fun j => mem_jobs, fun j hj hsize => ?_, he.jobs_apart, fun j hj => ?_,
    hdata, fun q hq => ?_, hlow'⟩, hrun⟩
  · exact memsz_lt_of_low hinv hrun (fun n hn => (hlow' n hn).1) (mem_jobs hj).load hsize
  · have hv := he.mappable (mem_jobs hj)
    have hbase := (he.inKernel j.1 (mem_jobs hj).load j.2.toNat (mem_jobs hj).inside).1
    rw [toNat_kernelBase, ← he.toNat_jobVirt (mem_jobs hj)] at hbase
    rw [hsame _ hv (by omega), hpaging.translated hv]
  · have hqr : q ≠ r := fun heq => by
      have hout := hpaging.takes.handsOut.widen (fun _ hk => hk) fun k hk => hfree k (hfree' k hk)
      exact (hlow r hout).2 (heq ▸ hq)
    have htable : NoTable s₁ q := fun p t hp heq => hqr (heq.symm.trans (hpaging.table_eq hp))
    obtain ⟨htable', hkept⟩ := hgrows.keeps q htable fun hn =>
      (hlow q (hn.widen hfree₁ hfree')).2 hq
    refine ⟨htable', fun a ha => ?_⟩
    rw [hkept a ha, hpaging.kept a (ha ▸ hqr), hb.mem]

/-- A page that starts in the module. -/
def InModule (module : ModuleTag) (q : ℕ) : Prop :=
  module.modStart.toNat ≤ q * pageSize ∧ q * pageSize < module.modEnd.toNat

theorem inModule_of_aligned {a k : ℕ} (ha : a % pageSize = 0) (hstart : module.modStart.toNat ≤ a)
    (hend : a + k < module.modEnd.toNat) : InModule module ((a + k) / pageSize) := by
  unfold InModule
  rw [pageSize] at *
  omega

theorem LegalElf.inModule (he : LegalElf module phdrs) {q : ℕ} (hq : FilePage module phdrs q) :
    InModule module q := by
  obtain ⟨ph, hload, k, hk, rfl⟩ := hq
  exact inModule_of_aligned (he.data ph hload) (Nat.le_add_right _ _) (he.inFile ph hload k hk)

/-- `bootstrap_pmm` reserves the pages of the module, but for a last one with one byte of it. -/
theorem InModule.reserved {q : ℕ} (hq : InModule module q)
    (hend : (module.modEnd.toNat - 1) % pageSize ≠ 0) (place : BitVec 64) :
    isPageReserved (rangesInForce img module.range mmap place) (.ofNat 64 q) = true := by
  obtain ⟨hstart, hlast⟩ := hq
  have hlt := module.modEnd.isLt
  have hprobe : (BitVec.ofNat 64 q).toNat * pageSize % 2 ^ 32 = q * pageSize := by
    rw [BitVec.toNat_ofNat]
    rw [pageSize] at *
    omega
  have hone : (module.modEnd - 1).toNat = module.modEnd.toNat - 1 :=
    Words.toNat_sub_one (by omega)
  have hin : module.range.Before (q * pageSize) := by
    rw [Range.Before, ModuleTag.range, BitVec.toNat_setWidth, BitVec.toNat_setWidth, hone]
    have hstart' := module.modStart.isLt
    rw [pageSize] at *
    omega
  refine isPageReserved_iff.mpr ⟨module.range, ?_, Or.inl ?_⟩
  · simp [rangesInForce, pfndbReserved, reservedMemory]
  · rwa [hprobe]

/-- Where the machine has no memory beyond 4 GiB the pages taken are fit. -/
theorem MainRun.low (hm : MainRun img module mmap mem phdrs s₀ s s')
    (hend : (module.modEnd.toNat - 1) % pageSize ≠ 0)
    (htotal : (totalPages mmap.entries).toNat ≤ 2 ^ 20) (n : ℕ) (hn : HandsOut s₀ s' n) :
    n < 2 ^ 20 ∧ ¬ InModule module n := by
  obtain ⟨place, -, hb⟩ := bootstrapPmm_booted hm.boot
  obtain ⟨hlt, hfree⟩ := mem_freelist_iff.mp ((onFree_iff hb.pool n).mp hn.1)
  refine ⟨by omega, fun hq => ?_⟩
  rw [hq.reserved hend] at hfree
  exact absurd hfree (by decide)

/-- On such a machine, with a file that goes on to where its segments end in memory, the
kernel is what the file says exactly when the file has zeros behind the data. -/
theorem kernelImage_iff_file (he : LegalElf module phdrs)
    (hm : MainRun img module mmap mem phdrs s₀ s s')
    (hend : (module.modEnd.toNat - 1) % pageSize ≠ 0)
    (htotal : (totalPages mmap.entries).toNat ≤ 2 ^ 20)
    (hlong : ∀ ph ∈ loads phdrs, ∀ k < ph.pMemsz.toNat,
      module.modStart.toNat + ph.pOffset.toNat + k < module.modEnd.toNat) :
    KernelImage module phdrs mem s' ↔ ∀ ph ∈ loads phdrs, ∀ k, ph.pFilesz.toNat ≤ k →
      k < ph.pMemsz.toNat →
      byteAt 8 mem (module.modStart.toNat + ph.pOffset.toNat + k) = 0 := by
  obtain ⟨hl, hrun⟩ := hm.loading he (fun _ => he.inModule) (hm.low hend htotal)
  have hlt := module.modEnd.isLt
  have hsource : ∀ j ∈ jobs phdrs, ∀ k, j.2.toNat + k < j.1.pMemsz.toNat →
      (copySource module.modStart j).toNat + k =
        module.modStart.toNat + j.1.pOffset.toNat + (j.2.toNat + k) := fun j hj k hk =>
    toNat_copySource ((hlong j.1 (mem_jobs hj).load _ hk).trans hlt)
  have htail : ∀ j ∈ jobs phdrs, TailIn module.modStart (InModule module) j := by
    intro j hj k _ _ hin
    rw [hsource j hj k hin]
    exact inModule_of_aligned (he.data _ (mem_jobs hj).load) (Nat.le_add_right _ _)
      (hlong _ (mem_jobs hj).load _ hin)
  rw [kernelImage_iff_jobs, (hl.run_iff he hrun).2, hl.alongRun_iff he hrun htail]
  refine ⟨fun h ph hload k hfile hin => ?_, fun h j hj k _ hfile hin => ?_⟩
  · have hj := jobs_cover hload hin
    have hsum : (BitVec.ofNat 64 (k / pageSize * pageSize)).toNat + k % pageSize = k := by
      rw [toNat_pageOffset (hin.trans ph.pMemsz.isLt)]
      exact Nat.div_add_mod' k pageSize
    have hzero := h _ hj (k % pageSize) (Nat.mod_lt k (by decide))
    have hat := hsource _ hj (k % pageSize)
    dsimp only at hzero hat
    rw [hsum] at hzero hat
    rw [hat hin] at hzero
    exact hzero hfile hin
  · rw [hsource j hj k hin]
    exact h j.1 (mem_jobs hj).load _ hfile hin

end MainRun

/-! A kernel with a byte of data and a byte of zeros. -/

def tinyModule : ModuleTag := ⟨0x120000, 0x140000⟩

def tinyPhdr : Phdr where
  pType := ptLoad
  pOffset := 0x1000
  pVaddr := 0xFFFF800000000000
  pFilesz := 1
  pMemsz := 2
  pAlign := 0x1000

theorem tiny_legal : LegalElf tinyModule [tinyPhdr] := by
  have hloads : loads [tinyPhdr] = [tinyPhdr] := rfl
  refine ⟨?_, ?_, ?_, ?_, ?_, ?_⟩ <;> rw [hloads]
  · decide
  · decide
  · decide
  · decide
  · decide
  · exact List.pairwise_singleton _ _

theorem tiny_asserts : ∀ ph ∈ loads [tinyPhdr], Asserts ph := by
  intro ph hload
  obtain rfl := List.mem_singleton.mp hload
  exact ⟨by decide, by decide, by decide⟩

theorem tiny_jobs : jobs [tinyPhdr] = [(tinyPhdr, 0)] := rfl

/-- `main` gets to the end of the load loop with a file of one page. -/
theorem exists_pcRun {phdrs : List Phdr} (mem : PhysMem) (he : LegalElf tinyModule phdrs)
    (hasserts : ∀ ph ∈ loads phdrs, Asserts ph) (hjobs : (jobs phdrs).length = 1) :
    ∃ s₀ s s', MainRun pcImage tinyModule flatMmap mem phdrs s₀ s s' := by
  have hplace : pfndbPlace pcImage tinyModule.range flatMmap = some 0x9000 := by decide +kernel
  have hpages : (totalPages flatMmap.entries).toNat = 0x800 := by decide +kernel
  obtain ⟨s₀, hboot⟩ := exists_bootstrapPmm mem hplace (by omega)
  obtain ⟨place, hplace', hb⟩ := bootstrapPmm_booted hboot
  obtain rfl : 0x9000 = place := Option.some_inj.mp (hplace.symm.trans hplace')
  -- no range goes above the module, and there are pages enough up there
  have habove : ∀ r ∈ rangesInForce pcImage tinyModule.range flatMmap 0x9000,
      r.endAddr.toNat ≤ 0x140 * pageSize := by decide +kernel
  have hlen := le_length_freelist (n := 0x800) (by decide) habove
  have hroom : Room s₀ (0 + 4 * (jobs phdrs).length + 3 * 512 + 1) := by
    rw [hjobs]
    refine ⟨⟨_, hb.pool, hpages ▸ hlen.trans' (by decide)⟩, fun n hn => ?_⟩
    have hlt := (mem_freelist_iff.mp ((onFree_iff hb.pool n).mp hn)).1
    omega
  obtain ⟨s, hpaging, hroom'⟩ := hroom.startPaging
  obtain ⟨s', hload, -⟩ := Room.loadElf (k := 0) he hasserts hroom'
  exact ⟨s₀, s, s', hboot, hpaging, hload⟩

theorem exists_tinyRun (mem : PhysMem) :
    ∃ s₀ s s', MainRun pcImage tinyModule flatMmap mem [tinyPhdr] s₀ s s' :=
  exists_pcRun mem tiny_legal tiny_asserts rfl

theorem tiny_low {mem : PhysMem} {s₀ s s' : Globals}
    (hm : MainRun pcImage tinyModule flatMmap mem [tinyPhdr] s₀ s s') :
    ∀ n, HandsOut s₀ s' n → n < 2 ^ 20 ∧ ¬ FilePage tinyModule [tinyPhdr] n := by
  have hpages : (totalPages flatMmap.entries).toNat = 0x800 := by decide +kernel
  intro n hn
  obtain ⟨hlt, hout⟩ := hm.low (by decide) (by omega) n hn
  exact ⟨hlt, fun hq => hout (tiny_legal.inModule hq)⟩

end CxKernel.Loader
