import CxKernel.Proofs.BootInfo
import CxKernel.Proofs.ElfFile
import CxKernel.Proofs.LoadFile

/-! `main` on memory alone is the run the other modules are about. It reads the module's tag, the
file and its own literals again while pages are being taken, so these have to be on pages that
`bootstrap_pmm` does not put on the free list. -/

namespace CxKernel.Loader

open LinkedList Paging Strings ElfFile Multiboot Runs

/-- So many bytes from `p` on are on pages that `bootstrap_pmm` reserves, or that are beyond the
memory there is. -/
def OutOfReach (img : Image) (res : Range) (mmap : MmapTag) (place : BitVec 64) (p : BitVec 32)
    (len : ℕ) : Prop :=
  ∀ i < len, (p + .ofNat 32 i).toNat / pageSize < (totalPages mmap.entries).toNat →
    isPageReserved (rangesInForce img res mmap place)
      (.ofNat 64 ((p + .ofNat 32 i).toNat / pageSize)) = true

/-- The program header table of a file. -/
def phdrTable (mem : Mem 4) (image : Ptr 4) : Ptr 4 := atOffset image (ePhoff mem image)

/-- The program headers a file has in memory. -/
def filePhdrs (mem : Mem 4) (image : Ptr 4) : List Phdr :=
  (List.range (ePhnum mem image).toNat).map fun i =>
    readPhdr mem (element sizeofPhdr (phdrTable mem image) i)

/-- A 64-bit ELF file, and all that is read again, out of the reach of `pmm_alloc_page`. -/
structure BootFile (img : Image) (mmap : MmapTag) (place : BitVec 64) (mem : PhysMem)
    (literals : Literals 4) (tag : BitVec 32) : Prop where
  valid : isValidElf (bytes mem) (modStart (bytes mem) tag) = true
  wide : eIdent (bytes mem) (modStart (bytes mem) tag) 4 = 2
  rodata : literals.InMemory (bytes mem)
  tagKept : OutOfReach img (readModule (bytes mem) tag).range mmap place tag 16
  headerKept : OutOfReach img (readModule (bytes mem) tag).range mmap place
    (modStart (bytes mem) tag) 64
  tableKept : OutOfReach img (readModule (bytes mem) tag).range mmap place
    (phdrTable (bytes mem) (modStart (bytes mem) tag))
    (sizeofPhdr * (ePhnum (bytes mem) (modStart (bytes mem) tag)).toNat)
  rodataKept : ∀ p ∈ [literals.null, literals.symtab, literals.strtab],
    OutOfReach img (readModule (bytes mem) tag).range mmap place p 8

section Kept

variable {img : Image} {module : ModuleTag} {mmap : MmapTag} {mem : PhysMem} {place : BitVec 64}
  {s₀ s₁ s' s : Globals} {lits : Literals 4} {p : BitVec 32} {len : ℕ}

theorem OutOfReach.spared (h : OutOfReach img module.range mmap place p len)
    (hb : Booted img module.range mmap mem place s₀) : Spared s₀ p len := by
  intro _ hi hfree
  obtain ⟨hlt, hres⟩ := mem_freelist_iff.mp ((onFree_iff hb.pool _).mp hfree)
  rw [h _ hi hlt] at hres
  cases hres

theorem Machine.freeLow (hm : Machine img module mmap place)
    (hb : Booted img module.range mmap mem place s₀) : FreeLow s₀ := fun n hn =>
  (mem_freelist_iff.mp ((onFree_iff hb.pool n).mp hn)).1.trans_le hm.total

theorem Machine.kept (hm : Machine img module mmap place)
    (hb : Booted img module.range mmap mem place s₀) (h : startPaging s₀ = some s₁) :
    Kept s₀ mem s₁ := by
  have hlow := hm.freeLow hb
  have hs₀ : WellFormed s₀ := ⟨_, hb.pool⟩
  obtain ⟨⟨ret, t⟩, hset, hid⟩ := Option.bind_eq_some_iff.mp h
  obtain ⟨r, hpaging⟩ := setupPaging_set hs₀ hset hlow.handsOut
  have hshrinks := (setupPaging_wellFormed hs₀ hset).2
  have hidentity := identityMap_adds hpaging.inv (fun n hn => hlow n (hshrinks n hn)) hid
  have hstart : Kept s₀ mem t := by
    refine ⟨hpaging.inv, hshrinks, fun q hq => ⟨fun p w hp heq => hq ?_, fun a ha => ?_⟩⟩
    · exact heq ▸ (hpaging.table_eq hp).symm ▸ hpaging.takes.free
    · have hqr : a / pageSize ≠ r := fun hr => hq (ha ▸ hr ▸ hpaging.takes.free)
      rw [hpaging.kept a hqr, hb.mem]
  exact hstart.grows hidentity.inv hidentity.grows

theorem BootRun.kept {phdrs : List Phdr} (he : LegalElf module phdrs)
    (hm : Machine img module mmap place) (hb : Booted img module.range mmap mem place s₀)
    (hrun : BootRun img module mmap mem phdrs s₀ s₁ s' s) : Kept s₀ mem s := by
  obtain ⟨m, k, hbuilt⟩ := hrun.built he hm
  have hloaded := (hm.kept hb hrun.paging).loadElf he (hm.freeLow hb) (fun _ hph => hph) hrun.load
  exact hloaded.grows hbuilt.inv hbuilt.grows

theorem Kept.spells (h : Kept s₀ mem s) {str : List (BitVec 8)} (hp : Spared s₀ p len)
    (hlen : str.length < len) (hs : Spells (bytes mem) p str) : Spells (bytes s.mem) p str :=
  hs.congr fun _ hi => h.bytes_eq hp (Nat.lt_of_lt_of_le hi hlen)

theorem Kept.literals (h : Kept s₀ mem s)
    (hp : ∀ p ∈ [lits.null, lits.symtab, lits.strtab], Spared s₀ p 8)
    (hl : lits.InMemory (bytes mem)) : lits.InMemory (bytes s.mem) where
  null := h.spells (hp _ (by simp)) (by decide) hl.null
  symtab := h.spells (hp _ (by simp)) (by decide) hl.symtab
  strtab := h.spells (hp _ (by simp)) (by decide) hl.strtab

/-- The parser fills in what the file says. -/
theorem Kept.load_eq (h : Kept s₀ mem s)
    (hp : ∀ p ∈ [lits.null, lits.symtab, lits.strtab], Spared s₀ p 8)
    (hl : lits.InMemory (bytes mem)) (hheader : Spared s₀ p 64)
    (hvalid : isValidElf (bytes mem) p = true) (hwide : eIdent (bytes mem) p 4 = 2) :
    ∃ ctx, load lits (bytes s.mem) p = some (.ok ctx) ∧ ctx.img = p ∧
      headers (bytes s.mem) ctx = (List.range (ePhnum (bytes mem) p).toNat).map
        (element sizeofPhdr (phdrTable (bytes mem) p)) := by
  have hident : ∀ i < 5, eIdent (bytes s.mem) p i = eIdent (bytes mem) p i := fun i hi =>
    h.bytes_eq hheader (by omega)
  have hvalid' : isValidElf (bytes s.mem) p = true := by
    rw [← hvalid, isValidElf, isValidElf, hident 0 (by decide), hident 1 (by decide),
      hident 2 (by decide), hident 3 (by decide)]
  have hphoff : ePhoff (bytes s.mem) p = ePhoff (bytes mem) p := h.field_eq hheader (by decide)
  have hphnum : ePhnum (bytes s.mem) p = ePhnum (bytes mem) p := h.field_eq hheader (by decide)
  obtain ⟨ctx, hctx, himg, hphdr⟩ := (h.literals hp hl).load64_eq p
  refine ⟨ctx, ?_, himg, ?_⟩
  · rw [load, if_neg (not_not.mpr hvalid'), hident 4 (by decide), hwide, if_neg (by decide),
      if_pos rfl, hctx]
    rfl
  · rw [headers, himg, hphdr, hphoff, hphnum]
    rfl

end Kept

section main

variable {img : Image} {cxkernel ptr tag mmapAt : BitVec 32} {literals : Literals 4}
  {tags : List (BitVec 32 × Tag)} {mmap : MmapTag} {mem : PhysMem} {place : BitVec 64}
  {s₀ : Globals} {h : Handed}

/-- The run of `main` on what is in memory. -/
def FileRun (img : Image) (mmap : MmapTag) (mem : PhysMem) (tag : BitVec 32) :=
  BootRun img (readModule (bytes mem) tag) mmap mem
    (filePhdrs (bytes mem) (modStart (bytes mem) tag))

section Booted

variable {s₁ s' s : Globals} (hf : BootFile img mmap place mem literals tag)
  (hb : Booted img (readModule (bytes mem) tag).range mmap mem place s₀)

include hf hb

theorem BootFile.modStart_eq (hk : Kept s₀ mem s) :
    modStart (bytes s.mem) tag = modStart (bytes mem) tag :=
  hk.field_eq (hf.tagKept.spared hb) (by decide)

/-- The table is read a header at a time. -/
theorem BootFile.table_spared : ∀ p ∈
    (List.range (ePhnum (bytes mem) (modStart (bytes mem) tag)).toNat).map
      (element sizeofPhdr (phdrTable (bytes mem) (modStart (bytes mem) tag))),
    Spared s₀ p sizeofPhdr := by
  intro p hp i hi
  obtain ⟨k, hk, rfl⟩ := List.mem_map.mp hp
  rw [List.mem_range] at hk
  rw [element, add_ofNat_add]
  refine hf.tableKept.spared hb _ ?_
  rw [sizeofPhdr] at *
  omega

variable (hm : Machine img (readModule (bytes mem) tag) mmap place)
  (he : LegalElf (readModule (bytes mem) tag)
    (filePhdrs (bytes mem) (modStart (bytes mem) tag)))

include hm he

theorem BootFile.loop_eq (hpaging : startPaging s₀ = some s₁) :
    ∃ ctx, ctx.img = modStart (bytes mem) tag ∧
      load literals (bytes s₁.mem) (modStart (bytes s₁.mem) tag) = some (.ok ctx) ∧
      (headers (bytes s₁.mem) ctx).foldlM (loadHeader ctx.img) s₁ =
        loadElf (modStart (bytes mem) tag)
          (filePhdrs (bytes mem) (modStart (bytes mem) tag)) s₁ := by
  have hkept := hm.kept hb hpaging
  have hheader := hf.headerKept.spared hb
  obtain ⟨ctx, hctx, himg, hheaders⟩ := hkept.load_eq
    (fun p hp => (hf.rodataKept p hp).spared hb) hf.rodata hheader hf.valid hf.wide
  refine ⟨ctx, himg, ?_, ?_⟩
  · rw [hf.modStart_eq hb hkept]
    exact hctx
  · rw [hheaders, himg]
    refine (hkept.loadHeaders_eq he (hm.freeLow hb) (hf.table_spared hb) fun p hp => ?_).trans ?_
    · obtain ⟨i, hi, rfl⟩ := List.mem_map.mp hp
      exact List.mem_map_of_mem hi
    · rw [List.map_map]
      rfl

/-- What is read behind the load loop. -/
theorem BootFile.end_eq (hrun : FileRun img mmap mem tag s₀ s₁ s' s) :
    modStart (bytes s.mem) tag = modStart (bytes mem) tag ∧
      eEntry (bytes s.mem) (modStart (bytes mem) tag) =
        eEntry (bytes mem) (modStart (bytes mem) tag) := by
  have hkept := BootRun.kept he hm hb hrun
  exact ⟨hf.modStart_eq hb hkept, hkept.field_eq (hf.headerKept.spared hb) (by decide)⟩

theorem mainFrom_iff
    (hboot : bootstrapPmm img (readModule (bytes mem) tag).range mmap mem = some s₀) :
    mainFrom literals tag s₀ = some h ↔ (∃ s₁ s', FileRun img mmap mem tag s₀ s₁ s' h.globals) ∧
      h.kernelElf = (modStart (bytes mem) tag).setWidth 64 ∧
      h.entry = eEntry (bytes mem) (modStart (bytes mem) tag) := by
  constructor
  · intro hmain
    obtain ⟨s₁, hpaging, hmain⟩ := Option.bind_eq_some_iff.mp hmain
    obtain ⟨ctx, himg, hctx, hfold⟩ := hf.loop_eq hb hm he hpaging
    obtain ⟨r, hr, hmain⟩ := Option.bind_eq_some_iff.mp hmain
    obtain rfl := Option.some.inj (hctx.symm.trans hr)
    obtain ⟨ctx', hctx', hmain⟩ := Option.bind_eq_some_iff.mp hmain
    obtain rfl := Option.some.inj hctx'
    obtain ⟨s', hload, hmain⟩ := Option.bind_eq_some_iff.mp hmain
    obtain ⟨s, hfinish, hmain⟩ := Option.bind_eq_some_iff.mp hmain
    have hrun : FileRun img mmap mem tag s₀ s₁ s' s :=
      ⟨⟨hboot, hpaging, hfold.symm.trans hload⟩, hfinish⟩
    obtain ⟨hmod, hentry⟩ := hf.end_eq hb hm he hrun
    rw [himg, hmod, hentry] at hmain
    obtain rfl := Option.some.inj hmain
    exact ⟨⟨s₁, s', hrun⟩, rfl, rfl⟩
  · rintro ⟨⟨s₁, s', hrun⟩, hmod, hentry⟩
    obtain ⟨ctx, himg, hctx, hfold⟩ := hf.loop_eq hb hm he hrun.paging
    obtain ⟨hmod', hentry'⟩ := hf.end_eq hb hm he hrun
    refine Option.bind_eq_some_iff.mpr ⟨s₁, hrun.paging, ?_⟩
    refine Option.bind_eq_some_iff.mpr ⟨_, hctx, ?_⟩
    refine Option.bind_eq_some_iff.mpr ⟨ctx, rfl, ?_⟩
    refine Option.bind_eq_some_iff.mpr ⟨s', hfold.trans hrun.load, ?_⟩
    refine Option.bind_eq_some_iff.mpr ⟨h.globals, hrun.finish, ?_⟩
    rw [himg, hmod', hentry', ← hmod, ← hentry]
    rfl

end Booted

end main

/-! The kernel of one page again, with all of it in memory: the memory map at the start of the
Multiboot information, the module's tag at its end, beyond the memory there is. -/

/-- The literals, at the end of the loader's image. -/
def tinyLiterals : Literals 4 := ⟨0x10F010, 0x10F020, 0x10F030⟩

def tinyMem : PhysMem := fun a =>
  (List.lookup a [(0x8000, 0x2800000006), (0x8008, 24), (0x8018, 0x800000), (0x8020, 1),
    (0x8028, 0x7F7FD800000001), (0x800000, 0x1900000003), (0x800008, 0x14000000120000),
    (0x800010, 0x6C656E72656B7863), (0x800020, 0x800000000), (0x10F000, 0x6C656E72656B7863),
    (0x10F010, 0x6C6C756E2E), (0x10F020, 0x6261746D79732E), (0x10F030, 0x6261747274732E),
    (0x120000, 0x2464C457F), (0x120018, 0xFFFF800000000000), (0x120020, 64), (0x120038, 1),
    (0x120040, 1), (0x120048, 0x1000), (0x120050, 0xFFFF800000000000), (0x120060, 1),
    (0x120068, 2), (0x120070, 0x1000)]).getD 0

def tinyTags : List (BitVec 32 × Tag) :=
  [(0x8000, ⟨6, 40⟩), (0x8028, ⟨1, 0x7F7FD8⟩), (0x800000, ⟨3, 25⟩)]

theorem tagAt_eq {mem : Mem 4} {p : BitVec 32} {t : Tag} (hp : p ≠ 0)
    (htype : field 4 mem p 0 = t.type) (hsize : field 4 mem p 4 = t.size) :
    (tagMemory mem).tagAt p = some t := by
  rw [tagMemory]
  dsimp only
  rw [if_neg hp, htype, hsize]

theorem tiny_area : TagArea (tagMemory (bytes tinyMem)) 0x8000 tinyTags := by
  have hat : ∀ x ∈ (0x800020, ⟨0, 8⟩) :: tinyTags,
      (tagMemory (bytes tinyMem)).tagAt x.1 = some x.2 := by
    have hread : ∀ x ∈ (0x800020, ⟨0, 8⟩) :: tinyTags, x.1 ≠ 0 ∧
        field 4 (bytes tinyMem) (x.1 : Ptr 4) 0 = x.2.type ∧
        field 4 (bytes tinyMem) (x.1 : Ptr 4) 4 = x.2.size := by decide +kernel
    exact fun x hx => tagAt_eq (hread x hx).1 (hread x hx).2.1 (hread x hx).2.2
  have hend : TagArea (tagMemory (bytes tinyMem)) 0x800020 [] :=
    .done (hat (_, ⟨0, 8⟩) (by simp [tinyTags])) rfl
  have hmodule : TagArea (tagMemory (bytes tinyMem)) 0x800000 [(0x800000, ⟨3, 25⟩)] :=
    .tag (hat (_, ⟨3, 25⟩) (by simp [tinyTags])) (by decide) (by decide) (by decide) hend
  have hother : TagArea (tagMemory (bytes tinyMem)) 0x8028
      [(0x8028, ⟨1, 0x7F7FD8⟩), (0x800000, ⟨3, 25⟩)] :=
    .tag (hat (_, ⟨1, 0x7F7FD8⟩) (by simp [tinyTags])) (by decide) (by decide) (by decide) hmodule
  exact .tag (hat (_, ⟨6, 40⟩) (by simp [tinyTags])) (by decide) (by decide) (by decide) hother

theorem tiny_info : BootInfo (bytes tinyMem) 0x10F000 0x7FF8 0x800000 0x8000 tinyTags where
  literal := by decide +kernel
  area := tiny_area
  module := by decide +kernel
  mmap := by decide

theorem tiny_mmap : readMmap (bytes tinyMem) 0x8000 = some flatMmap := by
  have hsize : field 4 (bytes tinyMem) (0x8000 : BitVec 32) 4 = 40 := by decide +kernel
  have hentry : field 4 (bytes tinyMem) (0x8000 : BitVec 32) 8 = 24 := by decide +kernel
  have hok : MmapTagOk ⟨0x8000, 40, 24⟩ 24 := ⟨by decide, by decide, by decide⟩
  have hvisit : visitMmap ⟨0x8000, 40, 24⟩ = some [0x8010] := hok.visit_eq (by decide) (by decide)
  have hread : readEntry (bytes tinyMem) 0x8010 = ⟨0, 0x800000, memoryAvailable⟩ := by
    decide +kernel
  rw [readMmap, hsize, hentry, hvisit, Option.bind_eq_bind, Option.bind_some, List.map_cons, hread]
  rfl

theorem tiny_module : readModule (bytes tinyMem) 0x800000 = tinyModule := by
  have hstart : modStart (bytes tinyMem) 0x800000 = 0x120000 := by decide +kernel
  have hend : modEnd (bytes tinyMem) 0x800000 = 0x140000 := by decide +kernel
  rw [readModule, hstart, hend]
  rfl

theorem tiny_phdrs :
    filePhdrs (bytes tinyMem) (modStart (bytes tinyMem) 0x800000) = [tinyPhdr] := by
  have hstart : modStart (bytes tinyMem) 0x800000 = 0x120000 := by decide +kernel
  have hnum : ePhnum (bytes tinyMem) (0x120000 : Ptr 4) = 1 := by decide +kernel
  have htable : element sizeofPhdr (phdrTable (bytes tinyMem) 0x120000) 0 = 0x120040 := by
    decide +kernel
  have hread : readPhdr (bytes tinyMem) 0x120040 = tinyPhdr := by
    rw [readPhdr, tinyPhdr, Phdr.mk.injEq]
    decide +kernel
  rw [filePhdrs, hstart, hnum]
  exact congrArg (fun ph => [ph]) ((congrArg (readPhdr _) htable).trans hread)

theorem outOfReach_of_page {img : Image} {res : Range} {mmap : MmapTag} {place : BitVec 64}
    {p : BitVec 32} {len : ℕ} (hlen : p.toNat % pageSize + len ≤ pageSize)
    (hpage : p.toNat / pageSize < (totalPages mmap.entries).toNat →
      isPageReserved (rangesInForce img res mmap place) (.ofNat 64 (p.toNat / pageSize)) = true) :
    OutOfReach img res mmap place p len := by
  intro i hi
  have hp := p.isLt
  have haddr : (p + .ofNat 32 i).toNat = p.toNat + i := by
    refine toNat_add_offset ?_
    rw [pageSize] at *
    omega
  have hsame : (p.toNat + i) / pageSize = p.toNat / pageSize := by
    rw [pageSize] at *
    omega
  rw [haddr, hsame]
  exact hpage

theorem tiny_file : BootFile pcImage flatMmap 0x9000 tinyMem tinyLiterals 0x800000 := by
  have hstart : modStart (bytes tinyMem) 0x800000 = 0x120000 := by decide +kernel
  have htable : phdrTable (bytes tinyMem) 0x120000 = 0x120040 := by decide +kernel
  have hnum : ePhnum (bytes tinyMem) (0x120000 : Ptr 4) = 1 := by decide +kernel
  have hreserved : ∀ q ∈ [0x10F, 0x120], isPageReserved
      (rangesInForce pcImage tinyModule.range flatMmap 0x9000) (.ofNat 64 q) = true := by
    decide +kernel
  have hpages : (totalPages flatMmap.entries).toNat = 0x800 := by decide +kernel
  refine ⟨by decide +kernel, by decide +kernel,
    ⟨by decide +kernel, by decide +kernel, by decide +kernel⟩, ?_, ?_, ?_, ?_⟩
  all_goals rw [tiny_module]
  · refine outOfReach_of_page (by decide) fun hlt => absurd hlt ?_
    rw [hpages]
    decide
  · rw [hstart]
    exact outOfReach_of_page (by decide) fun _ => hreserved 0x120 (by decide)
  · rw [hstart, htable, hnum]
    exact outOfReach_of_page (by decide) fun _ => hreserved 0x120 (by decide)
  · intro p hp
    have hp' : p.toNat / pageSize = 0x10F ∧ p.toNat % pageSize + 8 ≤ pageSize := by
      simp only [tinyLiterals, List.mem_cons, List.not_mem_nil, or_false] at hp
      rcases hp with rfl | rfl | rfl <;> decide
    refine outOfReach_of_page hp'.2 fun _ => ?_
    rw [hp'.1]
    exact hreserved 0x10F (by decide)

end CxKernel.Loader
