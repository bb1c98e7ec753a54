import CxKernel.Proofs.AddressSpace
import CxKernel.Proofs.LoaderPages

/-! What the kernel finds mapped when it is entered, and what of that is in use. -/

namespace CxKernel.Loader

open LinkedList Paging Runs

/-! `main` as a whole. -/

theorem mapStack_sameDb {s s' : Globals} (h : mapStack s = some s') : SameDb s s' := by
  obtain ⟨⟨page, s₁⟩, halloc, hmap⟩ := Option.bind_eq_some_iff.mp h
  exact (pmmAllocPage_sameDb halloc).trans (mapPage_sameDb hmap)

theorem MainRun.sameDb {img : Image} {module : ModuleTag} {mmap : MmapTag} {mem : PhysMem}
    {phdrs : List Phdr} {s₀ s₁ s' : Globals} (he : LegalElf module phdrs)
    (hm : MainRun img module mmap mem phdrs s₀ s₁ s') : SameDb s₀ s' := by
  obtain ⟨⟨ret, t⟩, hset, hid⟩ := Option.bind_eq_some_iff.mp hm.paging
  obtain ⟨-, hload⟩ := (loadElf_iff_run he.fits).mp hm.load
  replace hid : identityMap t = some s₁ := hid
  rw [identityMap_eq_run] at hid
  exact ((setupPaging_sameDb hset).trans (sameDb_run (fun _ _ _ => mapPage_sameDb) hid)).trans
    (sameDb_run (fun _ _ _ => loadPage_sameDb) hload)

/-- `main` up to the hand-over: `s` is what it hands over, `s'` what the load loop left. -/
structure BootRun (img : Image) (module : ModuleTag) (mmap : MmapTag) (mem : PhysMem)
    (phdrs : List Phdr) (s₀ s₁ s' s : Globals) : Prop extends
    MainRun img module mmap mem phdrs s₀ s₁ s' where
  finish : finishPaging s' = some s

/-- What the loader is started with: no memory beyond 4 GiB, the database below it, and a file
that does not end one byte into a page. -/
structure Machine (img : Image) (module : ModuleTag) (mmap : MmapTag) (place : BitVec 64) :
    Prop where
  total : (totalPages mmap.entries).toNat ≤ 2 ^ 20
  placed : PlacedLow img module.range mmap place
  fileEnd : (module.modEnd.toNat - 1) % pageSize ≠ 0

theorem bootstrapPmm_pages {img : Image} {res : Range} {mmap : MmapTag} {mem : PhysMem}
    {s : Globals} (h : bootstrapPmm img res mmap mem = some s) :
    s.pfndbSzPgs = pfndbPages mmap.entries := by
  obtain ⟨place, -, h⟩ := Option.bind_eq_some_iff.mp h
  obtain ⟨pool, -, h⟩ := Option.bind_eq_some_iff.mp h
  obtain ⟨free, -, h⟩ := Option.bind_eq_some_iff.mp h
  obtain ⟨used, -, h⟩ := Option.bind_eq_some_iff.mp h
  split at h
  · cases h
  · exact Option.some.inj h ▸ rfl

theorem toNat_pfndbPages {entries : List MmapEntry}
    (hlow : (pfndbBytes entries).toNat ≤ 2 ^ 32) :
    (pfndbPages entries).toNat = ((pfndbBytes entries).toNat + 4095) / 4096 := by
  have hup : (pfndbBytes entries).toNat ≤ (pageAlignUp (pfndbBytes entries)).toNat ∧
      (pageAlignUp (pfndbBytes entries)).toNat < (pfndbBytes entries).toNat + 2 ^ 12 ∧
      2 ^ 12 ∣ (pageAlignUp (pfndbBytes entries)).toNat :=
    Words.toNat_roundUp (a := .ofNat 64 pageSize) (k := 12) rfl (by omega)
  obtain ⟨c, hc⟩ := hup.2.2
  have hsize : (BitVec.ofNat 64 pageSize).toNat = 4096 := rfl
  rw [pfndbPages, BitVec.toNat_udiv, hsize]
  omega

section BootRun

variable {img : Image} {module : ModuleTag} {mmap : MmapTag} {mem : PhysMem} {phdrs : List Phdr}
  {place : BitVec 64} {s₀ s₁ s' s : Globals}

theorem Machine.dbFits (hm : Machine img module mmap place)
    (hb : Booted img module.range mmap mem place s₀)
    (hpages : s₀.pfndbSzPgs = pfndbPages mmap.entries) : DbFits s₀ := by
  have hlow := hm.placed.low
  have haligned := earlyPmmAllocCts_aligned hm.placed.found
  have harr : s₀.pfndbArr.toNat % pageSize = 0 := by
    rw [hb.arr, BitVec.toNat_setWidth]
    rw [pageSize] at *
    omega
  refine ⟨harr, ?_⟩
  have hlt : s₀.pfndbArr.toNat ≤ place.toNat := by
    rw [hb.arr, BitVec.toNat_setWidth]
    exact Nat.mod_le _ _
  rw [hpages, toNat_pfndbPages (by omega)]
  rw [pageSize] at *
  omega

/-- A page of the database is never free. -/
theorem Machine.not_onFree (hm : Machine img module mmap place)
    (hb : Booted img module.range mmap mem place s₀)
    (hpages : s₀.pfndbSzPgs = pfndbPages mmap.entries) {i : ℕ} (hi : i < s₀.pfndbSzPgs.toNat) :
    ¬ OnFree s₀ (dbFrame s₀.pfndbArr i).toNat := by
  intro hfree
  obtain ⟨hlt, hres⟩ := mem_freelist_iff.mp ((onFree_iff hb.pool _).mp hfree)
  have hlow := hm.placed.low
  have haligned := earlyPmmAllocCts_aligned hm.placed.found
  have haddr := toNat_pageAddr (hlt.trans_le hm.total)
  rw [hpages, toNat_pfndbPages (by omega)] at hi
  have harr : s₀.pfndbArr.toNat = place.toNat := by
    rw [hb.arr, BitVec.toNat_setWidth, Nat.mod_eq_of_lt (by omega)]
  have hpage : (pageAddr (dbFrame s₀.pfndbArr i).toNat).toNat = place.toNat + i * 4096 := by
    rw [haddr, dbFrame, BitVec.toNat_ofNat, harr]
    rw [pageSize] at *
    omega
  refine hm.placed.not_overlaps (by omega) hres ⟨place.toNat + i * 4096, ?_⟩
  rw [hpage, pageSize]
  omega

/-- A page of the file is never free. -/
theorem InModule.not_onFree {q : ℕ} (hq : InModule module q)
    (hend : (module.modEnd.toNat - 1) % pageSize ≠ 0)
    (hb : Booted img module.range mmap mem place s₀) : ¬ OnFree s₀ q := by
  intro hfree
  obtain ⟨-, hres⟩ := mem_freelist_iff.mp ((onFree_iff hb.pool q).mp hfree)
  rw [hq.reserved hend] at hres
  exact absurd hres (by decide)

/-- All the pages `main` maps, in the order in which it does. -/
def spaceMap (s₀ : Globals) (image : PageMap) (stack : ℕ) : PageMap :=
  pagesFrom 0 512 (.ofNat 40) ++ (image ++ ([(kernelStackLimit >>> 12, .ofNat 40 stack)] ++
    pagesFrom Handoff.kernelPfndbBase s₀.pfndbSzPgs.toNat (dbFrame s₀.pfndbArr)))

/-- What the loader has built when it hands over. -/
structure Built (module : ModuleTag) (phdrs : List Phdr) (s₀ s' s : Globals) (m : PageMap) (n : ℕ) :
    Prop where
  inv : Inv s
  grows : Grows s' s
  shrinks : ∀ k, OnFree s k → OnFree s₀ k
  freeLow : FreeLow s
  noTable : ∀ k, ¬ OnFree s₀ k → NoTable s k
  db : DbFits s₀
  database : ∀ i < s₀.pfndbSzPgs.toNat, ¬ OnFree s₀ (dbFrame s₀.pfndbArr i).toNat
  image : ImageMap module phdrs s₀ s' m
  stack : (OnFree s' n ∧ Guarded s n) ∧ n < 2 ^ 20
  loaded : ∀ v, Mappable v →
    translated s' v = (pagesFrom 0 512 (.ofNat 40) ++ m).lookup (v >>> 12)
  maps : ∀ v, Mappable v → translated s v = (spaceMap s₀ m n).lookup (v >>> 12)

theorem BootRun.built (he : LegalElf module phdrs) (hm : Machine img module mmap place)
    (hrun : BootRun img module mmap mem phdrs s₀ s₁ s' s) :
    ∃ image stack, Built module phdrs s₀ s' s image stack := by
  obtain ⟨place', hplace, hb⟩ := bootstrapPmm_booted hrun.boot
  obtain rfl := Option.some.inj (hm.placed.found.symm.trans hplace)
  have hpages := bootstrapPmm_pages hrun.boot
  have hs₀ : WellFormed s₀ := ⟨_, hb.pool⟩
  have hlow₀ : FreeLow s₀ := fun n hn =>
    (mem_freelist_iff.mp ((onFree_iff hb.pool n).mp hn)).1.trans_le hm.total
  obtain ⟨⟨ret, t⟩, hset, hid⟩ := Option.bind_eq_some_iff.mp hrun.paging
  replace hid : identityMap t = some s₁ := hid
  obtain ⟨r, hpaging⟩ := setupPaging_set hs₀ hset hlow₀.handsOut
  have hshrinks := (setupPaging_wellFormed hs₀ hset).2
  have hlow : FreeLow t := fun n hn => hlow₀ n (hshrinks n hn)
  have hidentity := identityMap_adds hpaging.inv hlow hid
  -- the load loop
  obtain ⟨hl, hloop⟩ := hrun.toMainRun.loading he (fun _ => he.inModule)
    (hrun.toMainRun.low hm.fileEnd hm.total)
  obtain ⟨image, hkeys, hheld, himage⟩ := hl.adds he
    (fun q hq hn => hq.not_onFree hm.fileEnd hb (hshrinks q (hidentity.grows.shrinks q hn))) hloop
  have hloaded := hidentity.trans himage
  -- the stack and the database
  obtain ⟨u, hstack, hdb⟩ := Option.bind_eq_some_iff.mp hrun.finish
  have hsame := (hrun.toMainRun.sameDb he).trans (mapStack_sameDb hstack)
  obtain ⟨n, hfree, hn, hstack⟩ := mapStack_adds himage.inv (hlow.grows hloaded.grows) hstack
  have hdb := mapPfndb_adds hstack.inv
    (hlow.grows (hloaded.grows.trans hstack.grows)) ((hm.dbFits hb hpages).sameDb hsame) hdb
  rw [hsame.arr, hsame.pages] at hdb
  have hfinal := hidentity.trans (himage.trans (hstack.trans hdb))
  have htables : ∀ k, ¬ OnFree s₀ k → NoTable t k := fun k hk p w hp heq =>
    hk (heq ▸ (hpaging.table_eq hp).symm ▸ hpaging.takes.free)
  refine ⟨image, n, hfinal.inv, hstack.grows.trans hdb.grows, fun k hk => ?_,
    hlow.grows hfinal.grows, fun k hk => ?_, hm.dbFits hb hpages,
    fun i hi => hm.not_onFree hb hpages hi, ⟨hkeys, fun p hp => ?_⟩,
    ⟨⟨hfree, hn.grows hdb.grows⟩, hlow.grows hloaded.grows n hfree⟩, fun v hv => ?_,
    fun v hv => ?_⟩
  · exact hshrinks k (hfinal.grows.shrinks k hk)
  · exact (hfinal.grows.keeps k (htables k hk) fun hout => hk (hshrinks k hout.1)).1
  · exact ⟨(hheld p hp).guarded,
      (hheld p hp).origin.imp_right fun hn => hshrinks _ (hidentity.grows.shrinks _ hn)⟩
  · rw [hloaded.maps v hv, hpaging.translated hv, Option.none_or]
  · rw [hfinal.maps v hv, hpaging.translated hv, Option.none_or, spaceMap]

end BootRun

/-! Where an address is mapped. -/

theorem mem_of_lookup {m : PageMap} {k : BitVec 64} {f : BitVec 40} (h : m.lookup k = some f) :
    (k, f) ∈ m := by
  obtain ⟨l₁, l₂, rfl, -⟩ := List.lookup_eq_some_iff.mp h
  exact List.mem_append_right _ List.mem_cons_self

theorem lookup_none_of_keys {m : PageMap} {k : BitVec 64} (h : k ∉ m.map Prod.fst) :
    m.lookup k = none := by
  refine List.lookup_eq_none_iff.mpr fun p hp => ?_
  exact bne_iff_ne.mpr fun he => h (List.mem_map.mpr ⟨p, hp, he.symm⟩)

theorem exists_lookup_of_keys {m : PageMap} {k : BitVec 64} (h : k ∈ m.map Prod.fst) :
    ∃ f, m.lookup k = some f := by
  cases hlook : m.lookup k with
  | some f => exact ⟨f, rfl⟩
  | none =>
    obtain ⟨p, hp, rfl⟩ := List.mem_map.mp h
    exact absurd rfl (bne_iff_ne.mp (List.lookup_eq_none_iff.mp hlook p hp))

/-- `v` is on a page of a segment. -/
def OnSegment (phdrs : List Phdr) (v : BitVec 64) : Prop :=
  ∃ j ∈ jobs phdrs, v >>> 12 = jobVirt j >>> 12

/-- `v` is where the kernel has the database. -/
def OnDatabase (s₀ : Globals) (v : BitVec 64) : Prop :=
  Handoff.kernelPfndbBase.toNat ≤ v.toNat ∧
    v.toNat < Handoff.kernelPfndbBase.toNat + s₀.pfndbSzPgs.toNat * pageSize

instance (s₀ : Globals) (v : BitVec 64) : Decidable (OnDatabase s₀ v) :=
  inferInstanceAs (Decidable (_ ∧ _))

section Built

variable {module : ModuleTag} {phdrs : List Phdr} {s₀ s' s : Globals} {m : PageMap} {n : ℕ}
  {v : BitVec 64}

theorem lookup_identity : (pagesFrom 0 512 (.ofNat 40)).lookup (v >>> 12) =
    if v.toNat < 0x200000 then some (.ofNat 40 (v.toNat / pageSize)) else none := by
  rw [lookup_pagesFrom (by decide) (by decide)]
  simp [pageSize]

theorem OnSegment.bounds (he : LegalElf module phdrs) (h : OnSegment phdrs v) :
    kernelBase.toNat ≤ v.toNat ∧ v.toNat < kernelLimit.toNat := by
  obtain ⟨j, hj, hpage⟩ := h
  have hjob := mem_jobs hj
  obtain ⟨hlo, hhi⟩ := he.inKernel j.1 hjob.load _ hjob.inside
  have haligned := he.jobVirt_aligned hjob
  rw [← he.toNat_jobVirt hjob] at hlo hhi
  rw [page_eq_iff] at hpage
  rw [toNat_kernelBase, toNat_kernelLimit] at *
  rw [pageSize] at *
  omega

theorem ImageMap.lookup_none (h : ImageMap module phdrs s₀ s' m) (hv : ¬ OnSegment phdrs v) :
    m.lookup (v >>> 12) = none := by
  refine lookup_none_of_keys fun hmem => hv ?_
  rw [h.pages] at hmem
  obtain ⟨j, hj, hkey⟩ := List.mem_map.mp hmem
  exact ⟨j, hj, hkey.symm⟩

theorem ImageMap.exists_lookup (h : ImageMap module phdrs s₀ s' m) (hv : OnSegment phdrs v) :
    ∃ f, m.lookup (v >>> 12) = some f := by
  obtain ⟨j, hj, hkey⟩ := hv
  refine exists_lookup_of_keys ?_
  rw [h.pages]
  exact List.mem_map.mpr ⟨j, hj, hkey.symm⟩

theorem DbFits.lookup (h : DbFits s₀) :
    (pagesFrom Handoff.kernelPfndbBase s₀.pfndbSzPgs.toNat (dbFrame s₀.pfndbArr)).lookup
        (v >>> 12) =
      if OnDatabase s₀ v then
        some (dbFrame s₀.pfndbArr ((v.toNat - Handoff.kernelPfndbBase.toNat) / pageSize))
      else none := by
  have hlow := h.low
  refine lookup_pagesFrom (by decide) ?_ _ v
  rw [toNat_kernelPfndbBase]
  rw [pageSize] at *
  omega

theorem lookup_stack (n : ℕ) : List.lookup (v >>> 12) [(kernelStackLimit >>> 12, .ofNat 40 n)] =
    if v >>> 12 = kernelStackLimit >>> 12 then some (.ofNat 40 n) else (none : Option (BitVec 40)) :=
  lookup_page

/-- The address space by its parts. -/
theorem Built.translated_eq (h : Built module phdrs s₀ s' s m n) (hv : Mappable v) :
    translated s v =
      (if v.toNat < 0x200000 then some (.ofNat 40 (v.toNat / pageSize)) else none).or
        ((m.lookup (v >>> 12)).or
          ((if v >>> 12 = kernelStackLimit >>> 12 then some (.ofNat 40 n) else none).or
            (if OnDatabase s₀ v then
              some (dbFrame s₀.pfndbArr ((v.toNat - Handoff.kernelPfndbBase.toNat) / pageSize))
            else none))) := by
  rw [h.maps v hv, spaceMap, List.lookup_append, List.lookup_append, List.lookup_append,
    lookup_identity, lookup_stack, h.db.lookup]

theorem Built.low (h : Built module phdrs s₀ s' s m n) (hv : v.toNat < 0x200000) :
    translateAddr s.mem (rootTable s) v = some v.toNat := by
  have ht := h.translated_eq (mappable_of_low (hv.trans (by decide)))
  rw [if_pos hv, Option.some_or] at ht
  rw [translateAddr, ← translated, ht, Option.map_some, BitVec.toNat_ofNat, pageSize]
  congr 1
  omega

theorem OnDatabase.mappable (h : OnDatabase s₀ v) (hdb : DbFits s₀) : Mappable v := by
  obtain ⟨hlo, hhi⟩ := h
  have hlow := hdb.low
  rw [toNat_kernelPfndbBase] at *
  rw [pageSize] at *
  exact mappable_of_upper (by omega) (by omega)

theorem Built.onDatabase (he : LegalElf module phdrs) (h : Built module phdrs s₀ s' s m n)
    (hv : OnDatabase s₀ v) :
    translateAddr s.mem (rootTable s) v =
      some (s₀.pfndbArr.toNat + (v.toNat - Handoff.kernelPfndbBase.toNat)) := by
  have hlow := h.db.low
  have haligned := h.db.aligned
  have ht := h.translated_eq (hv.mappable h.db)
  have hlo := hv.1
  have hhi := hv.2
  rw [toNat_kernelPfndbBase] at hlo hhi
  have hsegment : ¬ OnSegment phdrs v := fun hs => by
    have hlimit := (hs.bounds he).2
    rw [toNat_kernelLimit] at hlimit
    omega
  have hstack : ¬ v >>> 12 = kernelStackLimit >>> 12 := by
    rw [page_eq_iff, toNat_kernelStackLimit, pageSize]
    omega
  have hhigh : ¬ v.toNat < 0x200000 := by omega
  rw [if_neg hhigh, h.image.lookup_none hsegment, if_neg hstack, if_pos hv, Option.none_or,
    Option.none_or, Option.none_or] at ht
  rw [translateAddr, ← translated, ht, Option.map_some, dbFrame, BitVec.toNat_ofNat,
    toNat_kernelPfndbBase]
  clear ht
  rw [pageSize] at *
  refine congrArg some ?_
  omega

theorem mappable_of_stack (hv : v >>> 12 = kernelStackLimit >>> 12) : Mappable v := by
  have hpage := page_eq_iff.mp hv
  rw [toNat_kernelStackLimit, pageSize] at hpage
  exact mappable_of_upper (by omega) (by omega)

theorem Built.onStack (h : Built module phdrs s₀ s' s m n) (hv : v >>> 12 = kernelStackLimit >>> 12)
    (hsegment : ¬ OnSegment phdrs v) : translated s v = some (.ofNat 40 n) := by
  have hpage := page_eq_iff.mp hv
  rw [toNat_kernelStackLimit, pageSize] at hpage
  have ht := h.translated_eq (mappable_of_stack hv)
  rw [if_neg (by omega), h.image.lookup_none hsegment, if_pos hv, Option.none_or, Option.none_or,
    Option.some_or] at ht
  exact ht

/-- A segment is where the load loop left it. -/
theorem Built.onSegment (he : LegalElf module phdrs) (h : Built module phdrs s₀ s' s m n)
    (hv : OnSegment phdrs v) :
    ∃ f, translated s' v = some f ∧ translated s v = some f ∧
      SegmentPage module phdrs s₀ s' f.toNat := by
  obtain ⟨hbase, hlimit⟩ := hv.bounds he
  have hmap := mappable_of_kernel hbase hlimit
  rw [toNat_kernelBase] at hbase
  obtain ⟨f, hf⟩ := h.image.exists_lookup hv
  have hhigh : ¬ v.toNat < 0x200000 := by omega
  refine ⟨f, ?_, ?_, h.image.held _ (mem_of_lookup hf)⟩
  · rw [h.loaded v hmap, List.lookup_append, lookup_identity, if_neg hhigh, hf]
    rfl
  · rw [h.translated_eq hmap, if_neg hhigh, hf]
    rfl

/-- Nothing else is mapped. -/
theorem Built.isSome_iff (h : Built module phdrs s₀ s' s m n) (hv : Mappable v) :
    (translated s v).isSome ↔ v.toNat < 0x200000 ∨ OnSegment phdrs v ∨
      v >>> 12 = kernelStackLimit >>> 12 ∨ OnDatabase s₀ v := by
  have hsegment : (m.lookup (v >>> 12)).isSome ↔ OnSegment phdrs v := by
    refine ⟨fun hsome => ?_, fun hv => ?_⟩
    · by_contra hnot
      rw [h.image.lookup_none hnot] at hsome
      cases hsome
    · obtain ⟨f, hf⟩ := h.image.exists_lookup hv
      rw [hf]
      rfl
  rw [h.translated_eq hv]
  simp only [Option.isSome_or, Bool.or_eq_true, hsegment, Option.isSome_ite]

/-- What is mapped above the first 2 MiB is not free. -/
theorem Built.not_onFree (h : Built module phdrs s₀ s' s m n) (hv : Mappable v)
    (hhigh : ¬ v.toNat < 0x200000) {f : BitVec 40} (hf : translated s v = some f) :
    ¬ OnFree s f.toNat := by
  rw [h.translated_eq hv, if_neg hhigh, Option.none_or] at hf
  rcases Option.or_eq_some_iff.mp hf with hf | ⟨-, hf⟩
  · exact fun hfree => (h.image.held _ (mem_of_lookup hf)).guarded.taken (h.grows.shrinks _ hfree)
  rcases Option.or_eq_some_iff.mp hf with hf | ⟨-, hf⟩
  · rw [Option.ite_none_right_eq_some] at hf
    obtain ⟨-, rfl⟩ := hf.imp_right Option.some.inj
    rw [BitVec.toNat_ofNat, Nat.mod_eq_of_lt (h.stack.2.trans (by decide))]
    exact h.stack.1.2.taken
  · rw [Option.ite_none_right_eq_some] at hf
    obtain ⟨hin, rfl⟩ := hf.imp_right Option.some.inj
    refine fun hfree => h.database _ ?_ (h.shrinks _ hfree)
    obtain ⟨hlo, hhi⟩ := hin
    rw [pageSize] at *
    omega

end Built

/-- The address space at the hand-over. The load loop left `s'`. -/
structure KernelSpace (phdrs : List Phdr) (s₀ s' s : Globals) : Prop where
  low : ∀ v, v.toNat < 0x200000 → translateAddr s.mem (rootTable s) v = some v.toNat
  database : ∀ i < s₀.totalPhysPgs.toNat, ∀ k < sizeofPage,
    translateAddr s.mem (rootTable s)
        (Handoff.descAddr Handoff.kernelPfndbBase i + .ofNat 64 k) =
      some (s₀.pfndbArr.toNat + i * sizeofPage + k)
  segments : ∀ v, OnSegment phdrs v → ∃ b, readVirt s' v = some b ∧ readVirt s v = some b
  stack : ∃ n, OnFree s' n ∧ ∀ v : BitVec 64, v >>> 12 = kernelStackLimit >>> 12 → ¬ OnSegment phdrs v →
    translated s v = some (.ofNat 40 n)
  mapped : ∀ v, Mappable v → ((translated s v).isSome ↔ v.toNat < 0x200000 ∨
    OnSegment phdrs v ∨ v >>> 12 = kernelStackLimit >>> 12 ∨ OnDatabase s₀ v)

/-- What the allocator can still hand out is no table, and is mapped nowhere above the first
2 MiB. -/
def FreeUnused (s : Globals) : Prop :=
  ∀ n, OnFree s n → NoTable s n ∧
    ∀ v, Mappable v → 0x200000 ≤ v.toNat → translated s v ≠ some (.ofNat 40 n)

section KernelSpace

variable {img : Image} {module : ModuleTag} {mmap : MmapTag} {mem : PhysMem} {phdrs : List Phdr}
  {place : BitVec 64} {s₀ s₁ s' s : Globals}

/-- Every descriptor is on the pages of the database. -/
theorem Machine.onDatabase (hm : Machine img module mmap place)
    (hboot : bootstrapPmm img module.range mmap mem = some s₀) {i k : ℕ}
    (hi : i < s₀.totalPhysPgs.toNat) (hk : k < sizeofPage) :
    OnDatabase s₀ (Handoff.descAddr Handoff.kernelPfndbBase i + .ofNat 64 k) ∧
      (Handoff.descAddr Handoff.kernelPfndbBase i + .ofNat 64 k).toNat =
        Handoff.kernelPfndbBase.toNat + (i * sizeofPage + k) := by
  obtain ⟨place', -, hb⟩ := bootstrapPmm_booted hboot
  have htotal := hm.total
  have hlow := hm.placed.low
  have hsmall : (pfndbBytes mmap.entries).toNat ≤ 2 ^ 32 := by omega
  have hbytes := toNat_pfndbBytes mmap.entries
  have hpages := toNat_pfndbPages hsmall
  rw [hb.pages] at hi
  have haddr : (Handoff.descAddr Handoff.kernelPfndbBase i + .ofNat 64 k).toNat =
      Handoff.kernelPfndbBase.toNat + (i * sizeofPage + k) := by
    rw [Handoff.descAddr, BitVec.add_assoc, ← BitVec.ofNat_add, toNat_add_offset]
    rw [toNat_kernelPfndbBase, sizeofPage] at *
    omega
  refine ⟨?_, haddr⟩
  rw [OnDatabase, haddr, bootstrapPmm_pages hboot, hpages, hbytes]
  rw [sizeofPage, pageSize] at *
  omega

theorem Built.segments (he : LegalElf module phdrs) {m : PageMap} {n : ℕ}
    (h : Built module phdrs s₀ s' s m n) {v : BitVec 64} (hv : OnSegment phdrs v) :
    ∃ b, readVirt s' v = some b ∧ readVirt s v = some b := by
  obtain ⟨f, hbefore, hafter, ⟨hguarded, -⟩⟩ := h.onSegment he hv
  have hsame := (h.grows.keeps _ hguarded.noTable fun hout => hguarded.taken hout.1).2
  refine ⟨_, readVirt_eq hbefore, ?_⟩
  rw [readVirt_eq hafter]
  refine congrArg some (byteAt_congr hsame ?_)
  rw [pageSize]
  omega

theorem BootRun.freeUnused (he : LegalElf module phdrs) (hm : Machine img module mmap place)
    (hrun : BootRun img module mmap mem phdrs s₀ s₁ s' s) : FreeUnused s := by
  obtain ⟨m, k, h⟩ := hrun.built he hm
  intro n hn
  refine ⟨fun p t hp heq => h.inv.taken p t hp (heq.symm ▸ hn), fun v hv hhigh ht => ?_⟩
  have hlt := h.freeLow n hn
  refine h.not_onFree hv (Nat.not_lt.mpr hhigh) ht ?_
  rwa [BitVec.toNat_ofNat, Nat.mod_eq_of_lt (by omega)]

end KernelSpace

/-! The kernel of one page again, taken to the hand-over. -/

theorem Room.mapStack {s : Globals} {k : ℕ} (h : Room s (k + 4)) :
    ∃ s', Loader.mapStack s = some s' ∧ Room s' k := by
  obtain ⟨n, s₁, hn, halloc, hroom⟩ := Room.pmmAllocPage (k := k + 3) h
  obtain ⟨s', hmap, hroom'⟩ := hroom.mapPage (legalCall_stack hn)
  exact ⟨s', Option.bind_eq_some_iff.mpr ⟨(pageAddr n, s₁), halloc, hmap⟩, hroom'⟩

theorem Room.mapPfndb {s : Globals} {k : ℕ} (hdb : DbFits s)
    (h : Room s (k + 3 * s.pfndbSzPgs.toNat)) : ∃ s', Loader.mapPfndb s = some s' := by
  have hstep : ∀ t i k, Room t (k + 3) ∧ SameDb s t → i < s.pfndbSzPgs.toNat →
      ∃ t', mapPfndbPage t i = some t' ∧ Room t' k ∧ SameDb s t' := by
    rintro t i k ⟨hroom, hsame⟩ hi
    have hlegal := (hdb.sameDb hsame).legalCall (hsame.pages ▸ hi)
    obtain ⟨t', hmap, hroom'⟩ := hroom.mapPage hlegal
    exact ⟨t', hmap, hroom', hsame.trans (mapPage_sameDb hmap)⟩
  rw [← List.length_range (n := s.pfndbSzPgs.toNat)] at h
  obtain ⟨s', hrun, -⟩ := exists_run_of_budget (B := fun t k => Room t k ∧ SameDb s t) hstep
    (fun _ => List.mem_range.mp) ⟨h, SameDb.refl s⟩
  rw [run_eq_foldlM] at hrun
  exact ⟨s', hrun⟩

theorem tiny_machine : Machine pcImage tinyModule flatMmap 0x9000 where
  total := by
    have hpages : (totalPages flatMmap.entries).toNat = 0x800 := by decide +kernel
    omega
  placed := ⟨by decide +kernel, by decide +kernel⟩
  fileEnd := by decide

theorem exists_tinyBootRun (mem : PhysMem) :
    ∃ s₀ s₁ s' s, BootRun pcImage tinyModule flatMmap mem [tinyPhdr] s₀ s₁ s' s := by
  have hpages : (totalPages flatMmap.entries).toNat = 0x800 := by decide +kernel
  have hdbPages : (pfndbPages flatMmap.entries).toNat = 16 := by decide +kernel
  obtain ⟨s₀, hboot⟩ := exists_bootstrapPmm mem tiny_machine.placed.found (by omega)
  obtain ⟨place, hplace, hb⟩ := bootstrapPmm_booted hboot
  obtain rfl : 0x9000 = place := Option.some_inj.mp (tiny_machine.placed.found.symm.trans hplace)
  have habove : ∀ r ∈ rangesInForce pcImage tinyModule.range flatMmap 0x9000,
      r.endAddr.toNat ≤ 0x140 * pageSize := by decide +kernel
  have hlen := le_length_freelist (n := 0x800) (by decide) habove
  have hroom : Room s₀ (3 * 16 + 4 + 4 * (jobs [tinyPhdr]).length + 3 * 512 + 1) := by
    rw [tiny_jobs]
    refine ⟨⟨_, hb.pool, hpages ▸ hlen.trans' (by decide)⟩, fun n hn => ?_⟩
    have hlt := (mem_freelist_iff.mp ((onFree_iff hb.pool n).mp hn)).1
    omega
  obtain ⟨s₁, hpaging, hroom⟩ := hroom.startPaging
  obtain ⟨s', hload, hroom⟩ := Room.loadElf tiny_legal tiny_asserts hroom
  have hmain : MainRun pcImage tinyModule flatMmap mem [tinyPhdr] s₀ s₁ s' :=
    ⟨hboot, hpaging, hload⟩
  obtain ⟨u, hstack, hroom⟩ := Room.mapStack hroom
  have hsame := (hmain.sameDb tiny_legal).trans (mapStack_sameDb hstack)
  have hdb := tiny_machine.dbFits hb (bootstrapPmm_pages hboot)
  have hcount : u.pfndbSzPgs.toNat = 16 := by
    rw [hsame.pages, bootstrapPmm_pages hboot, hdbPages]
  obtain ⟨s, hmap⟩ := Room.mapPfndb (k := 0) (hdb.sameDb hsame) (hcount.symm ▸ hroom)
  exact ⟨s₀, s₁, s', s, hmain, Option.bind_eq_some_iff.mpr ⟨u, hstack, hmap⟩⟩

end CxKernel.Loader
