import CxKernel.Proofs.KernelWindow
import CxKernel.Proofs.LoaderPages
import CxKernel.Spec.Boot

/-! The address space the loader builds. Each step of `main` from `setup_paging` on adds pages to
those mapped so far, and a page that is mapped stays where it is. -/

namespace CxKernel.Loader

open LinkedList Paging Runs

/-! The database: where it is, and what the lists hold. -/

structure SameDb (s s' : Globals) : Prop where
  arr : s'.pfndbArr = s.pfndbArr
  pages : s'.pfndbSzPgs = s.pfndbSzPgs
  total : s'.totalPhysPgs = s.totalPhysPgs
  lists : ∀ n, PageLists n s → PageLists n s'

theorem SameDb.refl (s : Globals) : SameDb s s := ⟨rfl, rfl, rfl, fun _ => id⟩

theorem SameDb.trans {s s₁ s' : Globals} (h : SameDb s s₁) (h' : SameDb s₁ s') : SameDb s s' :=
  ⟨h'.arr.trans h.arr, h'.pages.trans h.pages, h'.total.trans h.total,
    fun n hn => h'.lists n (h.lists n hn)⟩

theorem SameDb.write {s s' : Globals} (h : SameDb s s') (mem : PhysMem) :
    SameDb s { s' with mem } := ⟨h.arr, h.pages, h.total, h.lists⟩

section SameDb

variable {s s' : Globals}

theorem pmmAllocPage_sameDb {page : BitVec 64} (h : pmmAllocPage s = some (page, s')) :
    SameDb s s' := by
  have hrun : allocRun 1 s = some ([page], s') := by
    simp only [allocRun, h, Option.bind_eq_bind, Option.bind_some, Option.pure_def]
  have hlists : ∀ n, PageLists n s → PageLists n s' := fun n ⟨σ, hσ, hperm, hsort⟩ =>
    allocRun_lists hσ hperm hsort hrun
  obtain ⟨⟨node, pool⟩, -, h⟩ := Option.bind_eq_some_iff.mp h
  obtain ⟨i, -, h⟩ := Option.bind_eq_some_iff.mp h
  obtain ⟨pool', -, h⟩ := Option.bind_eq_some_iff.mp h
  obtain ⟨-, rfl⟩ := Prod.mk.inj (Option.some.inj h)
  exact ⟨rfl, rfl, rfl, hlists⟩

theorem ensureTable_sameDb {addr : ℕ} {flags : BitVec 64}
    (h : ensureTable s addr flags = some s') : SameDb s s' := by
  unfold ensureTable at h
  split at h
  · exact Option.some.inj h ▸ SameDb.refl s
  · obtain ⟨⟨page, s₁⟩, halloc, h⟩ := Option.bind_eq_some_iff.mp h
    obtain rfl := Option.some.inj h
    exact (pmmAllocPage_sameDb halloc).write _

theorem mapPage_sameDb {phys virt flags : BitVec 64}
    (h : mapPage s phys virt flags = some s') : SameDb s s' := by
  obtain ⟨s₁, s₂, s₃, h₁, h₂, h₃, hlast⟩ := mapPage_steps h
  have hsame : SameDb s s₃ :=
    ((ensureTable_sameDb h₁).trans (ensureTable_sameDb h₂)).trans (ensureTable_sameDb h₃)
  rw [hlast]
  split
  · exact hsame
  · exact hsame.write _

theorem loadPage_sameDb {image : BitVec 32} {j : Job} (h : loadPage image s j = some s') :
    SameDb s s' := by
  by_cases hsize : j.1.pFilesz = j.1.pMemsz
  · rw [loadPage, if_neg (not_not.mpr hsize)] at h
    exact mapPage_sameDb h
  · obtain ⟨page, s₁, s₂, mem, halloc, hmap, rfl, -⟩ := loadPage_copies hsize h
    exact ((pmmAllocPage_sameDb halloc).trans (mapPage_sameDb hmap)).write _

theorem sameDb_run {A : Type} {step : Globals → A → Option Globals} {acts : List A}
    (hstep : ∀ s a s', step s a = some s' → SameDb s s') (h : run step s acts = some s') :
    SameDb s s' := by
  induction acts generalizing s with
  | nil => exact Option.some.inj h ▸ SameDb.refl s
  | cons a acts ih =>
    obtain ⟨s₁, h₁, hrun⟩ := run_cons.mp h
    exact (hstep s a s₁ h₁).trans (ih hrun)

theorem setupPaging_sameDb {ret : BitVec 64} (h : setupPaging s = some (ret, s')) :
    SameDb s s' := by
  obtain ⟨⟨page, s₁⟩, halloc, h⟩ := Option.bind_eq_some_iff.mp h
  obtain ⟨-, rfl⟩ := Prod.mk.inj (Option.some.inj h)
  have hsame := pmmAllocPage_sameDb halloc
  exact ⟨hsame.arr, hsame.pages, hsame.total, hsame.lists⟩

end SameDb

/-! Steps that only add. -/

/-- Virtual pages, by their numbers, and the page each is to be mapped to: the first one
counts. -/
abbrev PageMap := List (BitVec 64 × BitVec 40)

structure Adds (s s' : Globals) (m : PageMap) : Prop where
  inv : Inv s'
  grows : Grows s s'
  maps : ∀ v, Mappable v → translated s' v = (translated s v).or (m.lookup (v >>> 12))

/-- Page `n` is in use for something else than a table. -/
structure Guarded (s : Globals) (n : ℕ) : Prop where
  noTable : NoTable s n
  taken : ¬ OnFree s n

/-- All that can be taken lies below 4 GiB. -/
def FreeLow (s : Globals) : Prop := ∀ n, OnFree s n → n < 2 ^ 20

section Adds

variable {s s₁ s' : Globals} {m m' : PageMap}

theorem Adds.refl (hi : Inv s) : Adds s s [] :=
  ⟨hi, Grows.refl s, fun _ _ => Option.or_none.symm⟩

theorem Adds.trans (h : Adds s s₁ m) (h' : Adds s₁ s' m') : Adds s s' (m ++ m') := by
  refine ⟨h'.inv, h.grows.trans h'.grows, fun v hv => ?_⟩
  rw [h'.maps v hv, h.maps v hv, List.lookup_append, Option.or_assoc]

theorem FreeLow.handsOut (hlow : FreeLow s) : ∀ n, HandsOut s s' n → n < 2 ^ 20 :=
  fun n hn => hlow n hn.1

theorem FreeLow.grows (hlow : FreeLow s) (h : Grows s s') : FreeLow s' :=
  fun n hn => hlow n (h.shrinks n hn)

theorem Guarded.grows {n : ℕ} (hn : Guarded s n) (h : Grows s s') : Guarded s' n where
  noTable := (h.keeps n hn.noTable fun hout => hn.taken hout.1).1
  taken hfree := hn.taken (h.shrinks n hfree)

/-- One page added to those mapped. -/
theorem lookup_page {v w : BitVec 64} {f : BitVec 40} :
    List.lookup (v >>> 12) [(w >>> 12, f)] = if v >>> 12 = w >>> 12 then some f else none := by
  rw [List.lookup_cons, List.lookup_nil]
  by_cases hpage : v >>> 12 = w >>> 12
  · rw [if_pos hpage, beq_iff_eq.mpr hpage]
  · rw [if_neg hpage, beq_false_of_ne hpage]

theorem Inv.mapPage_adds {phys virt flags : BitVec 64} (hi : Inv s) (hlow : FreeLow s)
    (hl : LegalCall phys virt flags) (h : Loader.mapPage s phys virt flags = some s') :
    Adds s s' [(virt >>> 12, frame phys)] := by
  have hmap := hi.mapPage hl h hlow.handsOut
  refine ⟨hmap.inv, hi.mapPage_grows hl h hlow.handsOut, fun v hv => ?_⟩
  rw [lookup_page]
  split
  · next hpage => rw [translated_congr s' hpage, translated_congr s hpage, hmap.self]
  · next hpage => rw [Option.or_none, hmap.other v hv hpage]

theorem TakesData.adds {page : BitVec 64} {n : ℕ} (h : TakesData s s' page n) : Adds s s' [] := by
  refine ⟨h.inv, h.grows, fun v hv => ?_⟩
  rw [h.tables.translated hv]
  exact Option.or_none.symm

theorem TakesData.guarded {page : BitVec 64} {n : ℕ} (h : TakesData s s' page n) (hi : Inv s) :
    Guarded s' n := ⟨h.noTable hi, h.takes.handsOut.2⟩

theorem PageDone.adds {j : Job} {f : BitVec 40} (h : PageDone s s' j f)
    (hnone : translated s (jobVirt j) = none) : Adds s s' [(jobVirt j >>> 12, f)] := by
  refine ⟨h.inv, h.grows, fun v hv => ?_⟩
  rw [lookup_page]
  split
  · next hpage =>
    rw [translated_congr s' hpage, translated_congr s hpage, hnone, h.mapped, Option.none_or]
  · next hpage => rw [Option.or_none, h.other v hv hpage]

/-- A run of calls of `map_page`. -/
theorem adds_run {A : Type} {step : Globals → A → Option Globals} {I : Globals → Prop}
    {P : A → Prop} {call : A → BitVec 64 × BitVec 40} {acts : List A}
    (hinv : ∀ s, I s → Inv s)
    (hstep : ∀ s a s', I s → P a → step s a = some s' → I s' ∧ Adds s s' [call a])
    (hI : I s) (hP : ∀ a ∈ acts, P a) (hrun : run step s acts = some s') :
    I s' ∧ Adds s s' (acts.map call) := by
  induction acts generalizing s with
  | nil =>
    obtain rfl := Option.some.inj hrun
    exact ⟨hI, Adds.refl (hinv s hI)⟩
  | cons a acts ih =>
    obtain ⟨ha, hrest⟩ := List.forall_mem_cons.mp hP
    obtain ⟨s₁, h₁, hrun₁⟩ := run_cons.mp hrun
    obtain ⟨hI₁, hadds⟩ := hstep s a s₁ hI ha h₁
    obtain ⟨hI', hadds'⟩ := ih hI₁ hrest hrun₁
    exact ⟨hI', hadds.trans hadds'⟩

end Adds

/-! The loops. -/

/-- So many pages from `base` on, page `i` to be mapped to `f i`. -/
def pagesFrom (base : BitVec 64) (n : ℕ) (f : ℕ → BitVec 40) : PageMap :=
  (List.range n).map fun i => ((base + .ofNat 64 (i * pageSize)) >>> 12, f i)

theorem lookup_pagesFrom {base : BitVec 64} {n : ℕ} (haligned : base.toNat % pageSize = 0)
    (hfit : base.toNat + n * pageSize ≤ 2 ^ 64) (f : ℕ → BitVec 40) (v : BitVec 64) :
    (pagesFrom base n f).lookup (v >>> 12) =
      if base.toNat ≤ v.toNat ∧ v.toNat < base.toNat + n * pageSize then
        some (f ((v.toNat - base.toNat) / pageSize)) else none := by
  rw [pageSize] at *
  induction n with
  | zero =>
    have hout : ¬ (base.toNat ≤ v.toNat ∧ v.toNat < base.toNat + 0 * 4096) := by omega
    rw [if_neg hout]
    rfl
  | succ n ih =>
    replace ih := ih ((Nat.add_le_add_left (Nat.mul_le_mul_right _ n.le_succ) _).trans hfit)
    have hnat : (base + .ofNat 64 (n * 4096)).toNat = base.toNat + n * 4096 :=
      toNat_add_offset (by omega)
    have hlast : v >>> 12 = (base + .ofNat 64 (n * 4096)) >>> 12 ↔
        base.toNat + n * 4096 ≤ v.toNat ∧ v.toNat < base.toNat + (n + 1) * 4096 := by
      rw [page_eq_iff, hnat, pageSize]
      omega
    have hsplit : pagesFrom base (n + 1) f =
        pagesFrom base n f ++ [((base + .ofNat 64 (n * 4096)) >>> 12, f n)] := by
      rw [pagesFrom, List.range_succ, List.map_append]
      rfl
    have hgrow : base.toNat ≤ v.toNat ∧ v.toNat < base.toNat + (n + 1) * 4096 ↔
        (base.toNat ≤ v.toNat ∧ v.toNat < base.toNat + n * 4096) ∨
          v >>> 12 = (base + .ofNat 64 (n * 4096)) >>> 12 := by
      rw [hlast]
      omega
    rw [hsplit, List.lookup_append, lookup_page, ih]
    simp only [hgrow]
    by_cases hin : base.toNat ≤ v.toNat ∧ v.toNat < base.toNat + n * 4096
    · simp [hin]
    by_cases hpage : v >>> 12 = (base + .ofNat 64 (n * 4096)) >>> 12
    · have hindex : (v.toNat - base.toNat) / 4096 = n := by
        have hv := hlast.mp hpage
        omega
      simp [hin, hpage, hindex]
    · simp [hin, hpage]

theorem frame_ofNat_page (i : ℕ) : frame (.ofNat 64 (i * pageSize)) = .ofNat 40 i := by
  apply BitVec.eq_of_toNat_eq
  rw [toNat_frame, BitVec.toNat_ofNat, BitVec.toNat_ofNat, pageSize]
  omega

theorem identityMap_adds {s s' : Globals} (hi : Inv s) (hlow : FreeLow s)
    (h : identityMap s = some s') : Adds s s' (pagesFrom 0 512 (.ofNat 40)) := by
  rw [identityMap_eq_run] at h
  have hstep : ∀ s i s', Inv s ∧ FreeLow s → i < 512 → identityPage s i = some s' →
      (Inv s' ∧ FreeLow s') ∧
        Adds s s' [(((0 : BitVec 64) + .ofNat 64 (i * pageSize)) >>> 12, .ofNat 40 i)] := by
    rintro s i s' ⟨hi, hlow⟩ hlt h
    have hadds := hi.mapPage_adds hlow (legalCall_identity hlt) h
    rw [frame_ofNat_page, ← BitVec.zero_add (.ofNat 64 _)] at hadds
    exact ⟨⟨hadds.inv, hlow.grows hadds.grows⟩, hadds⟩
  exact (adds_run (fun _ h => h.1) hstep ⟨hi, hlow⟩ (fun _ => List.mem_range.mp) h).2

/-! The database. -/

theorem toNat_kernelPfndbBase : Handoff.kernelPfndbBase.toNat = 0xFFFF810000000000 := by decide

theorem mappable_of_upper {v : BitVec 64} (hbase : 0xFFFF800000000000 ≤ v.toNat)
    (hself : v.toNat < 0xFFFFFF8000000000) : Mappable v := by
  have hones : v.toNat / 2 ^ 47 = 2 ^ 17 - 1 := by omega
  have hhigh : ∀ i, 47 ≤ i → i < 64 → v.getLsbD i = true := by
    intro i hi hlt
    have hbit := Nat.testBit_div_two_pow (n := 47) v.toNat (i - 47)
    rw [hones, Nat.testBit_two_pow_sub_one, Nat.sub_add_cancel hi] at hbit
    rw [BitVec.getLsbD, ← hbit, decide_eq_true (by omega)]
  refine ⟨canonical_iff.mpr fun k hk hlt => ?_, fun h => ?_⟩
  · rw [hhigh k hk hlt, hhigh 47 (Nat.le_refl 47) (by decide)]
  · have hidx := congrArg BitVec.toNat h
    rw [pml4eIndex, toNat_tableIndex, BitVec.extractLsb'_toNat, Nat.shiftRight_eq_div_pow] at hidx
    simp at hidx
    omega

/-- The array lies on whole pages below 4 GiB. -/
structure DbFits (s : Globals) : Prop where
  aligned : s.pfndbArr.toNat % pageSize = 0
  low : s.pfndbArr.toNat + s.pfndbSzPgs.toNat * pageSize ≤ 2 ^ 32

theorem DbFits.sameDb {s s' : Globals} (h : DbFits s) (hsame : SameDb s s') : DbFits s' :=
  ⟨hsame.arr ▸ h.aligned, by rw [hsame.arr, hsame.pages]; exact h.low⟩

/-- The number of the page that page `i` of the array lies on. -/
def dbFrame (arr : BitVec 32) (i : ℕ) : BitVec 40 := .ofNat 40 (arr.toNat / pageSize + i)

section Database

variable {s s' : Globals} {i : ℕ}

theorem DbFits.toNat_page (h : DbFits s) (hi : i < s.pfndbSzPgs.toNat) :
    (s.pfndbArr.setWidth 64 + .ofNat 64 (i * pageSize)).toNat =
      s.pfndbArr.toNat + i * pageSize := by
  have hlow := h.low
  have harr := s.pfndbArr.isLt
  rw [pageSize] at *
  rw [toNat_add_offset, BitVec.toNat_setWidth, Nat.mod_eq_of_lt (by omega)]
  rw [BitVec.toNat_setWidth]
  omega

theorem DbFits.frame_page (h : DbFits s) (hi : i < s.pfndbSzPgs.toNat) :
    frame (s.pfndbArr.setWidth 64 + .ofNat 64 (i * pageSize)) = dbFrame s.pfndbArr i := by
  have hlow := h.low
  apply BitVec.eq_of_toNat_eq
  rw [toNat_frame, h.toNat_page hi, dbFrame, BitVec.toNat_ofNat]
  rw [pageSize] at *
  omega

theorem DbFits.legalCall (h : DbFits s) (hi : i < s.pfndbSzPgs.toNat) :
    LegalCall (s.pfndbArr.setWidth 64 + .ofNat 64 (i * pageSize))
      (Handoff.kernelPfndbBase + .ofNat 64 (i * pageSize)) loadFlags := by
  have hlow := h.low
  have haligned := h.aligned
  have hphys := h.toNat_page hi
  have hvirt : (Handoff.kernelPfndbBase + .ofNat 64 (i * pageSize)).toNat =
      0xFFFF810000000000 + i * pageSize := by
    rw [toNat_add_offset, toNat_kernelPfndbBase]
    rw [toNat_kernelPfndbBase]
    rw [pageSize] at *
    omega
  rw [pageSize] at *
  refine ⟨?_, ?_, ?_, mappable_of_upper ?_ ?_, loadFlags_ok⟩
  · omega
  · rw [hphys, pageSize]
    omega
  · rw [hvirt, pageSize]
    omega
  · omega
  · omega

theorem mapPfndb_adds (hi : Inv s) (hlow : FreeLow s) (hdb : DbFits s)
    (h : mapPfndb s = some s') :
    Adds s s' (pagesFrom Handoff.kernelPfndbBase s.pfndbSzPgs.toNat (dbFrame s.pfndbArr)) := by
  rw [mapPfndb, ← run_eq_foldlM] at h
  have hstep : ∀ t i t', (Inv t ∧ FreeLow t ∧ SameDb s t) → i < s.pfndbSzPgs.toNat →
      mapPfndbPage t i = some t' → (Inv t' ∧ FreeLow t' ∧ SameDb s t') ∧ Adds t t'
        [((Handoff.kernelPfndbBase + .ofNat 64 (i * pageSize)) >>> 12, dbFrame s.pfndbArr i)] := by
    rintro t i t' ⟨hi, hlow, hsame⟩ hlt h
    have hdb' := hdb.sameDb hsame
    have hlt' : i < t.pfndbSzPgs.toNat := hsame.pages ▸ hlt
    have hadds := hi.mapPage_adds hlow (hdb'.legalCall hlt') h
    rw [hdb'.frame_page hlt', hsame.arr] at hadds
    exact ⟨⟨hadds.inv, hlow.grows hadds.grows, hsame.trans (mapPage_sameDb h)⟩, hadds⟩
  exact (adds_run (fun _ h => h.1) hstep ⟨hi, hlow, SameDb.refl s⟩ (fun _ => List.mem_range.mp)
    h).2

end Database

/-! The stack. -/

theorem legalCall_stack {n : ℕ} (hn : n < 2 ^ 20) :
    LegalCall (pageAddr n) kernelStackLimit loadFlags := by
  have hpage := toNat_pageAddr hn
  refine ⟨?_, ?_, by decide, ⟨by decide, by decide⟩, loadFlags_ok⟩
  · rw [hpage]
    omega
  · rw [hpage]
    exact Nat.mul_mod_left n 4096

theorem mapStack_adds {s s' : Globals} (hi : Inv s) (hlow : FreeLow s)
    (h : mapStack s = some s') :
    ∃ n, OnFree s n ∧ Guarded s' n ∧ Adds s s' [(kernelStackLimit >>> 12, .ofNat 40 n)] := by
  obtain ⟨⟨page, s₁⟩, halloc, hmap⟩ := Option.bind_eq_some_iff.mp h
  obtain ⟨n, htake⟩ := hi.takesData halloc hlow.handsOut
  obtain rfl := htake.page_eq
  have hadds := htake.inv.mapPage_adds (hlow.grows htake.grows) (legalCall_stack htake.low) hmap
  rw [frame_pageAddr htake.low] at hadds
  exact ⟨n, htake.takes.free, (htake.guarded hi).grows hadds.grows, htake.adds.trans hadds⟩

/-! The kernel's segments. -/

/-- Page `n` holds a part of a segment: it is the file's, or was free in `s`. -/
structure SegmentPage (module : ModuleTag) (phdrs : List Phdr) (s s' : Globals) (n : ℕ) : Prop where
  guarded : Guarded s' n
  origin : FilePage module phdrs n ∨ OnFree s n

/-- What the pages of the segments are mapped to. -/
structure ImageMap (module : ModuleTag) (phdrs : List Phdr) (s s' : Globals) (m : PageMap) :
    Prop where
  pages : m.map Prod.fst = (jobs phdrs).map fun j => jobVirt j >>> 12
  held : ∀ p ∈ m, SegmentPage module phdrs s s' p.2.toNat

section Loading

variable {module : ModuleTag} {phdrs : List Phdr} {mem : PhysMem} {F : ℕ → Prop}
  {s s₁ s' : Globals} {j : Job} {js : List Job} (he : LegalElf module phdrs)

include he

theorem Loading.page (hl : Loading module phdrs mem F s s' (j :: js))
    (hres : ∀ q, F q → ¬ OnFree s q) (hstep : loadPage module.modStart s j = some s₁)
    (hfree : ∀ n, OnFree s' n → OnFree s₁ n) :
    ∃ f, PageDone s s₁ j f ∧ SegmentPage module phdrs s s₁ f.toNat := by
  by_cases hsize : j.1.pFilesz = j.1.pMemsz
  · obtain ⟨f, hdone, hpage, -⟩ := hl.inPlace he hstep hfree hsize
    refine ⟨f, hdone, ⟨hdone.noTable, fun hn => ?_⟩, Or.inl hpage⟩
    exact hres _ (hl.data _ hpage) (hdone.grows.shrinks _ hn)
  · obtain ⟨n, s₂, s₃, hn, hcopy⟩ := hl.copy he hstep hfree hsize
    have hout : HandsOut s s₁ (BitVec.ofNat 40 n).toNat := by
      rw [BitVec.toNat_ofNat, Nat.mod_eq_of_lt (by omega)]
      exact hcopy.out
    exact ⟨_, hcopy.done, ⟨hcopy.done.noTable, hout.2⟩, Or.inr hout.1⟩

theorem Loading.adds (hl : Loading module phdrs mem F s s' js)
    (hres : ∀ q, F q → ¬ OnFree s q) (hrun : run (loadPage module.modStart) s js = some s') :
    ∃ m : PageMap, m.map Prod.fst = js.map (fun j => jobVirt j >>> 12) ∧
      (∀ p ∈ m, SegmentPage module phdrs s s' p.2.toNat) ∧ Adds s s' m := by
  induction js generalizing s with
  | nil =>
    obtain rfl := Option.some.inj hrun
    exact ⟨[], rfl, fun _ hp => absurd hp List.not_mem_nil, Adds.refl hl.inv⟩
  | cons j js ih =>
    obtain ⟨s₁, hstep, hrun₁⟩ := run_cons.mp hrun
    obtain ⟨hs₁, -⟩ := shrinks_loadPage hl.inv.lists hstep
    obtain ⟨-, hfree⟩ := shrinks_loadPages hs₁.1 hrun₁
    obtain ⟨f, hdone, hpage⟩ := hl.page he hres hstep hfree
    have hshrinks := hdone.grows.shrinks
    obtain ⟨m, hpages, hm, hadds⟩ := ih (hl.next he hdone hfree)
      (fun q hq hn => hres q hq (hshrinks q hn)) hrun₁
    have hadds' := (hdone.adds (hl.unmapped j List.mem_cons_self)).trans hadds
    refine ⟨(jobVirt j >>> 12, f) :: m, ?_, List.forall_mem_cons.mpr ⟨?_, fun p hp => ?_⟩, hadds'⟩
    · rw [List.map_cons, List.map_cons, hpages]
    · exact ⟨hpage.guarded.grows hadds.grows, hpage.origin⟩
    · exact ⟨(hm p hp).guarded, (hm p hp).origin.imp_right (hshrinks _)⟩

end Loading

end CxKernel.Loader
