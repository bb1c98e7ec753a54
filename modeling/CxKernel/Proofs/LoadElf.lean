import CxKernel.Proofs.LoaderFrame
import CxKernel.Spec.LoadElf

/-! The load loop page by page: what the processor reads at an address, and what one
page of a segment leaves behind, mapped in place or copied. -/

namespace CxKernel.Loader

open Paging WordBytes

/-! Addresses on one page. -/

theorem toNat_add_offset {w : ℕ} {a : BitVec w} {k : ℕ} (h : a.toNat + k < 2 ^ w) :
    (a + .ofNat w k).toNat = a.toNat + k := by
  have hk : k < 2 ^ w := Nat.lt_of_le_of_lt (Nat.le_add_left k _) h
  rw [BitVec.toNat_add, BitVec.toNat_ofNat, Nat.mod_eq_of_lt hk, Nat.mod_eq_of_lt h]

theorem toNat_add_of_aligned {w : ℕ} {a : BitVec w} (hw : 12 ≤ w) (ha : a.toNat % pageSize = 0)
    {k : ℕ} (hk : k < pageSize) : (a + .ofNat w k).toNat = a.toNat + k := by
  have hlt := a.isLt
  have hpow : 2 ^ w = pageSize * 2 ^ (w - 12) := by
    rw [show pageSize = 2 ^ 12 from rfl, ← Nat.pow_add, Nat.add_sub_cancel' hw]
  apply toNat_add_offset
  rw [hpow] at hlt ⊢
  rw [pageSize] at *
  omega

theorem page_add_of_aligned {a : BitVec 64} (ha : a.toNat % pageSize = 0) {k : ℕ}
    (hk : k < pageSize) : (a + .ofNat 64 k) >>> 12 = a >>> 12 := by
  apply BitVec.eq_of_toNat_eq
  rw [BitVec.toNat_ushiftRight, BitVec.toNat_ushiftRight, toNat_add_of_aligned (by decide) ha hk,
    Nat.shiftRight_eq_div_pow, Nat.shiftRight_eq_div_pow]
  rw [pageSize] at *
  omega

/-! Reading. -/

/-- The byte the processor reads at an address, if the walk does not fault. -/
def readVirt (s : Globals) (v : BitVec 64) : Option (BitVec 8) :=
  (translateAddr s.mem (rootTable s) v).map (byteAt 8 s.mem)

theorem readVirt_eq {s : Globals} {v : BitVec 64} {f : BitVec 40}
    (h : translated s v = some f) :
    readVirt s v = some (byteAt 8 s.mem (f.toNat * 4096 + v.toNat % 4096)) := by
  rw [readVirt, translateAddr, ← translated, h]
  rfl

theorem readVirt_add {s : Globals} {v : BitVec 64} {f : BitVec 40}
    (hv : v.toNat % pageSize = 0) (h : translated s v = some f) {k : ℕ} (hk : k < pageSize) :
    readVirt s (v + .ofNat 64 k) = some (byteAt 8 s.mem (f.toNat * pageSize + k)) := by
  rw [readVirt_eq (f := f), toNat_add_of_aligned (by decide) hv hk, pageSize]
  · rw [pageSize] at *
    congr 3
    omega
  · rw [translated_congr s (page_add_of_aligned hv hk)]
    exact h

theorem byteAt_congr {mem mem' : PhysMem} {q a : ℕ}
    (h : ∀ b, b / pageSize = q → mem' b = mem b) (ha : a / pageSize = q) :
    byteAt 8 mem' a = byteAt 8 mem a := by
  have hword : a / 8 * 8 / pageSize = q := by
    rw [← ha, pageSize]
    omega
  rw [byteAt, byteAt, h _ hword]

/-- A page mapped to what is neither a table nor taken reads the same later. -/
theorem Grows.readVirt {s s' : Globals} {v : BitVec 64} {f : BitVec 40} (h : Grows s s')
    (hv : Mappable v) (haligned : v.toNat % pageSize = 0) (ht : translated s v = some f)
    (htable : NoTable s f.toNat) (hout : ¬ HandsOut s s' f.toNat) {k : ℕ} (hk : k < pageSize) :
    readVirt s' (v + .ofNat 64 k) = readVirt s (v + .ofNat 64 k) := by
  rw [readVirt_add haligned ht hk, readVirt_add haligned (h.mapped v f hv ht) hk]
  congr 1
  refine byteAt_congr (h.keeps _ htable hout).2 ?_
  rw [pageSize] at *
  omega

/-! Copying a page. -/

section memcpy

variable {mem : PhysMem} {n : ℕ} (hn : n < 2 ^ 20) {src : BitVec 32}

include hn in
theorem toNat_pagePtr_add {k : ℕ} (hk : k < pageSize) :
    ((pageAddr n).setWidth 32 + .ofNat 32 k).toNat = n * pageSize + k := by
  rw [toNat_add_of_aligned (by decide) (by rw [toNat_pagePtr hn, Nat.mul_mod_left]) hk,
    toNat_pagePtr hn]

include hn in
theorem memcpy_of_page_ne {a : ℕ} (ha : a / pageSize ≠ n) :
    memcpy mem ((pageAddr n).setWidth 32) src pageSize a = mem a := by
  refine copyBytes_of_ne fun k hk he => ha ?_
  rw [toNat_pagePtr_add hn hk] at he
  rw [pageSize] at *
  omega

include hn in
/-- The copy of a page has the bytes of the page, which may be itself. -/
theorem byteAt_memcpy (hsrc : src.toNat % pageSize = 0) {k : ℕ} (hk : k < pageSize) :
    byteAt 8 (memcpy mem ((pageAddr n).setWidth 32) src pageSize) (n * pageSize + k) =
      byteAt 8 mem (src.toNat + k) := by
  have hdst : ∀ i < pageSize, ((pageAddr n).setWidth 32 + .ofNat 32 i).toNat = n * pageSize + i :=
    fun i hi => toNat_pagePtr_add hn hi
  have hat : ∀ i < pageSize, (src + .ofNat 32 i).toNat = src.toNat + i := fun i hi =>
    toNat_add_of_aligned (by decide) hsrc hi
  rw [← hdst k hk, ← hat k hk]
  refine byteAt_copyBytes (by decide) (by decide) ?_ ?_ hk
  · intro i hi j hj
    rw [hdst i hi, hdst j (hj.trans hi)]
    omega
  · intro i hi j hj
    rw [hat i hi, hdst j (hj.trans hi)]
    rw [pageSize] at *
    omega

end memcpy

/-! The kernel range. -/

theorem toNat_kernelBase : kernelBase.toNat = 0xFFFF800000000000 := by decide

theorem toNat_kernelLimit : kernelLimit.toNat = 0xFFFF808000000000 := by decide

theorem mappable_of_kernel {v : BitVec 64} (hbase : kernelBase.toNat ≤ v.toNat)
    (hlimit : v.toNat < kernelLimit.toNat) : Mappable v := by
  rw [toNat_kernelBase] at hbase
  rw [toNat_kernelLimit] at hlimit
  refine ⟨BitVec.eq_of_getLsbD_eq fun k hk => ?_, fun h => ?_⟩
  · have hones : ∀ i < 17, (0x1FFFF : ℕ).testBit i = true := by decide
    have hhigh : ∀ i, 47 ≤ i → i < 64 → v.getLsbD i = true := by
      intro i hi hlt
      have hdiv : v.toNat / 2 ^ 47 = 0x1FFFF := by omega
      have hbit : (v.toNat / 2 ^ 47).testBit (i - 47) = v.toNat.testBit (i - 47 + 47) :=
        Nat.testBit_div_two_pow v.toNat (i - 47)
      rw [hdiv, hones _ (by omega), Nat.sub_add_cancel hi] at hbit
      exact hbit.symm
    rw [canonicalize_getLsbD v hk]
    by_cases h47 : k ≤ 47
    · rw [Nat.min_eq_left h47]
    · rw [Nat.min_eq_right (by omega), hhigh 47 (by omega) (by omega), hhigh k (by omega) hk]
  · have hidx := congrArg BitVec.toNat h
    rw [pml4eIndex, toNat_tableIndex, BitVec.extractLsb'_toNat, Nat.shiftRight_eq_div_pow] at hidx
    simp at hidx
    omega

theorem mappable_of_low {v : BitVec 64} (hv : v.toNat < 2 ^ 47) : Mappable v := by
  have hzero : ∀ i, 47 ≤ i → v.getLsbD i = false := fun i hi =>
    Nat.testBit_lt_two_pow (Nat.lt_of_lt_of_le hv (Nat.pow_le_pow_right (by decide) hi))
  refine ⟨BitVec.eq_of_getLsbD_eq fun k hk => ?_, fun h => ?_⟩
  · rw [canonicalize_getLsbD v hk]
    by_cases h47 : k ≤ 47
    · rw [Nat.min_eq_left h47]
    · rw [Nat.min_eq_right (by omega), hzero 47 (by omega), hzero k (by omega)]
  · have hidx := congrArg BitVec.toNat h
    rw [pml4eIndex, toNat_tableIndex, BitVec.extractLsb'_toNat, Nat.shiftRight_eq_div_pow] at hidx
    simp at hidx
    omega

/-! The program headers. -/

/-- The headers the loop does not pass over. -/
def loads (phdrs : List Phdr) : List Phdr := phdrs.filter (·.pType = ptLoad)

/-- What a file is that fits the loader: headers on pages of their own in the kernel
range, with their data in the file and on whole pages of memory. -/
structure LegalElf (module : ModuleTag) (phdrs : List Phdr) : Prop where
  sizes : ∀ ph ∈ loads phdrs, ph.pFilesz.toNat ≤ ph.pMemsz.toNat
  vaddr : ∀ ph ∈ loads phdrs, ph.pVaddr.toNat % pageSize = 0
  data : ∀ ph ∈ loads phdrs, (module.modStart.toNat + ph.pOffset.toNat) % pageSize = 0
  inFile : ∀ ph ∈ loads phdrs, ∀ k < ph.pFilesz.toNat,
    module.modStart.toNat + ph.pOffset.toNat + k < module.modEnd.toNat
  inKernel : ∀ ph ∈ loads phdrs, ∀ k < ph.pMemsz.toNat,
    kernelBase.toNat ≤ ph.pVaddr.toNat + k ∧ ph.pVaddr.toNat + k < kernelLimit.toNat
  disjoint : (loads phdrs).Pairwise fun ph ph' => ∀ k < ph.pMemsz.toNat,
    ∀ k' < ph'.pMemsz.toNat,
    (ph.pVaddr.toNat + k) / pageSize ≠ (ph'.pVaddr.toNat + k') / pageSize

/-- A page of memory that holds data of a segment. -/
def FilePage (module : ModuleTag) (phdrs : List Phdr) (q : ℕ) : Prop :=
  ∃ ph ∈ loads phdrs, ∃ k < ph.pFilesz.toNat,
    (module.modStart.toNat + ph.pOffset.toNat + k) / pageSize = q

/-- Byte `k` of a segment, by the file. -/
def imageByte (module : ModuleTag) (mem : PhysMem) (ph : Phdr) (k : ℕ) : BitVec 8 :=
  if k < ph.pFilesz.toNat then byteAt 8 mem (module.modStart.toNat + ph.pOffset.toNat + k) else 0

/-! The pages of a segment, one after the other. -/

/-- A page: its header, and its offset in the segment. -/
abbrev Job := Phdr × BitVec 64

def jobVirt (j : Job) : BitVec 64 := j.1.pVaddr + j.2

/-- Where the page is copied from. -/
def copySource (image : BitVec 32) (j : Job) : BitVec 32 :=
  (((image.setWidth 64 + j.1.pOffset).setWidth 32).setWidth 64 + j.2).setWidth 32

/-- One round of the inner loops. -/
def loadPage (image : BitVec 32) (s : Globals) (j : Job) : Option Globals :=
  if j.1.pFilesz ≠ j.1.pMemsz then
    copyPage (image.setWidth 64 + j.1.pOffset) j.1.pVaddr
      ((eblMax j.1.pFilesz j.1.pMemsz).setWidth 32) s j.2
  else mapPage s (image.setWidth 64 + j.1.pOffset + j.2) (jobVirt j) loadFlags

/-- The calls of a round that copies; only the memory changes after them. -/
theorem loadPage_copies {image : BitVec 32} {s s' : Globals} {j : Job}
    (hsize : j.1.pFilesz ≠ j.1.pMemsz) (h : loadPage image s j = some s') :
    ∃ page s₁ s₂ mem, pmmAllocPage s = some (page, s₁) ∧
      mapPage s₁ page (jobVirt j) loadFlags = some s₂ ∧ s' = { s₂ with mem } ∧
      (j.2 < ((eblMax j.1.pFilesz j.1.pMemsz).setWidth 32).setWidth 64 →
        mem = memcpy s₂.mem (page.setWidth 32) (copySource image j) pageSize) := by
  rw [loadPage, if_pos hsize] at h
  obtain ⟨⟨page, s₁⟩, halloc, h⟩ := Option.bind_eq_some_iff.mp h
  obtain ⟨s₂, hmap, h⟩ := Option.bind_eq_some_iff.mp h
  split at h
  · exact ⟨page, s₁, s₂, _, halloc, hmap, (Option.some.inj h).symm, fun _ => rfl⟩
  · next hround =>
    exact ⟨page, s₁, s₂, s₂.mem, halloc, hmap, (Option.some.inj h).symm, fun hlt =>
      absurd hlt hround⟩

theorem loadFlags_ok : FlagsOk loadFlags := by decide

structure PageJob (phdrs : List Phdr) (j : Job) : Prop where
  load : j.1 ∈ loads phdrs
  aligned : j.2.toNat % pageSize = 0
  inside : j.2.toNat < j.1.pMemsz.toNat

section PageJob

variable {module : ModuleTag} {phdrs : List Phdr} {j : Job} (he : LegalElf module phdrs)
  (hj : PageJob phdrs j)

include he hj

theorem LegalElf.toNat_jobVirt : (jobVirt j).toNat = j.1.pVaddr.toNat + j.2.toNat := by
  have hlt := (he.inKernel j.1 hj.load j.2.toNat hj.inside).2
  rw [toNat_kernelLimit] at hlt
  rw [jobVirt, BitVec.toNat_add, Nat.mod_eq_of_lt (by omega)]

theorem LegalElf.jobVirt_aligned : (jobVirt j).toNat % pageSize = 0 := by
  have hv := he.vaddr j.1 hj.load
  have hi := hj.aligned
  rw [he.toNat_jobVirt hj]
  rw [pageSize] at *
  omega

theorem LegalElf.mappable : Mappable (jobVirt j) := by
  obtain ⟨hbase, hlimit⟩ := he.inKernel j.1 hj.load j.2.toNat hj.inside
  rw [← he.toNat_jobVirt hj] at hbase hlimit
  exact mappable_of_kernel hbase hlimit

theorem LegalElf.copySource_aligned : (copySource module.modStart j).toNat % pageSize = 0 := by
  have hd := he.data j.1 hj.load
  have hi := hj.aligned
  simp only [copySource, BitVec.toNat_setWidth, BitVec.toNat_add]
  rw [pageSize] at *
  omega

omit he hj in
theorem toNat_copySource {k : ℕ}
    (hk : module.modStart.toNat + j.1.pOffset.toNat + (j.2.toNat + k) < 2 ^ 32) :
    (copySource module.modStart j).toNat + k =
      module.modStart.toNat + j.1.pOffset.toNat + (j.2.toNat + k) := by
  simp only [copySource, BitVec.toNat_setWidth, BitVec.toNat_add]
  omega

/-- The file data on a page lies where the page is copied from, and mapped from. -/
theorem LegalElf.toNat_data {k : ℕ} (hk : j.2.toNat + k < j.1.pFilesz.toNat) :
    (copySource module.modStart j).toNat + k =
        module.modStart.toNat + j.1.pOffset.toNat + (j.2.toNat + k) ∧
      (module.modStart.setWidth 64 + j.1.pOffset + j.2).toNat + k =
        module.modStart.toNat + j.1.pOffset.toNat + (j.2.toNat + k) := by
  have hin := he.inFile j.1 hj.load _ hk
  have hend := module.modEnd.isLt
  refine ⟨toNat_copySource (by omega), ?_⟩
  simp only [BitVec.toNat_setWidth, BitVec.toNat_add]
  omega

omit he in
theorem PageJob.filePage {k : ℕ} (hk : j.2.toNat + k < j.1.pFilesz.toNat) :
    FilePage module phdrs ((module.modStart.toNat + j.1.pOffset.toNat + (j.2.toNat + k)) /
      pageSize) := ⟨j.1, hj.load, _, hk, rfl⟩

theorem LegalElf.legalCall_inPlace (hsize : j.1.pFilesz = j.1.pMemsz) :
    LegalCall (module.modStart.setWidth 64 + j.1.pOffset + j.2) (jobVirt j) loadFlags := by
  have hin : j.2.toNat + 0 < j.1.pFilesz.toNat := hsize ▸ hj.inside
  have hphys := (he.toNat_data hj hin).2
  have hdata := he.data j.1 hj.load
  have hend := he.inFile j.1 hj.load _ hin
  have hend' := module.modEnd.isLt
  have haligned := hj.aligned
  refine ⟨?_, ?_, he.jobVirt_aligned hj, he.mappable hj, loadFlags_ok⟩
  · omega
  · rw [Nat.add_zero, Nat.add_zero] at hphys
    rw [hphys]
    rw [pageSize] at *
    omega

theorem LegalElf.legalCall_page {n : ℕ} (hn : n < 2 ^ 20) :
    LegalCall (pageAddr n) (jobVirt j) loadFlags := by
  refine ⟨?_, ?_, he.jobVirt_aligned hj, he.mappable hj, loadFlags_ok⟩
  · rw [toNat_pageAddr hn]
    omega
  · rw [toNat_pageAddr hn]
    exact Nat.mul_mod_left n 4096

end PageJob

/-! One page. -/

/-- What a page that was loaded leaves behind: it is mapped to the page `f`. -/
structure PageDone (s s' : Globals) (j : Job) (f : BitVec 40) : Prop where
  inv : Inv s'
  grows : Grows s s'
  mapped : translated s' (jobVirt j) = some f
  noTable : NoTable s' f.toNat
  other : ∀ v, Mappable v → v >>> 12 ≠ jobVirt j >>> 12 → translated s' v = translated s v

/-- A page loaded by a copy: `n` is the page taken for it, `s₂` the state it is copied in. -/
structure PageCopied (image : BitVec 32) (s s' : Globals) (j : Job) (n : ℕ) (s₁ s₂ : Globals) :
    Prop where
  alloc : pmmAllocPage s = some (pageAddr n, s₁)
  map : mapPage s₁ (pageAddr n) (jobVirt j) loadFlags = some s₂
  grows : Grows s s₂
  lists : ∀ k, OnFree s' k ↔ OnFree s₂ k
  out : HandsOut s s' n
  done : PageDone s s' j (.ofNat 40 n)
  bytes : ∀ k < pageSize, byteAt 8 s'.mem (n * pageSize + k) =
    byteAt 8 s₂.mem ((copySource image j).toNat + k)

section loadPage

variable {module : ModuleTag} {phdrs : List Phdr} {j : Job} {s s' : Globals}
  (he : LegalElf module phdrs) (hj : PageJob phdrs j) (hi : Inv s)
  (hnone : translated s (jobVirt j) = none) (h : loadPage module.modStart s j = some s')
  (hlow : ∀ n, HandsOut s s' n → n < 2 ^ 20)

include he hj hi hnone h hlow

/-- Where the sizes agree the page is mapped to where it lies in the file. -/
theorem loadPage_inPlace (hsize : j.1.pFilesz = j.1.pMemsz)
    (hfile : ∀ q, FilePage module phdrs q → NoTable s q ∧ ¬ HandsOut s s' q) :
    ∃ f, PageDone s s' j f ∧ f.toNat * pageSize =
      module.modStart.toNat + j.1.pOffset.toNat + j.2.toNat ∧ FilePage module phdrs f.toNat := by
  let phys := module.modStart.setWidth 64 + j.1.pOffset + j.2
  have hin : j.2.toNat + 0 < j.1.pFilesz.toNat := hsize ▸ hj.inside
  have hphys : phys.toNat = module.modStart.toNat + j.1.pOffset.toNat + j.2.toNat :=
    (he.toNat_data hj hin).2
  have hl : LegalCall phys (jobVirt j) loadFlags := he.legalCall_inPlace hj hsize
  have hframe := hl.frame_mul
  have hpage : FilePage module phdrs (frame phys).toNat := by
    have hq : FilePage module phdrs _ := hj.filePage hin
    rwa [Nat.add_zero, ← hphys, ← hframe, Nat.mul_div_cancel _ (by decide)] at hq
  rw [loadPage, if_neg (not_not.mpr hsize)] at h
  have hmap := hi.mapPage hl h hlow
  have hgrows := hi.mapPage_grows hl h hlow
  refine ⟨frame phys, ⟨hmap.inv, hgrows, ?_, ?_, hmap.other⟩, hframe.trans hphys, hpage⟩
  · rw [hmap.self, hnone, Option.none_or]
  · exact (hgrows.keeps _ (hfile _ hpage).1 (hfile _ hpage).2).1

/-- Where they differ it is mapped to a new page, and the page copied there. -/
theorem loadPage_copied (hsize : j.1.pFilesz ≠ j.1.pMemsz)
    (hsmall : j.1.pMemsz.toNat < 2 ^ 32) :
    ∃ n s₁ s₂, PageCopied module.modStart s s' j n s₁ s₂ := by
  obtain ⟨page, s₁, s₂, mem, halloc, hmap, rfl, hcopy⟩ := loadPage_copies hsize h
  have hround : j.2 < ((eblMax j.1.pFilesz j.1.pMemsz).setWidth 32).setWidth 64 := by
    have hle := he.sizes j.1 hj.load
    have hmax : eblMax j.1.pFilesz j.1.pMemsz = j.1.pMemsz := by
      rw [eblMax, if_pos]
      rw [BitVec.lt_def]
      exact Nat.lt_of_le_of_ne hle fun hn => hsize (BitVec.eq_of_toNat_eq hn)
    have hinside := hj.inside
    rw [hmax, BitVec.lt_def, BitVec.toNat_setWidth, BitVec.toNat_setWidth]
    omega
  replace hcopy := hcopy hround
  -- the lists are as `map_page` left them
  have hw₁ := pmmAllocPage_wellFormed hi.lists halloc
  have hfree := (mapPage_wellFormed hw₁.1 hmap).2
  obtain ⟨n, htake⟩ := hi.takesData halloc fun k hk => hlow k (hk.widen (fun _ hf => hf) hfree)
  obtain rfl := htake.page_eq
  have hout : HandsOut s s₂ n :=
    ⟨htake.takes.free, fun hf => htake.takes.handsOut.2 (hfree n hf)⟩
  have hnat : (BitVec.ofNat 40 n).toNat = n := by
    have hn := htake.low
    rw [BitVec.toNat_ofNat, Nat.mod_eq_of_lt (by omega)]
  have hl := he.legalCall_page hj htake.low
  have hlow₂ : ∀ k, HandsOut s₁ s₂ k → k < 2 ^ 20 := fun k hk =>
    hlow k (hk.widen hw₁.2 fun _ hf => hf)
  have hmapped := htake.inv.mapPage hl hmap hlow₂
  have hgrows := htake.inv.mapPage_grows hl hmap hlow₂
  have htable : NoTable s₂ n :=
    (hgrows.keeps n (htake.noTable hi) fun hk => htake.takes.handsOut.2 hk.1).1
  have hmem : ∀ a, a / pageSize ≠ n → mem a = s₂.mem a := fun a ha =>
    (congrFun hcopy a).trans (memcpy_of_page_ne htake.low ha)
  have htables := sameTables_of_noTable htable hmem
  have hsame : ∀ v, Mappable v → translated s₁ v = translated s v := fun v hv =>
    htake.tables.translated hv
  refine ⟨n, s₁, s₂, halloc, hmap, htake.grows.trans hgrows, fun _ => Iff.rfl, hout, ?_, ?_⟩
  · refine ⟨?_, ?_, ?_, ?_, ?_⟩
    · exact htables.inv hmapped.inv hmapped.inv.lists fun _ hk => hk
    · exact (htake.grows.trans hgrows).overwrite hout htable hmem
    · have hvirt := he.mappable hj
      refine (htables.translated hvirt).trans ?_
      rw [hmapped.self, hsame _ hvirt, hnone, Option.none_or, frame_pageAddr htake.low]
    · rw [hnat]
      exact fun q w hq => htable q w ((htables.leadsTo_iff q w).mp hq)
    · intro v hv hne
      refine (htables.translated hv).trans ?_
      rw [hmapped.other v hv hne, hsame v hv]
  · intro k hk
    change byteAt 8 mem _ = _
    rw [hcopy]
    exact byteAt_memcpy htake.low (he.copySource_aligned hj) hk

end loadPage

end CxKernel.Loader
