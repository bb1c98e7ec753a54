import CxKernel.Lib.WordBytes
import CxKernel.Spec.Handoff

/-! `loader/x86-64-multiboot2/main.cc` from `bootstrap_pmm` to the end of the load loop.
The program header table is the list of the headers `get_header` goes through. A failed
assertion, and a loop that does not end, is `none`. -/

namespace CxKernel.Loader

open Paging

def kernelBase : BitVec 64 := virtFromIndex Handoff.kernelPml4Idx 0 0 0

def kernelLimit : BitVec 64 := virtFromIndex (Handoff.kernelPml4Idx + 1) 0 0 0

def kernelStackLimit : BitVec 64 := kernelLimit - .ofNat 64 pageSize

/-- `page_flags{.f{.writable = 1, .user = 0}}` -/
def loadFlags : BitVec 64 := 2

/-- `struct multiboot_tag_module`: where the kernel's ELF file lies. -/
structure ModuleTag where
  modStart : BitVec 32
  modEnd : BitVec 32

/-- The one range `main` has reserved. -/
def ModuleTag.range (module : ModuleTag) : Range :=
  ⟨module.modStart.setWidth 64, (module.modEnd - 1).setWidth 64⟩

/-- `elf64_phdr_t`, with the fields the loader reads. -/
structure Phdr where
  pType : BitVec 32
  pOffset : BitVec 64
  pVaddr : BitVec 64
  pFilesz : BitVec 64
  pMemsz : BitVec 64
  pAlign : BitVec 64

/-- `PT_LOAD` -/
def ptLoad : BitVec 32 := 1

/-- `ebl::memcpy`, through pointers of 32 bits. -/
def memcpy (mem : PhysMem) (dest src : BitVec 32) (len : ℕ) : PhysMem :=
  WordBytes.copyBytes 8 mem (fun k => (dest + .ofNat 32 k).toNat)
    (fun k => (src + .ofNat 32 k).toNat) len

/-- `for(uint64_t i = 0; i < bound; i += arch::page_size)`, from `i` on. -/
def forPages (body : Globals → BitVec 64 → Option Globals) (bound i : BitVec 64) (s : Globals) :
    Option Globals :=
  haveI forPages : (Globals → BitVec 64 → Option Globals) → BitVec 64 → BitVec 64 → Globals →
    Option Globals := by apply forPages
  if i < bound then do
    let s ← body s i
    forPages body bound (i + .ofNat 64 pageSize) s
  else some s
partial_fixpoint

/-- One page of a segment whose sizes in the file and in memory differ. -/
def copyPage (p v : BitVec 64) (size : BitVec 32) (s : Globals) (i : BitVec 64) :
    Option Globals := do
  let (page, s) ← pmmAllocPage s
  let s ← mapPage s page (v + i) loadFlags
  if i < size.setWidth 64 then
    let src := ((p.setWidth 32).setWidth 64 + i).setWidth 32
    return { s with mem := memcpy s.mem (page.setWidth 32) src pageSize }
  else return s

/-- `image` is `ctx.get_image()`. -/
def loadSegment (image : BitVec 32) (s : Globals) (ph : Phdr) : Option Globals :=
  if ph.pType ≠ ptLoad then some s
  else if ph.pAlign ≠ .ofNat 64 pageSize then none
  else if ¬ ph.pVaddr ≥ kernelBase then none
  else if ¬ ph.pVaddr + ph.pMemsz < kernelLimit then none
  else
    let v := ph.pVaddr
    let p := image.setWidth 64 + ph.pOffset
    if ph.pFilesz ≠ ph.pMemsz then
      -- a `size_t`, of 32 bits here
      let size := (eblMax ph.pFilesz ph.pMemsz).setWidth 32
      forPages (copyPage p v size) (pageAlignUp ph.pMemsz) 0 s
    else forPages (fun s i => mapPage s (p + i) (v + i) loadFlags) ph.pMemsz 0 s

def loadElf (image : BitVec 32) (phdrs : List Phdr) (s : Globals) : Option Globals :=
  phdrs.foldlM (loadSegment image) s

/-- The lower 2 MiB, mapped to where they are. -/
def identityMap (s : Globals) : Option Globals :=
  (List.range (0x200000 / pageSize)).foldlM
    (fun s i => mapPage s (.ofNat 64 (i * pageSize)) (.ofNat 64 (i * pageSize)) loadFlags) s

/-- `main` from `setup_paging` up to the load loop. -/
def startPaging (s : Globals) : Option Globals := do
  let (_, s) ← setupPaging s
  identityMap s

end CxKernel.Loader
