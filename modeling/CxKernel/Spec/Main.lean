import CxKernel.Spec.Boot
import CxKernel.Spec.ElfFile
import CxKernel.Spec.Multiboot

/-! `main` of `loader/x86-64-multiboot2/main.cc`, from the Multiboot information up to the
hand-over, on memory alone: what `Spec/LoadElf.lean` is given, it reads, and it reads it where the
source does. A failed assertion, and a loop that does not end, is `none`. -/

namespace CxKernel.Loader

open Paging Strings ElfFile Multiboot RangeFor

/-- Memory through pointers of 32 bits. -/
def bytes (mem : PhysMem) : Mem 4 := fun p => WordBytes.byteAt 8 mem p.toNat

/-! The Multiboot information. -/

def tagMemory (mem : Mem 4) : TagMemory where
  tagAt p := if p = 0 then none else some ⟨field 4 mem p 0, field 4 mem p 4⟩
  null := rfl

/-- `MULTIBOOT_TAG_TYPE_MODULE` -/
def tagTypeModule : BitVec 32 := 3

/-- `MULTIBOOT_TAG_TYPE_MMAP` -/
def tagTypeMmap : BitVec 32 := 6

/-- `struct multiboot_tag_module` -/
def modStart (mem : Mem 4) (tag : BitVec 32) : BitVec 32 := field 4 mem tag 8

def modEnd (mem : Mem 4) (tag : BitVec 32) : BitVec 32 := field 4 mem tag 12

def cmdline (tag : BitVec 32) : BitVec 32 := tag + 16

/-- The search for the kernel module. `cxkernel` is where the literal lies. -/
def findModule (cxkernel : BitVec 32) (mem : Mem 4) (ptr : BitVec 32) :
    Option (Option (BitVec 32)) :=
  search (tagList (tagMemory mem))
    (fun tag => (strcmp (fun _ => true) mem (cmdline tag) cxkernel).map (· == 0))
    ⟨ptr + 8, tagTypeModule⟩

/-- The search for the memory map. -/
def findMmap (mem : Mem 4) (ptr : BitVec 32) : Option (Option (BitVec 32)) :=
  search (tagList (tagMemory mem)) (fun _ => some true) ⟨ptr + 8, tagTypeMmap⟩

/-- `assert(tag != nullptr)` -/
def notNull (tag : Option (BitVec 32)) : Option (BitVec 32) := tag.filter (· ≠ 0)

/-- `multiboot_memory_map_t` -/
def readEntry (mem : Mem 4) (entry : BitVec 32) : MmapEntry :=
  ⟨field 8 mem entry 0, field 8 mem entry 8, field 4 mem entry 16⟩

/-- The memory map, by the loop that prints it and those of `bootstrap_pmm`. -/
def readMmap (mem : Mem 4) (tag : BitVec 32) : Option MmapTag := do
  let size := field 4 mem tag 4
  let entries ← visitMmap ⟨tag, size, field 4 mem tag 8⟩
  return ⟨tag, size, entries.map (readEntry mem)⟩

def readModule (mem : Mem 4) (tag : BitVec 32) : ModuleTag := ⟨modStart mem tag, modEnd mem tag⟩

/-! The load loop. -/

def readPhdr (mem : Mem 4) (ph : BitVec 32) : Phdr where
  pType := pType mem ph
  pOffset := pOffset mem ph
  pVaddr := pVaddr mem ph
  pFilesz := pFilesz mem ph
  pMemsz := pMemsz mem ph
  pAlign := pAlign mem ph

/-- `for(uint64_t i = 0; i < bound; i += arch::page_size)`, with `bound` read in each round. -/
def forPagesBelow (body : Globals → BitVec 64 → Option Globals) (bound : Globals → BitVec 64)
    (i : BitVec 64) (s : Globals) : Option Globals :=
  haveI forPagesBelow : (Globals → BitVec 64 → Option Globals) → (Globals → BitVec 64) →
    BitVec 64 → Globals → Option Globals := by apply forPagesBelow
  if i < bound s then do
    let s ← body s i
    forPagesBelow body bound (i + .ofNat 64 pageSize) s
  else some s
partial_fixpoint

/-- The body of the load loop, on the header at `ph`. -/
def loadHeader (image : BitVec 32) (s : Globals) (ph : BitVec 32) : Option Globals :=
  let h := readPhdr (bytes s.mem) ph
  if h.pType ≠ ptLoad then some s
  else if h.pAlign ≠ .ofNat 64 pageSize then none
  else if ¬ h.pVaddr ≥ kernelBase then none
  else if ¬ h.pVaddr + h.pMemsz < kernelLimit then none
  else
    let v := h.pVaddr
    let p := image.setWidth 64 + h.pOffset
    if h.pFilesz ≠ h.pMemsz then
      let size := (eblMax h.pFilesz h.pMemsz).setWidth 32
      forPagesBelow (copyPage p v size) (fun s => pageAlignUp (pMemsz (bytes s.mem) ph)) 0 s
    else
      forPagesBelow (fun s i => mapPage s (p + i) (v + i) loadFlags)
        (fun s => pMemsz (bytes s.mem) ph) 0 s

/-- The program headers, from `begin()` to `end()` of `get_header`. -/
def headers (mem : Mem 4) (ctx : Context64 4) : List (BitVec 32) :=
  (List.range (ePhnum mem ctx.img).toNat).map (element sizeofPhdr ctx.phdr)

/-- What `main` hands over: its globals, `kernel_elf` of the state, and the entry point. -/
structure Handed where
  globals : Globals
  kernelElf : BitVec 64
  entry : BitVec 64

/-- From `setup_paging` on, with the tag of the module. -/
def mainFrom (literals : Literals 4) (module : BitVec 32) (s : Globals) : Option Handed := do
  let s ← startPaging s
  let ctx ← (← load literals (bytes s.mem) (modStart (bytes s.mem) module)).toOption
  let s ← (headers (bytes s.mem) ctx).foldlM (loadHeader ctx.img) s
  let s ← finishPaging s
  return ⟨s, (modStart (bytes s.mem) module).setWidth 64, eEntry (bytes s.mem) ctx.img⟩

def main (img : Image) (cxkernel : BitVec 32) (literals : Literals 4) (ptr : BitVec 32)
    (mem : PhysMem) : Option Handed := do
  let module ← notNull (← findModule cxkernel (bytes mem) ptr)
  let mmap ← notNull (← findMmap (bytes mem) ptr)
  let mmap ← readMmap (bytes mem) mmap
  let s ← bootstrapPmm img (readModule (bytes mem) module).range mmap mem
  mainFrom literals module s

end CxKernel.Loader
