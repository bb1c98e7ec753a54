import CxKernel.Spec.LinkedList
import CxKernel.Spec.Paging

/-! `loader/x86-64-multiboot2/mem.cc`: the boot loader's page allocator and page
tables. The loader runs in 32 bits: a pointer is 32 bits wide, `paddr_t` is 64.
A pointer into `pfndb_arr` is the index of its descriptor. A failed assertion is
`none`. -/

namespace CxKernel.Loader

open LinkedList Paging

/-! The memory map handed over by the boot loader before this one. -/

structure MmapEntry where
  addr : BitVec 64
  len : BitVec 64
  type : BitVec 32
deriving DecidableEq

/-- `MULTIBOOT_MEMORY_AVAILABLE` -/
def memoryAvailable : BitVec 32 := 1

/-- The memory map tag: where it lies, its size in bytes, the entries it holds. -/
structure MmapTag where
  addr : BitVec 32
  size : BitVec 32
  entries : List MmapEntry

/-- `struct range`, from its first address to its last or one past it. -/
structure Range where
  beginAddr : BitVec 64
  endAddr : BitVec 64

/-- The parameter `ptr` has 32 bits. -/
def isIn (ptr : BitVec 32) (r : Range) : Bool :=
  ptr.setWidth 64 ≥ r.beginAddr && ptr.setWidth 64 < r.endAddr

/-- Probes the first byte of the page and the first byte past it. -/
def isPageReserved (reserved : List Range) (page : BitVec 64) : Bool :=
  reserved.any fun r =>
    isIn ((page * .ofNat 64 pageSize).setWidth 32) r ||
      isIn (((page + 1) * .ofNat 64 pageSize).setWidth 32) r

/-- The inner loop of `search_run`: no page from `ptr` up to `ptr + pages` is reserved. -/
def hasRun (reserved : List Range) (pages ptr : BitVec 64) : Bool :=
  (List.range ((ptr + pages).toNat - ptr.toNat)).all fun k =>
    !isPageReserved reserved (ptr + .ofNat 64 k)

/-- The outer loop of `search_run`, for as many steps as are left. -/
def searchRunFrom (reserved : List Range) (pages : BitVec 64) : ℕ → BitVec 64 → Option (BitVec 64)
  | 0, _ => none
  | n + 1, ptr =>
    if hasRun reserved pages ptr then some (ptr * .ofNat 64 pageSize)
    else searchRunFrom reserved pages n (ptr + 1)

def searchRun (reserved : List Range) (pages base limit : BitVec 64) : Option (BitVec 64) :=
  let base := base / .ofNat 64 pageSize
  let limit := limit / .ofNat 64 pageSize
  searchRunFrom reserved pages ((limit - pages).toNat - base.toNat) base

/-- The loop that advances `mmap_it` to an available entry. -/
def nextAvailable : List MmapEntry → Option (MmapEntry × List MmapEntry)
  | [] => none
  | e :: rest => if e.type = memoryAvailable then some (e, rest) else nextAvailable rest

/-- `mmap_it` is the list of the entries still ahead. -/
def earlyPmmAllocCts (reserved : List Range) (pages : BitVec 64) :
    ℕ → List MmapEntry → Option (BitVec 64)
  | 0, _ => none
  | slimit + 1, mmapIt =>
    match nextAvailable mmapIt with
    | none => none
    | some (entry, rest) =>
      let pageBas := pageAlignUp entry.addr
      let pageLim := pageAlignDown (entry.addr + entry.len)
      match searchRun reserved pages pageBas pageLim with
      | some result => some result
      | none => earlyPmmAllocCts reserved pages slimit rest

/-- The two lists a descriptor can be on. -/
inductive PfnList where
  | freelist
  | rsrvlist
deriving DecidableEq

/-- The loader's globals, and the memory it writes page tables to. -/
structure Globals where
  pool : Pool PfnList ℕ
  pfndbArr : BitVec 32
  totalPhysPgs : BitVec 64
  pfndbSzBytes : BitVec 64
  pfndbSzPgs : BitVec 64
  mem : PhysMem
  pml4 : BitVec 32

/-- Where the loader's own image lies. -/
structure Image where
  loaderBegin : BitVec 32
  loaderEnd : BitVec 32

/-- `reserved_memory`, with the range of its third entry. -/
def reservedMemory (img : Image) (third other : Range) : List Range :=
  [⟨0, .ofNat 64 pageSize - 1⟩, ⟨img.loaderBegin.setWidth 64, img.loaderEnd.setWidth 64 - 1⟩,
    third, other]

def mmapRange (mmap : MmapTag) : Range :=
  ⟨mmap.addr.setWidth 64, mmap.addr.setWidth 64 + mmap.size.setWidth 64 - 1⟩

/-- The end of the highest available entry, rounded down to a page. -/
def largestPhysAddr (entries : List MmapEntry) : BitVec 64 :=
  pageAlignDown (entries.foldl (fun largest e =>
    if e.type ≠ memoryAvailable then largest else eblMax largest (e.addr + e.len)) 0)

/-- Puts descriptor `i` on the list its page belongs to. -/
def classifyPage (reserved : List Range) (pool : Pool PfnList ℕ) (i : ℕ) :
    Option (Pool PfnList ℕ) :=
  if isPageReserved reserved (.ofNat 64 i) then pool.pushBack .rsrvlist i
  else pool.pushBack .freelist i

/-- `size()` counts in a `size_t` of 32 bits. -/
def pfnListSize (pool : Pool PfnList ℕ) (l : PfnList) : Option (BitVec 32) :=
  (size pool.links (pool.lists l)).map (.ofNat 32)

/-- The ranges reserved while descriptors are classified: the database has taken
the place of the memory map. -/
def pfndbReserved (img : Image) (other : Range) (pfndbArr : BitVec 32) (bytes : BitVec 64) :
    List Range :=
  reservedMemory img ⟨pfndbArr.setWidth 64, pfndbArr.setWidth 64 + bytes⟩ other

def totalPages (entries : List MmapEntry) : BitVec 64 :=
  largestPhysAddr entries / .ofNat 64 pageSize

def pfndbBytes (entries : List MmapEntry) : BitVec 64 :=
  totalPages entries * .ofNat 64 sizeofPage

def pfndbPages (entries : List MmapEntry) : BitVec 64 :=
  pageAlignUp (pfndbBytes entries) / .ofNat 64 pageSize

/-- Where `bootstrap_pmm` puts the database. -/
def pfndbPlace (img : Image) (res : Range) (mmap : MmapTag) : Option (BitVec 64) :=
  earlyPmmAllocCts (reservedMemory img (mmapRange mmap) res) (pfndbPages mmap.entries) 10
    mmap.entries

def bootstrapPmm (img : Image) (res : Range) (mmap : MmapTag) (mem : PhysMem) :
    Option Globals := do
  let totalPhysPgs := totalPages mmap.entries
  let pfndbSzBytes := pfndbBytes mmap.entries
  let pfndbSzPgs := pfndbPages mmap.entries
  let place ← pfndbPlace img res mmap
  let pfndbArr := place.setWidth 32
  -- the descriptors are zeroed: every link is null
  let pool : Pool PfnList ℕ := ⟨⟨fun _ => none, fun _ => none⟩, fun _ => .new⟩
  let pool ← (List.range totalPhysPgs.toNat).foldlM
    (classifyPage (pfndbReserved img res pfndbArr pfndbSzBytes)) pool
  let free ← pfnListSize pool .freelist
  let used ← pfnListSize pool .rsrvlist
  if (free + used).setWidth 64 ≠ totalPhysPgs then none
  else return { pool, pfndbArr, totalPhysPgs, pfndbSzBytes, pfndbSzPgs, mem, pml4 := 0 }

/-- The physical address of the page descriptor `i` stands for. -/
def pageAddr (i : ℕ) : BitVec 64 := .ofNat 64 i * .ofNat 64 pageSize

/-- The page comes off the front of the free list and is cleared. -/
def pmmAllocPage (s : Globals) : Option (BitVec 64 × Globals) := do
  let (node, pool) ← s.pool.popFront .freelist
  let i ← node
  let pool ← pool.pushBack .rsrvlist i
  let page := pageAddr i
  let mem := s.mem.zero (page.setWidth 32).toNat pageSize
  return (page, { s with pool, mem })

/-- A table pointer out of an entry. -/
def tablePtr (data : BitVec 64) : BitVec 32 := (data &&& 0xFFFFF800).setWidth 32

/-- Fill the entry at `addr` with a new table if it is not present. -/
def ensureTable (s : Globals) (addr : ℕ) (flags : BitVec 64) : Option Globals :=
  if present (s.mem addr) then some s
  else do
    let (page, s) ← pmmAllocPage s
    return { s with mem := s.mem.write addr (page ||| 1 ||| flags) }

def mapPage (s : Globals) (phys virt flags : BitVec 64) : Option Globals :=
  if phys % .ofNat 64 pageSize ≠ 0 then none
  else if virt % .ofNat 64 pageSize ≠ 0 then none
  else do
    let pml4e := s.pml4.toNat + 8 * (pml4eIndex virt).toNat
    let s ← ensureTable s pml4e flags
    let pdpte := (tablePtr (s.mem pml4e)).toNat + 8 * (pdpteIndex virt).toNat
    let s ← ensureTable s pdpte flags
    let pde := (tablePtr (s.mem pdpte)).toNat + 8 * (pdeIndex virt).toNat
    let s ← ensureTable s pde flags
    let pte := (tablePtr (s.mem pde)).toNat + 8 * (pteIndex virt).toNat
    if present (s.mem pte) then return s
    else return { s with mem := s.mem.write pte (phys ||| 1 ||| flags) }

/-- `page_flags{.f{.present = 1, .writable = 1, .user = 0}}` -/
def selfFlags : BitVec 64 := 3

/-- The first table, with its last entry naming itself. -/
def setupPaging (s : Globals) : Option (BitVec 64 × Globals) := do
  let (page, s) ← pmmAllocPage s
  let pml4 : BitVec 32 := page.setWidth 32
  let mem := s.mem.zero pml4.toNat pageSize
  let mem := mem.write (pml4.toNat + 8 * 511) (pml4.setWidth 64 ||| selfFlags)
  return (pml4.setWidth 64, { s with mem, pml4 })

end CxKernel.Loader
