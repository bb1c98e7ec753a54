import CxKernel.Spec.Loader
import CxKernel.Spec.Pmm

/-! The hand-over of the page database: `loader/x86-64-multiboot2/main.cc` from the
shift of its pointers on, and the kernel's side in `loaderabi.h`, `core/vm.h` and
`core/main.cc`. A link is a union of a pointer and a 64-bit word, of which the loader
reads and writes the low 32 bits and the kernel reads all. -/

namespace CxKernel.Handoff

open LinkRing LinkedList Paging Loader

/-- `virt0_` and `virt1_` of each descriptor: the words over `next` and `prev`. -/
structure PfnDb where
  virt0 : ℕ → BitVec 64
  virt1 : ℕ → BitVec 64

/-- `virt0_` of each list object: the word over `root`. -/
abbrev Heads := PfnList → BitVec 64

def kernelPml4Idx : BitVec 16 := pml4eIndex 0xFFFF800000000000

def kernelPfndbBase : BitVec 64 := virtFromIndex (kernelPml4Idx + 2) 0 0 0

section View

variable {w : ℕ}

/-- The pointer a program with `w`-bit pointers reads out of a union. -/
def ptr (w : ℕ) (word : BitVec 64) : Option (BitVec w) :=
  if word.setWidth w = 0 then none else some (word.setWidth w)

/-- `&base[i]` -/
def descAddr (base : BitVec w) (i : ℕ) : BitVec w := base + .ofNat w (i * sizeofPage)

/-- The descriptor at an address, if there is one. -/
def descIndex (base : BitVec w) (total : ℕ) (a : BitVec w) : Option ℕ :=
  let i := (a - base).toNat / sizeofPage
  if i < total ∧ descAddr base i = a then some i else none

/-- The page lists as a program sees them that has the array at `base`. -/
def view (base : BitVec w) (total : ℕ) (db : PfnDb) (heads : Heads) : Pool PfnList (BitVec w) where
  links :=
    { next := fun a => (descIndex base total a).bind fun i => ptr w (db.virt0 i)
      prev := fun a => (descIndex base total a).bind fun i => ptr w (db.virt1 i) }
  lists l := ⟨ptr w (heads l)⟩

end View

/-- A pointer stored by the loader. -/
def storePtr (word : BitVec 64) (p : BitVec 32) : BitVec 64 :=
  (word &&& 0xFFFFFFFF00000000) ||| p.setWidth 64

def shiftWord (offset word : BitVec 64) : BitVec 64 :=
  if word ≠ 0 then word + offset else word

/-- `IntrusiveListNode::shift` -/
def PfnDb.shift (db : PfnDb) (offset : BitVec 64) (i : ℕ) : PfnDb where
  virt0 := Function.update db.virt0 i (shiftWord offset (db.virt0 i))
  virt1 := Function.update db.virt1 i (shiftWord offset (db.virt1 i))

/-- `LOADER_ABI_MAGIC_START` -/
def loaderAbiMagicStart : BitVec 32 := 0xCAFEB0BA

/-- `LOADER_ABI_MAGIC_END` -/
def loaderAbiMagicEnd : BitVec 32 := 0xBADBEEEF

structure LoaderState where
  magicStart : BitVec 32
  pfndbRsrvlist : BitVec 64
  pfndbFreelist : BitVec 64
  totalPhysPgs : BitVec 64
  pfndbArr : BitVec 64
  magicEnd : BitVec 32

/-- `IntrusiveListInternal::shift` is applied to both heads; `pfndb_arr` is passed on as
it is. -/
def handoff (pfndbArr : BitVec 32) (totalPhysPgs : BitVec 64) (db : PfnDb) (heads : Heads) :
    LoaderState × PfnDb :=
  let pfndbOffset := kernelPfndbBase - pfndbArr.setWidth 64
  let db := (List.range totalPhysPgs.toNat).foldl (fun db i => db.shift pfndbOffset i) db
  ({ magicStart := loaderAbiMagicStart
     pfndbRsrvlist := shiftWord pfndbOffset (heads .rsrvlist)
     pfndbFreelist := shiftWord pfndbOffset (heads .freelist)
     totalPhysPgs
     pfndbArr := pfndbArr.setWidth 64
     magicEnd := loaderAbiMagicEnd }, db)

/-! The kernel. -/

def LoaderState.heads (st : LoaderState) : Heads
  | .freelist => st.pfndbFreelist
  | .rsrvlist => st.pfndbRsrvlist

/-- The page lists in the kernel, which has the array mapped at `kernel_pfndb_base`. -/
def kernelPool (st : LoaderState) (db : PfnDb) : Pool PfnList (BitVec 64) :=
  view kernelPfndbBase st.totalPhysPgs.toNat db st.heads

/-- `g::pfndb_freelist`, and the lists of its callers, which are new. -/
def kernelLists (st : LoaderState) (db : PfnDb) : Pmm.Lists where
  links := (kernelPool st db).links
  lists
    | .freelist => (kernelPool st db).lists .freelist
    | _ => .new

/-- The two assertions of `kernel_entry`. -/
def kernelEntryCheck (st : LoaderState) (db : PfnDb) : Option Bool := do
  let pool := kernelPool st db
  let x ← size pool.links (pool.lists .freelist)
  let y ← size pool.links (pool.lists .rsrvlist)
  return st.magicStart = loaderAbiMagicStart && st.magicEnd = loaderAbiMagicEnd &&
    BitVec.ofNat 64 x + BitVec.ofNat 64 y = st.totalPhysPgs

/-- `Page::paddr`, with the base of the array taken from the loader's state. -/
def paddr (st : LoaderState) (this : BitVec 64) : BitVec 64 := Pmm.paddr st.pfndbArr this

end CxKernel.Handoff
