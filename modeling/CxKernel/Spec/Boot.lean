import CxKernel.Spec.LoadElf

/-! `main` of `loader/x86-64-multiboot2/main.cc` behind the load loop: the kernel's stack and
the page database are mapped, the last calls of `map_page` before the hand-over. -/

namespace CxKernel.Loader

open Paging

/-- `map_page(pmm_alloc_page(), kernel_stack_limit, flags)` -/
def mapStack (s : Globals) : Option Globals := do
  let (page, s) ← pmmAllocPage s
  mapPage s page kernelStackLimit loadFlags

def kernelStackBase : BitVec 64 := kernelStackLimit + .ofNat 64 pageSize - 8

/-- One round of the loop over `pfndb_sz_pgs`. -/
def mapPfndbPage (s : Globals) (i : ℕ) : Option Globals :=
  mapPage s (s.pfndbArr.setWidth 64 + .ofNat 64 (i * pageSize))
    (Handoff.kernelPfndbBase + .ofNat 64 (i * pageSize)) loadFlags

def mapPfndb (s : Globals) : Option Globals :=
  (List.range s.pfndbSzPgs.toNat).foldlM mapPfndbPage s

/-- What comes between the load loop and the shift of the database. -/
def finishPaging (s : Globals) : Option Globals := do
  let s ← mapStack s
  mapPfndb s

end CxKernel.Loader
