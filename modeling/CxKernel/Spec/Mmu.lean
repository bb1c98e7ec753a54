import CxKernel.Spec.Paging
import CxKernel.Spec.Pmm

/-! `arch/x86-64/mmu.cc`: mapping pages in the running kernel, which reaches its page
tables through the last entry of the PML4. A failed assertion or a null dereference is
`none`. -/

namespace CxKernel.Mmu

open LinkedList Paging Pmm

/-! The pointers `map_single_page` computes. -/

/-- `&table[idx]` -/
def entryPtr (table : BitVec 64) (idx : BitVec 16) : BitVec 64 := table + 8 * idx.setWidth 64

def pml4ePtr (virt : BitVec 64) : BitVec 64 :=
  entryPtr (virtFromIndex 511 511 511 511) (pml4eIndex virt)

def pdptePtr (virt : BitVec 64) : BitVec 64 :=
  entryPtr (virtFromIndex 511 511 511 (pml4eIndex virt)) (pdpteIndex virt)

def pdePtr (virt : BitVec 64) : BitVec 64 :=
  entryPtr (virtFromIndex 511 511 (pdpteIndex virt) (pml4eIndex virt)) (pdeIndex virt)

def ptePtr (virt : BitVec 64) : BitVec 64 :=
  entryPtr (virtFromIndex 511 (pdeIndex virt) (pdpteIndex virt) (pml4eIndex virt)) (pteIndex virt)

/-! The mapping itself, with each pointer standing for the entry it is meant for. -/

structure Kernel where
  lists : Lists
  pfndbArr : BitVec 64
  mem : PhysMem
  pml4 : BitVec 40

/-- The entry at `addr` gets a new table if it is not present. -/
def ensureTable (s : Kernel) (addr : ℕ) (flags : BitVec 64) : Option (Except E Unit × Kernel) :=
  if present (s.mem addr) then some (.ok (), s)
  else do
    let (ec, lists) ← allocPhysPageSingle s.lists
    match ec with
    | .error e => return (.error e, { s with lists })
    | .ok page =>
      let lists ← lists.pushBack .ptPages page
      return (.ok (), { s with
        lists, mem := s.mem.write addr (paddr s.pfndbArr page ||| 1 ||| flags) })

/-- The address of entry `idx` of the table the entry at `addr` names. -/
def below (s : Kernel) (addr : ℕ) (idx : BitVec 16) : ℕ :=
  entryAddr (frame (s.mem addr)) (idx.setWidth 9)

def mapSinglePage (s : Kernel) (phys virt flags : BitVec 64) :
    Option (Except E Unit × Kernel) :=
  if phys % .ofNat 64 pageSize ≠ 0 then none
  else if virt % .ofNat 64 pageSize ≠ 0 then none
  else do
    let pml4e := entryAddr s.pml4 ((pml4eIndex virt).setWidth 9)
    match ← ensureTable s pml4e flags with
    | (.error e, s) => return (.error e, s)
    | (.ok _, s) =>
      let pdpte := below s pml4e (pdpteIndex virt)
      match ← ensureTable s pdpte flags with
      | (.error e, s) => return (.error e, s)
      | (.ok _, s) =>
        let pde := below s pdpte (pdeIndex virt)
        match ← ensureTable s pde flags with
        | (.error e, s) => return (.error e, s)
        | (.ok _, s) =>
          let pte := below s pde (pteIndex virt)
          -- overwrites the entry if it is present
          return (.ok (), { s with mem := s.mem.write pte (phys ||| 1 ||| flags) })

/-- The loop over the pages still ahead of the iterator `it`. -/
def mapPagesFrom (endIt : Iterator (BitVec 64)) (flags : BitVec 64) (s : Kernel)
    (it : Iterator (BitVec 64)) (virt : BitVec 64) : Option (Except E Unit × Kernel) :=
  haveI mapPagesFrom : Iterator (BitVec 64) → BitVec 64 → Kernel → Iterator (BitVec 64) →
    BitVec 64 → Option (Except E Unit × Kernel) := by apply mapPagesFrom
  if it = endIt then some (.ok (), s)
  else do
    let page ← it.list
    match ← mapSinglePage s (paddr s.pfndbArr page) virt flags with
    | (.error e, s) =>
      let lists ← freePhysPages .ptPages s.lists
      return (.error e, { s with lists })
    | (.ok _, s) =>
      let it ← it.incr s.lists.links
      mapPagesFrom endIt flags s it (virt + .ofNat 64 pageSize)
partial_fixpoint

/-- `pt_pages` starts out as a new list. -/
def mapPages (s : Kernel) (virt flags : BitVec 64) : Option (Except E Unit × Kernel) :=
  let s := { s with lists := s.lists.set .ptPages (s.lists.links, .new) }
  mapPagesFrom (endIt (s.lists.lists .pages)) flags s (beginIt (s.lists.lists .pages)) virt

/-! The same function with its `Result<void>` objects: `ec`, and the one each call returns,
which dies once it has been assigned to `ec`. `destroy` is what their destructor does. -/

def mapPagesResultFrom (destroy : ResultVoid → Except String Unit)
    (endIt : Iterator (BitVec 64)) (flags : BitVec 64) (s : Kernel) (it : Iterator (BitVec 64))
    (virt : BitVec 64) (ec : ResultVoid) : Option (Except String (ResultVoid × Kernel)) :=
  haveI mapPagesResultFrom : (ResultVoid → Except String Unit) → Iterator (BitVec 64) →
    BitVec 64 → Kernel → Iterator (BitVec 64) → BitVec 64 → ResultVoid →
    Option (Except String (ResultVoid × Kernel)) := by apply mapPagesResultFrom
  if it = endIt then
    match destroy ec with
    | .error text => some (.error text)
    | .ok _ => some (.ok (.ofE (.ok ()), s))
  else do
    let page ← it.list
    let (result, s) ← mapSinglePage s (paddr s.pfndbArr page) virt flags
    let temporary := ResultVoid.ofE result
    -- the assignment copies the flag too
    let ec := temporary
    match destroy temporary with
    | .error text => return .error text
    | .ok _ =>
      let (ok, ec) := ec.toBool
      if ok = false then
        let lists ← freePhysPages .ptPages s.lists
        match destroy ec with
        | .error text => return .error text
        | .ok _ => return .ok (ec, { s with lists })
      else
        let it ← it.incr s.lists.links
        mapPagesResultFrom destroy endIt flags s it (virt + .ofNat 64 pageSize) ec
partial_fixpoint

def mapPagesResult (destroy : ResultVoid → Except String Unit) (s : Kernel)
    (virt flags : BitVec 64) : Option (Except String (ResultVoid × Kernel)) :=
  let s := { s with lists := s.lists.set .ptPages (s.lists.links, .new) }
  mapPagesResultFrom destroy (endIt (s.lists.lists .pages)) flags s
    (beginIt (s.lists.lists .pages)) virt (.ofE (.ok ()))

end CxKernel.Mmu
