import CxKernel.Spec.LinkedList
import CxKernel.Spec.Status
import CxKernel.Spec.Util

/-! `core/pmm.cc`, and `Page::paddr` of `core/vm.h`: the kernel's page allocator. A
page descriptor is named by its address. -/

namespace CxKernel.Pmm

open LinkedList

/-- The lists a descriptor can be on, by the object that holds the list. -/
inductive PageList where
  | freelist
  | ptPages
  | pages
  /-- A list of some other caller. -/
  | caller (n : ℕ)
deriving DecidableEq

/-- `(this - pfndb_arr) * arch::page_size` -/
def paddr (pfndbArr this : BitVec 64) : BitVec 64 :=
  (this - pfndbArr).sdiv (.ofNat 64 sizeofPage) * .ofNat 64 pageSize

abbrev Lists := Pool PageList (BitVec 64)

def allocPhysPageSingle (lists : Lists) : Option (Except E (BitVec 64) × Lists) := do
  let (node, lists) ← lists.popFront .freelist
  match node with
  | none => return (.error .outOfMemory, lists)
  | some node => return (.ok node, lists)

/-- Puts the pages of the list `l` onto the free list, one by one. -/
def freePhysPages (l : PageList) (lists : Lists) : Option Lists :=
  haveI freePhysPages : PageList → Lists → Option Lists := by apply freePhysPages
  if empty (lists.lists l) then some lists
  else do
    let (node, lists) ← lists.popFront l
    let page ← node
    let lists ← lists.pushBack .freelist page
    freePhysPages l lists
partial_fixpoint

def freePhysPageSingle (page : Option (BitVec 64)) (lists : Lists) : Option Lists :=
  match page with
  | none => some lists
  | some page => lists.pushBack .freelist page

/-- The roll-back loop of `alloc_phys_pages`. -/
def putBack (l : PageList) (lists : Lists) : Option Lists :=
  haveI putBack : PageList → Lists → Option Lists := by apply putBack
  if empty (lists.lists l) then some lists
  else do
    let (node, lists) ← lists.popFront l
    let page ← node
    let lists ← lists.pushFront .freelist page
    putBack l lists
partial_fixpoint

/-- The loop of `alloc_phys_pages`, with as many pages still to take. -/
def takePages (l : PageList) : ℕ → Lists → Option (Except E Unit × Lists)
  | 0, lists => some (.ok (), lists)
  | n + 1, lists => do
    let (node, lists) ← lists.popFront .freelist
    match node with
    | none =>
      let lists ← putBack l lists
      return (.error .outOfMemory, lists)
    | some node =>
      let lists ← lists.pushFront l node
      takePages l n lists

/-- `pages = {}` forgets whatever the list `l` had. -/
def allocPhysPages (count : BitVec 32) (l : PageList) (lists : Lists) :
    Option (Except E Unit × Lists) :=
  takePages l count.toNat (lists.set l (lists.links, .new))

/-! The callers, with the pages they hold singly. -/

structure Callers where
  lists : Lists
  held : List (BitVec 64)

inductive Call where
  | allocSingle
  | allocPages (count : BitVec 32) (l : PageList)
  | freePages (l : PageList)
  | freeSingle (page : BitVec 64)

/-- A page allocated singly is held until it is freed. -/
def Callers.step (s : Callers) : Call → Option Callers
  | .allocSingle => do
    let (ec, lists) ← allocPhysPageSingle s.lists
    match ec with
    | .error _ => return { s with lists }
    | .ok page => return ⟨lists, page :: s.held⟩
  | .allocPages count l => do
    let (_, lists) ← allocPhysPages count l s.lists
    return { s with lists }
  | .freePages l => do
    let lists ← freePhysPages l s.lists
    return { s with lists }
  | .freeSingle page => do
    let lists ← freePhysPageSingle (some page) s.lists
    return ⟨lists, s.held.erase page⟩

/-- A caller passes a list of its own, and frees singly only a page it holds. -/
def Callers.Legal (s : Callers) : Call → Prop
  | .allocSingle => True
  | .allocPages _ l => l ≠ .freelist
  | .freePages l => l ≠ .freelist
  | .freeSingle page => page ∈ s.held

/-- A property of the calls, each in the state it is made in. -/
def Callers.AlongRun (P : Callers → Call → Prop) : Callers → List Call → Prop
  | _, [] => True
  | s, c :: cs => P s c ∧ ∀ s', s.step c = some s' → AlongRun P s' cs

end CxKernel.Pmm
