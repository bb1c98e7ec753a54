import CxKernel.Spec.LinkedList
import CxKernel.Spec.Util

/-! `core/slab.cc` and `core/slab.h`: the slab allocator, one cache at a time. Its locks are
in `Spec/Guard.lean`. A slab is named by the address of its page. An access through a null
pointer and a division by zero are `none`. -/

namespace CxKernel.Slab

open LinkedList

/-- `1 << order` -/
def alignment (order : BitVec 16) : BitVec 32 := 1 <<< order.toNat

def alignUp (value : BitVec 32) (order : BitVec 16) : BitVec 32 :=
  (value + (alignment order - 1)) &&& ~~~(alignment order - 1)

def defaultOrder : BitVec 16 := 3

/-- `sizeof(slab)`: two links, a mutex of 32 bytes, and the fields below. -/
def sizeofSlab : BitVec 32 := 88

inductive SlabList where
  | freelist
  | partiallist
  | fulllist
deriving DecidableEq

/-- `struct slab`, without its links, its lock and its parent. -/
structure SlabNode where
  inuse : BitVec 32
  lastAllocTime : BitVec 64
  objctl : BitVec 64
  objects : BitVec 64

/-- `struct slabcache` with its slabs, and the word each free object holds. -/
structure Cache where
  order : BitVec 16
  slabObjsize : BitVec 32
  slabNobjects : BitVec 32
  slabLastColor : BitVec 32
  lists : Pool SlabList (BitVec 64)
  /-- The slabs whose parent is this cache. -/
  pages : List (BitVec 64)
  slabs : BitVec 64 → SlabNode
  nextFreeObj : BitVec 64 → BitVec 64

def numObjectsPerSlab (size : BitVec 32) (order : BitVec 16) : Option (BitVec 32) :=
  if alignUp size order = 0 then none
  else some ((.ofNat 32 pageSize - alignUp sizeofSlab order) / alignUp size order)

/-- The constructor of `slabcache`, over memory with any contents. -/
def slabcache (size : BitVec 32) (order : BitVec 16) (links : LinkRing.Links (BitVec 64))
    (slabs : BitVec 64 → SlabNode) (nextFreeObj : BitVec 64 → BitVec 64) : Option Cache := do
  let slabNobjects ← numObjectsPerSlab size order
  return {
    order, slabObjsize := size, slabNobjects, slabLastColor := 0
    lists := ⟨links, fun _ => .new⟩, pages := [], slabs, nextFreeObj }

/-! `slab_create` -/

def maxColor (c : Cache) : BitVec 32 :=
  let slabNodeSz := alignUp sizeofSlab c.order
  let freeSpace := .ofNat 32 pageSize - slabNodeSz
  let padding := freeSpace - c.slabNobjects * c.slabObjsize
  padding / alignment c.order

def nextColor (c : Cache) : BitVec 32 := (c.slabLastColor + 1) % maxColor c

/-- Where the first object goes in `page`. -/
def firstObject (c : Cache) (page : BitVec 64) : BitVec 64 :=
  let slabNodeSz := alignUp sizeofSlab c.order
  let colorPadding := nextColor c * alignment c.order
  page + slabNodeSz.setWidth 64 + colorPadding.setWidth 64

/-- The loop over as many `objctl` structs as are left, and where it leaves `ptr`. -/
def initObjctl (objsize : BitVec 32) :
    ℕ → BitVec 64 → (BitVec 64 → BitVec 64) → BitVec 64 × (BitVec 64 → BitVec 64)
  | 0, ptr, nextFreeObj => (ptr, nextFreeObj)
  | n + 1, ptr, nextFreeObj =>
    let next := ptr + objsize.setWidth 64
    initObjctl objsize n next (Function.update nextFreeObj ptr (if n = 0 then 0 else next))

/-- `page` is what `grow_heap` returns. -/
def slabCreate (c : Cache) (page : BitVec 64) : Option (BitVec 64 × Cache) :=
  if page = 0 then some (0, c)
  else if maxColor c = 0 then none
  else
    let (ptr, nextFreeObj) :=
      initObjctl c.slabObjsize c.slabNobjects.toNat (firstObject c page) c.nextFreeObj
    let node : SlabNode := { inuse := 0, lastAllocTime := 0, objctl := ptr, objects := ptr }
    let links := (c.lists.links.setNext page none).setPrev page none
    some (page, { c with
      slabLastColor := nextColor c, lists := { c.lists with links }, pages := page :: c.pages
      slabs := Function.update c.slabs page node, nextFreeObj })

/-- The last part of `cache_alloc`: an object out of the slab `node`. -/
def grabObject (c : Cache) (node : BitVec 64) : Option (BitVec 64 × Cache) := do
  let s := c.slabs node
  let lists ← if s.inuse + 1 = c.slabNobjects then c.lists.pushBack .fulllist node
    else some c.lists
  if s.objctl = 0 then none
  else
    -- the head of the chain advances before it is read
    let objctl := c.nextFreeObj s.objctl
    return (objctl, { c with
      lists
      slabs := Function.update c.slabs node
        { s with inuse := s.inuse + 1, lastAllocTime := 0, objctl } })

def cacheAlloc (c : Cache) (page : BitVec 64) : Option (BitVec 64 × Cache) :=
  if empty (c.lists.lists .partiallist) then do
    let (node, lists) ← c.lists.popFront .freelist
    -- `push_back` of a null node onto the empty list writes through it
    let node ← node
    let lists ← lists.pushBack .partiallist node
    grabObject { c with lists } node
  else if empty (c.lists.lists .freelist) then do
    let (node, c) ← slabCreate c page
    if node = 0 then return (0, c)
    else
      let lists ← c.lists.pushBack .partiallist node
      grabObject { c with lists } node
  else do
    let (node, lists) ← c.lists.popFront .partiallist
    let node ← node
    grabObject { c with lists } node

/-- The branches of `cache_free`: a slab that was full becomes partial, one with a
single object free. -/
def relist (c : Cache) (node : BitVec 64) : Option (Pool SlabList (BitVec 64)) :=
  if (c.slabs node).inuse = c.slabNobjects then do
    let lists ← c.lists.remove .fulllist node
    lists.pushBack .partiallist node
  else if (c.slabs node).inuse = 1 then do
    let lists ← c.lists.remove .partiallist node
    lists.pushBack .freelist node
  else some c.lists

def cacheFree (c : Cache) (node obj : BitVec 64) : Option Cache := do
  let lists ← relist c node
  let s := c.slabs node
  return { c with
    lists
    slabs := Function.update c.slabs node { s with inuse := s.inuse - 1, objctl := obj }
    nextFreeObj := Function.update c.nextFreeObj obj s.objctl }

/-- The slab an object lies in. -/
def findSlabFromObj (obj : BitVec 64) : BitVec 64 := pageAlignDown obj

end CxKernel.Slab
