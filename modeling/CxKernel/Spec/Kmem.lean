import CxKernel.Spec.Slab

/-! `kmem::bootstrap` and `kmem::alloc` in `core/slab.cc`: the slab caches together, on a list of
their own. Locks and names are left out. An access through a null cache is `none`. -/

namespace CxKernel.Kmem

open LinkedList Slab

/-- `struct slabcache`, without its links, its lock and its name. -/
structure CacheNode where
  order : BitVec 16
  slabObjsize : BitVec 32
  slabNobjects : BitVec 32
  slabLastColor : BitVec 32
  lists : SlabList → IntrusiveList (BitVec 64)
  pages : List (BitVec 64)

/-- The caches by their addresses, and the memory of their slabs. -/
structure Heap where
  /-- The address of `slabcache_cache_node`. -/
  slabcacheCache : BitVec 64
  caches : BitVec 64 → CacheNode
  cacheList : Pool Unit (BitVec 64)
  links : LinkRing.Links (BitVec 64)
  slabs : BitVec 64 → SlabNode
  nextFreeObj : BitVec 64 → BitVec 64

/-- One cache, with the memory of all slabs. -/
def Heap.cache (h : Heap) (a : BitVec 64) : Cache :=
  let node := h.caches a
  { order := node.order, slabObjsize := node.slabObjsize, slabNobjects := node.slabNobjects
    slabLastColor := node.slabLastColor, lists := ⟨h.links, node.lists⟩, pages := node.pages
    slabs := h.slabs, nextFreeObj := h.nextFreeObj }

def Heap.put (h : Heap) (a : BitVec 64) (c : Cache) : Heap :=
  let node : CacheNode :=
    { order := c.order, slabObjsize := c.slabObjsize, slabNobjects := c.slabNobjects
      slabLastColor := c.slabLastColor, lists := c.lists.lists, pages := c.pages }
  { h with
    caches := Function.update h.caches a node, links := c.lists.links, slabs := c.slabs
    nextFreeObj := c.nextFreeObj }

def Heap.cacheAlloc (h : Heap) (cache page : BitVec 64) : Option (BitVec 64 × Heap) :=
  if cache = 0 then none
  else do
    let (obj, c) ← Slab.cacheAlloc (h.cache cache) page
    return (obj, h.put cache c)

/-- The constructor, over what is at `node`, and the list. -/
def Heap.addCache (h : Heap) (node : BitVec 64) (size : BitVec 32) (order : BitVec 16) :
    Option Heap := do
  let c ← slabcache size order h.links h.slabs h.nextFreeObj
  let links := (h.cacheList.links.setNext node none).setPrev node none
  let cacheList ← Pool.pushBack { h.cacheList with links } () node
  return { h.put node c with cacheList }

/-- `sizeof(slabcache)`: two links, a mutex of 32 bytes, three lists, and the fields below. -/
def sizeofSlabcache : BitVec 32 := 120

/-- The static initializers, and `kmem::bootstrap`. -/
def Heap.bootstrap (h : Heap) : Option Heap :=
  Heap.addCache { h with cacheList := { h.cacheList with lists := fun _ => .new } }
    h.slabcacheCache (Slab.alignUp sizeofSlabcache defaultOrder) defaultOrder

def Heap.findFrom (h : Heap) (size : BitVec 32) (it : Iterator (BitVec 64)) :
    Option (BitVec 64) :=
  haveI findFrom : Heap → BitVec 32 → Iterator (BitVec 64) → Option (BitVec 64) := by
    apply Heap.findFrom
  if it = endIt (h.cacheList.lists ()) then some 0
  else do
    let cache ← it.list
    if (h.caches cache).slabObjsize = size then return cache
    else
      let it ← it.incr h.cacheList.links
      findFrom h size it
partial_fixpoint

def Heap.findBestCache (h : Heap) (size : BitVec 32) : Option (BitVec 64) :=
  h.findFrom size (beginIt (h.cacheList.lists ()))

def Heap.cacheCreate (h : Heap) (size : BitVec 32) (order : BitVec 16) (page : BitVec 64) :
    Option (BitVec 64 × Heap) := do
  let (node, h) ← h.cacheAlloc h.slabcacheCache page
  if node = 0 then return (0, h)
  else
    let h ← h.addCache node size order
    return (node, h)

/-- The object, and the cache it is from. `grow_heap` returns `page₁` to the creation of a
cache and `page₂` to the request itself. -/
def Heap.alloc (h : Heap) (size : BitVec 32) (page₁ page₂ : BitVec 64) :
    Option (BitVec 64 × BitVec 64 × Heap) := do
  let size := Slab.alignUp size defaultOrder
  let cache ← h.findBestCache size
  let (cache, h) ← if cache = 0 then h.cacheCreate size defaultOrder page₁ else some (cache, h)
  let (obj, h) ← h.cacheAlloc cache page₂
  return (obj, cache, h)

end CxKernel.Kmem
