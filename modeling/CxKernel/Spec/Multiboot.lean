import CxKernel.Lib.RangeFor

/-! `loader/x86-64-multiboot2/multiboot2.cc`: the iterators over the tags and over the
memory map that the boot loader before this one leaves in memory. Pointers have 32 bits; `0`
is `nullptr`. Reading a tag where there is none is `none`. -/

namespace CxKernel.Multiboot

open RangeFor

/-- `struct multiboot_tag` -/
structure Tag where
  type : BitVec 32
  size : BitVec 32

/-- `MULTIBOOT_TAG_TYPE_END` -/
def tagTypeEnd : BitVec 32 := 0

/-- The tags in memory. -/
structure TagMemory where
  tagAt : BitVec 32 → Option Tag
  null : tagAt 0 = none

/-! `multiboot_tag_list` -/

structure TagIterator where
  tag : BitVec 32
  type : BitVec 32
deriving DecidableEq

/-- `operator++` -/
def TagIterator.incr (mem : TagMemory) (it : TagIterator) : Option TagIterator := do
  let here ← mem.tagAt it.tag
  let tag := it.tag + ((here.size + 0b111) &&& ~~~0b111)
  let next ← mem.tagAt tag
  return { it with tag := if next.type = tagTypeEnd then 0 else tag }

/-- `operator*`, which moves the iterator to the tag it returns. -/
def TagIterator.deref (mem : TagMemory) (it : TagIterator) : Option (BitVec 32 × TagIterator) :=
  haveI deref : TagMemory → TagIterator → Option (BitVec 32 × TagIterator) := by
    apply TagIterator.deref
  match mem.tagAt it.tag with
  | none => none
  | some here =>
    if here.type = it.type then some (it.tag, it)
    else if here.type = tagTypeEnd then some (0, { it with tag := 0 })
    else do
      let it ← it.incr mem
      deref mem it
partial_fixpoint

def tagList (mem : TagMemory) : Cursor TagIterator (BitVec 32) where
  atEnd it := it.tag = 0
  deref it := it.deref mem
  incr it := it.incr mem

/-- `for(auto* tag : multiboot_tag_list{addr, type})` -/
def visitTags (mem : TagMemory) (addr type : BitVec 32) : Option (List (BitVec 32)) :=
  visit (tagList mem) ⟨addr + 8, type⟩

/-! `multiboot_mmap_list` -/

/-- `struct multiboot_tag_mmap`, and where it lies. -/
structure TagMmap where
  addr : BitVec 32
  size : BitVec 32
  entrySize : BitVec 32

/-- `mmap->entries` -/
def TagMmap.entries (mmap : TagMmap) : BitVec 32 := mmap.addr + 16

/-- `operator++` -/
def TagMmap.incr (mmap : TagMmap) (entry : BitVec 32) : BitVec 32 :=
  let entry := entry + mmap.entrySize
  if entry ≥ mmap.addr + mmap.size then 0 else entry

def mmapList (mmap : TagMmap) : Cursor (BitVec 32) (BitVec 32) where
  atEnd entry := entry = 0
  deref entry := some (entry, entry)
  incr entry := some (mmap.incr entry)

/-- `for(auto* entry : multiboot_mmap_list{mmap})` -/
def visitMmap (mmap : TagMmap) : Option (List (BitVec 32)) := visit (mmapList mmap) mmap.entries

end CxKernel.Multiboot
