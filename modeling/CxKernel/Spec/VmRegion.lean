import CxKernel.Spec.Bit
import CxKernel.Spec.Sequences
import CxKernel.Spec.Status
import CxKernel.Spec.Util

/-! `core/vmregion.h` and `core/vmregion.cc`: the tree of virtual memory regions.
Regions are named by their object, and `children_` is the sequence its intrusive
list represents. A failed assertion is `none`. -/

namespace CxKernel.Vm

open LinkedList (insertSeq)

/-- `VmRegionFlags`: every field overlays one byte. -/
abbrev VmRegionFlags := BitVec 8

namespace VmRegionFlags

def capability (f : VmRegionFlags) : BitVec 8 := BitField.get 0 4 f

def type (f : VmRegionFlags) : BitVec 8 := BitField.get 4 1 f

def isRoot (f : VmRegionFlags) : BitVec 8 := BitField.get 5 1 f

end VmRegionFlags

/-- `VmRegionType::REGION` -/
def typeRegion : BitVec 8 := 0

structure VmRegion where
  base : BitVec 64
  size : BitVec 64
  flags : VmRegionFlags
  parent : Option ℕ
  aspace : ℕ
  children : List ℕ

/-- The region objects in memory, and which of them are constructed. -/
structure Regions where
  region : ℕ → VmRegion
  live : List ℕ

/-- `foreach_hole` from the running `offset` and the children still ahead. The
callback changes a state and says whether to go on. -/
def foreachHoleFrom {σ : Type} (m : Regions) (self : VmRegion)
    (func : Option ℕ → BitVec 64 → BitVec 64 → σ → σ × Bool) :
    BitVec 64 → List ℕ → σ → σ
  | offset, [], st =>
    if self.base + self.size > self.base + offset then
      (func none offset (self.base + self.size - self.base - offset) st).1
    else st
  | offset, c :: cs, st =>
    let child := m.region c
    if child.base > self.base + offset then
      match func (some c) offset (child.base - self.base - offset) st with
      | (st, true) => foreachHoleFrom m self func (child.base + child.size) cs st
      | (st, false) => st
    else foreachHoleFrom m self func (child.base + child.size) cs st

def foreachHole {σ : Type} (m : Regions) (self : VmRegion)
    (func : Option ℕ → BitVec 64 → BitVec 64 → σ → σ × Bool) (st : σ) : σ :=
  foreachHoleFrom m self func 0 self.children st

def findChildAbove (m : Regions) (self : VmRegion) (offset : BitVec 64) : Option ℕ :=
  self.children.find? fun child => (m.region child).base ≥ self.base + offset

def doesOverlapChild (m : Regions) (self : VmRegion) (offset size : BitVec 64) : Bool :=
  let rangeEnd := self.base + offset + size
  match findChildAbove m self offset with
  | none => false
  | some child => (m.region child).base ≤ rangeEnd

/-- The hole taken: the child to insert before, and the new region's range. -/
structure Found where
  child : Option ℕ
  newHoleBase : BitVec 64
  newHoleSize : BitVec 64

/-- The alignment in force; x86 takes the shift count modulo 32. -/
def effectiveAlign (alignPow2 : BitVec 8) : BitVec 64 :=
  (eblMax (1#32 <<< (alignPow2.toNat % 32)) (.ofNat 32 pageSize)).setWidth 64

/-- The fit test of the callback. -/
def fits (size align holeBase holeSize : BitVec 64) : Bool :=
  !(alignUp holeBase align + size > holeBase + holeSize)

/-- The callback of the first-fit search. -/
def takeHole (size align : BitVec 64) (x : Option ℕ) (holeBase holeSize : BitVec 64)
    (found : Option Found) : Option Found × Bool :=
  if fits size align holeBase holeSize then (some ⟨x, alignUp holeBase align, size⟩, false)
  else (found, true)

/-- The flags of a new region; the capability is copied as a whole byte. -/
def newFlags (flags : VmRegionFlags) : VmRegionFlags :=
  let f := BitField.assign 4 1 (0 : BitVec 8) typeRegion
  let f := BitField.copy f flags
  BitField.assign 5 1 f 0

/-- Link the constructed `vmr` into the children of `this`, before the child found. -/
def Regions.addChild (m : Regions) (this : ℕ) (before : Option ℕ) (new : ℕ) (vmr : VmRegion) :
    Regions :=
  let self := m.region this
  let children := match before with
    | none => self.children ++ [new]
    | some child => insertSeq child new self.children
  { region := Function.update (Function.update m.region new vmr) this
      { self with children := children }
    live := m.live ++ [new] }

/-- `alloc` is what `kmem::alloc` returns: `none`, or a fresh object. -/
def allocateVmrCompact (m : Regions) (this : ℕ) (size : BitVec 64) (alignPow2 : BitVec 8)
    (flags : VmRegionFlags) (alloc : Option ℕ) : Option (Except E ℕ × Regions) :=
  let self := m.region this
  if flags.capability &&& self.flags.capability ≠ flags.capability then
    some (.error .permissionDenied, m)
  else if flags.type ≠ typeRegion then some (.error .invalidArgument, m)
  else
    let align := effectiveAlign alignPow2
    if size % .ofNat 64 pageSize ≠ 0 then none
    else
      match foreachHole m self (takeHole size align) none with
      | none => some (.error .allocationFailed, m)
      | some found =>
        match alloc with
        | none => some (.error .outOfMemory, m)
        | some new =>
          let vmr : VmRegion :=
            { base := found.newHoleBase, size := found.newHoleSize, flags := newFlags flags,
              parent := some this, aspace := self.aspace, children := [] }
          some (.ok new, m.addChild this found.child new vmr)

end CxKernel.Vm
