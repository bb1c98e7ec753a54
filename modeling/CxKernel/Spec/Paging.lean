import CxKernel.Spec.Util
import Mathlib.Logic.Function.Basic

/-! `arch/x86-64/types.h`: page table entries and the index arithmetic on virtual
addresses, and beside them the walk of a four-level hierarchy by the processor. -/

namespace CxKernel.Paging

/-- Physical memory as 64-bit words; only addresses divisible by 8 are used. -/
abbrev PhysMem := ℕ → BitVec 64

def PhysMem.write (mem : PhysMem) (addr : ℕ) (data : BitVec 64) : PhysMem :=
  Function.update mem addr data

/-- `memset((void*)addr, 0, len)` -/
def PhysMem.zero (mem : PhysMem) (addr len : ℕ) : PhysMem :=
  fun a => if addr ≤ a ∧ a < addr + len then 0 else mem a

/-! `generic_page_entry` -/

def present (e : BitVec 64) : Bool := e.getLsbD 0

/-- Bit 7: the page size bit above the last level, `pat` in the last one. -/
def large (e : BitVec 64) : Bool := e.getLsbD 7

/-- The `addr` field: a physical page number. -/
def frame (e : BitVec 64) : BitVec 40 := e.extractLsb' 12 40

/-! The address arithmetic of the source. -/

def canonicalize (addr : BitVec 64) : BitVec 64 := (addr <<< 16).sshiftRight 16

def virtFromIndex (pml4eIndex pdpteIndex pdeIndex pteIndex : BitVec 16) : BitVec 64 :=
  canonicalize
    (((pml4eIndex &&& 0x1FF).setWidth 64 <<< 39) ||| ((pdpteIndex &&& 0x1FF).setWidth 64 <<< 30) |||
      ((pdeIndex &&& 0x1FF).setWidth 64 <<< 21) ||| ((pteIndex &&& 0x1FF).setWidth 64 <<< 12))

/-- The index a level takes out of an address. -/
def tableIndex (shift : ℕ) (addr : BitVec 64) : BitVec 16 := ((addr >>> shift) &&& 0x1FF).setWidth 16

def pml4eIndex (addr : BitVec 64) : BitVec 16 := tableIndex 39 addr

def pdpteIndex (addr : BitVec 64) : BitVec 16 := tableIndex 30 addr

def pdeIndex (addr : BitVec 64) : BitVec 16 := tableIndex 21 addr

def pteIndex (addr : BitVec 64) : BitVec 16 := tableIndex 12 addr

/-! The processor. Tables are named by their page number. -/

/-- The four table indices of an address, from bit 47 down. -/
def path (v : BitVec 64) : List (BitVec 9) :=
  [v.extractLsb' 39 9, v.extractLsb' 30 9, v.extractLsb' 21 9, v.extractLsb' 12 9]

/-- The physical address of entry `i` of the table in page `t`. -/
def entryAddr (t : BitVec 40) (i : BitVec 9) : ℕ := t.toNat * 4096 + 8 * i.toNat

/-- The page of a large mapping that the remaining indices select: 2 MiB or 1 GiB.
At the top level the bit is reserved, and the walk faults. -/
def largeFrame (f : BitVec 40) : List (BitVec 9) → Option (BitVec 40)
  | [l] => some (((f >>> 9) <<< 9) ||| l.setWidth 40)
  | [k, l] => some (((f >>> 18) <<< 18) ||| (k.setWidth 40 <<< 9) ||| l.setWidth 40)
  | _ => none

/-- The page the walk from table `t` ends in, `none` if it faults. -/
def hwWalk (mem : PhysMem) : BitVec 40 → List (BitVec 9) → Option (BitVec 40)
  | t, [] => some t
  | t, i :: is =>
    let e := mem (entryAddr t i)
    if present e then
      if large e ∧ is ≠ [] then largeFrame (frame e) is
      else hwWalk mem (frame e) is
    else none

/-- The page number an address translates to under the hierarchy rooted in `cr3`. -/
def translatePage (mem : PhysMem) (cr3 : BitVec 40) (v : BitVec 64) : Option (BitVec 40) :=
  hwWalk mem cr3 (path v)

/-- The physical address an address translates to. -/
def translateAddr (mem : PhysMem) (cr3 : BitVec 40) (v : BitVec 64) : Option ℕ :=
  (translatePage mem cr3 v).map fun f => f.toNat * 4096 + v.toNat % 4096

/-- Bits 47 to 63 agree. -/
def Canonical (v : BitVec 64) : Prop := canonicalize v = v

instance (v : BitVec 64) : Decidable (Canonical v) := inferInstanceAs (Decidable (_ = _))

end CxKernel.Paging
