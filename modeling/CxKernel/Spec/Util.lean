import Mathlib.Data.Nat.Notation

/-! `lib/ebl/util.h`, the page size of `arch/types.h` and the size of a page descriptor. -/

namespace CxKernel

/-- `arch::page_size` -/
def pageSize : ℕ := 4096

/-- `sizeof(core::Page)`: two links, flags, a lock and a union, packed. -/
def sizeofPage : ℕ := 32

/-- `ebl::max` -/
def eblMax {w : ℕ} (a b : BitVec w) : BitVec w := if a < b then b else a

def alignDown {w : ℕ} (val align : BitVec w) : BitVec w := val &&& ~~~(align - 1)

def alignUp {w : ℕ} (val align : BitVec w) : BitVec w := (val + align - 1) &&& ~~~(align - 1)

def pageAlignDown (addr : BitVec 64) : BitVec 64 := alignDown addr (.ofNat 64 pageSize)

def pageAlignUp (addr : BitVec 64) : BitVec 64 := alignUp addr (.ofNat 64 pageSize)

end CxKernel
