import CxKernel.Lib.ByteMem

/-! `lib/elf/elf64_parser.cc`: the two symbol lookups, in the kernel's build, where
pointers and `unsigned long` have 64 bits. A null pointer is `none`. -/

namespace CxKernel.Elf

open ByteMem

/-- `elf64_shdr_t`, with the fields the lookups read. -/
structure Shdr where
  shOffset : BitVec 64
  shSize : BitVec 64

/-- `Context64`: the image, and the headers of `.symtab` and `.strtab`. -/
structure Context64 where
  img : BitVec 64
  symtab : Shdr
  strtab : Shdr

/-- `sizeof(elf64_sym_t)` -/
def sizeofSym : ℕ := 24

def stName (mem : Bytes) (sym : BitVec 64) : BitVec 32 := load 32 mem sym

def stValue (mem : Bytes) (sym : BitVec 64) : BitVec 64 := load 64 mem (sym + 8)

namespace Context64

variable (mem : Bytes) (ctx : Context64) (addr : BitVec 64)

/-- The number of symbols. -/
def count : ℕ := ctx.symtab.shSize.toNat / sizeofSym

/-- `&tab[i]` -/
def symbol (i : ℕ) : BitVec 64 := ctx.symtab.shOffset + ctx.img + .ofNat 64 (sizeofSym * i)

/-- `&sh_str[sym->st_name]` -/
def nameOf (sym : BitVec 64) : BitVec 64 :=
  ctx.strtab.shOffset + ctx.img + (stName mem sym).setWidth 64

/-- The loop body of `get_symbol_name`, on `sym` and `val`. -/
def nameStep (s : Option (BitVec 64) × BitVec 64) (i : ℕ) : Option (BitVec 64) × BitVec 64 :=
  let (_, val) := s
  if stValue mem (ctx.symbol i) > val ∧ stValue mem (ctx.symbol i) ≤ addr then
    (some (ctx.symbol i), stValue mem (ctx.symbol i))
  else s

def getSymbolName : Option (BitVec 64) :=
  let (sym, _) := (List.range ctx.count).foldl (nameStep mem ctx addr) (none, 0)
  sym.map (nameOf mem ctx)

/-- The loop body of `get_symbol_addr`, on `val`. -/
def addrStep (val : BitVec 64) (i : ℕ) : BitVec 64 :=
  if stValue mem (ctx.symbol i) > val ∧ stValue mem (ctx.symbol i) ≤ addr then
    stValue mem (ctx.symbol i)
  else val

def getSymbolAddr : BitVec 64 := (List.range ctx.count).foldl (addrStep mem ctx addr) 0

end Context64

end CxKernel.Elf
