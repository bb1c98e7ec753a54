import CxKernel.Spec.Status
import CxKernel.Spec.Strings

/-! `lib/elf`: a 64-bit ELF file in memory, and `elf::Context`, in the loader's build and in the
kernel's. Pointers and `uintptr_t` have `n` bytes. A null pointer is `none`. -/

namespace CxKernel.ElfFile

open Strings

variable {n : ℕ}

/-- A field of `k` bytes, at offset `off` of the structure at `p`. -/
def field (k : ℕ) (mem : Mem n) (p : Ptr n) (off : ℕ) : BitVec (8 * k) :=
  .ofNat _ (Nat.ofDigits 256 ((List.range k).map fun i => (mem (p + .ofNat _ (off + i))).toNat))

section Fields

variable (mem : Mem n) (p : Ptr n)

/-! `elf64_ehdr_t` -/

def eIdent (i : ℕ) : BitVec 8 := mem (p + .ofNat _ i)

def eEntry : BitVec 64 := field 8 mem p 24

def ePhoff : BitVec 64 := field 8 mem p 32

def eShoff : BitVec 64 := field 8 mem p 40

def ePhnum : BitVec 16 := field 2 mem p 56

def eShnum : BitVec 16 := field 2 mem p 60

def eShstrndx : BitVec 16 := field 2 mem p 62

/-! `elf64_phdr_t` -/

def pType : BitVec 32 := field 4 mem p 0

def pOffset : BitVec 64 := field 8 mem p 8

def pVaddr : BitVec 64 := field 8 mem p 16

def pFilesz : BitVec 64 := field 8 mem p 32

def pMemsz : BitVec 64 := field 8 mem p 40

def pAlign : BitVec 64 := field 8 mem p 48

/-! `elf64_shdr_t` -/

def shName : BitVec 32 := field 4 mem p 0

def shOffset : BitVec 64 := field 8 mem p 24

end Fields

/-- `sizeof(elf64_phdr_t)` -/
def sizeofPhdr : ℕ := 56

/-- `sizeof(elf64_shdr_t)` -/
def sizeofShdr : ℕ := 64

/-- `&base[i]` -/
def element (size : ℕ) (base : Ptr n) (i : ℕ) : Ptr n := base + .ofNat _ (size * i)

/-- Where the string literals of the parser lie. -/
structure Literals (n : ℕ) where
  null : Ptr n
  symtab : Ptr n
  strtab : Ptr n

/-- `Context64` -/
structure Context64 (n : ℕ) where
  img : Ptr n
  shdr : Ptr n
  phdr : Ptr n
  symtab : Option (Ptr n)
  strtab : Option (Ptr n)

section Parser

variable (literals : Literals n) (mem : Mem n)

/-- An address is computed in 64 bits, and cut to a pointer. -/
def atOffset (base : Ptr n) (offset : BitVec 64) : Ptr n :=
  (base.setWidth 64 + offset).setWidth _

/-- `read_section64` -/
def readSection64 (img shdr : Ptr n) (idx : ℕ) : Ptr n :=
  atOffset img (shOffset mem (element sizeofShdr shdr idx))

/-- Does the section header at `sh` have the name? -/
def isSection (shStr name sh : Ptr n) : Option Bool := do
  let isNull ← if mem name = 0 then (strcmp (fun _ => true) mem literals.null name).map (· == 0)
    else some false
  if isNull then return true
  else
    let d ← strcmp (fun _ => true) mem (shStr + (shName mem sh).setWidth _) name
    return d == 0

/-- The loops of `strcmp` may not end. -/
def findSection (img shdr name : Ptr n) : Option (Option (Ptr n)) := do
  let shStr := readSection64 mem img shdr (eShstrndx mem img).toNat
  let i ← (List.range (eShnum mem img).toNat).findM? fun i =>
    isSection literals mem shStr name (element sizeofShdr shdr i)
  return i.map (element sizeofShdr shdr)

/-- `Context64::load` -/
def load64 (hdr : Ptr n) : Option (Context64 n) := do
  let shdr := atOffset hdr (eShoff mem hdr)
  let symtab ← findSection literals mem hdr shdr literals.symtab
  let strtab ← findSection literals mem hdr shdr literals.strtab
  return { img := hdr, shdr, phdr := atOffset hdr (ePhoff mem hdr), symtab, strtab }

/-- `is_valid_elf` -/
def isValidElf (h : Ptr n) : Bool :=
  eIdent mem h 0 = 0x7F && eIdent mem h 1 = 0x45 && eIdent mem h 2 = 0x4C && eIdent mem h 3 = 0x46

/-- `elf::Context::load`. The context of a 64-bit file is the only one it fills. -/
def load (img : Ptr n) : Option (Except E (Context64 n)) :=
  if ¬ isValidElf mem img then some (.error .invalid)
  else if eIdent mem img 4 = 1 then some (.error .notImplemented)
  else if eIdent mem img 4 = 2 then (load64 literals mem img).map .ok
  else some (.error .invalid)

end Parser

end CxKernel.ElfFile
