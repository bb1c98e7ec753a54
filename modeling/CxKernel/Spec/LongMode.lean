import CxKernel.Lib.ByteMem
import CxKernel.Lib.WordBytes
import CxKernel.Spec.Boot

/-! `enter_longmode` and `_start64` of `loader/x86-64-multiboot2/start.asm`, one instruction a
step, on a processor with the registers they use; and the segment descriptors they load, `gdt` in
`main.cc` and `gdt_entry` in `arch/x86-64/types.h`. A fault is `none`. -/

namespace CxKernel.LongMode

open ByteMem WordBytes Paging

/-- `gdt_entry`, from its last field to its first. -/
def gdtEntry (base limit : BitVec 32) (type : BitVec 4) : BitVec 64 :=
  let baseLow : BitVec 16 := base.setWidth 16
  let baseMiddle : BitVec 8 := (base >>> 16).setWidth 8
  let baseHigh : BitVec 8 := (base >>> 24).setWidth 8
  let limitLow : BitVec 16 := limit.setWidth 16
  let limitHigh : BitVec 4 := (limit >>> 16).setWidth 4
  let descType := 1#1
  let descPriv := 0#2
  let present := 1#1
  let available := 0#1
  let longMode := 1#1
  let opSize := 0#1
  let granularity := 0#1
  baseHigh ++ granularity ++ opSize ++ longMode ++ available ++ limitHigh ++ present ++ descPriv ++
    descType ++ type ++ baseMiddle ++ baseLow ++ limitLow

/-- `segment_type::CODE_EXECUTE_READ` -/
def codeExecuteRead : BitVec 4 := 0b1010

/-- `segment_type::DATA_READ_WRITE` -/
def dataReadWrite : BitVec 4 := 0b0010

/-- `gdt` of the loader. -/
def gdt : List (BitVec 64) := [0, gdtEntry 0 0 codeExecuteRead, gdtEntry 0 0 dataReadWrite]

/-- A segment register: the selector, and the descriptor behind it. -/
structure Segment where
  selector : BitVec 16
  desc : BitVec 64

inductive SegReg where
  | ds | es | fs | gs | ss
deriving DecidableEq

structure Cpu where
  rax : BitVec 64
  rcx : BitVec 64
  rdx : BitVec 64
  rdi : BitVec 64
  rsp : BitVec 64
  rip : BitVec 64
  cr0 : BitVec 64
  cr3 : BitVec 64
  cr4 : BitVec 64
  efer : BitVec 64
  gdtLimit : BitVec 16
  gdtBase : BitVec 64
  cs : Segment
  data : SegReg → Segment
  mem : PhysMem

/-- `CR0.PG` -/
def Cpu.paging (c : Cpu) : Bool := c.cr0.getLsbD 31

/-- `IA32_EFER.LMA` -/
def Cpu.longActive (c : Cpu) : Bool := c.efer.getLsbD 10

/-- Long mode with a code segment for 64 bits. -/
def Cpu.code64 (c : Cpu) : Bool := c.longActive && c.cs.desc.getLsbD 53

/-- Where an address is in memory. Other kinds of paging than that of long mode are left out. -/
def Cpu.phys (c : Cpu) (a : BitVec 64) : Option ℕ :=
  if c.longActive then
    if Canonical a then translateAddr c.mem (frame c.cr3) a else none
  else if c.paging then none
  else some a.toNat

def Cpu.byte (c : Cpu) (a : BitVec 64) : Option (BitVec 8) := (c.phys a).map (byteAt 8 c.mem)

def Cpu.loadBytes (w : ℕ) (c : Cpu) (a : BitVec 64) : ℕ → Option (BitVec w)
  | 0 => some 0
  | n + 1 => do
    let low ← Cpu.loadBytes w c a n
    let b ← c.byte (a + .ofNat 64 n)
    return low ||| b.setWidth w <<< (8 * n)

def Cpu.load (w : ℕ) (c : Cpu) (a : BitVec 64) : Option (BitVec w) :=
  Cpu.loadBytes w c a ((w + 7) / 8)

def Cpu.storeByte (c : Cpu) (a : BitVec 64) (b : BitVec 8) : Option Cpu := do
  let p ← c.phys a
  return { c with mem := setByte 8 c.mem p b }

def Cpu.push (c : Cpu) (v : BitVec 64) : Option Cpu :=
  (List.range 8).foldlM
    (fun c' k => c'.storeByte (c.rsp - 8 + .ofNat 64 k) (v.extractLsb' (8 * k) 8))
    { c with rsp := c.rsp - 8 }

/-- `[esp+offset]` -/
def Cpu.arg (c : Cpu) (offset : BitVec 32) : BitVec 64 := (c.rsp.setWidth 32 + offset).setWidth 64

/-- The descriptor of a selector: present, for code or data, and inside the table. -/
def Cpu.descriptor (c : Cpu) (selector : BitVec 16) : Option (BitVec 64) := do
  let offset := selector &&& 0xFFF8
  if offset = 0 ∨ c.gdtLimit.toNat < offset.toNat + 7 then none
  else
    let desc ← c.load 64 (c.gdtBase + offset.setWidth 64)
    if desc.getLsbD 47 ∧ desc.getLsbD 44 then return desc else none

/-- `IA32_EFER` -/
def ia32Efer : BitVec 64 := 0xC0000080

inductive Instr where
  | movEaxMem (offset : BitVec 32)
  | movCr3Eax
  | movEaxCr4
  | movCr4Eax
  | movEaxCr0
  | movCr0Eax
  | orEax (mask : BitVec 32)
  | movEcx (n : BitVec 32)
  | rdmsr
  | wrmsr
  | lgdtEax
  | jmpFar (selector : BitVec 16)
  | movAx (n : BitVec 16)
  | movSeg (r : SegReg)
  | movRdiMem (offset : BitVec 32)
  | movRaxMem (offset : BitVec 32)
  | movRspMem (offset : BitVec 32)
  | callRax (next : BitVec 64)

def exec (c : Cpu) : Instr → Option Cpu
  | .movEaxMem offset => do
    let v ← c.load 32 (c.arg offset)
    return { c with rax := v.setWidth 64 }
  | .movCr3Eax => some { c with cr3 := (c.rax.setWidth 32).setWidth 64 }
  | .movEaxCr4 => some { c with rax := (c.cr4.setWidth 32).setWidth 64 }
  | .movCr4Eax =>
    let cr4 := (c.rax.setWidth 32).setWidth 64
    -- physical address extension cannot be turned off in long mode
    if c.longActive ∧ ¬ cr4.getLsbD 5 then none else some { c with cr4 }
  | .movEaxCr0 => some { c with rax := (c.cr0.setWidth 32).setWidth 64 }
  | .movCr0Eax =>
    let cr0 := (c.rax.setWidth 32).setWidth 64
    if c.paging ∨ ¬ cr0.getLsbD 31 ∨ ¬ cr0.getLsbD 0 then none
    else if ¬ c.efer.getLsbD 8 ∨ ¬ c.cr4.getLsbD 5 ∨ c.cs.desc.getLsbD 53 then none
    else some { c with cr0, efer := c.efer ||| 0x400 }
  | .orEax mask => some { c with rax := (c.rax.setWidth 32 ||| mask).setWidth 64 }
  | .movEcx n => some { c with rcx := n.setWidth 64 }
  | .rdmsr =>
    if c.rcx ≠ ia32Efer then none
    else some { c with rax := (c.efer.setWidth 32).setWidth 64, rdx := c.efer >>> 32 }
  | .wrmsr =>
    if c.rcx ≠ ia32Efer ∨ c.paging then none
    else some { c with efer := c.rdx.setWidth 32 ++ c.rax.setWidth 32 }
  | .lgdtEax => do
    let limit ← c.load 16 c.rax
    let base ← c.load 32 (c.rax + 2)
    return { c with gdtLimit := limit, gdtBase := base.setWidth 64 }
  | .jmpFar selector => do
    let desc ← c.descriptor selector
    -- code, and not for both 16 or 32 and 64 bits
    if ¬ desc.getLsbD 43 ∨ desc.getLsbD 53 ∧ desc.getLsbD 54 then none
    else return { c with cs := ⟨selector, desc⟩ }
  | .movAx n => some { c with rax := c.rax &&& ~~~0xFFFF ||| n.setWidth 64 }
  | .movSeg r => do
    let selector := c.rax.setWidth 16
    let desc ← c.descriptor selector
    -- data that can be written to
    if desc.getLsbD 43 ∨ ¬ desc.getLsbD 41 then none
    else return { c with data := Function.update c.data r ⟨selector, desc⟩ }
  | .movRdiMem offset => do
    if ¬ c.code64 then none
    else
      let v ← c.load 64 (c.arg offset)
      return { c with rdi := v }
  | .movRaxMem offset => do
    if ¬ c.code64 then none
    else
      let v ← c.load 64 (c.arg offset)
      return { c with rax := v }
  | .movRspMem offset => do
    if ¬ c.code64 then none
    else
      let v ← c.load 64 (c.arg offset)
      return { c with rsp := v }
  | .callRax next => do
    if ¬ c.code64 then none
    else
      let c ← c.push next
      return { c with rip := c.rax }

def enterLongmode : List Instr :=
  [.movEaxMem 4, .movCr3Eax, .movEaxCr4, .orEax 0x20, .movCr4Eax, .movEcx 0xC0000080, .rdmsr,
    .orEax 0x100, .wrmsr, .movEaxCr0, .orEax 0x80000001, .movCr0Eax, .movEaxMem 8, .lgdtEax,
    .jmpFar 0x08]

/-- Up to the call; `next` is the address behind it. -/
def start64 (next : BitVec 64) : List Instr :=
  [.movAx 0x10, .movSeg .ds, .movSeg .es, .movSeg .fs, .movSeg .gs, .movSeg .ss, .movRdiMem 20,
    .movRaxMem 12, .movRspMem 28, .callRax next]

/-- Instructions one after the other; number `i` lies at `code i`. Each is executed where the
processor gets it from there. -/
def execFrom (code : ℕ → BitVec 64) : ℕ → List Instr → Cpu → Option Cpu
  | _, [], c => some c
  | i, instr :: rest, c =>
    if c.phys (code i) = some (code i).toNat then do
      let c ← exec c instr
      execFrom code (i + 1) rest c
    else none

/-- The far jump goes on with `_start64`. -/
def enter (code : ℕ → BitVec 64) (next : BitVec 64) (c : Cpu) : Option Cpu :=
  execFrom code 0 (enterLongmode ++ start64 next) c

end CxKernel.LongMode
