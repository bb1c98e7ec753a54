import CxKernel.Lib.ByteMem

/-! Entry to and exit from an interrupt: what the CPU pushes, `isrN` and `irq_stub` in
`arch/x86-64/entry.asm`, and `int_frame` in `arch/x86-64/types.h`. The flags register is followed
through the stack only, so `cli` and `cld` leave no trace. -/

namespace CxKernel.Interrupt

open ByteMem

/-- The general registers, in the order of `int_frame`. -/
@[ext] structure Regs where
  rdi : BitVec 64
  rsi : BitVec 64
  rbp : BitVec 64
  rbx : BitVec 64
  rdx : BitVec 64
  rcx : BitVec 64
  rax : BitVec 64
  r8 : BitVec 64
  r9 : BitVec 64
  r10 : BitVec 64
  r11 : BitVec 64
  r12 : BitVec 64
  r13 : BitVec 64
  r14 : BitVec 64
  r15 : BitVec 64

/-- A selector of the null descriptor. -/
def nullSelector (sel : BitVec 16) : Bool := sel &&& 0xFFFC = 0

/-- What the CPU pushes and `iret` puts back. -/
@[ext] structure Context where
  rip : BitVec 64
  cs : BitVec 16
  flags : BitVec 64
  rsp : BitVec 64
  ss : BitVec 16

/-- A program that runs, so its code segment is not null. -/
structure Interrupted where
  regs : Regs
  context : Context
  code : nullSelector context.cs = false

/-! Entry. -/

/-- The exceptions with an error code. -/
def pushesError (v : BitVec 8) : Bool := v = 8 ∨ (10 ≤ v ∧ v ≤ 14) ∨ v = 17 ∨ v = 21

/-- What the CPU pushes, from the top of its stack down. -/
def cpuPushes (v : BitVec 8) (error : BitVec 64) (c : Context) : List (BitVec 64) :=
  [c.ss.setWidth 64, c.rsp, c.flags, c.cs.setWidth 64, c.rip] ++
    if pushesError v then [error] else []

/-- What `isrN` pushes. -/
def isrPushes (v : BitVec 8) : List (BitVec 64) :=
  if v = 8 ∨ (10 ≤ v ∧ v ≤ 14) ∨ v = 17 ∨ v = 20 ∨ v = 30 then [v.setWidth 64]
  else [0, v.setWidth 64]

/-- What `irq_stub` pushes. -/
def stubPushes (r : Regs) : List (BitVec 64) :=
  [r.r15, r.r14, r.r13, r.r12, r.r11, r.r10, r.r9, r.r8, r.rax, r.rcx, r.rdx, r.rbx, r.rbp, r.rsi,
    r.rdi]

/-- Memory and stack pointer before the call of `isr_handler`. -/
def enter (m : Bytes) (top : BitVec 64) (v : BitVec 8) (error : BitVec 64) (p : Interrupted) :
    Bytes × BitVec 64 :=
  pushAll m top (cpuPushes v error p.context ++ isrPushes v ++ stubPushes p.regs)

/-- `x86_64::int_frame` -/
@[ext] structure IntFrame where
  regs : Regs
  vector : BitVec 64
  errCode : BitVec 64
  rip : BitVec 64
  cs : BitVec 64
  flags : BitVec 64
  userSp : BitVec 64
  userSs : BitVec 64

def readRegs (m : Bytes) (a : BitVec 64) : Regs where
  rdi := load 64 m a
  rsi := load 64 m (a + 8)
  rbp := load 64 m (a + 16)
  rbx := load 64 m (a + 24)
  rdx := load 64 m (a + 32)
  rcx := load 64 m (a + 40)
  rax := load 64 m (a + 48)
  r8 := load 64 m (a + 56)
  r9 := load 64 m (a + 64)
  r10 := load 64 m (a + 72)
  r11 := load 64 m (a + 80)
  r12 := load 64 m (a + 88)
  r13 := load 64 m (a + 96)
  r14 := load 64 m (a + 104)
  r15 := load 64 m (a + 112)

def readFrame (m : Bytes) (a : BitVec 64) : IntFrame where
  regs := readRegs m a
  vector := load 64 m (a + 120)
  errCode := load 64 m (a + 128)
  rip := load 64 m (a + 136)
  cs := load 64 m (a + 144)
  flags := load 64 m (a + 152)
  userSp := load 64 m (a + 160)
  userSs := load 64 m (a + 168)

/-! Exit. -/

/-- `isr_handler` on the frame at an address. It leaves the frame as it is; the return address of
the call is below. -/
structure Handler where
  run : BitVec 64 → Bytes → Bytes
  keeps : ∀ a m, ∀ i < 176, run a m (a + .ofNat 64 i) = m (a + .ofNat 64 i)

/-- The stack pointer, and the registers that were popped. -/
structure Popped where
  rsp : BitVec 64
  regs : Regs

def pop (m : Bytes) (rsp : BitVec 64) : BitVec 64 × BitVec 64 := (load 64 m rsp, rsp + 8)

def popRegs (m : Bytes) (rsp : BitVec 64) : Popped :=
  let (rdi, rsp) := pop m rsp
  let (rsi, rsp) := pop m rsp
  let (rbp, rsp) := pop m rsp
  let (rbx, rsp) := pop m rsp
  let (rdx, rsp) := pop m rsp
  let (rcx, rsp) := pop m rsp
  let (rax, rsp) := pop m rsp
  let (r8, rsp) := pop m rsp
  let (r9, rsp) := pop m rsp
  let (r10, rsp) := pop m rsp
  let (r11, rsp) := pop m rsp
  let (r12, rsp) := pop m rsp
  let (r13, rsp) := pop m rsp
  let (r14, rsp) := pop m rsp
  let (r15, rsp) := pop m rsp
  ⟨rsp, { rdi, rsi, rbp, rbx, rdx, rcx, rax, r8, r9, r10, r11, r12, r13, r14, r15 }⟩

/-- `iret` with an operand size of 32 bits. It faults on a null code segment, and on whatever
else the descriptors do not allow. -/
def iret (allowed : Context → Bool) (m : Bytes) (rsp : BitVec 64) : Option Context :=
  let c : Context :=
    { rip := (load 32 m rsp).setWidth 64
      cs := (load 32 m (rsp + 4)).setWidth 16
      flags := (load 32 m (rsp + 8)).setWidth 64
      rsp := (load 32 m (rsp + 12)).setWidth 64
      ss := (load 32 m (rsp + 16)).setWidth 16 }
  if nullSelector c.cs ∨ ¬ allowed c then none else some c

/-- From the return of the handler on: the registers, and the context that is resumed. -/
def exit (allowed : Context → Bool) (m : Bytes) (rsp : BitVec 64) : Regs × Option Context :=
  let popped := popRegs m rsp
  (popped.regs, iret allowed m (popped.rsp + 16))

end CxKernel.Interrupt
