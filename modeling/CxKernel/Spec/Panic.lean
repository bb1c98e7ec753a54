import CxKernel.Spec.Interrupt
import CxKernel.Spec.Stdio

/-! `exception_handler` of `arch/x86-64/interrupts.cc`, up to its `arch::halt()`: what goes out to
the console. -/

namespace CxKernel.Interrupt

open Strings Stdio

def exceptionMessages : List String :=
  ["#DE Division By Zero", "#DB Debug", "Non Maskable Interrupt", "#BP Breakpoint",
    "#OF Into Detected Overflow", "#BR Out of Bounds", "#UD Invalid Opcode",
    "#NM No Coprocessor", "#DF Double Fault", "Coprocessor Segment Overrun", "#TS Bad TSS",
    "#NP Segment Not Present", "#SS Stack-Segment Fault", "#GP General Protection Fault",
    "#PF Page Fault", "Unknown Interrupt", "#MF Coprocessor Fault", "#AC Alignment Check",
    "#MC Machine Check", "#XF SIMD Floating-Point Exception", "#VE Virtualization Exception",
    "Reserved", "#SX Security Exception", "Reserved", "Triple Fault", "#FERR Legacy", "Reserved",
    "Reserved", "Reserved", "Reserved", "Reserved", "Reserved"]

def pageFaultMessages : List String :=
  ["Supervisory process tried to read a non-present page entry",
    "Supervisory process tried to read a page and caused a protection fault",
    "Supervisory process tried to write to a non-present page entry",
    "Supervisory process tried to write a page and caused a protection fault",
    "User process tried to read a non-present page entry",
    "User process tried to read a page and caused a protection fault",
    "User process tried to write to a non-present page entry",
    "User process tried to write a page and caused a protection fault"]

/-- The two arrays of pointers to the messages. -/
structure Messages where
  exception : List (BitVec 64)
  pageFault : List (BitVec 64)

/-- The first format. -/
def dumpFormat : List String :=
  ["\n", "=== KERNEL UNHANDLED EXCEPTION 0x%02lX ===\n", "=== %s\n",
    "=== Dumping register contents below\n",
    "> rax: 0x%016lX rbx: 0x%016lX rcx: 0x%016lX rdx: 0x%016lX\n",
    "> rsi: 0x%016lX rdi: 0x%016lX rsp: 0x%016lX rbp: 0x%016lX\n",
    "> r8:  0x%016lX r9:  0x%016lX r10: 0x%016lX r11: 0x%016lX\n",
    "> r12: 0x%016lX r13: 0x%016lX r14: 0x%016lX r15: 0x%016lX\n",
    "> rip: 0x%016lX eflags: 0x%lX\n", "=== Error code: 0x%016lX\n"]

/-- The format for a page fault. -/
def faultFormat : List String :=
  ["=== Page fault data:\n", "=== %s\n", "=== Faulting address: 0x%016lX\n"]

def deadComputer : List String :=
  ["+===============================================+\n",
    "|                                               |\n",
    "|  Kernel panic: The system has halted.         |\n",
    "|  Please reboot the system.                    |\n",
    "|  If you see this message again, please report |\n",
    "|  this to the developers.                      |\n",
    "|               _                               |\n",
    "|         __   |-|           THE SYSTEM         |\n",
    "|  jgs   [Ll]  |=|          IS DEAD! x.x        |\n",
    "|        ====`o'^'                              |\n",
    "+===============================================+\n\n"]

def text (s : String) : List (BitVec 8) := s.toList.map ch

/-- `ebl::kerr`: the characters given to `console_emit`. -/
def kerr (mem : Mem 8) (format : List String) (args : List (BitVec 64)) :
    Option (List (BitVec 8)) := do
  let (_, out) ← ssprintf mem (format.flatMap text ++ [0]) args
  return out.emitted

/-- The values of the first format, in its order; `rsp` is where the frame is. -/
def dumped (r : IntFrame) (rsp : BitVec 64) : List (BitVec 64) :=
  [r.regs.rax, r.regs.rbx, r.regs.rcx, r.regs.rdx, r.regs.rsi, r.regs.rdi, rsp, r.regs.rbp,
    r.regs.r8, r.regs.r9, r.regs.r10, r.regs.r11, r.regs.r12, r.regs.r13, r.regs.r14, r.regs.r15,
    r.rip, r.flags, r.errCode]

/-- The additional data for a page fault. An index behind the array is `none`. -/
def pageFaultData (mem : Mem 8) (messages : Messages) (r : IntFrame) (cr2 : BitVec 64) :
    Option (List (BitVec 8)) :=
  if r.vector = 14 then do
    let message ← messages.pageFault[r.errCode.toNat]?
    kerr mem faultFormat [message, cr2]
  else some []

def exceptionHandler (mem : Mem 8) (messages : Messages) (r : IntFrame) (rsp cr2 : BitVec 64) :
    Option (List (BitVec 8)) := do
  let message ← messages.exception[r.vector.toNat]?
  let dump ← kerr mem dumpFormat (r.vector :: message :: dumped r rsp)
  let fault ← pageFaultData mem messages r cr2
  let gap ← kerr mem ["\n"] []
  let dead ← kerr mem deadComputer []
  return dump ++ fault ++ gap ++ dead

end CxKernel.Interrupt
