import CxKernel.Lib.WordArray
import CxKernel.Spec.Interrupt

/-! `arch/x86-64/interrupts.cc`: the interrupt descriptor table, the table of handlers, and what
`isr_handler` does with a frame; `idt_entry` in `arch/x86-64/types.h`; and the way of the processor
from a vector to the code for it. -/

namespace CxKernel.Interrupt

open ByteMem

/-- `idt_entry`, from its last field to its first. -/
def idtEntry (isrFn : BitVec 64) (type : BitVec 8) : BitVec 128 :=
  let offsetLow : BitVec 16 := (isrFn &&& 0xFFFF).setWidth 16
  let selector := 0x08#16
  let ist := 0#3
  let reserved0 := 0#5
  let type : BitVec 4 := (type &&& 0xF).setWidth 4
  let zero := 0#1
  let dpl := 0#2
  let present := 1#1
  let offsetMid : BitVec 16 := ((isrFn >>> 16) &&& 0xFFFF).setWidth 16
  let offsetHigh : BitVec 32 := ((isrFn >>> 32) &&& 0xFFFFFFFF).setWidth 32
  let reserved1 := 0#32
  reserved1 ++ offsetHigh ++ offsetMid ++ present ++ dpl ++ zero ++ type ++ reserved0 ++ ist ++
    selector ++ offsetLow

/-- `descriptor_type::INTERRUPT_GATE` -/
def interruptGate : BitVec 8 := 0b1110

/-- Where the objects of `interrupts.cc` and the 256 labels `isrN` are. -/
structure Image where
  idt : BitVec 64
  irqHandlers : BitVec 64
  isrStubTable : BitVec 64
  isr : BitVec 8 → BitVec 64

namespace Image

variable (im : Image)

/-- `&idt[i]` -/
def gate (i : ℕ) : BitVec 64 := im.idt + .ofNat 64 (16 * i)

/-- `&irq_handlers[i]` -/
def slot (i : ℕ) : BitVec 64 := im.irqHandlers + .ofNat 64 (8 * i)

/-- An iteration of the loop in `init_idt`. -/
def initGate (m : Bytes) (i : ℕ) : Bytes :=
  let isrFn := load 64 m (im.isrStubTable + .ofNat 64 (8 * i))
  let m := store m (im.gate i) (idtEntry isrFn interruptGate)
  store m (im.slot i) (0 : BitVec 64)

def initIdt (m : Bytes) : Bytes := (List.range 256).foldl im.initGate m

/-- `idt_reg_ptr.limit` -/
def idtLimit : BitVec 16 := 256 * 16 - 1

def irqInstallHandler (m : Bytes) (vector : BitVec 8) (fn : BitVec 64) : Bytes :=
  store m (im.slot vector.toNat) fn

def irqRemoveHandler (m : Bytes) (vector : BitVec 8) : Bytes :=
  store m (im.slot vector.toNat) (0 : BitVec 64)

def irqGetHandler (m : Bytes) (vector : BitVec 8) : BitVec 64 := load 64 m (im.slot vector.toNat)

/-! The processor. -/

/-- What a gate says. -/
structure Gate where
  selector : BitVec 16
  offset : BitVec 64
  ist : BitVec 3
  masksInterrupts : Bool

/-- The gate for a vector. There is a fault where it is behind the limit, not present, or for
something else than an interrupt or a trap. -/
def fetchGate (m : Bytes) (vector : BitVec 8) : Option Gate :=
  if idtLimit.toNat < 16 * vector.toNat + 15 then none
  else
    let desc := load 128 m (im.gate vector.toNat)
    let type := desc.extractLsb' 40 4
    let present := desc.extractLsb' 47 1
    -- bit 44 is 1 in a descriptor of code or data
    if present = 0 ∨ desc.extractLsb' 44 1 = 1 ∨ type ≠ 0b1110 ∧ type ≠ 0b1111 then none
    else some
      { selector := desc.extractLsb' 16 16
        offset := desc.extractLsb' 64 32 ++ desc.extractLsb' 48 16 ++ desc.extractLsb' 0 16
        ist := desc.extractLsb' 32 3
        masksInterrupts := type = 0b1110 }

/-- The `isrN` at an address. -/
def isrAt (a : BitVec 64) : Option (BitVec 8) :=
  ((List.range 256).map (.ofNat 8)).find? fun n => im.isr n = a

/-- Through the gate for the vector and the `isrN` behind it: memory in `isr_handler`, with the
return address `ret` of its call on the stack, and its argument. -/
def deliver (m : Bytes) (top : BitVec 64) (vector : BitVec 8) (error : BitVec 64)
    (p : Interrupted) (ret : BitVec 64) : Option (Bytes × BitVec 64) := do
  let gate ← im.fetchGate m vector
  let n ← im.isrAt gate.offset
  let (m, rsp) := pushAll m top
    (cpuPushes vector error p.context ++ isrPushes n ++ stubPushes p.regs)
  return (store m (rsp - 8) ret, rsp)

end Image

/-- What `isr_handler` does. -/
inductive Action where
  | call (handler : BitVec 64) (regs : BitVec 64)
  | exceptionHandler (r : IntFrame) (rsp : BitVec 64)
  | unhandled (vector : BitVec 64)

/-- `isr_handler(arg)`; an index behind `irq_handlers` is `none`. -/
def Image.isrHandler (im : Image) (m : Bytes) (arg : BitVec 64) : Option Action :=
  let regs := readFrame m arg
  if 256 ≤ regs.vector.toNat then none
  else
    let handler := load 64 m (im.slot regs.vector.toNat)
    some (if handler ≠ 0 then .call handler arg
      else if regs.vector < 32 then .exceptionHandler regs arg
      else .unhandled regs.vector)

/-- What happens to the tables once they are set up: calls of the two functions that write to the
table of handlers, interrupts, and stores of other code. -/
inductive Event where
  | install (vector : BitVec 8) (fn : BitVec 64)
  | remove (vector : BitVec 8)
  | interrupt (top : BitVec 64) (vector : BitVec 8) (error : BitVec 64) (p : Interrupted)
      (ret : BitVec 64)
  | write (a : BitVec 64) (v : BitVec 8)

/-- An interrupt goes as far as the start of `isr_handler`: what the handler does is events of
its own. -/
def Image.step (im : Image) (m : Bytes) : Event → Option Bytes
  | .install vector fn => some (im.irqInstallHandler m vector fn)
  | .remove vector => some (im.irqRemoveHandler m vector)
  | .interrupt top vector error p ret => (im.deliver m top vector error p ret).map Prod.fst
  | .write a v => some (store m a v)

end CxKernel.Interrupt
