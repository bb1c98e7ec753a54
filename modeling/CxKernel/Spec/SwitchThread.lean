import CxKernel.Lib.ByteMem
import CxKernel.Spec.Flags
import Mathlib.Logic.Function.Basic

/-! `arch::switch_thread` in `arch/x86-64/thread.cc`, instruction by instruction, on one
CPU. A thread is named by its object; `sp T` is the address of its `backend.sp`. -/

namespace CxKernel.SwitchThread

open ByteMem

/-- The flags of a running thread. -/
abbrev Flags := {w : BitVec 64 // popfImage w = w}

/-- The stack pointer, the registers a callee saves, and the flags. -/
@[ext] structure Regs where
  rsp : BitVec 64
  rbx : BitVec 64
  rbp : BitVec 64
  r12 : BitVec 64
  r13 : BitVec 64
  r14 : BitVec 64
  r15 : BitVec 64
  flags : Flags

structure Machine (T : Type) where
  regs : Regs
  mem : Bytes
  curthread : T

variable {T : Type}

def Machine.push (s : Machine T) (v : BitVec 64) : Machine T :=
  { s with
    regs := { s.regs with rsp := s.regs.rsp - 8 }
    mem := store s.mem (s.regs.rsp - 8) v }

def Machine.pop (s : Machine T) : BitVec 64 × Machine T :=
  (load 64 s.mem s.regs.rsp, { s with regs := { s.regs with rsp := s.regs.rsp + 8 } })

def Machine.popf (s : Machine T) : Machine T :=
  let (w, s) := s.pop
  { s with regs := { s.regs with flags := ⟨popfImage w, popfImage_idem w⟩ } }

/-- From `pushf` to the store of the old stack pointer. -/
def Machine.switchOut (sp : T → BitVec 64) (oldthread newthread : T) (s : Machine T) :
    Machine T :=
  let s := { s with curthread := newthread }
  let s := s.push s.regs.flags.val
  let s := s.push s.regs.rbx
  let s := s.push s.regs.rbp
  let s := s.push s.regs.r12
  let s := s.push s.regs.r13
  let s := s.push s.regs.r14
  let s := s.push s.regs.r15
  { s with mem := store s.mem (sp oldthread) s.regs.rsp }

/-- From the load of the new stack pointer to `popf`. -/
def Machine.switchIn (sp : T → BitVec 64) (newthread : T) (s : Machine T) : Machine T :=
  -- `mov %1, %%rsp` copies the register, which has the address
  let s := { s with regs := { s.regs with rsp := sp newthread } }
  let (r15, s) := s.pop
  let s := { s with regs := { s.regs with r15 } }
  let (r14, s) := s.pop
  let s := { s with regs := { s.regs with r14 } }
  let (r13, s) := s.pop
  let s := { s with regs := { s.regs with r13 } }
  let (r12, s) := s.pop
  let s := { s with regs := { s.regs with r12 } }
  let (rbp, s) := s.pop
  let s := { s with regs := { s.regs with rbp } }
  let (rbx, s) := s.pop
  let s := { s with regs := { s.regs with rbx } }
  s.popf

def switchThread (sp : T → BitVec 64) (oldthread newthread : T) (s : Machine T) : Machine T :=
  (s.switchOut sp oldthread newthread).switchIn sp newthread

/-- A thread that was switched out: its registers on the way in, and the memory when the
switch had written its stack and `backend.sp`. -/
structure Saved where
  regs : Regs
  mem : Bytes

structure System (T : Type) extends Machine T where
  saved : T → Option Saved

inductive Act (T : Type) where
  | switch (oldthread newthread : T)
  | work (regs : Regs) (mem : Bytes)

variable [DecidableEq T]

/-- A switch, or whatever a thread does between two of them. -/
def step (sp : T → BitVec 64) (s : System T) : Act T → Option (System T)
  | .switch oldthread newthread =>
    let out := s.toMachine.switchOut sp oldthread newthread
    let saved := Function.update s.saved oldthread (some ⟨s.regs, out.mem⟩)
    some
      { toMachine := switchThread sp oldthread newthread s.toMachine
        saved := Function.update saved newthread none }
  | .work regs mem => some { s with regs, mem }

end CxKernel.SwitchThread
