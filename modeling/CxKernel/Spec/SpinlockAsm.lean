import CxKernel.Lib.ByteMem
import Mathlib.Data.List.Basic
import Mathlib.Logic.Function.Basic

/-! `spin_lock` and `spin_unlock` of `arch/x86-64/interface.h`, one instruction a step, on
CPUs `C` and locks `L`. `addr l` is the address of `l->x`. The operand of the assembly is
the value of `lock->x`, in a register. -/

namespace CxKernel.SpinlockAsm

open ByteMem

/-- A call of `spin_lock`: its operand, and a record of the addresses it wrote to. -/
structure Call (L : Type) where
  lock : L
  reg : BitVec 64
  wrote : List (BitVec 64)

/-- The instruction a CPU is at, with the flag a jump tests. `done` is label 2. -/
inductive Phase (L : Type) where
  | idle
  | entry (lock : L)
  | bts (call : Call L)
  | jnc (call : Call L) (cf : Bool)
  | pause (call : Call L)
  | testl (call : Call L)
  | jne (call : Call L) (zf : Bool)
  | btsAgain (call : Call L)
  | jc (call : Call L) (cf : Bool)
  | done (call : Call L)

/-- `holds` has the locks of the calls that got through, `released` those unlocked since. -/
structure System (C L : Type) where
  mem : Bytes
  phase : C → Phase L
  holds : List (C × L)
  released : List L

inductive Act (C L : Type) where
  | call (c : C) (lock : L)
  | exec (c : C)
  | ret (c : C)
  | unlock (c : C) (lock : L)

variable {C L : Type} [DecidableEq C] [DecidableEq L]

def System.goto (s : System C L) (c : C) (phase : Phase L) : System C L :=
  { s with phase := Function.update s.phase c phase }

/-- `lock bts $0, (%0)`, on a dword; the old bit goes to CF. -/
def System.lockBts (s : System C L) (call : Call L) : Bool × Call L × System C L :=
  let word := load 32 s.mem call.reg
  (word.getLsbD 0, { call with wrote := call.wrote ++ [call.reg] },
    { s with mem := store s.mem call.reg (word ||| 1) })

/-- The call gets to its end. -/
def System.finish (s : System C L) (c : C) (call : Call L) : System C L :=
  { s.goto c (.done call) with holds := (c, call.lock) :: s.holds }

def exec (addr : L → BitVec 64) (s : System C L) (c : C) : Option (System C L) :=
  match s.phase c with
  | .idle => none
  | .entry lock => some (s.goto c (.bts ⟨lock, (load 32 s.mem (addr lock)).setWidth 64, []⟩))
  | .bts call =>
    let (cf, call, s) := s.lockBts call
    some (s.goto c (.jnc call cf))
  | .jnc call cf => some (if cf then s.goto c (.pause call) else s.finish c call)
  | .pause call => some (s.goto c (.testl call))
  | .testl call => some (s.goto c (.jne call (!(load 32 s.mem call.reg).getLsbD 0)))
  | .jne call zf => some (s.goto c (if zf then .btsAgain call else .pause call))
  | .btsAgain call =>
    let (cf, call, s) := s.lockBts call
    some (s.goto c (.jc call cf))
  | .jc call cf => some (if cf then s.goto c (.pause call) else s.finish c call)
  | .done _ => none

def step (addr : L → BitVec 64) (s : System C L) : Act C L → Option (System C L)
  | .call c lock =>
    match s.phase c with
    | .idle => some (s.goto c (.entry lock))
    | _ => none
  | .exec c => exec addr s c
  | .ret c =>
    match s.phase c with
    | .done _ => some (s.goto c .idle)
    | _ => none
  | .unlock c lock =>
    match s.phase c with
    | .idle =>
      if (c, lock) ∈ s.holds then
        some { s with
          mem := store s.mem (addr lock) (0 : BitVec 32)
          holds := s.holds.erase (c, lock)
          released := lock :: s.released }
      else none
    | _ => none

end CxKernel.SpinlockAsm
