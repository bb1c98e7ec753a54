import CxKernel.Spec.Flags
import Mathlib.Logic.Function.Basic

/-! `core::Spinlock` in `core/spinlock.cc`, with `spin_save_state` and `spin_restore_state` of
`arch/x86-64/interface.h`, on CPUs `C` and locks `L`. The backend word is taken and given
back in one step. -/

namespace CxKernel.Spinlock

/-- Where a CPU is: outside, in `lock` before and after `cli`, or in `unlock` after the flags
are restored. -/
inductive Phase (L : Type) where
  | idle
  | saved (lock : L) (flags : BitVec 32)
  | disabled (lock : L) (flags : BitVec 32)
  | restored

/-- `held` has the locks that are to be unlocked, the last one first, each with the
`SpinlockState` it saved. -/
structure Cpu (L : Type) where
  flags : BitVec 64
  phase : Phase L
  held : List (L × BitVec 32)

structure System (C L : Type) where
  cpu : C → Cpu L
  owner : L → Option C

inductive Act (C L : Type) where
  | save (c : C) (lock : L)
  | disable (c : C)
  | acquire (c : C)
  | restore (c : C)
  | release (c : C)

variable {C L : Type} [DecidableEq C] [DecidableEq L]

def System.set (s : System C L) (c : C) (cpu : Cpu L) : System C L :=
  { s with cpu := Function.update s.cpu c cpu }

def step (s : System C L) : Act C L → Option (System C L)
  | .save c lock =>
    let cpu := s.cpu c
    match cpu.phase with
    | .idle => some (s.set c { cpu with phase := .saved lock (cpu.flags.setWidth 32) })
    | _ => none
  | .disable c =>
    let cpu := s.cpu c
    match cpu.phase with
    | .saved lock st => some (s.set c { cpu with flags := cli cpu.flags, phase := .disabled lock st })
    | _ => none
  | .acquire c =>
    let cpu := s.cpu c
    match cpu.phase with
    | .disabled lock st =>
      match s.owner lock with
      | none =>
        let s := s.set c { cpu with phase := .idle, held := (lock, st) :: cpu.held }
        some { s with owner := Function.update s.owner lock (some c) }
      | some _ => none
    | _ => none
  | .restore c =>
    let cpu := s.cpu c
    match cpu.phase, cpu.held with
    | .idle, (_, st) :: _ =>
      some (s.set c { cpu with flags := popfImage (st.setWidth 64), phase := .restored })
    | _, _ => none
  | .release c =>
    let cpu := s.cpu c
    match cpu.phase, cpu.held with
    | .restored, (lock, _) :: held =>
      let s := s.set c { cpu with phase := .idle, held }
      some { s with owner := Function.update s.owner lock none }
    | _, _ => none

end CxKernel.Spinlock
