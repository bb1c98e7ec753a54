import CxKernel.Lib.Runs
import CxKernel.Spec.LinkedList

/-! `core/mutex.cc`, `core/sched.cc`, `core/thread.cc` and `core/mp.h`: threads on some
number of CPUs that take mutexes and yield. What a spinlock guards is one step, and so is
a context switch; a step is `none` if it is not the next one of the thread that runs, or
if an assertion in it fails. -/

namespace CxKernel.Mutex

open LinkedList

inductive ThreadState where
  | run
  | ready
  | sleep
  | blocked
  | zombie

/-- `Mutex::State` -/
inductive State where
  | free
  | locked
deriving DecidableEq

/-- `thread_queue` of a CPU, `wait_queue_` of a mutex. -/
inductive Queue (C M : Type) where
  | threadQueue (c : C)
  | waitQueue (m : M)
deriving DecidableEq

/-- Where a thread is in the code of `lock`, `unlock` and `thread_yield`. -/
inductive Ctx (M : Type) where
  | run
  /-- On the wait queue, with the spinlock dropped: it will switch away. -/
  | blocking (m : M)
  /-- Switched away in `lock`: it will take the spinlock again. -/
  | waiting (m : M)
  /-- Past the assertion of `unlock`. -/
  | unlocking (m : M)
  /-- On its CPU's thread queue: it will switch away. -/
  | yielding

/-- The threads `T`, CPUs `C` and mutexes `M`. A thread holds a mutex from the return of
`lock` to its call of `unlock`; `holders`, `called` and `acquired` record who does, and
who has called `lock` and returned from it, in order. -/
structure Sys (C T M : Type) where
  curthread : C → T
  ctx : T → Ctx M
  threadState : T → ThreadState
  queues : Pool (Queue C M) T
  mutexState : M → State
  owner : M → Option T
  holders : M → List T
  called : M → List T
  acquired : M → List T

variable {C T M : Type} [DecidableEq C] [DecidableEq T] [DecidableEq M]

def Sys.doIHold (s : Sys C T M) (c : C) (m : M) : Bool := s.owner m = some (s.curthread c)

/-- `lock` up to its first `spin_unlock`. -/
def Sys.lock (s : Sys C T M) (c : C) (m : M) : Option (Sys C T M) :=
  let t := s.curthread c
  match s.ctx t with
  | .run =>
    let called := Function.update s.called m (s.called m ++ [t])
    match s.mutexState m with
    | .free => some { s with
        called
        mutexState := Function.update s.mutexState m .locked
        owner := Function.update s.owner m (some t)
        holders := Function.update s.holders m (s.holders m ++ [t])
        acquired := Function.update s.acquired m (s.acquired m ++ [t]) }
    | .locked => do
      let queues ← s.queues.pushBack (.waitQueue m) t
      return { s with
        called, queues
        threadState := Function.update s.threadState t .blocked
        ctx := Function.update s.ctx t (.blocking m) }
  | _ => none

/-- `schedule_next_thread`, for a caller that will go on at `resume`. -/
def Sys.scheduleNextThread (s : Sys C T M) (c : C) (resume : Ctx M) : Option (Sys C T M) := do
  let oldthread := s.curthread c
  let (newthread, queues) ← s.queues.popFront (.threadQueue c)
  let newthread ← newthread
  return { s with
    queues
    curthread := Function.update s.curthread c newthread
    ctx := Function.update s.ctx oldthread resume }

/-- The switch at the end of `thread_yield`, or in the middle of `lock`. -/
def Sys.switch (s : Sys C T M) (c : C) : Option (Sys C T M) :=
  match s.ctx (s.curthread c) with
  | .blocking m => s.scheduleNextThread c (.waiting m)
  | .yielding => s.scheduleNextThread c .run
  | _ => none

/-- `lock` from its second `spin_lock` on. -/
def Sys.wake (s : Sys C T M) (c : C) : Option (Sys C T M) :=
  let t := s.curthread c
  match s.ctx t with
  | .waiting m =>
    if s.doIHold c m then none
    else some { s with
      owner := Function.update s.owner m (some t)
      ctx := Function.update s.ctx t .run
      holders := Function.update s.holders m (s.holders m ++ [t])
      acquired := Function.update s.acquired m (s.acquired m ++ [t]) }
  | _ => none

/-- The call of `unlock` and its assertion. -/
def Sys.unlock (s : Sys C T M) (c : C) (m : M) : Option (Sys C T M) :=
  let t := s.curthread c
  match s.ctx t with
  | .run =>
    if s.doIHold c m then some { s with
      ctx := Function.update s.ctx t (.unlocking m)
      holders := Function.update s.holders m ((s.holders m).erase t) }
    else none
  | _ => none

/-- `unlock` past its assertion. -/
def Sys.release (s : Sys C T M) (c : C) : Option (Sys C T M) :=
  let t := s.curthread c
  match s.ctx t with
  | .unlocking m =>
    if empty (s.queues.lists (.waitQueue m)) then some { s with
      mutexState := Function.update s.mutexState m .free
      owner := Function.update s.owner m none
      ctx := Function.update s.ctx t .run }
    else do
      let (nextTh, queues) ← s.queues.popFront (.waitQueue m)
      let nextTh ← nextTh
      let queues ← queues.pushBack (.threadQueue c) nextTh
      return { s with
        queues
        threadState := Function.update s.threadState nextTh .ready
        ctx := Function.update s.ctx t .run }
  | _ => none

/-- `thread_yield` up to its switch. -/
def Sys.yield (s : Sys C T M) (c : C) : Option (Sys C T M) :=
  let t := s.curthread c
  match s.ctx t with
  | .run => do
    let queues ← s.queues.pushBack (.threadQueue c) t
    return { s with
      queues
      threadState := Function.update s.threadState t .ready
      ctx := Function.update s.ctx t .yielding }
  | _ => none

inductive Act (M : Type) where
  | lock (m : M)
  | switch
  | wake
  | unlock (m : M)
  | release
  | yield

/-- One step of the thread that runs on a CPU. -/
def Sys.step (s : Sys C T M) : C × Act M → Option (Sys C T M)
  | (c, .lock m) => s.lock c m
  | (c, .switch) => s.switch c
  | (c, .wake) => s.wake c
  | (c, .unlock m) => s.unlock c m
  | (c, .release) => s.release c
  | (c, .yield) => s.yield c

end CxKernel.Mutex
