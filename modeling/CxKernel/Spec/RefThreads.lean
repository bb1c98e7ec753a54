import CxKernel.Lib.Runs
import CxKernel.Spec.RefPtr

/-! The `RefPtr` operations of many threads, one atomic access of `ref_count_` a step. A
variable belongs to one thread, a list is used by the thread that has locked it. By-value
parameters and temporaries are variables: a call makes its parameter by a step of its own
(a copy or a move) and drops it after, an assignment copies into a temporary, swaps and
drops that, and the destructor of a list pops and drops. -/

namespace CxKernel.RefPtr

open LinkedList

/-- Where a thread is between two of its atomic steps. -/
inductive Pc (V T : Type) where
  | idle
  /-- In `destroy`, after it released the last reference. -/
  | deleting (x : T)
  /-- In a pop, after `ptr->release()`; `v` is for the result. -/
  | popping (x : T) (v : V)

structure Sys (Θ V L T : Type) where
  mem : Mem (Θ × V) L T
  lock : L → Option Θ
  pc : Θ → Pc V T

inductive Act (V L T : Type) where
  | adoptRef (v : V) (x : T)
  | copy (v other : V)
  | move (v other : V)
  | swap (v other : V)
  /-- `~RefPtr` -/
  | drop (v : V)
  /-- `delete` in `destroy` -/
  | delete
  | acquire (l : L)
  | unlock (l : L)
  | pushFront (l : L) (node : V)
  | pushBack (l : L) (node : V)
  | insertBefore (l : L) (inspt : T) (node : V)
  | popFront (l : L) (v : V)
  | popBack (l : L) (v : V)
  /-- The `RefPtr` a pop returns is made. -/
  | popReturn
  | remove (l : L) (node : V)
  | first (l : L) (v : V)
  | last (l : L) (v : V)

variable {Θ V L T : Type} [DecidableEq Θ] [DecidableEq V] [DecidableEq L] [DecidableEq T]

/-- A step that leaves the thread idle. -/
def Sys.access (s : Sys Θ V L T) (θ : Θ)
    (f : Mem (Θ × V) L T → Option (Mem (Θ × V) L T)) : Option (Sys Θ V L T) :=
  match s.pc θ with
  | .idle => do
    let mem ← f s.mem
    return { s with mem }
  | _ => none

/-- The same on a list that the thread has locked. -/
def Sys.listAccess (s : Sys Θ V L T) (θ : Θ) (l : L)
    (f : Mem (Θ × V) L T → Option (Mem (Θ × V) L T)) : Option (Sys Θ V L T) :=
  if s.lock l = some θ then s.access θ f else none

def Sys.drop (s : Sys Θ V L T) (θ : Θ) (v : V) : Option (Sys Θ V L T) :=
  match s.pc θ with
  | .idle => do
    let ptr ← s.mem.handles (θ, v)
    match ptr with
    | none => return { s with mem := s.mem.set (θ, v) none }
    | some x =>
      let (last, mem) := (s.mem.set (θ, v) none).release x
      return { s with mem, pc := if last then Function.update s.pc θ (.deleting x) else s.pc }
  | _ => none

def Sys.delete (s : Sys Θ V L T) (θ : Θ) : Option (Sys Θ V L T) :=
  match s.pc θ with
  | .deleting x => some { s with
      mem := s.mem.delete x
      pc := Function.update s.pc θ .idle }
  | _ => none

def Sys.acquire (s : Sys Θ V L T) (θ : Θ) (l : L) : Option (Sys Θ V L T) :=
  match s.pc θ, s.lock l with
  | .idle, none => some { s with lock := Function.update s.lock l (some θ) }
  | _, _ => none

def Sys.unlock (s : Sys Θ V L T) (θ : Θ) (l : L) : Option (Sys Θ V L T) :=
  match s.pc θ with
  | .idle => if s.lock l = some θ then some { s with lock := Function.update s.lock l none }
    else none
  | _ => none

/-- An insertion, after its parameter `node` was made. -/
def Sys.insert (s : Sys Θ V L T) (θ : Θ) (l : L) (node : V)
    (link : Pool L T → T → Option (Pool L T)) : Option (Sys Θ V L T) :=
  s.listAccess θ l fun mem => do
    let ptr ← mem.handles (θ, node)
    mem.link link ptr

/-- A pop up to the release of the list's reference. -/
def Sys.pop (s : Sys Θ V L T) (θ : Θ) (l : L) (v : V)
    (unlink : Pool L T → Option (Option T × Pool L T)) : Option (Sys Θ V L T) :=
  match s.pc θ with
  | .idle =>
    if s.lock l = some θ then do
      let (x, mem) ← s.mem.unlink unlink
      return { s with mem, pc := Function.update s.pc θ (.popping x v) }
    else none
  | _ => none

def Sys.popReturn (s : Sys Θ V L T) (θ : Θ) : Option (Sys Θ V L T) :=
  match s.pc θ with
  | .popping x v => some { s with
      mem := s.mem.construct (θ, v) (some x)
      pc := Function.update s.pc θ .idle }
  | _ => none

def Sys.step (s : Sys Θ V L T) : Θ × Act V L T → Option (Sys Θ V L T)
  | (θ, .adoptRef v x) => s.access θ fun mem => some (mem.adoptRef (θ, v) x)
  | (θ, .copy v other) => s.access θ fun mem => mem.copyConstruct (θ, v) (θ, other)
  | (θ, .move v other) => s.access θ fun mem => mem.moveConstruct (θ, v) (θ, other)
  | (θ, .swap v other) => s.access θ fun mem => mem.swap (θ, v) (θ, other)
  | (θ, .drop v) => s.drop θ v
  | (θ, .delete) => s.delete θ
  | (θ, .acquire l) => s.acquire θ l
  | (θ, .unlock l) => s.unlock θ l
  | (θ, .pushFront l node) => s.insert θ l node fun p x => p.pushFront l x
  | (θ, .pushBack l node) => s.insert θ l node fun p x => p.pushBack l x
  | (θ, .insertBefore l inspt node) => s.insert θ l node fun p x => p.insertBefore l inspt x
  | (θ, .popFront l v) => s.pop θ l v (·.popFront l)
  | (θ, .popBack l v) => s.pop θ l v (·.popBack l)
  | (θ, .popReturn) => s.popReturn θ
  | (θ, .remove l node) => s.listAccess θ l fun mem => do
      let ptr ← mem.handles (θ, node)
      mem.remove l ptr
  | (θ, .first l v) => s.listAccess θ l fun mem => some (mem.first l (θ, v))
  | (θ, .last l v) => s.listAccess θ l fun mem => some (mem.last l (θ, v))

/-- The object whose count the step accesses, or that it deletes. -/
def Sys.uses (s : Sys Θ V L T) : Θ × Act V L T → Option T
  | (_, .adoptRef _ x) => some x
  | (θ, .copy _ other) => (s.mem.handles (θ, other)).join
  | (θ, .drop v) => (s.mem.handles (θ, v)).join
  | (θ, .delete) =>
    match s.pc θ with
    | .deleting x => some x
    | _ => none
  | (θ, .pushFront _ node) => (s.mem.handles (θ, node)).join
  | (θ, .pushBack _ node) => (s.mem.handles (θ, node)).join
  | (θ, .insertBefore _ _ node) => (s.mem.handles (θ, node)).join
  | (_, .popFront l _) => LinkedList.first (s.mem.lists.lists l)
  | (_, .popBack l _) => LinkedList.last s.mem.lists.links (s.mem.lists.lists l)
  | (θ, .popReturn) =>
    match s.pc θ with
    | .popping x _ => some x
    | _ => none
  | (θ, .remove _ node) => (s.mem.handles (θ, node)).join
  | (_, .first l _) => LinkedList.first (s.mem.lists.lists l)
  | (_, .last l _) => LinkedList.last s.mem.lists.links (s.mem.lists.lists l)
  | _ => none

end CxKernel.RefPtr
