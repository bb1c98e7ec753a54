import CxKernel.Spec.LinkedList

/-! `lib/ebl/memory.h`, and the list of `RefPtr` in `lib/ebl/linked_list.h`: objects `T`
that count their references, the variables `H` of type `RefPtr` and the lists `L` that
hold them. `none` as the outcome of an operation is a null dereference, or the use of a
variable that was not constructed. -/

namespace CxKernel.RefPtr

open LinkedList

/-- A variable is `none` outside its lifetime, and otherwise `some ptr_`. The objects
passed to `adopt` and to `delete` are recorded in order. -/
structure Mem (H L T : Type) where
  refCount : T → BitVec 32
  handles : H → Option (Option T)
  lists : Pool L T
  adopted : List T
  destroyed : List T

variable {H L T : Type} [DecidableEq H] [DecidableEq L] [DecidableEq T]

def Mem.addRef (s : Mem H L T) (x : T) : Mem H L T :=
  { s with refCount := Function.update s.refCount x (s.refCount x + 1) }

/-- True if this was the last reference. -/
def Mem.release (s : Mem H L T) (x : T) : Bool × Mem H L T :=
  let ref := s.refCount x
  (ref == 1, { s with refCount := Function.update s.refCount x (ref - 1) })

def Mem.adopt (s : Mem H L T) (x : T) : Mem H L T :=
  { s with
    refCount := Function.update s.refCount x 1
    adopted := s.adopted ++ [x] }

def Mem.delete (s : Mem H L T) (x : T) : Mem H L T := { s with destroyed := s.destroyed ++ [x] }

/-- `RefPtr::destroy` -/
def Mem.destroy (s : Mem H L T) : Option T → Mem H L T
  | none => s
  | some x =>
    let (last, s) := s.release x
    if last then s.delete x else s

def Mem.set (s : Mem H L T) (h : H) (v : Option (Option T)) : Mem H L T :=
  { s with handles := Function.update s.handles h v }

/-- What `RefPtr(T*)` does to the object. -/
def Mem.ref (s : Mem H L T) : Option T → Mem H L T
  | none => s
  | some x => s.addRef x

/-! `RefPtr`. -/

def Mem.adoptRef (s : Mem H L T) (h : H) (x : T) : Mem H L T := (s.adopt x).set h (some (some x))

/-- `RefPtr(T*)` -/
def Mem.construct (s : Mem H L T) (h : H) (ptr : Option T) : Mem H L T :=
  (s.ref ptr).set h (some ptr)

def Mem.copyConstruct (s : Mem H L T) (h other : H) : Option (Mem H L T) := do
  let ptr ← s.handles other
  return s.construct h ptr

def Mem.moveConstruct (s : Mem H L T) (h other : H) : Option (Mem H L T) := do
  let ptr ← s.handles other
  return (s.set h (some ptr)).set other (some none)

def Mem.copyAssign (s : Mem H L T) (h other : H) : Option (Mem H L T) := do
  let ptr ← s.handles other
  let s := s.ref ptr
  let old ← s.handles h
  return (s.set h (some ptr)).destroy old

/-- A temporary takes the pointer of `other` and swaps it with the one of `h`. -/
def Mem.moveAssign (s : Mem H L T) (h other : H) : Option (Mem H L T) := do
  let ptr ← s.handles other
  let s := s.set other (some none)
  let tmp ← s.handles h
  return (s.set h (some ptr)).destroy tmp

def Mem.swap (s : Mem H L T) (h other : H) : Option (Mem H L T) := do
  let tmp ← s.handles h
  let ptr ← s.handles other
  return (s.set h (some ptr)).set other (some tmp)

/-- `~RefPtr` -/
def Mem.destruct (s : Mem H L T) (h : H) : Option (Mem H L T) := do
  let ptr ← s.handles h
  return (s.destroy ptr).set h none

/-! `IntrusiveList<RefPtr<T>>`. A parameter `RefPtr<T> node` is made before the call and
destroyed after it. -/

/-- What is passed for a parameter of type `RefPtr`. -/
inductive Arg (H T : Type) where
  | copy (h : H)
  | move (h : H)
  | raw (ptr : Option T)

/-- The pointer the parameter has. -/
def Mem.argPtr (s : Mem H L T) : Arg H T → Option (Option T)
  | .copy h => s.handles h
  | .move h => s.handles h
  | .raw ptr => some ptr

/-- The parameter is made. -/
def Mem.pass (s : Mem H L T) : Arg H T → Option (Option T × Mem H L T)
  | .copy h => do
    let ptr ← s.handles h
    return (ptr, s.ref ptr)
  | .move h => do
    let ptr ← s.handles h
    return (ptr, s.set h (some none))
  | .raw ptr => some (ptr, s.ref ptr)

/-- `node.get()->add_ref()`, and the node is linked by `link`. -/
def Mem.link (s : Mem H L T) (link : Pool L T → T → Option (Pool L T)) (node : Option T) :
    Option (Mem H L T) := do
  let x ← node
  let s := s.addRef x
  let lists ← link s.lists x
  return { s with lists }

def Mem.insert (s : Mem H L T) (link : Pool L T → T → Option (Pool L T)) (arg : Arg H T) :
    Option (Mem H L T) := do
  let (node, s) ← s.pass arg
  let s ← s.link link node
  return s.destroy node

def Mem.pushFront (s : Mem H L T) (l : L) (node : Arg H T) : Option (Mem H L T) :=
  s.insert (fun p x => p.pushFront l x) node

def Mem.pushBack (s : Mem H L T) (l : L) (node : Arg H T) : Option (Mem H L T) :=
  s.insert (fun p x => p.pushBack l x) node

def Mem.insertBefore (s : Mem H L T) (l : L) (inspt : T) (node : Arg H T) :
    Option (Mem H L T) :=
  s.insert (fun p x => p.insertBefore l inspt x) node

/-- A node goes off the list by `unlink`, then `ptr->release()`. -/
def Mem.unlink (s : Mem H L T) (unlink : Pool L T → Option (Option T × Pool L T)) :
    Option (T × Mem H L T) := do
  let (ptr, lists) ← unlink s.lists
  let x ← ptr
  let (_, s) := { s with lists }.release x
  return (x, s)

/-- The reference of the `RefPtr` that is returned is counted. -/
def Mem.pop (s : Mem H L T) (unlink : Pool L T → Option (Option T × Pool L T)) :
    Option (T × Mem H L T) := do
  let (x, s) ← s.unlink unlink
  return (x, s.addRef x)

def Mem.popFront (s : Mem H L T) (l : L) : Option (T × Mem H L T) := s.pop (·.popFront l)

def Mem.popBack (s : Mem H L T) (l : L) : Option (T × Mem H L T) := s.pop (·.popBack l)

/-- The parameter is handed back. -/
def Mem.remove (s : Mem H L T) (l : L) (node : Option T) : Option (Mem H L T) := do
  let x ← node
  let lists ← s.lists.remove l x
  let (_, s) := { s with lists }.release x
  return s

def Mem.first (s : Mem H L T) (l : L) (h : H) : Mem H L T :=
  s.construct h (LinkedList.first (s.lists.lists l))

def Mem.last (s : Mem H L T) (l : L) (h : H) : Mem H L T :=
  s.construct h (LinkedList.last s.lists.links (s.lists.lists l))

/-- `~IntrusiveList` -/
def Mem.clear (s : Mem H L T) (l : L) : Option (Mem H L T) :=
  haveI clear : Mem H L T → L → Option (Mem H L T) := by apply Mem.clear
  if empty (s.lists.lists l) then some s
  else do
    let (x, s) ← s.popFront l
    clear (s.destroy (some x)) l
partial_fixpoint

/-- One operation. The result of a pop makes a new variable. -/
inductive Op (H L T : Type) where
  | adoptRef (h : H) (x : T)
  | construct (h : H) (ptr : Option T)
  | copyConstruct (h other : H)
  | moveConstruct (h other : H)
  | copyAssign (h other : H)
  | moveAssign (h other : H)
  | swap (h other : H)
  | destruct (h : H)
  | pushFront (l : L) (node : Arg H T)
  | pushBack (l : L) (node : Arg H T)
  | insertBefore (l : L) (inspt : T) (node : Arg H T)
  | popFront (l : L) (h : H)
  | popBack (l : L) (h : H)
  | first (l : L) (h : H)
  | last (l : L) (h : H)
  | clear (l : L)

def Mem.step (s : Mem H L T) : Op H L T → Option (Mem H L T)
  | .adoptRef h x => some (s.adoptRef h x)
  | .construct h ptr => some (s.construct h ptr)
  | .copyConstruct h other => s.copyConstruct h other
  | .moveConstruct h other => s.moveConstruct h other
  | .copyAssign h other => s.copyAssign h other
  | .moveAssign h other => s.moveAssign h other
  | .swap h other => s.swap h other
  | .destruct h => s.destruct h
  | .pushFront l node => s.pushFront l node
  | .pushBack l node => s.pushBack l node
  | .insertBefore l inspt node => s.insertBefore l inspt node
  | .popFront l h => (s.popFront l).map fun (x, s) => s.set h (some (some x))
  | .popBack l h => (s.popBack l).map fun (x, s) => s.set h (some (some x))
  | .first l h => some (s.first l h)
  | .last l h => some (s.last l h)
  | .clear l => s.clear l

end CxKernel.RefPtr
