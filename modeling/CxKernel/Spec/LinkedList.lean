import CxKernel.Lib.LinkRing

/-! `lib/ebl/linked_list.h`: the intrusive list over raw nodes, one `next`/`prev`
pair for each node. A pointer is `Option T`, with `none` for `nullptr`; `none` as
the outcome of an operation is a null dereference. -/

namespace CxKernel.LinkedList

open LinkRing

variable {T : Type} [DecidableEq T]

/-- A list object holds its `root` only; all other links live in the nodes. -/
structure IntrusiveList (T : Type) where
  root : Option T

/-- The list made by the constructor. -/
def IntrusiveList.new : IntrusiveList T := ⟨none⟩

def empty (l : IntrusiveList T) : Bool := l.root.isNone

/-- The end of a list is its root again, told apart from the start by `flag`. -/
structure Iterator (T : Type) where
  list : Option T
  flag : Bool
deriving DecidableEq

def beginIt (l : IntrusiveList T) : Iterator T := ⟨l.root, false⟩

def endIt (l : IntrusiveList T) : Iterator T := ⟨l.root, l.root.isSome⟩

/-- `operator++` -/
def Iterator.incr (s : Links T) (it : Iterator T) : Option (Iterator T) := do
  let a ← it.list
  return ⟨s.next a, true⟩

def sizeFrom (s : Links T) (l : IntrusiveList T) (it : Iterator T) (size : ℕ) : Option ℕ :=
  haveI sizeFrom : Links T → IntrusiveList T → Iterator T → ℕ → Option ℕ := by apply sizeFrom
  if it = endIt l then some size
  else do
    let it' ← it.incr s
    sizeFrom s l it' (size + 1)
partial_fixpoint

def size (s : Links T) (l : IntrusiveList T) : Option ℕ := sizeFrom s l (beginIt l) 0

/-- The nodes a range-for sees from `it` on. -/
def visitFrom (s : Links T) (l : IntrusiveList T) (it : Iterator T) : Option (List T) :=
  haveI visitFrom : Links T → IntrusiveList T → Iterator T → Option (List T) := by apply visitFrom
  if it = endIt l then some []
  else do
    let a ← it.list
    let it' ← it.incr s
    let rest ← visitFrom s l it'
    return a :: rest
partial_fixpoint

def visit (s : Links T) (l : IntrusiveList T) : Option (List T) := visitFrom s l (beginIt l)

def first (l : IntrusiveList T) : Option T := l.root

def last (s : Links T) (l : IntrusiveList T) : Option T :=
  match l.root with
  | none => none
  | some root => s.prev root

def insertBeforeUnsafe (s : Links T) (node newNode : Option T) : Option (Links T) :=
  match node, newNode with
  | some node, some newNode =>
    if node = newNode then some s
    else do
      let p ← s.prev node
      let s := s.setNext p (some newNode)
      let s := s.setPrev newNode (s.prev node)
      let s := s.setNext newNode (some node)
      return s.setPrev node (some newNode)
  | _, _ => some s

def removeUnsafe (s : Links T) (l : IntrusiveList T) (node : Option T) :
    Option (Links T × IntrusiveList T) :=
  match node with
  | none => some (s, l)
  | some node => do
    -- a sole node is its own successor, and stays the root
    let l := if l.root = some node then ⟨s.next node⟩ else l
    let p ← s.prev node
    let s := s.setNext p (s.next node)
    let q ← s.next node
    let s := s.setPrev q (s.prev node)
    let s := s.setPrev node none
    return (s.setNext node none, l)

def pushFrontUnsafe (s : Links T) (l : IntrusiveList T) (node : T) :
    Option (Links T × IntrusiveList T) :=
  match l.root with
  | none => some ((s.setPrev node (some node)).setNext node (some node), ⟨some node⟩)
  | some root => do
    let s ← insertBeforeUnsafe s (some root) (some node)
    return (s, ⟨some node⟩)

def pushBackUnsafe (s : Links T) (l : IntrusiveList T) (node : T) :
    Option (Links T × IntrusiveList T) :=
  match l.root with
  | none => some ((s.setPrev node (some node)).setNext node (some node), ⟨some node⟩)
  | some root => do
    let s ← insertBeforeUnsafe s (some root) (some node)
    return (s, l)

def popFrontUnsafe (s : Links T) (l : IntrusiveList T) :
    Option (Option T × Links T × IntrusiveList T) :=
  let node := l.root
  match l.root with
  | none => some (none, s, l)
  | some root =>
    if s.next root = some root then some (node, s, ⟨none⟩)
    else do
      let (s, l) ← removeUnsafe s ⟨s.next root⟩ node
      return (node, s, l)

/-- `root->prev[i]` is read before `root` is compared with `nullptr`. -/
def popBackUnsafe (s : Links T) (l : IntrusiveList T) :
    Option (Option T × Links T × IntrusiveList T) := do
  let root ← l.root
  let node := s.prev root
  if l.root = none then return (none, s, l)
  else if l.root = node then return (node, s, ⟨none⟩)
  else
    let (s, l) ← removeUnsafe s l node
    return (node, s, if node = l.root then ⟨none⟩ else l)

def pushFront (s : Links T) (l : IntrusiveList T) (node : T) :
    Option (Links T × IntrusiveList T) := pushFrontUnsafe s l node

def pushBack (s : Links T) (l : IntrusiveList T) (node : T) :
    Option (Links T × IntrusiveList T) := pushBackUnsafe s l node

def popFront (s : Links T) (l : IntrusiveList T) :
    Option (Option T × Links T × IntrusiveList T) := popFrontUnsafe s l

def popBack (s : Links T) (l : IntrusiveList T) :
    Option (Option T × Links T × IntrusiveList T) := popBackUnsafe s l

/-- `remove` hands its argument back. -/
def remove (s : Links T) (l : IntrusiveList T) (node : Option T) :
    Option (Option T × Links T × IntrusiveList T) := do
  let (s, l) ← removeUnsafe s l node
  return (node, s, l)

def insertBefore (s : Links T) (l : IntrusiveList T) (inspt node : Option T) :
    Option (Links T × IntrusiveList T) := do
  let s ← insertBeforeUnsafe s inspt node
  return (s, if inspt = l.root then ⟨node⟩ else l)

/-! Several list objects over one pool of nodes, and the calls a client makes. -/

structure Pool (ι T : Type) where
  links : Links T
  lists : ι → IntrusiveList T

section Pool

variable {ι : Type} [DecidableEq ι]

def Pool.set (p : Pool ι T) (i : ι) (r : Links T × IntrusiveList T) : Pool ι T :=
  ⟨r.1, Function.update p.lists i r.2⟩

def Pool.pushFront (p : Pool ι T) (i : ι) (node : T) : Option (Pool ι T) := do
  let r ← LinkedList.pushFront p.links (p.lists i) node
  return p.set i r

def Pool.pushBack (p : Pool ι T) (i : ι) (node : T) : Option (Pool ι T) := do
  let r ← LinkedList.pushBack p.links (p.lists i) node
  return p.set i r

def Pool.insertBefore (p : Pool ι T) (i : ι) (inspt node : T) : Option (Pool ι T) := do
  let r ← LinkedList.insertBefore p.links (p.lists i) (some inspt) (some node)
  return p.set i r

def Pool.popFront (p : Pool ι T) (i : ι) : Option (Option T × Pool ι T) := do
  let (node, r) ← LinkedList.popFront p.links (p.lists i)
  return (node, p.set i r)

def Pool.popBack (p : Pool ι T) (i : ι) : Option (Option T × Pool ι T) := do
  let (node, r) ← LinkedList.popBack p.links (p.lists i)
  return (node, p.set i r)

def Pool.remove (p : Pool ι T) (i : ι) (node : T) : Option (Pool ι T) := do
  let (_, r) ← LinkedList.remove p.links (p.lists i) (some node)
  return p.set i r

/-- One call on the list `i`. -/
inductive Op (ι T : Type) where
  | pushFront (i : ι) (node : T)
  | pushBack (i : ι) (node : T)
  | insertBefore (i : ι) (inspt node : T)
  | popFront (i : ι)
  | popBack (i : ι)

/-- The call's returned pointer (`none` for a `void` call) and the pool after it. -/
def Pool.step (p : Pool ι T) : Op ι T → Option (Option T × Pool ι T)
  | .pushFront i node => (p.pushFront i node).map (none, ·)
  | .pushBack i node => (p.pushBack i node).map (none, ·)
  | .insertBefore i inspt node => (p.insertBefore i inspt node).map (none, ·)
  | .popFront i => p.popFront i
  | .popBack i => p.popBack i

/-- A run of calls, with the pointers they return. -/
def Pool.run (p : Pool ι T) : List (Op ι T) → Option (List (Option T) × Pool ι T)
  | [] => some ([], p)
  | op :: ops => do
    let (r, p) ← p.step op
    let (rs, p) ← p.run ops
    return (r :: rs, p)

end Pool

end CxKernel.LinkedList
