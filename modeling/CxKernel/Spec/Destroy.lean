import CxKernel.Spec.RefPtr
import CxKernel.Spec.Status

/-! `VmRegion::destroy` in `core/vmregion.cc`. The regions are the counted objects of
`RefPtr`, and each has a list of its own, its `children_`; the last reference to a region
takes its list and its node along. `none` is a null dereference. -/

namespace CxKernel.Vm

open RefPtr

inductive RegionEvent (R : Type) where
  | detach (child : R)
  | delete (region : R)

/-- What `destroy` reads and writes, and a record of what it does to each region. -/
structure RegionMem (H R : Type) extends Mem H R R where
  parent : R → Option R
  events : List (RegionEvent R)

namespace RegionMem

variable {H R : Type} [DecidableEq R]

/-- `child->parent_ = nullptr` -/
def detach (s : RegionMem H R) (child : R) : RegionMem H R :=
  { s with
    parent := Function.update s.parent child none
    events := s.events ++ [.detach child] }

/-- `~IntrusiveListNode`, and the memory is freed. -/
def free (s : RegionMem H R) (x : R) : RegionMem H R :=
  let links := (s.lists.links.setNext x none).setPrev x none
  { s with
    toMem := { s.toMem with lists := ⟨links, s.lists.lists⟩ }.delete x
    events := s.events ++ [.delete x] }

/-- `children_.pop_front()` -/
def popChild (s : RegionMem H R) (this : R) : Option (R × RegionMem H R) := do
  let (child, m) ← s.toMem.popFront this
  return (child, { s with toMem := m })

mutual

/-- The destructor of a `RefPtr` to `x`. -/
def drop (s : RegionMem H R) (x : R) : Option (RegionMem H R) :=
  haveI delete : RegionMem H R → R → Option (RegionMem H R) := by apply delete
  let (last, m) := s.toMem.release x
  if last then delete { s with toMem := m } x else some { s with toMem := m }
partial_fixpoint

/-- `delete`: the members go first, then the list node. -/
def delete (s : RegionMem H R) (x : R) : Option (RegionMem H R) :=
  haveI clear : RegionMem H R → R → Option (RegionMem H R) := by apply clear
  do
    let s ← clear s x
    return s.free x
partial_fixpoint

/-- `~IntrusiveList` of `children_` -/
def clear (s : RegionMem H R) (x : R) : Option (RegionMem H R) :=
  haveI drop : RegionMem H R → R → Option (RegionMem H R) := by apply drop
  haveI clear : RegionMem H R → R → Option (RegionMem H R) := by apply clear
  if LinkedList.empty (s.lists.lists x) then some s
  else do
    let (child, s) ← s.popChild x
    let s ← drop s child
    clear s x
partial_fixpoint

end

/-- `parent_->children_.remove(this)`: a reference is made for the parameter and is
dropped with the result. -/
def removeFrom (s : RegionMem H R) (parent this : R) : Option (RegionMem H R) := do
  let m ← (s.toMem.addRef this).remove parent (some this)
  { s with toMem := m }.drop this

mutual

def destroy (s : RegionMem H R) (this : R) : Option (Except E Unit × RegionMem H R) :=
  haveI destroyChildren : RegionMem H R → R → Except E Unit →
    Option (Except E Unit × RegionMem H R) := by apply destroyChildren
  do
    let (status, s) ← destroyChildren s this (.ok ())
    match s.parent this with
    | none => return (status, s)
    | some parent => do
      let s ← s.removeFrom parent this
      return (status, s)
partial_fixpoint

/-- The loop over `children_`, from the running `status`. -/
def destroyChildren (s : RegionMem H R) (this : R) (status : Except E Unit) :
    Option (Except E Unit × RegionMem H R) :=
  haveI destroy : RegionMem H R → R → Option (Except E Unit × RegionMem H R) := by apply destroy
  haveI destroyChildren : RegionMem H R → R → Except E Unit →
    Option (Except E Unit × RegionMem H R) := by apply destroyChildren
  if LinkedList.empty (s.lists.lists this) then some (status, s)
  else do
    let (child, s) ← s.popChild this
    let (res, s) ← destroy (s.detach child) child
    let status := if res.isOk then res else status
    let s ← s.drop child
    destroyChildren s this status
partial_fixpoint

end

end RegionMem

end CxKernel.Vm
