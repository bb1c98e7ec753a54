import CxKernel.Spec.LinkedList

/-! What a pool of intrusive lists is for: one sequence of nodes for each list, a
change of the sequences for each call, and when a client may make the call. -/

namespace CxKernel.LinkedList

variable {ι T : Type} [DecidableEq ι] [DecidableEq T]

/-- Put `n` before the first occurrence of `x`. -/
def insertSeq (x n : T) : List T → List T
  | [] => []
  | a :: t => if a = x then n :: a :: t else a :: insertSeq x n t

/-- What a call returns, and the sequences after it. -/
def seqStep (σ : ι → List T) : Op ι T → Option T × (ι → List T)
  | .pushFront i n => (none, Function.update σ i (n :: σ i))
  | .pushBack i n => (none, Function.update σ i (σ i ++ [n]))
  | .insertBefore i x n => (none, Function.update σ i (insertSeq x n (σ i)))
  | .popFront i => ((σ i).head?, Function.update σ i (σ i).tail)
  | .popBack i => ((σ i).getLast?, Function.update σ i (σ i).dropLast)

def seqRun (σ : ι → List T) : List (Op ι T) → List (Option T) × (ι → List T)
  | [] => ([], σ)
  | op :: ops =>
    let r := seqStep σ op
    let rs := seqRun r.2 ops
    (r.1 :: rs.1, rs.2)

/-- A node is inserted only while it is in no list, before an element of the list
named; the back is popped only off a non-empty list. -/
def Legal (σ : ι → List T) : Op ι T → Prop
  | .pushFront _ n => ∀ j, n ∉ σ j
  | .pushBack _ n => ∀ j, n ∉ σ j
  | .insertBefore i x n => x ∈ σ i ∧ ∀ j, n ∉ σ j
  | .popFront _ => True
  | .popBack i => σ i ≠ []

def LegalRun (σ : ι → List T) : List (Op ι T) → Prop
  | [] => True
  | op :: ops => Legal σ op ∧ LegalRun (seqStep σ op).2 ops

end CxKernel.LinkedList
