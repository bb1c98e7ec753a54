import CxKernel.Spec.Mutex
import Mathlib.Data.Fin.Tuple.Basic

/-! `ebl/guard.h` with the `Policy` of `core/mutex.h`, and the ways through the functions of
`core/slab.cc` that guard with it. -/

namespace CxKernel.Mutex

inductive LockCall (M : Type) where
  | lock (m : M)
  | unlock (m : M)

/-- All that a guard has: its lock, until it is unlocked. -/
structure Policy (M : Type) where
  lock_ : Option M

variable {M : Type} {n : ℕ}

/-- The calls it makes, and what is left of it. -/
def Policy.unlock (impl : Policy M) : List (LockCall M) × Policy M :=
  match impl.lock_ with
  | some m => ([.unlock m], ⟨none⟩)
  | none => ([], impl)

/-- One way through a block of code in which `n` guards can be named, the innermost as `0`. -/
inductive Block (M : Type) : ℕ → Type where
  /-- Its end, or a return. -/
  | close {n : ℕ} : Block M n
  /-- `Guard guard{&m}` -/
  | guard {n : ℕ} (m : M) (rest : Block M (n + 1)) : Block M n
  /-- `Guard guard{&m, move(i)}` -/
  | chain {n : ℕ} (m : M) (i : Fin n) (rest : Block M (n + 1)) : Block M n
  /-- `i.release()` -/
  | release {n : ℕ} (i : Fin n) (rest : Block M n) : Block M n
  /-- A block, or the call of a function. -/
  | block {n : ℕ} (inner rest : Block M n) : Block M n

/-- The calls of the guards, and what is left of those outside. A guard is destroyed at the end of
the block it is in. -/
def Block.exec {n : ℕ} : Block M n → (Fin n → Policy M) → List (LockCall M) × (Fin n → Policy M)
  | .close, scope => ([], scope)
  | .guard m rest, scope =>
    let (calls, scope) := rest.exec (Fin.cons ⟨some m⟩ scope)
    (.lock m :: calls ++ (scope 0).unlock.1, Fin.tail scope)
  | .chain m i rest, scope =>
    let (released, lock2) := (scope i).unlock
    let (calls, scope) := rest.exec (Fin.cons ⟨some m⟩ (Function.update scope i lock2))
    (released ++ .lock m :: calls ++ (scope 0).unlock.1, Fin.tail scope)
  | .release i rest, scope =>
    let (released, impl) := (scope i).unlock
    let (calls, scope) := rest.exec (Function.update scope i impl)
    (released ++ calls, scope)
  | .block inner rest, scope =>
    let (calls, scope) := inner.exec scope
    let (calls', scope) := rest.exec scope
    (calls ++ calls', scope)

def Block.calls (b : Block M 0) : List (LockCall M) := (b.exec Fin.elim0).1

/-! `core/slab.cc`, with the caches `K` and the slabs `S`. -/

inductive SlabMutex (K S : Type) where
  | cacheListLock
  | cache (c : K)
  | slab (x : S)
deriving DecidableEq

variable {K S : Type}

/-- Without a page for a new slab there is no `node`. -/
def cacheAlloc (cache : K) (node : Option S) : Block (SlabMutex K S) n :=
  .guard (.cache cache) <|
    match node with
    | some x => .guard (.slab x) .close
    | none => .close

def cacheFree (parent : K) (slab : S) : Block (SlabMutex K S) n :=
  .guard (.cache parent) (.guard (.slab slab) .close)

/-- `made` is whether `cache_alloc` has returned an object. -/
def cacheCreate (slabcacheCache : K) (node : Option S) (made : Bool) : Block (SlabMutex K S) n :=
  .block (cacheAlloc slabcacheCache node) <|
    match made with
    | true => .block (.guard .cacheListLock .close) .close
    | false => .close

/-- A call of `kmem::alloc` or `kmem::free`, with what it comes upon: `create` is how the call of
`cache_create` goes, where no cache is found. -/
inductive KmemCall (K S : Type) where
  | alloc (create : Option (Option S × Bool)) (cache : K) (node : Option S)
  | free (parent : K) (slab : S)

def KmemCall.block (slabcacheCache : K) : KmemCall K S → Block (SlabMutex K S) n
  | .alloc create cache node =>
    .block (.guard .cacheListLock .close) <|
      match create with
      | some (node', made) =>
        .block (cacheCreate slabcacheCache node' made) (.block (cacheAlloc cache node) .close)
      | none => .block (cacheAlloc cache node) .close
  | .free parent slab => .block (cacheFree parent slab) .close

def kmemThread (slabcacheCache : K) (calls : List (KmemCall K S)) : Block (SlabMutex K S) 0 :=
  calls.foldr (fun call rest => .block (call.block slabcacheCache) rest) .close

end CxKernel.Mutex
