import CxKernel.Proofs.Slab

/-! Runs of a slab cache, from its constructor on. No slab is ever made: the heap grows
only while a partial slab is at hand, and the first allocation already needs one. -/

namespace CxKernel.Slab

open LinkedList

/-- `obj` is where `slab_create` puts an object, for one of the colours. -/
def Slot (c : Cache) (obj : BitVec 64) : Prop :=
  ∃ page ∈ c.pages, ∃ color < (maxColor c).toNat, ∃ i < c.slabNobjects.toNat,
    obj.toNat = page.toNat + (alignUp sizeofSlab c.order).toNat +
      color * (alignment c.order).toNat + i * c.slabObjsize.toNat

/-- `cache_alloc` gets to `grow_heap`. -/
def GrowsHeap (c : Cache) : Prop :=
  ¬ empty (c.lists.lists .partiallist) = true ∧ empty (c.lists.lists .freelist) = true

/-- The cache after allocations alone, given what `grow_heap` returns to each. -/
def allocs (c : Cache) : List (BitVec 64) → Option Cache
  | [] => some c
  | page :: pages => do
    let (_, c) ← cacheAlloc c page
    allocs c pages

/-- Some number of allocations hands `obj` out. -/
def CanAlloc (c : Cache) (obj : BitVec 64) : Prop :=
  ∃ pages c' page c'', allocs c pages = some c' ∧ cacheAlloc c' page = some (obj, c'')

/-- `grow_heap` returns null or a fresh page; only a live object is freed, with its slab. -/
def LegalCall (c : Cache) (live : List (BitVec 64)) : Call → Prop
  | .alloc page => page = 0 ∨ page.toNat % pageSize = 0 ∧ page ∉ c.pages
  | .free node obj => obj ∈ live ∧ node = findSlabFromObj obj

/-- The live objects after a call that returned `obj`. -/
def liveAfter (live : List (BitVec 64)) (obj : BitVec 64) : List (BitVec 64) :=
  if obj = 0 then live else obj :: live

def LegalRun (c : Cache) (live : List (BitVec 64)) : List Call → Prop
  | [] => True
  | .alloc page :: calls => LegalCall c live (.alloc page) ∧
      ∀ obj c', cacheAlloc c page = some (obj, c') → LegalRun c' (liveAfter live obj) calls
  | .free node obj :: calls => LegalCall c live (.free node obj) ∧
      ∀ c', cacheFree c node obj = some c' → LegalRun c' (live.erase obj) calls

/-- Every call returns; null comes only from `grow_heap`, anything else is a slot that was
not live; and what is freed can be allocated again. -/
def GoodRun (c : Cache) (live : List (BitVec 64)) : List Call → Prop
  | [] => True
  | .alloc page :: calls => ∃ obj c', cacheAlloc c page = some (obj, c') ∧
      (obj = 0 → page = 0 ∧ GrowsHeap c) ∧ (obj ≠ 0 → Slot c' obj ∧ obj ∉ live) ∧
      GoodRun c' (liveAfter live obj) calls
  | .free node obj :: calls => ∃ c', cacheFree c node obj = some c' ∧ CanAlloc c' obj ∧
      GoodRun c' (live.erase obj) calls

variable {size : BitVec 32} {order : BitVec 16} {links : LinkRing.Links (BitVec 64)}
  {slabs : BitVec 64 → SlabNode} {nextFreeObj : BitVec 64 → BitVec 64} {c : Cache}

theorem slabcache_sorted (h : slabcache size order links slabs nextFreeObj = some c) :
    Sorted c fun _ => [] := by
  obtain ⟨nobjects, -, hc⟩ := Option.bind_eq_some_iff.mp h
  obtain rfl := Option.some.inj hc
  refine ⟨represents_new links, fun x => ?_, fun _ x hx => absurd hx List.not_mem_nil⟩
  simp [OnSome]

/-- The first call on a new cache is an allocation, and puts null on the partial list. -/
theorem good_run_iff_nil (h : slabcache size order links slabs nextFreeObj = some c)
    {calls : List Call} (hlegal : LegalRun c [] calls) : GoodRun c [] calls ↔ calls = [] := by
  refine ⟨fun hgood => ?_, ?_⟩
  · rcases calls with _ | ⟨page | ⟨node, obj⟩, calls⟩
    · rfl
    · obtain ⟨obj, c', halloc, -⟩ := hgood
      rw [cacheAlloc_nothing (slabcache_sorted h).lists rfl rfl] at halloc
      cases halloc
    · exact absurd hlegal.1.1 List.not_mem_nil
  · rintro rfl
    trivial

/-- A new cache for objects of 64 bytes, over cleared memory. -/
theorem exists_slabcache : ∃ c, slabcache 64 defaultOrder ⟨fun _ => none, fun _ => none⟩
    (fun _ => ⟨0, 0, 0, 0⟩) (fun _ => 0) = some c ∧ c.slabNobjects = 62 := ⟨_, rfl, by decide⟩

theorem legalRun_alloc (c : Cache) : LegalRun c [] [.alloc 0] :=
  ⟨Or.inl rfl, fun _ _ _ => trivial⟩

theorem good_run_iff_nil_alloc :
    ∃ c, slabcache 64 defaultOrder ⟨fun _ => none, fun _ => none⟩ (fun _ => ⟨0, 0, 0, 0⟩)
        (fun _ => 0) = some c ∧ (GoodRun c [] [.alloc 0] ↔ [Call.alloc 0] = []) := by
  obtain ⟨c, hc, -⟩ := exists_slabcache
  exact ⟨c, hc, good_run_iff_nil hc (legalRun_alloc c)⟩

/-- The first allocation of a cache of 62 objects to a slab uses a null slab, whatever
page the heap would give. -/
theorem first_alloc_uses_null :
    ∃ c, slabcache 64 defaultOrder ⟨fun _ => none, fun _ => none⟩ (fun _ => ⟨0, 0, 0, 0⟩)
        (fun _ => 0) = some c ∧ c.slabNobjects = 62 ∧ LegalRun c [] [.alloc 0x1000] ∧
      ¬ GoodRun c [] [.alloc 0x1000] := by
  obtain ⟨c, hc, hn⟩ := exists_slabcache
  have hsorted := slabcache_sorted hc
  refine ⟨c, hc, hn, ⟨Or.inr ⟨by decide, fun hp => ?_⟩, fun _ _ _ => trivial⟩, ?_⟩
  · obtain ⟨l, hl⟩ := (hsorted.all _).mp hp
    exact absurd hl List.not_mem_nil
  · rintro ⟨obj, c', halloc, -⟩
    rw [cacheAlloc_nothing hsorted.lists rfl rfl] at halloc
    cases halloc

end CxKernel.Slab
