import CxKernel.Proofs.SlabLayout
import CxKernel.Spec.Kmem

/-! When `kmem::alloc` returns at all. A request of a size no cache has always faults: the
cache made for it has no slabs, and its first allocation needs one. -/

namespace CxKernel.Kmem

open LinkedList Slab

/-- The call returns null, or an object of a cache that holds objects of this size. -/
def SafeAlloc (h : Heap) (size : BitVec 32) (page₁ page₂ : BitVec 64) : Prop :=
  ∃ obj cache h', h.alloc size page₁ page₂ = some (obj, cache, h') ∧
    (obj = 0 ∨ size ≤ (h'.cache cache).slabObjsize ∧ 1 ≤ (h'.cache cache).slabNobjects)

/-- The caches on the list, each as its constructor and its calls leave it. -/
structure Caches (h : Heap) (xs : List (BitVec 64)) : Prop where
  list : IsList h.cacheList.links (h.cacheList.lists ()) xs
  nonnull : 0 ∉ xs
  sized : ∀ a ∈ xs, Sized (h.cache a)
  slabs : ∀ a ∈ xs, ∃ σ, Represents (h.cache a).lists σ ∧
    ∀ x, OnSome σ x → x ∈ (h.cache a).pages

/-- `cache_alloc` moves on to a second object, and that is null where the cache has none. -/
def HandsOut (c : Cache) (first : BitVec 64) : Prop :=
  first ≠ 0 ∧ (c.slabNobjects ≠ 0 ∨ c.nextFreeObj first = 0)

/-- Where `cache_alloc` gets along without a null slab. -/
def Serves (c : Cache) (page : BitVec 64) : Prop :=
  match first (c.lists.lists .partiallist), first (c.lists.lists .freelist) with
  | none, none => False
  | none, some x => HandsOut c (c.slabs x).objctl
  | some _, none => page = 0 ∨ maxColor c ≠ 0 ∧ HandsOut c (pastObjects c page)
  | some x, some _ => HandsOut c (c.slabs x).objctl

/-! `cache_alloc` on one cache. -/

/-- It returns, and an object only if the cache has some. -/
def Served (r : Option (BitVec 64 × Cache)) : Prop :=
  ∃ obj c, r = some (obj, c) ∧ (obj = 0 ∨ 1 ≤ c.slabNobjects)

variable {c : Cache} {σ : SlabList → List (BitVec 64)} {x page : BitVec 64}

theorem not_served_none : ¬ Served none := by
  rintro ⟨obj, c, hnone, -⟩
  cases hnone

theorem one_le_iff {n : BitVec 32} : 1 ≤ n ↔ n ≠ 0 := by bv_omega

/-- What `grab_object` returns is the second object of the chain. -/
theorem grabObject_second (hobj : (c.slabs x).objctl ≠ 0)
    (hpush : (c.slabs x).inuse + 1 = c.slabNobjects → ∃ p, c.lists.pushBack .fulllist x = some p) :
    ∃ c', grabObject c x = some (c.nextFreeObj (c.slabs x).objctl, c') ∧
      c'.slabNobjects = c.slabNobjects := by
  unfold grabObject
  by_cases hfull : (c.slabs x).inuse + 1 = c.slabNobjects
  · obtain ⟨p, hp⟩ := hpush hfull
    simp only [if_pos hfull, hp, if_neg hobj, Option.bind_eq_bind, Option.bind_some]
    exact ⟨_, rfl, rfl⟩
  · simp only [if_neg hfull, if_neg hobj]
    exact ⟨_, rfl, rfl⟩

/-- With room on the full list, only the chain counts. -/
theorem served_grabObject
    (hpush : (c.slabs x).inuse + 1 = c.slabNobjects → ∃ p, c.lists.pushBack .fulllist x = some p) :
    Served (grabObject c x) ↔ HandsOut c (c.slabs x).objctl := by
  by_cases hobj : (c.slabs x).objctl = 0
  · rw [grabObject_null hobj]
    exact iff_of_false not_served_none fun h => h.1 hobj
  · obtain ⟨c', hgrab, hn⟩ := grabObject_second hobj hpush
    rw [hgrab]
    refine ⟨?_, ?_⟩
    · rintro ⟨obj, c'', heq, hnull⟩
      obtain ⟨rfl, rfl⟩ := Prod.mk.inj (Option.some.inj heq)
      exact ⟨hobj, hn ▸ hnull.symm.imp_left one_le_iff.mp⟩
    · rintro ⟨-, hnull⟩
      exact ⟨_, _, rfl, hn ▸ hnull.symm.imp_right one_le_iff.mpr⟩

/-- A slab goes behind the full ones, wherever else it is. -/
theorem exists_push_full {p : Pool SlabList (BitVec 64)} (hrep : Represents p σ)
    (hx : x ∉ σ .fulllist) : ∃ p', p.pushBack .fulllist x = some p' := by
  obtain ⟨p', hpush, -⟩ := Pool.pushBack_isList (hrep.lists .fulllist) hx
  exact ⟨p', hpush⟩

theorem served_nothing (hrep : Represents c.lists σ) (hpart : σ .partiallist = [])
    (hfree : σ .freelist = []) : ¬ Served (cacheAlloc c page) := by
  rw [cacheAlloc_nothing hrep hpart hfree]
  exact not_served_none

theorem served_free (hrep : Represents c.lists σ) (hpart : σ .partiallist = [])
    {rest : List (BitVec 64)} (hfree : σ .freelist = x :: rest) :
    Served (cacheAlloc c page) ↔ HandsOut c (c.slabs x).objctl := by
  obtain ⟨p, halloc, hrep'⟩ := cacheAlloc_free page hrep hpart hfree
  have hx : x ∈ σ .freelist := hfree ▸ List.mem_cons_self
  have hfull : x ∉ Function.update (Function.update σ .freelist rest) .partiallist
      (σ .partiallist ++ [x]) .fulllist := by
    rw [Function.update_of_ne (by decide), Function.update_of_ne (by decide)]
    exact fun hx' => absurd (hrep.disjoint _ _ x hx hx') (by decide)
  rw [halloc]
  exact served_grabObject (c := { c with lists := p }) fun _ => exists_push_full hrep' hfull

theorem served_partial (hrep : Represents c.lists σ) {ps : List (BitVec 64)}
    (hpart : σ .partiallist = x :: ps) (hfree : σ .freelist ≠ []) :
    Served (cacheAlloc c page) ↔ HandsOut c (c.slabs x).objctl := by
  obtain ⟨p, halloc, hrep', hnew⟩ := cacheAlloc_partial page hrep hpart hfree
  rw [halloc]
  exact served_grabObject (c := { c with lists := p }) fun _ => exists_push_full hrep' (hnew _)

/-- A new slab of a cache without objects has none written into it. -/
theorem slabCreate_noObjects {c' : Cache} {r : BitVec 64}
    (hcreate : slabCreate c page = some (r, c')) :
    c.slabNobjects = 0 → c'.nextFreeObj = c.nextFreeObj := by
  unfold slabCreate at hcreate
  split_ifs at hcreate with hpage hcolor
  · cases hcreate
    exact fun _ => rfl
  · cases hcreate
    intro hn
    rw [hn]
    rfl

theorem served_create (hrep : Represents c.lists σ) {ps : List (BitVec 64)}
    (hpart : σ .partiallist = x :: ps) (hfree : σ .freelist = [])
    (hnew : page = 0 ∨ ∀ l, page ∉ σ l) : Served (cacheAlloc c page) ↔
      page = 0 ∨ maxColor c ≠ 0 ∧ HandsOut c (pastObjects c page) := by
  by_cases hpage : page = 0
  · subst hpage
    rw [cacheAlloc_noPage hrep hpart hfree]
    exact iff_of_true ⟨0, c, rfl, Or.inl rfl⟩ (Or.inl rfl)
  rw [or_iff_right hpage]
  by_cases hcolor : maxColor c = 0
  · rw [cacheAlloc_noColor hrep hpart hfree hpage hcolor]
    exact iff_of_false not_served_none fun h => h.1 hcolor
  have hnew := hnew.resolve_left hpage
  obtain ⟨c₁, p, halloc, hcreate, hc₁, hrep'⟩ :=
    cacheAlloc_create hrep hpart hfree hpage hcolor hnew
  have hfull : page ∉ Function.update σ .partiallist (σ .partiallist ++ [page]) .fulllist := by
    rw [Function.update_of_ne (by decide)]
    exact hnew .fulllist
  have hnext := slabCreate_noObjects hcreate
  have hserved := served_grabObject (c := { c₁ with lists := p }) fun _ =>
    exists_push_full hrep' hfull
  rw [halloc, and_iff_right hcolor, ← hc₁.objctl]
  refine hserved.trans (and_congr_right fun _ => ?_)
  change c₁.slabNobjects ≠ 0 ∨ c₁.nextFreeObj (c₁.slabs page).objctl = 0 ↔ _
  rw [hc₁.nobjects]
  by_cases hn : c.slabNobjects = 0
  · rw [hnext hn]
  · exact iff_of_true (Or.inl hn) (Or.inl hn)

/-- One call on a cache with well-formed lists. -/
theorem served_iff (hrep : Represents c.lists σ) (hnew : page = 0 ∨ ∀ l, page ∉ σ l) :
    Served (cacheAlloc c page) ↔ Serves c page := by
  have hp := (hrep.lists .partiallist).first_eq
  have hf := (hrep.lists .freelist).first_eq
  unfold Serves
  cases hpart : σ .partiallist with
  | nil =>
    cases hfree : σ .freelist with
    | nil =>
      simp only [hp, hf, hpart, hfree, List.head?_nil, iff_false]
      exact served_nothing hrep hpart hfree
    | cons x rest =>
      simp only [hp, hf, hpart, hfree, List.head?_nil, List.head?_cons]
      exact served_free hrep hpart hfree
  | cons x ps =>
    cases hfree : σ .freelist with
    | nil =>
      simp only [hp, hf, hpart, hfree, List.head?_nil, List.head?_cons]
      exact served_create hrep hpart hfree hnew
    | cons y rest =>
      simp only [hp, hf, hpart, hfree, List.head?_cons]
      exact served_partial hrep hpart (hfree ▸ List.cons_ne_nil y rest)

theorem grabObject_objsize {obj : BitVec 64} {c' : Cache}
    (hgrab : grabObject c x = some (obj, c')) : c'.slabObjsize = c.slabObjsize := by
  by_cases hobj : (c.slabs x).objctl = 0
  · rw [grabObject_null hobj] at hgrab
    cases hgrab
  · unfold grabObject at hgrab
    simp only [if_neg hobj, Option.bind_eq_bind] at hgrab
    split_ifs at hgrab with hfull
    · obtain ⟨lists, -, heq⟩ := Option.bind_eq_some_iff.mp hgrab
      obtain ⟨-, rfl⟩ := Prod.mk.inj (Option.some.inj heq)
      rfl
    · obtain ⟨-, rfl⟩ := Prod.mk.inj (Option.some.inj hgrab)
      rfl

theorem slabCreate_objsize {r : BitVec 64} {c' : Cache}
    (hcreate : slabCreate c page = some (r, c')) : c'.slabObjsize = c.slabObjsize := by
  unfold slabCreate at hcreate
  split_ifs at hcreate <;>
  · cases hcreate
    rfl

/-- A cache keeps the size of its objects. -/
theorem cacheAlloc_objsize {obj : BitVec 64} {c' : Cache}
    (halloc : cacheAlloc c page = some (obj, c')) : c'.slabObjsize = c.slabObjsize := by
  unfold cacheAlloc at halloc
  split_ifs at halloc with hpart hfree
  · obtain ⟨⟨node, lists⟩, -, halloc⟩ := Option.bind_eq_some_iff.mp halloc
    obtain ⟨node, -, halloc⟩ := Option.bind_eq_some_iff.mp halloc
    obtain ⟨lists, -, hgrab⟩ := Option.bind_eq_some_iff.mp halloc
    have hsize := grabObject_objsize hgrab
    exact hsize
  · obtain ⟨⟨node, c₁⟩, hcreate, halloc⟩ := Option.bind_eq_some_iff.mp halloc
    have hsize := slabCreate_objsize hcreate
    dsimp only at halloc
    split_ifs at halloc with hnode
    · obtain ⟨-, rfl⟩ := Prod.mk.inj (Option.some.inj halloc)
      exact hsize
    · obtain ⟨lists, -, hgrab⟩ := Option.bind_eq_some_iff.mp halloc
      exact (grabObject_objsize hgrab).trans hsize
  · obtain ⟨⟨node, lists⟩, -, halloc⟩ := Option.bind_eq_some_iff.mp halloc
    obtain ⟨node, -, hgrab⟩ := Option.bind_eq_some_iff.mp halloc
    have hsize := grabObject_objsize hgrab
    exact hsize

/-! The list of caches. -/

variable {h : Heap} {a : BitVec 64} {xs : List (BitVec 64)} {size : BitVec 32}

@[simp] theorem Heap.put_cache (h : Heap) (a : BitVec 64) (c : Cache) :
    (h.put a c).cache a = c := by
  simp [Heap.put, Heap.cache]

/-- The first cache for objects of exactly this size. -/
def Heap.exact (h : Heap) (size : BitVec 32) (xs : List (BitVec 64)) : Option (BitVec 64) :=
  xs.find? fun a => (h.caches a).slabObjsize = size

/-- From where the iterator is, the walk finds the first match ahead. -/
theorem findFrom_position {pre ys : List (BitVec 64)}
    (hlist : IsList h.cacheList.links (h.cacheList.lists ()) (pre ++ ys)) :
    h.findFrom size (position pre ys) = some ((h.exact size ys).getD 0) := by
  induction ys generalizing pre with
  | nil =>
    rw [List.append_nil] at hlist
    rw [Heap.findFrom, if_pos hlist.position_end]
    rfl
  | cons y ys ih =>
    obtain ⟨hne, hat, hincr⟩ := hlist.position_step
    have hlist' : IsList h.cacheList.links (h.cacheList.lists ()) ((pre ++ [y]) ++ ys) := by
      simpa using hlist
    rw [Heap.findFrom, if_neg hne, hat, hincr]
    simp only [Option.bind_eq_bind, Option.bind_some, ih hlist']
    unfold Heap.exact
    by_cases hy : (h.caches y).slabObjsize = size <;> simp [hy]

theorem findBestCache_eq (size : BitVec 32)
    (hlist : IsList h.cacheList.links (h.cacheList.lists ()) xs) :
    h.findBestCache size = some ((h.exact size xs).getD 0) := by
  have hlist' : IsList h.cacheList.links (h.cacheList.lists ()) ([] ++ xs) := hlist
  rw [Heap.findBestCache, hlist.beginIt_eq]
  exact findFrom_position hlist'

/-! A size no cache has. -/

theorem addCache_some {h' : Heap} {node : BitVec 64} {order : BitVec 16}
    (hadd : h.addCache node size order = some h') :
    slabcache size order h.links h.slabs h.nextFreeObj = some (h'.cache node) ∧
      Pool.pushBack { h.cacheList with
        links := (h.cacheList.links.setNext node none).setPrev node none } () node =
          some h'.cacheList := by
  obtain ⟨c, hc, hadd⟩ := Option.bind_eq_some_iff.mp hadd
  obtain ⟨cacheList, hpush, hh'⟩ := Option.bind_eq_some_iff.mp hadd
  obtain rfl := Option.some.inj hh'
  exact ⟨hc.trans (congrArg some (Heap.put_cache h node c).symm), hpush⟩

/-- The new cache has no slabs. -/
theorem addCache_noSlabs (page : BitVec 64) {h' : Heap} {node : BitVec 64}
    {order : BitVec 16} (hadd : h.addCache node size order = some h') :
    cacheAlloc (h'.cache node) page = none :=
  cacheAlloc_nothing (slabcache_sorted (addCache_some hadd).1).lists rfl rfl

theorem Heap.cacheAlloc_eq_none (hnone : Slab.cacheAlloc (h.cache a) page = none) :
    h.cacheAlloc a page = none := by
  unfold Heap.cacheAlloc
  simp [hnone]

/-- Whatever `cache_create` returns, the allocation behind it does not. -/
theorem cacheCreate_alloc {h' : Heap} {order : BitVec 16} {page₁ : BitVec 64}
    (hcreate : h.cacheCreate size order page₁ = some (a, h')) : h'.cacheAlloc a page = none := by
  obtain ⟨⟨node, h₁⟩, -, hcreate⟩ := Option.bind_eq_some_iff.mp hcreate
  dsimp only at hcreate
  split_ifs at hcreate with hnode
  · obtain ⟨rfl, rfl⟩ := Prod.mk.inj (Option.some.inj hcreate)
    unfold Heap.cacheAlloc
    rw [if_pos rfl]
  · obtain ⟨h₂, hadd, hcreate⟩ := Option.bind_eq_some_iff.mp hcreate
    obtain ⟨rfl, rfl⟩ := Prod.mk.inj (Option.some.inj hcreate)
    exact Heap.cacheAlloc_eq_none (addCache_noSlabs page hadd)

theorem alloc_missing {page₁ page₂ : BitVec 64}
    (hfind : h.findBestCache (Slab.alignUp size defaultOrder) = some 0) :
    h.alloc size page₁ page₂ = none := by
  unfold Heap.alloc
  simp only [hfind, Option.bind_eq_bind, Option.bind_some, if_true]
  cases hcreate : h.cacheCreate (Slab.alignUp size defaultOrder) defaultOrder page₁ with
  | none => rfl
  | some r =>
    obtain ⟨cache, h'⟩ := r
    simp only [Option.bind_some, cacheCreate_alloc hcreate, Option.bind_none]

/-! A size some cache has. -/

theorem alloc_found (page₁ page₂ : BitVec 64) (ha : a ≠ 0)
    (hfind : h.findBestCache (Slab.alignUp size defaultOrder) = some a) :
    h.alloc size page₁ page₂ =
      (Slab.cacheAlloc (h.cache a) page₂).map fun r => (r.1, a, h.put a r.2) := by
  unfold Heap.alloc Heap.cacheAlloc
  simp only [hfind, if_neg ha, Option.bind_eq_bind, Option.bind_some]
  cases Slab.cacheAlloc (h.cache a) page₂ <;> rfl

/-- A request returns, and with what it asked for, exactly where some cache has objects of
the rounded size and serves it. -/
theorem alloc_safe_iff (hc : Caches h xs) {page₁ page₂ : BitVec 64}
    (hpage : page₂ = 0 ∨ ∀ a ∈ xs, page₂ ∉ (h.cache a).pages) :
    SafeAlloc h size page₁ page₂ ↔
      ∃ a, h.exact (Slab.alignUp size defaultOrder) xs = some a ∧ Serves (h.cache a) page₂ := by
  have hfind := findBestCache_eq (Slab.alignUp size defaultOrder) hc.list
  cases hexact : h.exact (Slab.alignUp size defaultOrder) xs with
  | none =>
    rw [hexact, Option.getD_none] at hfind
    refine iff_of_false ?_ (by simp)
    rintro ⟨obj, cache, h', halloc, -⟩
    rw [alloc_missing hfind] at halloc
    cases halloc
  | some a =>
    rw [hexact, Option.getD_some] at hfind
    have ha : a ∈ xs := List.mem_of_find?_eq_some hexact
    have hsize : (h.cache a).slabObjsize = Slab.alignUp size defaultOrder := by
      change (h.caches a).slabObjsize = _
      simpa using List.find?_some hexact
    have hne : a ≠ 0 := fun hzero => hc.nonnull (hzero ▸ ha)
    obtain ⟨σ, hrep, hpages⟩ := hc.slabs a ha
    have hnew : page₂ = 0 ∨ ∀ l, page₂ ∉ σ l :=
      hpage.imp_right fun hfresh l hl => hfresh a ha (hpages _ ⟨l, hl⟩)
    have hle := le_alignUp_default (hsize ▸ (hc.sized a ha).objsize_ne_zero)
    have halloc := alloc_found page₁ page₂ hne hfind
    simp only [Option.some.injEq, exists_eq_left', ← served_iff hrep hnew]
    refine ⟨?_, ?_⟩
    · rintro ⟨obj, cache, h', hsome, hobj⟩
      rw [halloc, Option.map_eq_some_iff] at hsome
      obtain ⟨⟨obj', c'⟩, hserve, heq⟩ := hsome
      obtain ⟨rfl, rfl, rfl⟩ := by simpa using heq
      rw [Heap.put_cache] at hobj
      exact ⟨obj', c', hserve, hobj.imp_right And.right⟩
    · rintro ⟨obj, c', hserve, hobj⟩
      refine ⟨obj, a, h.put a c', by rw [halloc, hserve]; rfl, ?_⟩
      rw [Heap.put_cache, cacheAlloc_objsize hserve, hsize]
      exact hobj.imp_right fun hn => ⟨hle, hn⟩

/-- The free slab of `oneSlab`. -/
def freeSlab : SlabList → Option (BitVec 64)
  | .freelist => some 0xFFFF800000001000
  | _ => none

/-- A cache for objects of 64 bytes, with one slab and no object in use. -/
def oneSlab : Heap where
  slabcacheCache := 0xFFFFFFFF80200000
  caches := fun _ => ⟨defaultOrder, 64, 62, 0, fun l => ⟨freeSlab l⟩, [0xFFFF800000001000]⟩
  cacheList := .lone fun _ => some 0xFFFFFFFF80200000
  links := ⟨some, some⟩
  slabs := fun _ => ⟨0, 0, 0xFFFF800000001080, 0xFFFF800000001080⟩
  nextFreeObj := fun obj => obj + 64

theorem freeSlab_eq {l : SlabList} {a : BitVec 64} (ha : freeSlab l = some a) :
    l = .freelist ∧ a = 0xFFFF800000001000 := by
  cases l with
  | freelist => exact ⟨rfl, (Option.some.inj ha).symm⟩
  | partiallist => cases ha
  | fulllist => cases ha

theorem oneSlab_caches : Caches oneSlab [0xFFFFFFFF80200000] := by
  have hsized : numObjectsPerSlab 64 defaultOrder = some 62 := by decide
  refine ⟨?_, by decide, fun _ _ => hsized, fun _ _ => ⟨fun l => (freeSlab l).toList, ?_, ?_⟩⟩
  · exact (represents_lone fun i j a _ _ => rfl).lists ()
  · exact represents_lone fun i j a hi hj => (freeSlab_eq hi).1.trans (freeSlab_eq hj).1.symm
  · rintro x ⟨l, hx⟩
    exact List.mem_singleton.mpr (freeSlab_eq (Option.mem_toList.mp hx)).2

theorem alloc_safe_iff_oneSlab : SafeAlloc oneSlab 60 0 0 :=
  (alloc_safe_iff oneSlab_caches (Or.inl rfl)).mpr
    ⟨0xFFFFFFFF80200000, rfl, by decide, Or.inl (by decide)⟩

/-! After `kmem::bootstrap`: one cache, without slabs. -/

theorem bootstrap_list {h' : Heap} (hboot : h.bootstrap = some h') :
    IsList h'.cacheList.links (h'.cacheList.lists ()) [h.slabcacheCache] := by
  obtain ⟨p, hp, hlist, -⟩ := Pool.pushBack_isList (p := ⟨(h.cacheList.links.setNext
    h.slabcacheCache none).setPrev h.slabcacheCache none, fun _ => .new⟩) (i := ())
    (isList_new _) (n := h.slabcacheCache) List.not_mem_nil
  obtain rfl := Option.some.inj (hp.symm.trans (addCache_some hboot).2)
  exact hlist

theorem bootstrap_caches {h' : Heap} (hboot : h.bootstrap = some h')
    (hne : h.slabcacheCache ≠ 0) : Caches h' [h.slabcacheCache] := by
  have hcache := (addCache_some hboot).1
  have hsorted := slabcache_sorted hcache
  refine ⟨bootstrap_list hboot, fun hzero => hne (List.mem_singleton.mp hzero).symm, ?_, ?_⟩
  · intro a ha
    rw [List.mem_singleton.mp ha]
    exact (slabcache_fields hcache).1
  · intro a ha
    rw [List.mem_singleton.mp ha]
    exact ⟨_, hsorted.lists, fun x hx => (hsorted.all x).mpr hx⟩

/-- No request ever returns. -/
theorem bootstrap_alloc {h' : Heap} (hboot : h.bootstrap = some h') {page₁ page₂ : BitVec 64} :
    h'.alloc size page₁ page₂ = none := by
  have hfind := findBestCache_eq (Slab.alignUp size defaultOrder) (bootstrap_list hboot)
  cases hexact : h'.exact (Slab.alignUp size defaultOrder) [h.slabcacheCache] with
  | none =>
    rw [hexact, Option.getD_none] at hfind
    exact alloc_missing hfind
  | some a =>
    rw [hexact, Option.getD_some] at hfind
    obtain rfl := List.mem_singleton.mp (List.mem_of_find?_eq_some hexact)
    by_cases hzero : h.slabcacheCache = 0
    · exact alloc_missing (hzero ▸ hfind)
    · rw [alloc_found page₁ page₂ hzero hfind, addCache_noSlabs page₂ hboot]
      rfl

/-- A heap before `kmem::bootstrap`. -/
def cleared : Heap where
  slabcacheCache := 0xFFFFFFFF80200000
  caches := fun _ => ⟨0, 0, 0, 0, fun _ => .new, []⟩
  cacheList := .new ⟨fun _ => none, fun _ => none⟩
  links := ⟨fun _ => none, fun _ => none⟩
  slabs := fun _ => ⟨0, 0, 0, 0⟩
  nextFreeObj := fun _ => 0

/-- A first request of 64 bytes uses a null slab, with pages enough. -/
theorem first_request_uses_null : ∃ h, cleared.bootstrap = some h ∧
    Caches h [0xFFFFFFFF80200000] ∧
    ¬ SafeAlloc h 64 0xFFFF800000001000 0xFFFF800000002000 := by
  refine ⟨_, rfl, bootstrap_caches (h := cleared) rfl (by decide), ?_⟩
  rintro ⟨obj, cache, h', halloc, -⟩
  rw [bootstrap_alloc rfl] at halloc
  cases halloc

end CxKernel.Kmem
