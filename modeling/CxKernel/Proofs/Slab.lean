import CxKernel.Proofs.ListPool
import CxKernel.Spec.Slab

/-! The lists of a slab cache against the in-use counts of its slabs: when a call of
`cache_alloc` or `cache_free` leaves every slab on the list its count calls for. -/

namespace CxKernel.Slab

open LinkedList

/-- The list the count of a slab calls for. -/
def Belongs (nobjects inuse : BitVec 32) : SlabList → Prop
  | .freelist => inuse = 0
  | .partiallist => 0 < inuse ∧ inuse < nobjects
  | .fulllist => inuse = nobjects

/-- The lists hold the slabs of the cache and no others, each where it belongs. -/
structure Sorted (c : Cache) (σ : SlabList → List (BitVec 64)) : Prop where
  lists : Represents c.lists σ
  all : ∀ x, x ∈ c.pages ↔ OnSome σ x
  count : ∀ l, ∀ x ∈ σ l, Belongs c.slabNobjects (c.slabs x).inuse l

def Consistent (c : Cache) : Prop := ∃ σ, Sorted c σ

inductive Call where
  | alloc (page : BitVec 64)
  | free (node obj : BitVec 64)

def Cache.step (c : Cache) : Call → Option Cache
  | .alloc page => (cacheAlloc c page).map (·.2)
  | .free node obj => cacheFree c node obj

/-- `grow_heap` returns null or a fresh page; a slab with a live object has a positive
count. -/
def Cache.Legal (c : Cache) : Call → Prop
  | .alloc page => page = 0 ∨ page ∉ c.pages
  | .free node _ => node ∈ c.pages ∧ (c.slabs node).inuse ≠ 0

/-- The call returns and leaves a consistent cache. -/
def Cache.Keeps (c : Cache) (call : Call) : Prop :=
  ∃ c', c.step call = some c' ∧ Consistent c'

/-- The address behind the last object of a new slab in `page`. -/
def pastObjects (c : Cache) (page : BitVec 64) : BitVec 64 :=
  firstObject c page + .ofNat 64 c.slabNobjects.toNat * c.slabObjsize.setWidth 64

/-- `slab_create` makes a slab it can take an object from. -/
def Creates (c : Cache) (page : BitVec 64) : Prop :=
  maxColor c ≠ 0 ∧ pastObjects c page ≠ 0

/-- The slab that `cache_alloc` takes off the partial list goes back only if it is full
now. -/
def Cache.SafeAlloc (c : Cache) (page : BitVec 64) : Prop :=
  match first (c.lists.lists .partiallist), first (c.lists.lists .freelist) with
  | none, none => False
  | none, some x => c.slabNobjects ≠ 1 ∧ (c.slabs x).objctl ≠ 0
  | some _, none => page = 0 ∨ Creates c page
  | some x, some _ => (c.slabs x).inuse + 1 = c.slabNobjects ∧ (c.slabs x).objctl ≠ 0

/-- A slab that is not alone on its list can be removed from it. -/
def Cache.SafeFree (c : Cache) (node : BitVec 64) : Prop :=
  if (c.slabs node).inuse = c.slabNobjects then
    c.slabNobjects ≠ 1 ∧ c.lists.links.next node ≠ some node
  else if (c.slabs node).inuse = 1 then c.lists.links.next node ≠ some node
  else True

/-- Where a call does what the lists are for. -/
def Cache.Safe (c : Cache) : Call → Prop
  | .alloc page => c.SafeAlloc page
  | .free node _ => c.SafeFree node

/-! Reading the lists of a consistent cache. -/

variable {c c' : Cache} {σ : SlabList → List (BitVec 64)} {x page obj : BitVec 64} {l : SlabList}

theorem Sorted.eq_of_isList (h : Sorted c σ) {xs : List (BitVec 64)}
    (hl : IsList c.lists.links (c.lists.lists l) xs) : σ l = xs :=
  Option.some.inj ((h.lists.lists l).visit_eq.symm.trans hl.visit_eq)

theorem Sorted.mem_of_root (h : Sorted c σ) (hroot : c.lists.lists l = ⟨some x⟩) : x ∈ σ l := by
  have hhead := (h.lists.lists l).root
  rw [hroot] at hhead
  exact List.mem_of_mem_head? hhead.symm

/-- A slab reached from two lists. -/
theorem not_consistent_of_two {l' : SlabList} (hne : l ≠ l') {xs : List (BitVec 64)}
    (hl : IsList c.lists.links (c.lists.lists l) xs) (hx : x ∈ xs)
    (hroot : c.lists.lists l' = ⟨some x⟩) : ¬ Consistent c := by
  rintro ⟨σ, h⟩
  have hl' : x ∈ σ l := by rwa [h.eq_of_isList hl]
  exact hne (h.lists.disjoint l l' x hl' (h.mem_of_root hroot))

/-- A slab on no list. -/
theorem not_consistent_of_lost (hx : x ∈ c.pages) (hrep : Represents c.lists σ)
    (hlost : ∀ l, x ∉ σ l) : ¬ Consistent c := by
  rintro ⟨σ', h⟩
  obtain rfl := h.lists.unique hrep
  obtain ⟨l, hl⟩ := (h.all x).mp hx
  exact hlost l hl

/-- A slab on a list its count does not call for. -/
theorem not_consistent_of_count (hrep : Represents c.lists σ) (hx : x ∈ σ l)
    (hcount : ¬ Belongs c.slabNobjects (c.slabs x).inuse l) : ¬ Consistent c := by
  rintro ⟨σ', h⟩
  obtain rfl := h.lists.unique hrep
  exact hcount (h.count l x hx)

theorem Sorted.lt_of_partial (h : Sorted c σ) (hx : x ∈ σ .partiallist) :
    0 < (c.slabs x).inuse ∧ (c.slabs x).inuse < c.slabNobjects := h.count .partiallist x hx

/-- One slab moves from one list to the end of another, and only its count changes. -/
theorem Sorted.move (h : Sorted c σ) {i k : SlabList} (hik : i ≠ k) (hx : x ∈ σ i)
    (hn : c'.slabNobjects = c.slabNobjects) (hpages : c'.pages = c.pages)
    (hothers : ∀ y, y ≠ x → (c'.slabs y).inuse = (c.slabs y).inuse)
    (hrep : Represents c'.lists (Function.update (Function.update σ i ((σ i).erase x)) k
      (σ k ++ [x]))) (hcount : Belongs c'.slabNobjects (c'.slabs x).inuse k) :
    Consistent c' := by
  have hnd := (h.lists.lists i).ring.1
  refine ⟨_, hrep, fun y => ?_, fun l y hy => ?_⟩
  · rw [hpages, h.all, onSome_update₂ hik, onSome_split₂ hik, hnd.mem_erase_iff, List.mem_append,
      List.mem_singleton]
    by_cases hyx : y = x
    · simp [hyx, hx]
    · simp [hyx]
  · by_cases hlk : l = k
    · rw [hlk, Function.update_self, List.mem_append, List.mem_singleton] at hy
      rcases hy with hy | rfl
      · have hyx : y ≠ x := fun he => hik (h.lists.disjoint i k x hx (he ▸ hy))
        rw [hlk, hn, hothers y hyx]
        exact h.count k y hy
      · rwa [hlk]
    · rw [Function.update_of_ne hlk] at hy
      have hy' : y ∈ σ l ∧ y ≠ x := by
        by_cases hli : l = i
        · rw [hli, Function.update_self, hnd.mem_erase_iff] at hy
          exact ⟨hli ▸ hy.2, hy.1⟩
        · rw [Function.update_of_ne hli] at hy
          exact ⟨hy, fun he => hli (h.lists.disjoint l i x (he ▸ hy) hx)⟩
      rw [hn, hothers y hy'.2]
      exact h.count l y hy'.1

/-- A new slab goes to the end of a list. -/
theorem Sorted.add (h : Sorted c σ) {k : SlabList} (hnew : ∀ l, x ∉ σ l)
    (hn : c'.slabNobjects = c.slabNobjects) (hpages : c'.pages = x :: c.pages)
    (hothers : ∀ y, y ≠ x → (c'.slabs y).inuse = (c.slabs y).inuse)
    (hrep : Represents c'.lists (Function.update σ k (σ k ++ [x])))
    (hcount : Belongs c'.slabNobjects (c'.slabs x).inuse k) : Consistent c' := by
  refine ⟨_, hrep, fun y => ?_, fun l y hy => ?_⟩
  · rw [hpages, List.mem_cons, h.all, onSome_update, onSome_split k, List.mem_append,
      List.mem_singleton, or_right_comm, or_comm]
  · by_cases hlk : l = k
    · rw [hlk, Function.update_self, List.mem_append, List.mem_singleton] at hy
      rcases hy with hy | rfl
      · have hyx : y ≠ x := fun he => hnew k (he ▸ hy)
        rw [hlk, hn, hothers y hyx]
        exact h.count k y hy
      · rwa [hlk]
    · rw [Function.update_of_ne hlk] at hy
      have hyx : y ≠ x := fun he => hnew l (he ▸ hy)
      rw [hn, hothers y hyx]
      exact h.count l y hy

/-- A count changes and the lists do not. -/
theorem Sorted.stay (h : Sorted c σ) (hn : c'.slabNobjects = c.slabNobjects)
    (hpages : c'.pages = c.pages) (hlists : c'.lists = c.lists) (hx : x ∈ σ l)
    (hothers : ∀ y, y ≠ x → (c'.slabs y).inuse = (c.slabs y).inuse)
    (hcount : Belongs c'.slabNobjects (c'.slabs x).inuse l) : Consistent c' := by
  refine ⟨σ, hlists ▸ h.lists, fun y => by rw [hpages, h.all], fun l' y hy => ?_⟩
  by_cases hyx : y = x
  · subst hyx
    obtain rfl := h.lists.disjoint l' l y hy hx
    exact hcount
  · rw [hn, hothers y hyx]
    exact h.count l' y hy

/-! The last part of `cache_alloc`. -/

/-- What `grab_object` leaves but for the lists. -/
structure Grabbed (c c' : Cache) (x : BitVec 64) : Prop where
  nobjects : c'.slabNobjects = c.slabNobjects
  pages : c'.pages = c.pages
  inuse : (c'.slabs x).inuse = (c.slabs x).inuse + 1
  others : ∀ y, y ≠ x → (c'.slabs y).inuse = (c.slabs y).inuse

theorem grabObject_null (h : (c.slabs x).objctl = 0) : grabObject c x = none := by
  unfold grabObject
  simp [h]

/-- The slab does not get full: the lists stay. -/
theorem grabObject_stay (hfull : (c.slabs x).inuse + 1 ≠ c.slabNobjects)
    (hobj : (c.slabs x).objctl ≠ 0) :
    ∃ obj c', grabObject c x = some (obj, c') ∧ Grabbed c c' x ∧ c'.lists = c.lists := by
  unfold grabObject
  simp only [if_neg hfull, if_neg hobj, Option.bind_eq_bind, Option.bind_some]
  refine ⟨_, _, rfl, ⟨rfl, rfl, ?_, fun y hy => ?_⟩, rfl⟩
  · simp only [Function.update_self]
  · simp only [Function.update_of_ne hy]

/-- The slab gets full and goes behind the full ones. -/
theorem grabObject_full {lists : Pool SlabList (BitVec 64)}
    (hpush : c.lists.pushBack .fulllist x = some lists)
    (hfull : (c.slabs x).inuse + 1 = c.slabNobjects) (hobj : (c.slabs x).objctl ≠ 0) :
    ∃ obj c', grabObject c x = some (obj, c') ∧ Grabbed c c' x ∧ c'.lists = lists := by
  unfold grabObject
  simp only [if_pos hfull, if_neg hobj, hpush, Option.bind_eq_bind, Option.bind_some]
  refine ⟨_, _, rfl, ⟨rfl, rfl, ?_, fun y hy => ?_⟩, rfl⟩
  · simp only [Function.update_self]
  · simp only [Function.update_of_ne hy]

/-! `cache_alloc`, by which lists are empty. -/

theorem Cache.keeps_alloc {r : Option (BitVec 64 × Cache)} (h : cacheAlloc c page = r) :
    c.Keeps (.alloc page) ↔ ∃ obj c', r = some (obj, c') ∧ Consistent c' := by
  change (∃ c', (cacheAlloc c page).map (·.2) = some c' ∧ Consistent c') ↔ _
  rw [h]
  rcases r with _ | ⟨obj, c'⟩ <;> simp

theorem Cache.keeps_alloc_some {obj : BitVec 64} (h : cacheAlloc c page = some (obj, c')) :
    c.Keeps (.alloc page) ↔ Consistent c' := by
  rw [Cache.keeps_alloc h]
  refine ⟨?_, fun hc => ⟨obj, c', rfl, hc⟩⟩
  rintro ⟨obj', c'', hsome, hcons⟩
  obtain ⟨-, rfl⟩ := Prod.mk.inj (Option.some.inj hsome)
  exact hcons

theorem Cache.not_keeps_alloc (h : cacheAlloc c page = none) : ¬ c.Keeps (.alloc page) := by
  rw [Cache.keeps_alloc h]
  rintro ⟨obj, c', hnone, -⟩
  cases hnone

/-- No partial slab: a free one becomes partial. -/
theorem cacheAlloc_free (page : BitVec 64) (hrep : Represents c.lists σ)
    (hpart : σ .partiallist = []) {rest : List (BitVec 64)} (hfree : σ .freelist = x :: rest) :
    ∃ p, cacheAlloc c page = grabObject { c with lists := p } x ∧ Represents p
      (Function.update (Function.update σ .freelist rest) .partiallist (σ .partiallist ++ [x])) := by
  have hempty := (hrep.lists .partiallist).empty_iff.mpr hpart
  obtain ⟨p₁, p₂, hpop, hpush, hrep₂⟩ := hrep.popPush (j := .partiallist) (by decide) hfree
  refine ⟨p₂, ?_, hrep₂⟩
  unfold cacheAlloc
  simp only [if_pos hempty, hpop, hpush, Option.bind_eq_bind, Option.bind_some]

/-- Partial slabs and free ones: the first partial one is taken off. -/
theorem cacheAlloc_partial (page : BitVec 64) (hrep : Represents c.lists σ)
    {ps : List (BitVec 64)} (hpart : σ .partiallist = x :: ps) (hfree : σ .freelist ≠ []) :
    ∃ p, cacheAlloc c page = grabObject { c with lists := p } x ∧
      Represents p (Function.update σ .partiallist ps) ∧
      ∀ l, x ∉ Function.update σ .partiallist ps l := by
  have hempty : ¬ empty (c.lists.lists .partiallist) = true := by
    rw [(hrep.lists .partiallist).empty_iff, hpart]
    exact List.cons_ne_nil x ps
  have hempty' : ¬ empty (c.lists.lists .freelist) = true := by
    rwa [(hrep.lists .freelist).empty_iff]
  obtain ⟨p, hpop, hrep', hnew⟩ := hrep.popFront_cons hpart
  refine ⟨p, ?_, hrep', hnew⟩
  unfold cacheAlloc
  simp only [if_neg hempty, if_neg hempty', hpop, Option.bind_eq_bind, Option.bind_some]

/-- Neither partial slabs nor free ones: null goes on the partial list. -/
theorem cacheAlloc_nothing (hrep : Represents c.lists σ) (hpart : σ .partiallist = [])
    (hfree : σ .freelist = []) : cacheAlloc c page = none := by
  have hempty := (hrep.lists .partiallist).empty_iff.mpr hpart
  obtain ⟨p, hpop, -⟩ := hrep.popFront .freelist
  rw [hfree, List.head?_nil] at hpop
  unfold cacheAlloc
  simp only [if_pos hempty, hpop, Option.bind_eq_bind, Option.bind_some, Option.bind_none]

/-- No partial slab: a free one becomes partial, and with one object full too. -/
theorem Sorted.alloc_free (h : Sorted c σ) (hpart : σ .partiallist = []) {rest : List (BitVec 64)}
    (hfree : σ .freelist = x :: rest) (hn : c.slabNobjects ≠ 0) :
    c.Keeps (.alloc page) ↔ c.slabNobjects ≠ 1 ∧ (c.slabs x).objctl ≠ 0 := by
  obtain ⟨p₂, halloc, hrep⟩ := cacheAlloc_free page h.lists hpart hfree
  have hx : x ∈ σ .freelist := hfree ▸ List.mem_cons_self
  have hzero : (c.slabs x).inuse = 0 := h.count .freelist x hx
  by_cases hobj : (c.slabs x).objctl = 0
  · rw [grabObject_null (c := { c with lists := p₂ }) hobj] at halloc
    exact ⟨fun hk => absurd hk (Cache.not_keeps_alloc halloc), fun hc => absurd hobj hc.2⟩
  by_cases hone : c.slabNobjects = 1
  · have hfull : x ∉ Function.update (Function.update σ .freelist rest) .partiallist
        (σ .partiallist ++ [x]) .fulllist := by
      rw [Function.update_of_ne (by decide), Function.update_of_ne (by decide)]
      exact fun hx' => absurd (h.lists.disjoint _ _ x hx hx') (by decide)
    obtain ⟨p₃, hpush₃, hl, hsame⟩ := Pool.pushBack_isList (hrep.lists .fulllist) hfull
    have hcount : (c.slabs x).inuse + 1 = c.slabNobjects := by rw [hzero, hone]; rfl
    obtain ⟨obj, c', hgrab, -, hlists⟩ :=
      grabObject_full (c := { c with lists := p₂ }) hpush₃ hcount hobj
    have hroot : p₂.lists .partiallist = ⟨some x⟩ := by
      have hr := (hrep.lists .partiallist).root
      rw [Function.update_self, hpart] at hr
      exact congrArg IntrusiveList.mk hr
    rw [Cache.keeps_alloc_some (halloc.trans hgrab)]
    refine ⟨fun hcons => ?_, fun hc => absurd hone hc.1⟩
    rw [← hlists] at hl
    refine absurd hcons (not_consistent_of_two (by decide : SlabList.fulllist ≠ .partiallist) hl
      (List.mem_append_right _ List.mem_cons_self) ?_)
    rw [hlists, hsame _ (by decide), hroot]
  · have hcount : (c.slabs x).inuse + 1 ≠ c.slabNobjects := by
      rw [hzero]
      exact fun he => hone he.symm
    obtain ⟨obj, c', hgrab, hg, hlists⟩ := grabObject_stay (c := { c with lists := p₂ }) hcount hobj
    rw [Cache.keeps_alloc_some (halloc.trans hgrab)]
    refine ⟨fun _ => ⟨hone, hobj⟩, fun _ => ?_⟩
    refine h.move (by decide : SlabList.freelist ≠ .partiallist) hx hg.nobjects hg.pages hg.others
      ?_ ?_
    · rw [hlists, hfree, List.erase_cons_head]
      exact hrep
    · have hinuse : (c'.slabs x).inuse = 1 := by
        rw [hg.inuse, hzero]
        rfl
      rw [hinuse, hg.nobjects]
      unfold Belongs
      change 0 < 1 ∧ 1 < c.slabNobjects
      bv_omega

/-- Partial and free slabs: the first partial one is taken off, and put back only behind
the full ones. -/
theorem Sorted.alloc_partial (h : Sorted c σ) {ps : List (BitVec 64)}
    (hpart : σ .partiallist = x :: ps) (hfree : σ .freelist ≠ []) :
    c.Keeps (.alloc page) ↔
      (c.slabs x).inuse + 1 = c.slabNobjects ∧ (c.slabs x).objctl ≠ 0 := by
  obtain ⟨p₁, halloc, hrep, hnew⟩ := cacheAlloc_partial page h.lists hpart hfree
  have hx : x ∈ σ .partiallist := hpart ▸ List.mem_cons_self
  by_cases hobj : (c.slabs x).objctl = 0
  · rw [grabObject_null (c := { c with lists := p₁ }) hobj] at halloc
    exact ⟨fun hk => absurd hk (Cache.not_keeps_alloc halloc), fun hc => absurd hobj hc.2⟩
  by_cases hfull : (c.slabs x).inuse + 1 = c.slabNobjects
  · obtain ⟨p₂, hpush, hrep₂⟩ := hrep.pushBack .fulllist hnew
    obtain ⟨obj, c', hgrab, hg, hlists⟩ :=
      grabObject_full (c := { c with lists := p₁ }) hpush hfull hobj
    rw [Cache.keeps_alloc_some (halloc.trans hgrab)]
    refine ⟨fun _ => ⟨hfull, hobj⟩, fun _ => ?_⟩
    refine h.move (by decide : SlabList.partiallist ≠ .fulllist) hx hg.nobjects hg.pages hg.others
      ?_ ?_
    · rw [hlists, hpart, List.erase_cons_head]
      rw [Function.update_of_ne (by decide)] at hrep₂
      exact hrep₂
    · exact hg.inuse.trans (hfull.trans hg.nobjects.symm)
  · obtain ⟨obj, c', hgrab, hg, hlists⟩ := grabObject_stay (c := { c with lists := p₁ }) hfull hobj
    rw [Cache.keeps_alloc_some (halloc.trans hgrab)]
    refine ⟨fun hcons => ?_, fun hc => absurd hc.1 hfull⟩
    refine absurd hcons (not_consistent_of_lost (x := x) ?_ (hlists ▸ hrep) hnew)
    rw [hg.pages]
    exact (h.all x).mpr ⟨.partiallist, hx⟩

/-! A new slab. -/

theorem initObjctl_fst (objsize : BitVec 32) (n : ℕ) (ptr : BitVec 64)
    (nextFreeObj : BitVec 64 → BitVec 64) :
    (initObjctl objsize n ptr nextFreeObj).1 = ptr + .ofNat 64 n * objsize.setWidth 64 := by
  induction n generalizing ptr nextFreeObj with
  | zero => simp [initObjctl]
  | succ n ih =>
    unfold initObjctl
    rw [ih, BitVec.ofNat_add, BitVec.add_mul, BitVec.add_assoc,
      BitVec.add_comm (objsize.setWidth 64)]
    simp

/-- What `slab_create` leaves: a slab with no object in use, on no list yet. -/
structure Created (c c' : Cache) (page : BitVec 64) : Prop where
  nobjects : c'.slabNobjects = c.slabNobjects
  pages : c'.pages = page :: c.pages
  inuse : (c'.slabs page).inuse = 0
  objctl : (c'.slabs page).objctl = pastObjects c page
  others : ∀ y, y ≠ page → c'.slabs y = c.slabs y
  lists : ∀ l, c'.lists.lists l = c.lists.lists l
  links : WritesOnly [page] c.lists.links c'.lists.links

theorem slabCreate_eq (hpage : page ≠ 0) (hcolor : maxColor c ≠ 0) :
    ∃ c', slabCreate c page = some (page, c') ∧ Created c c' page := by
  unfold slabCreate
  rw [if_neg hpage, if_neg hcolor]
  refine ⟨_, rfl, rfl, rfl, ?_, ?_, fun y hy => ?_, fun _ => rfl, fun a ha => ?_⟩
  · simp only [Function.update_self]
  · simp only [Function.update_self, initObjctl_fst]
    rfl
  · simp only [Function.update_of_ne hy]
  · rw [List.mem_singleton] at ha
    simp [ha]

theorem Created.represents (h : Created c c' page) (hrep : Represents c.lists σ)
    (hnew : ∀ l, page ∉ σ l) : Represents c'.lists σ := by
  refine ⟨fun l => ?_, hrep.disjoint⟩
  rw [h.lists]
  refine (hrep.lists l).frame h.links fun a ha hm => ?_
  rw [List.mem_singleton] at hm
  exact hnew l (hm ▸ ha)

section Create

variable {ps : List (BitVec 64)} (hrep : Represents c.lists σ) (hpart : σ .partiallist = x :: ps)
  (hfree : σ .freelist = [])

include hrep hpart hfree

/-- Partial slabs and no free one: `cache_alloc` asks for a page. -/
theorem cacheAlloc_grow : empty (c.lists.lists .partiallist) = false ∧
    empty (c.lists.lists .freelist) = true := by
  refine ⟨Bool.eq_false_iff.mpr fun hempty => ?_, (hrep.lists .freelist).empty_iff.mpr hfree⟩
  rw [(hrep.lists .partiallist).empty_iff, hpart] at hempty
  exact List.cons_ne_nil x ps hempty

theorem cacheAlloc_noPage : cacheAlloc c 0 = some (0, c) := by
  obtain ⟨hempty, hempty'⟩ := cacheAlloc_grow hrep hpart hfree
  unfold cacheAlloc slabCreate
  simp only [hempty, hempty', Bool.false_eq_true, if_false, if_true, Option.bind_eq_bind,
    Option.bind_some]
  rfl

theorem cacheAlloc_noColor (hpage : page ≠ 0) (hcolor : maxColor c = 0) :
    cacheAlloc c page = none := by
  obtain ⟨hempty, hempty'⟩ := cacheAlloc_grow hrep hpart hfree
  unfold cacheAlloc slabCreate
  simp only [hempty, hempty', Bool.false_eq_true, if_false, if_true, if_neg hpage, if_pos hcolor,
    Option.bind_eq_bind, Option.bind_none]

/-- The new slab goes behind the partial ones. -/
theorem cacheAlloc_create (hpage : page ≠ 0) (hcolor : maxColor c ≠ 0) (hnew : ∀ l, page ∉ σ l) :
    ∃ c₁ p, cacheAlloc c page = grabObject { c₁ with lists := p } page ∧
      slabCreate c page = some (page, c₁) ∧ Created c c₁ page ∧
      Represents p (Function.update σ .partiallist (σ .partiallist ++ [page])) := by
  obtain ⟨hempty, hempty'⟩ := cacheAlloc_grow hrep hpart hfree
  obtain ⟨c₁, hcreate, hc₁⟩ := slabCreate_eq hpage hcolor
  obtain ⟨p, hpush, hrep'⟩ := (hc₁.represents hrep hnew).pushBack .partiallist hnew
  refine ⟨c₁, p, ?_, hcreate, hc₁, hrep'⟩
  unfold cacheAlloc
  simp only [hempty, hempty', Bool.false_eq_true, if_false, if_true, hcreate, if_neg hpage, hpush,
    Option.bind_eq_bind, Option.bind_some]

end Create

/-- Partial slabs and no free one: a new slab goes behind the partial ones. -/
theorem Sorted.alloc_create (h : Sorted c σ) {ps : List (BitVec 64)}
    (hpart : σ .partiallist = x :: ps) (hfree : σ .freelist = [])
    (hlegal : page = 0 ∨ page ∉ c.pages) :
    c.Keeps (.alloc page) ↔ page = 0 ∨ Creates c page := by
  have hx := h.lt_of_partial (hpart ▸ List.mem_cons_self)
  by_cases hpage : page = 0
  · subst hpage
    rw [Cache.keeps_alloc_some (cacheAlloc_noPage h.lists hpart hfree)]
    exact ⟨fun _ => Or.inl rfl, fun _ => ⟨σ, h⟩⟩
  rw [or_iff_right hpage]
  by_cases hcolor : maxColor c = 0
  · have halloc := cacheAlloc_noColor h.lists hpart hfree hpage hcolor
    exact ⟨fun hk => absurd hk (Cache.not_keeps_alloc halloc), fun hc => absurd hcolor hc.1⟩
  have hnew : ∀ l, page ∉ σ l := by
    intro l hl
    exact (hlegal.resolve_left hpage) ((h.all page).mpr ⟨l, hl⟩)
  obtain ⟨c₁, p₂, halloc, -, hc₁, hrep⟩ :=
    cacheAlloc_create h.lists hpart hfree hpage hcolor hnew
  by_cases hobj : pastObjects c page = 0
  · rw [grabObject_null (c := { c₁ with lists := p₂ }) (hc₁.objctl.trans hobj)] at halloc
    exact ⟨fun hk => absurd hk (Cache.not_keeps_alloc halloc), fun hc => absurd hobj hc.2⟩
  have hcount : (c₁.slabs page).inuse + 1 ≠ c₁.slabNobjects := by
    rw [hc₁.inuse, hc₁.nobjects]
    bv_omega
  obtain ⟨obj, c', hgrab, hg, hlists⟩ := grabObject_stay (c := { c₁ with lists := p₂ }) hcount
    (fun he => hobj (hc₁.objctl.symm.trans he))
  have hn : c'.slabNobjects = c.slabNobjects := hg.nobjects.trans hc₁.nobjects
  have hinuse : (c'.slabs page).inuse = 1 := by
    rw [hg.inuse]
    change (c₁.slabs page).inuse + 1 = 1
    rw [hc₁.inuse]
    rfl
  have hlists' : c'.lists = p₂ := hlists
  rw [Cache.keeps_alloc_some (halloc.trans hgrab)]
  refine ⟨fun _ => ⟨hcolor, hobj⟩, fun _ => ?_⟩
  refine h.add hnew hn (hg.pages.trans hc₁.pages) (fun y hy => ?_) (hlists' ▸ hrep) ?_
  · rw [hg.others y hy]
    exact congrArg SlabNode.inuse (hc₁.others y hy)
  · rw [hinuse, hn]
    unfold Belongs
    bv_omega

/-! `cache_free` -/

theorem Sorted.next_ne_iff (h : Sorted c σ) (hx : x ∈ σ l) :
    c.lists.links.next x ≠ some x ↔ 2 ≤ (σ l).length := by
  obtain ⟨pre, ys, he⟩ := List.append_of_mem hx
  have hring := (c.lists.links.isRing_rotate pre (x :: ys)).mp (he ▸ (h.lists.lists l).ring)
  rw [List.cons_append] at hring
  have hlen : (σ l).length = (ys ++ pre).length + 1 := by
    rw [he, List.length_append, List.length_cons, List.length_append]
    omega
  rw [hlen]
  cases hrest : ys ++ pre with
  | nil =>
    rw [hrest, LinkRing.Links.isRing_singleton] at hring
    simp [hring.1]
  | cons y t =>
    rw [hrest] at hring
    have hne : y ≠ x := by
      rintro rfl
      exact (List.nodup_cons.mp hring.1).1 List.mem_cons_self
    simp [hring.cons_linked.1, hne]

/-- What `cache_free` leaves but for the lists. -/
structure Freed (c c' : Cache) (x : BitVec 64) : Prop where
  nobjects : c'.slabNobjects = c.slabNobjects
  pages : c'.pages = c.pages
  inuse : (c'.slabs x).inuse = (c.slabs x).inuse - 1
  others : ∀ y, y ≠ x → (c'.slabs y).inuse = (c.slabs y).inuse

theorem cacheFree_eq (obj : BitVec 64) {lists : Pool SlabList (BitVec 64)}
    (h : relist c x = some lists) :
    ∃ c', cacheFree c x obj = some c' ∧ Freed c c' x ∧ c'.lists = lists := by
  unfold cacheFree
  simp only [h, Option.bind_eq_bind, Option.bind_some]
  refine ⟨_, rfl, ⟨rfl, rfl, ?_, fun y hy => ?_⟩, rfl⟩
  · simp only [Function.update_self]
  · simp only [Function.update_of_ne hy]

theorem Cache.keeps_free_some (h : cacheFree c x obj = some c') :
    c.Keeps (.free x obj) ↔ Consistent c' := by
  refine ⟨?_, fun hc => ⟨c', h, hc⟩⟩
  rintro ⟨c'', hsome, hcons⟩
  obtain rfl := Option.some.inj (h.symm.trans hsome)
  exact hcons

/-- A slab that changes lists: it must not be alone on its old one, and its new count
must call for the new one. -/
theorem Sorted.free_move (h : Sorted c σ) {i k : SlabList} (hik : i ≠ k) (hx : x ∈ σ i)
    (hmove : ∀ p, c.lists.remove i x = some p → relist c x = p.pushBack k x) :
    c.Keeps (.free x obj) ↔
      Belongs c.slabNobjects ((c.slabs x).inuse - 1) k ∧ c.lists.links.next x ≠ some x := by
  rw [h.next_ne_iff hx]
  by_cases hlen : 2 ≤ (σ i).length
  · obtain ⟨p₁, p₂, hremove, hpush, hrep⟩ := h.lists.removePush hik hx hlen
    obtain ⟨c', hfree, hf, hlists⟩ := cacheFree_eq obj ((hmove p₁ hremove).trans hpush)
    rw [Cache.keeps_free_some hfree]
    refine ⟨fun hcons => ?_, fun hc => ?_⟩
    · refine ⟨?_, hlen⟩
      by_contra hcount
      rw [← hf.inuse, ← hf.nobjects] at hcount
      have hmem : x ∈ Function.update (Function.update σ i ((σ i).erase x)) k (σ k ++ [x]) k := by
        rw [Function.update_self]
        exact List.mem_append_right _ List.mem_cons_self
      exact not_consistent_of_count (hlists ▸ hrep) hmem hcount hcons
    · refine h.move hik hx hf.nobjects hf.pages hf.others (hlists ▸ hrep) ?_
      rw [hf.inuse, hf.nobjects]
      exact hc.1
  · obtain ⟨p₁, p₂, hremove, hpush, hl, hroot⟩ := h.lists.removePush_sole hik hx hlen
    obtain ⟨c', hfree, hf, hlists⟩ := cacheFree_eq obj ((hmove p₁ hremove).trans hpush)
    rw [Cache.keeps_free_some hfree]
    refine ⟨fun hcons => ?_, fun hc => absurd hc.2 hlen⟩
    rw [← hlists] at hl hroot
    exact absurd hcons (not_consistent_of_two hik.symm hl
      (List.mem_append_right _ List.mem_cons_self) hroot)

theorem Sorted.free (h : Sorted c σ) (hx : x ∈ c.pages) (hlive : (c.slabs x).inuse ≠ 0)
    (hn : c.slabNobjects ≠ 0) : c.Keeps (.free x obj) ↔ c.SafeFree x := by
  obtain ⟨l, hl⟩ := (h.all x).mp hx
  have hcount := h.count l x hl
  unfold Cache.SafeFree
  by_cases hfull : (c.slabs x).inuse = c.slabNobjects
  · have hxl : x ∈ σ .fulllist := by
      cases l with
      | freelist => exact absurd hcount hlive
      | partiallist => exact absurd (hfull ▸ hcount.2) (by bv_omega)
      | fulllist => exact hl
    have hmove : ∀ p, c.lists.remove .fulllist x = some p →
        relist c x = p.pushBack .partiallist x := by
      intro p hp
      unfold relist
      rw [if_pos hfull, hp]
      rfl
    rw [h.free_move (by decide) hxl hmove, if_pos hfull, hfull]
    have hless : Belongs c.slabNobjects (c.slabNobjects - 1) .partiallist ↔
        c.slabNobjects ≠ 1 := by
      unfold Belongs
      bv_omega
    rw [hless]
  · have hxl : x ∈ σ .partiallist := by
      cases l with
      | freelist => exact absurd hcount hlive
      | partiallist => exact hl
      | fulllist => exact absurd hcount hfull
    rw [if_neg hfull]
    by_cases hone : (c.slabs x).inuse = 1
    · have hmove : ∀ p, c.lists.remove .partiallist x = some p →
          relist c x = p.pushBack .freelist x := by
        intro p hp
        unfold relist
        rw [if_neg hfull, if_pos hone, hp]
        rfl
      rw [h.free_move (by decide) hxl hmove, if_pos hone, hone]
      exact and_iff_right rfl
    · rw [if_neg hone]
      have hlists : relist c x = some c.lists := by
        unfold relist
        rw [if_neg hfull, if_neg hone]
      obtain ⟨c', hfree, hf, hsame⟩ := cacheFree_eq obj hlists
      rw [Cache.keeps_free_some hfree]
      refine ⟨fun _ => trivial, fun _ => ?_⟩
      refine h.stay hf.nobjects hf.pages hsame hxl hf.others ?_
      have hlt := h.lt_of_partial hxl
      rw [hf.inuse, hf.nobjects]
      unfold Belongs
      bv_omega

theorem Sorted.first_eq (h : Sorted c σ) (l : SlabList) :
    first (c.lists.lists l) = (σ l).head? := (h.lists.lists l).first_eq

theorem Sorted.alloc (h : Sorted c σ) (hlegal : page = 0 ∨ page ∉ c.pages)
    (hn : c.slabNobjects ≠ 0) : c.Keeps (.alloc page) ↔ c.SafeAlloc page := by
  unfold Cache.SafeAlloc
  rw [h.first_eq, h.first_eq]
  cases hpart : σ .partiallist with
  | nil =>
    cases hfree : σ .freelist with
    | nil =>
      exact iff_of_false (Cache.not_keeps_alloc (cacheAlloc_nothing h.lists hpart hfree)) id
    | cons x rest => exact h.alloc_free hpart hfree hn
  | cons x ps =>
    cases hfree : σ .freelist with
    | nil => exact h.alloc_create hpart hfree hlegal
    | cons y rest => exact h.alloc_partial hpart (hfree ▸ List.cons_ne_nil y rest)

/-- From every consistent cache, a call keeps it so exactly where it is safe. -/
theorem slab_lists_consistent_iff (h : Consistent c) (hn : c.slabNobjects ≠ 0) (call : Call)
    (hlegal : c.Legal call) : c.Keeps call ↔ c.Safe call := by
  obtain ⟨σ, hσ⟩ := h
  cases call with
  | alloc page => exact hσ.alloc hlegal hn
  | free node obj => exact hσ.free hlegal.1 hlegal.2 hn

/-- A cache with three objects to a slab: a free slab in page 2, and in page 1 a partial
one with one object in use. -/
def twoSlabs : Cache where
  order := defaultOrder
  slabObjsize := 1024
  slabNobjects := 3
  slabLastColor := 0
  lists := Pool.lone fun
    | .freelist => some 0x2000
    | .partiallist => some 0x1000
    | .fulllist => none
  pages := [0x2000, 0x1000]
  slabs := fun x => ⟨if x = 0x1000 then 1 else 0, 0, x + 1112, x + 88⟩
  nextFreeObj := fun a => a + 1024

theorem consistent_twoSlabs : Consistent twoSlabs := by
  refine ⟨_, represents_lone fun i j a hi hj => ?_, fun x => ?_, fun l x hx => ?_⟩
  · cases i <;> cases j <;> first | rfl | exact absurd (hi.trans hj.symm) (by decide)
  · refine ⟨fun hx => ?_, ?_⟩
    · rcases List.mem_cons.mp hx with rfl | hx
      · exact ⟨.freelist, List.mem_cons_self⟩
      · exact ⟨.partiallist, hx⟩
    · rintro ⟨_ | _ | _, hx⟩
      · exact List.mem_cons.mpr (Or.inl (List.mem_singleton.mp hx))
      · exact List.mem_cons_of_mem _ hx
      · exact absurd hx List.not_mem_nil
  · cases l with
    | freelist => rw [List.mem_singleton.mp hx]; rfl
    | partiallist => rw [List.mem_singleton.mp hx]; exact ⟨by decide, by decide⟩
    | fulllist => exact absurd hx List.not_mem_nil

/-- An object of page 1 is freed: its slab would have to leave the partial list, on which
it is alone. -/
theorem slab_lists_consistent_iff_two :
    twoSlabs.Keeps (.free 0x1000 0x1058) ↔ twoSlabs.Safe (.free 0x1000 0x1058) :=
  slab_lists_consistent_iff consistent_twoSlabs (by decide) _ ⟨by decide, by decide⟩

/-- The slab of page 1 is on no list once an object has been taken from it. -/
theorem partial_slab_lost :
    Consistent twoSlabs ∧ twoSlabs.Legal (.alloc 0) ∧ ¬ twoSlabs.Keeps (.alloc 0) := by
  refine ⟨consistent_twoSlabs, Or.inl rfl, fun hkeeps => ?_⟩
  obtain ⟨σ, hσ⟩ := consistent_twoSlabs
  have hsafe := (hσ.alloc (Or.inl rfl) (by decide)).mp hkeeps
  exact absurd hsafe.1 (by decide)

end CxKernel.Slab
