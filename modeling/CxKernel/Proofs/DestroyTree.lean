import CxKernel.Proofs.Destroy

/-! Taking a region tree apart. A root gives back all that is below it, each region once. A
region with a parent takes itself off the parent's list but keeps pointing at it, and a sole
child stays the root of that list. -/

namespace CxKernel.Vm

open LinkedList RefPtr Relation Forest FiberCount

variable {H R : Type} {s s₁ s' : RegionMem H R} {σ τ : R → List R} {root p r x : R}

/-- No handle outside the lists refers to `x`. -/
def Unheld (s : RegionMem H R) (x : R) : Prop := ∀ h, s.handles h ≠ some (some x)

/-- The lists are `σ`, what is below the root is finite, and each region there has a
reference from its list and one from each handle to it. -/
structure RegionTree (s : RegionMem H R) (σ : R → List R) (root : R) : Prop where
  lists : Represents s.lists σ
  finite : Acc (Function.swap (Kid σ)) root
  handles : ∀ x ∈ below σ root, {h | s.handles h = some (some x)}.Finite
  count : ∀ x ∈ below σ root,
    (s.refCount x).toNat = 1 + fiberCount s.handles (some (some x))

theorem RegionTree.leftUnique (h : RegionTree s σ root) : Relator.LeftUnique (Kid σ) :=
  fun _ _ _ hx hy => h.lists.disjoint _ _ _ hx hy

/-- The list's reference is the last one of a region without handles. -/
theorem RegionTree.last_iff (h : RegionTree s σ root) (hx : x ∈ below σ root) :
    s.refCount x = 1 ↔ Unheld s x := by
  have hcount := h.count x hx
  have hzero : fiberCount s.handles (some (some x)) = 0 ↔ Unheld s x := by
    rw [fiberCount, Set.ncard_eq_zero (h.handles x hx), Set.eq_empty_iff_forall_notMem]
    rfl
  rw [← hzero, ← BitVec.toNat_inj, hcount]
  simp

/-- All that was below the root is gone from it, and what no handle keeps is deleted. -/
structure TreeReleased (s s' : RegionMem H R) (σ : R → List R) (root : R) : Prop where
  root_empty : empty (s'.lists.lists root) = true
  orphaned : ∀ x ∈ below σ root, s'.parent x = none ∧ empty (s'.lists.lists x) = true
  count : ∀ x ∈ below σ root, (s'.refCount x).toNat + 1 = (s.refCount x).toNat
  record : ∃ events, s'.events = s.events ++ events ∧
    s'.destroyed = s.destroyed ++ deleted events ∧ Orderly σ (below σ root) (Unheld s) events

variable [DecidableEq R]

/-- Destroying a whole tree ends, and releases each region of it exactly once. -/
theorem destroy_releases_tree (h : RegionTree s σ root) (htop : s.parent root = none) :
    ∃ s', s.destroy root = some (.ok (), s') ∧ TreeReleased s s' σ root := by
  obtain ⟨s', τ, hloop, hrel, hrep, hemp⟩ :=
    empties h.leftUnique H h.finite s σ h.lists fun _ _ => rfl
  have hparent : s'.parent root = none := by
    rw [hrel.parent_frame root (not_below_self h.finite)]
    exact htop
  have hempty : ∀ x ∈ subtree σ root, empty (s'.lists.lists x) = true := fun x hx =>
    (hrep.lists x).empty_iff.mpr (hemp.inside x hx)
  refine ⟨s', ?_, hempty root .refl, fun x hx => ?_, fun x hx => ?_, ?_⟩
  · rw [RegionMem.destroy, hloop]
    simp [hparent]
  · exact ⟨hrel.parent x hx, hempty x (mem_subtree.mpr (Or.inr hx))⟩
  · have hcount := h.count x hx
    have hone : 1 ≤ s.refCount x := BitVec.le_def.mpr (by rw [hcount]; exact Nat.le_add_right 1 _)
    rw [hrel.count x hx, BitVec.toNat_sub_of_le hone]
    exact Nat.sub_add_cancel (BitVec.le_def.mp hone)
  · obtain ⟨events, hev, hdel, hord⟩ := hrel.record
    exact ⟨events, hev, hdel, hord.congr fun x hx => h.last_iff hx⟩

/-! One region with a parent. -/

/-- A tree whose regions are in existence and point at their parents. -/
structure WellFormed (s : RegionMem H R) (σ : R → List R) (root : R) : Prop
    extends RegionTree s σ root where
  top : s.parent root = none
  alive : ∀ x ∈ subtree σ root, x ∉ s.destroyed
  parent : ∀ x ∈ subtree σ root, ∀ y, y ∉ s.destroyed → (s.parent y = some x ↔ y ∈ σ x)

/-- `r` is off the list of `p`, whatever is left points where it is, and once more changes
nothing. A region that was deleted has no links to speak of. -/
structure CleanlyDestroyed (s' : RegionMem H R) (σ : R → List R) (p r : R) : Prop where
  erased : visit s'.lists.links (s'.lists.lists p) = some ((σ p).erase r)
  empty_iff : empty (s'.lists.lists p) = true ↔ σ p = [r]
  bare : r ∉ s'.destroyed → empty (s'.lists.lists r) = true ∧ s'.parent r = none
  members : ∀ x, x ∉ s'.destroyed → s'.parent x = some p → x ∈ (σ p).erase r
  repeatable : r ∉ s'.destroyed → ∃ e, s'.destroy r = some (e, s')

theorem addRef_release (m : Mem H R R) (x : R) : ((m.addRef x).release x).2 = m := by
  have hadd : m.refCount x + 1 - 1 = m.refCount x := BitVec.add_sub_cancel _ _
  simp only [Mem.release, Mem.addRef, Function.update_self, Function.update_idem, hadd,
    Function.update_eq_self]

/-- The reference for the parameter makes up for the one of the list. -/
theorem removeFrom_eq {lists : Pool R R} (hremove : s.lists.remove p x = some lists) :
    s.removeFrom p x = RegionMem.drop { s with lists := lists } x := by
  have hcount := addRef_release ({ s.toMem with lists := lists } : Mem H R R) x
  have hlists : (s.toMem.addRef x).lists.remove p x = some lists := hremove
  simp only [RegionMem.removeFrom, Mem.remove, hlists, Option.bind_eq_bind, Option.bind_some,
    Option.pure_def]
  change RegionMem.drop { s with toMem := ((({ s.toMem with lists := lists } :
    Mem H R R).addRef x).release x).2 } x = _
  rw [hcount]

omit [DecidableEq R] in
theorem finite_of_reach (hfin : Acc (Function.swap (Kid σ)) root) (hp : p ∈ subtree σ root) :
    Acc (Function.swap (Kid σ)) p := by
  induction hp with
  | refl => exact hfin
  | tail _ hkid ih => exact ih.inv hkid

theorem destroy_eq_none (hempty : empty (s.lists.lists r) = true) (hparent : s.parent r = some p)
    (hprev : s.lists.links.prev r = none) : s.destroy r = none := by
  have hremove : (s.toMem.addRef r).lists.remove p r = none := Pool.remove_eq_none hprev p
  rw [RegionMem.destroy, RegionMem.destroyChildren, if_pos hempty]
  simp [hparent, RegionMem.removeFrom, Mem.remove, hremove]

omit [DecidableEq R] in
theorem two_le_length {xs : List R} (hr : r ∈ xs) (hne : xs ≠ [r]) : 2 ≤ xs.length := by
  cases xs with
  | nil => exact absurd hr List.not_mem_nil
  | cons y t =>
    cases t with
    | nil => exact absurd (by rw [List.mem_singleton.mp hr]) hne
    | cons z t => simp

section Child

variable (h : WellFormed s σ root) (hp : p ∈ subtree σ root) (hr : r ∈ σ p)

include h hp hr

omit [DecidableEq R] in
theorem WellFormed.parent_eq : s.parent r = some p :=
  (h.parent p hp r (h.alive r (ReflTransGen.tail hp hr))).mpr hr

omit [DecidableEq R] in
theorem WellFormed.not_below : r ∉ below σ r := not_below_self ((finite_of_reach h.finite hp).inv hr)

/-- The first half: what is below `r` goes, and `r` comes off the list of `p`. -/
theorem WellFormed.destroy_eq : ∃ s₁ τ, s.destroy r = (s₁.removeFrom p r).map (Except.ok (), ·) ∧
    Released σ (below σ r) s s₁ ∧ Represents s₁.lists τ ∧ τ p = σ p ∧ τ r = [] ∧ r ≠ p := by
  have hpfin := finite_of_reach h.finite hp
  have hpr : p ∉ subtree σ r := not_reach_parent hpfin hr
  obtain ⟨s₁, τ, hloop, hrel, hrep, hemp⟩ :=
    empties h.leftUnique H (hpfin.inv hr) s σ h.lists fun _ _ => rfl
  have hparent : s₁.parent r = some p := by
    rw [hrel.parent_frame r (h.not_below hp hr)]
    exact h.parent_eq hp hr
  refine ⟨s₁, τ, ?_, hrel, hrep, hemp.outside p hpr, hemp.inside r ReflTransGen.refl, ?_⟩
  · rw [RegionMem.destroy, hloop]
    simp only [Option.bind_eq_bind, Option.bind_some, hparent]
    cases s₁.removeFrom p r <;> rfl
  · intro heq
    exact hpr (heq ▸ ReflTransGen.refl)

/-- A sole child stays the root of its parent's list. -/
theorem WellFormed.destroy_sole (hsole : σ p = [r]) :
    ∃ s', s.destroy r = some (.ok (), s') ∧ s'.lists.lists p = ⟨some r⟩ := by
  obtain ⟨s₁, τ, hrun, -, hrep, hτp, hτr, hrp⟩ := h.destroy_eq hp hr
  obtain ⟨lists, hremove, hroot, hothers⟩ := hrep.remove_sole (hτp.trans hsole)
  have hempty : empty (lists.lists r) = true := (hothers r hrp).empty_iff.mpr hτr
  refine ⟨RegionMem.dropped { s₁ with lists := lists } r, ?_, ?_⟩
  · rw [hrun, removeFrom_eq hremove, drop_eq hempty]
    rfl
  · rw [(dropped_frame _ r).2.2.1]
    exact hroot

/-- A region with siblings comes off the list, and keeps its parent if it is not deleted. -/
theorem WellFormed.destroy_sibling (hlen : 2 ≤ (σ p).length) :
    ∃ s' τ', s.destroy r = some (.ok (), s') ∧ Represents s'.lists τ' ∧
      τ' p = (σ p).erase r ∧ (∀ x ∈ below σ r, s'.parent x = none) ∧
      (∀ x ∉ below σ r, s'.parent x = s.parent x) ∧ (∀ x ∈ s.destroyed, x ∈ s'.destroyed) ∧
      (r ∈ s'.destroyed ↔ Unheld s r) := by
  obtain ⟨s₁, τ, hrun, hrel, hrep, hτp, hτr, hrp⟩ := h.destroy_eq hp hr
  have hrr := h.not_below hp hr
  obtain ⟨lists, hremove, hrep'⟩ := hrep.remove p (x := r) (hτp ▸ hr) (hτp ▸ hlen)
  have hempty : empty (lists.lists r) = true := by
    rw [(hrep'.lists r).empty_iff, Function.update_of_ne hrp, hτr]
  have hoff : ∀ y, r ∉ Function.update τ p ((τ p).erase r) y := by
    intro y hy
    by_cases hyp : y = p
    · rw [hyp, Function.update_self] at hy
      exact (hrep.lists p).ring.1.not_mem_erase hy
    · rw [Function.update_of_ne hyp] at hy
      exact hyp (hrep.disjoint y p r hy (hτp ▸ hr))
  obtain ⟨-, hparent, -, -⟩ := dropped_frame { s₁ with lists := lists } r
  obtain ⟨tail, -, hdel', htail⟩ := dropped_record { s₁ with lists := lists } r
  obtain ⟨events, -, hdel, hord⟩ := hrel.record
  refine ⟨RegionMem.dropped { s₁ with lists := lists } r, _, ?_, represents_dropped hrep' hoff, ?_,
    fun x hx => ?_, fun x hx => ?_, fun x hx => ?_, ?_⟩
  · rw [hrun, removeFrom_eq hremove, drop_eq hempty]
    rfl
  · rw [Function.update_self, hτp]
  · rw [hparent]
    exact hrel.parent x hx
  · rw [hparent]
    exact hrel.parent_frame x hx
  · rw [hdel']
    change x ∈ s₁.destroyed ++ _
    rw [hdel]
    exact List.mem_append_left _ (List.mem_append_left _ hx)
  · have hold : r ∉ s.destroyed := h.alive r (ReflTransGen.tail hp hr)
    have hloop : r ∉ deleted events := fun hm => hrr ((hord.deleted r).mp (mem_deleted.mp hm)).1
    have hlast : s₁.refCount r = 1 ↔ Unheld s r := by
      rw [hrel.count_frame r hrr]
      exact h.last_iff (TransGen.tail' hp hr)
    rw [hdel', ← hlast]
    change r ∈ s₁.destroyed ++ _ ↔ _
    rw [hdel, List.mem_append, List.mem_append, or_iff_right (not_or.mpr ⟨hold, hloop⟩),
      mem_deleted, htail.mem_delete]
    exact and_iff_right rfl

/-- A region that a handle keeps still points at its parent, and the second call follows
its null links. -/
theorem WellFormed.destroy_again (hheld : ¬ Unheld s r) {e : Except E Unit}
    (hrun : s.destroy r = some (e, s')) : s'.parent r = some p ∧ s'.destroy r = none := by
  obtain ⟨s₁, τ, heq, hrel, hrep, hτp, hτr, hrp⟩ := h.destroy_eq hp hr
  have hrr := h.not_below hp hr
  have hcount : s₁.refCount r ≠ 1 := by
    rw [hrel.count_frame r hrr, Ne, h.last_iff (TransGen.tail' hp hr)]
    exact hheld
  have hparent : s₁.parent r = some p := by
    rw [hrel.parent_frame r hrr]
    exact h.parent_eq hp hr
  obtain ⟨lists, hremove⟩ : ∃ lists, s₁.lists.remove p r = some lists := by
    by_cases hsole : σ p = [r]
    · obtain ⟨lists, hremove, -⟩ := hrep.remove_sole (hτp.trans hsole)
      exact ⟨lists, hremove⟩
    · obtain ⟨lists, hremove, -⟩ :=
        hrep.remove p (x := r) (hτp ▸ hr) (hτp ▸ two_le_length hr hsole)
      exact ⟨lists, hremove⟩
  obtain ⟨hprev, hsame⟩ := Pool.remove_unlinks hremove
  have hempty : empty (lists.lists r) = true := by
    rw [hsame r hrp]
    exact (hrep.lists r).empty_iff.mpr hτr
  rw [heq, removeFrom_eq hremove, drop_eq hempty] at hrun
  obtain rfl := (Prod.mk.inj (Option.some.inj hrun)).2
  rw [RegionMem.dropped, if_neg hcount]
  exact ⟨hparent, destroy_eq_none hempty hparent hprev⟩

end Child

/-- Destroying one region is clean exactly if no handle to it is kept, so that it is deleted
on the way, and it has a sibling. -/
theorem cleanly_destroyed_iff (h : WellFormed s σ root) (hp : p ∈ subtree σ root)
    (hr : r ∈ σ p) :
    (∃ e s', s.destroy r = some (e, s') ∧ CleanlyDestroyed s' σ p r) ↔
      Unheld s r ∧ σ p ≠ [r] := by
  by_cases hsole : σ p = [r]
  · obtain ⟨s', hrun, hroot⟩ := h.destroy_sole hp hr hsole
    refine ⟨?_, fun hand => absurd hsole hand.2⟩
    rintro ⟨e, s'', hrun', hclean⟩
    obtain ⟨-, rfl⟩ := Prod.mk.inj (Option.some.inj (hrun.symm.trans hrun'))
    have hempty := hclean.empty_iff.mpr hsole
    rw [hroot] at hempty
    cases hempty
  have hlen := two_le_length hr hsole
  obtain ⟨s', τ', hrun, hrep, hτ', hbelow, hframe, hmono, hdel⟩ := h.destroy_sibling hp hr hlen
  have hrr := h.not_below hp hr
  refine ⟨?_, ?_⟩
  · rintro ⟨e, s'', hrun', hclean⟩
    obtain ⟨-, rfl⟩ := Prod.mk.inj (Option.some.inj (hrun.symm.trans hrun'))
    refine ⟨hdel.mp (not_not.mp fun hlive => ?_), hsole⟩
    have hnone := (hclean.bare hlive).2
    rw [hframe r hrr, h.parent_eq hp hr] at hnone
    cases hnone
  · rintro ⟨hunheld, -⟩
    have hgone : r ∈ s'.destroyed := hdel.mpr hunheld
    have hlist := hrep.lists p
    rw [hτ'] at hlist
    refine ⟨_, s', hrun, hlist.visit_eq, ?_, absurd hgone, fun x hx hxp => ?_, absurd hgone⟩
    · rw [hlist.empty_iff]
      refine iff_of_false (fun hnil => ?_) hsole
      have hle := List.length_erase_of_mem hr
      rw [hnil, List.length_nil] at hle
      omega
    · have hxr : x ≠ r := by
        rintro rfl
        exact hx hgone
      have hxb : x ∉ below σ r := by
        intro hb
        rw [hbelow x hb] at hxp
        cases hxp
      rw [hframe x hxb] at hxp
      refine (List.mem_erase_of_ne hxr).mpr ?_
      exact (h.parent p hp x fun hd => hx (hmono x hd)).mp hxp

/-! A chain of three regions, with a handle to the last. -/

def chain : RegionMem Unit ℕ where
  refCount x := if x = 2 then 2 else 1
  handles _ := some (some 2)
  lists := Pool.lone fun x => if x < 2 then some (x + 1) else none
  adopted := [0, 1, 2]
  destroyed := []
  parent x := if x = 1 ∨ x = 2 then some (x - 1) else none
  events := []

def chainKids (x : ℕ) : List ℕ := (if x < 2 then some (x + 1) else none).toList

theorem mem_chainKids {x y : ℕ} : y ∈ chainKids x ↔ x < 2 ∧ y = x + 1 := by
  unfold chainKids
  split_ifs with hx <;> simp [hx]

theorem wellFormed_chain : WellFormed chain chainKids 0 := by
  have hbelow : ∀ x ∈ below chainKids 0, x = 1 ∨ x = 2 := by
    intro x hx
    induction hx with
    | single hkid =>
      have := mem_chainKids.mp hkid
      omega
    | tail _ hkid ih =>
      have := mem_chainKids.mp hkid
      omega
  have hfin : ∀ n x, 2 ≤ x + n → Acc (Function.swap (Kid chainKids)) x := by
    intro n
    induction n with
    | zero => exact fun x hx => ⟨_, fun y hy => absurd (mem_chainKids.mp hy).1 (by omega)⟩
    | succ n ih =>
      refine fun x hx => ⟨_, fun y hy => ?_⟩
      obtain ⟨-, rfl⟩ := mem_chainKids.mp hy
      exact ih _ (by omega)
  refine ⟨⟨represents_lone ?_, hfin 2 0 le_rfl, fun x _ => Set.toFinite _, fun x hx => ?_⟩, rfl,
    fun _ _ => List.not_mem_nil, fun x _ y _ => ?_⟩
  · intro i j a hi hj
    split_ifs at hi hj
    simp only [Option.some.injEq] at hi hj
    omega
  · rcases hbelow x hx with rfl | rfl
    · simp [chain, fiberCount]
    · simp [chain, fiberCount]
  · rw [mem_chainKids]
    simp only [chain]
    split_ifs with hy
    · rw [Option.some.injEq]
      omega
    · simp only [false_iff]
      omega

theorem destroy_releases_tree_chain :
    ∃ s', chain.destroy 0 = some (.ok (), s') ∧ TreeReleased chain s' chainKids 0 :=
  destroy_releases_tree wellFormed_chain.toRegionTree rfl

theorem cleanly_destroyed_iff_chain :
    (∃ e s', chain.destroy 2 = some (e, s') ∧ CleanlyDestroyed s' chainKids 1 2) ↔
      Unheld chain 2 ∧ chainKids 1 ≠ [2] :=
  cleanly_destroyed_iff wellFormed_chain (ReflTransGen.single (mem_chainKids.mpr (by decide)))
    (mem_chainKids.mpr (by decide))

/-- The last region of the chain is destroyed while the handle keeps it: its parent's list
is not empty, it still points there, and a second call dereferences null. -/
theorem destroyed_region_dangles : ∃ s', chain.destroy 2 = some (.ok (), s') ∧
    empty (s'.lists.lists 1) = false ∧ s'.parent 2 = some 1 ∧ s'.destroy 2 = none ∧
    ¬ CleanlyDestroyed s' chainKids 1 2 := by
  have hp : 1 ∈ subtree chainKids 0 := ReflTransGen.single (mem_chainKids.mpr (by decide))
  have hr : 2 ∈ chainKids 1 := mem_chainKids.mpr (by decide)
  obtain ⟨s', hrun, hroot⟩ := wellFormed_chain.destroy_sole hp hr rfl
  obtain ⟨hparent, hagain⟩ := wellFormed_chain.destroy_again hp hr (fun hno => hno () rfl) hrun
  have hempty : empty (s'.lists.lists 1) = false := by rw [hroot]; rfl
  refine ⟨s', hrun, hempty, hparent, hagain, fun hclean => ?_⟩
  rw [hclean.empty_iff.mpr rfl] at hempty
  cases hempty

end CxKernel.Vm
