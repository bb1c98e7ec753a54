import CxKernel.Lib.Runs
import CxKernel.Proofs.BitField
import CxKernel.Proofs.VmRegion
import Mathlib.Logic.Relation

/-! What the flags of a region say about those above it. The capability check compares a new
region with its parent only; over any run of calls the tree carries it up to the root. -/

namespace CxKernel.Vm

open LinkedList Runs

/-! The flags of a new region, bit by bit. -/

theorem getLsbD_newFlags (f : VmRegionFlags) {i : ℕ} (hi : i < 8) :
    (newFlags f).getLsbD i = (decide (i ≠ 5) && f.getLsbD i) := by
  rw [newFlags, BitField.getLsbD_assign (by decide) _ _ hi]
  by_cases h5 : i = 5
  · subst h5
    simp
  · rw [if_neg (by omega)]
    simp [BitField.copy, h5]

theorem newFlags_capability (f : VmRegionFlags) : (newFlags f).capability = f.capability := by
  apply BitVec.eq_of_getLsbD_eq
  intro i hi
  rw [VmRegionFlags.capability, VmRegionFlags.capability, BitField.getLsbD_get (by decide) _ hi,
    BitField.getLsbD_get (by decide) _ hi]
  by_cases h4 : i < 4
  · rw [getLsbD_newFlags f (show 0 + i < 8 by omega)]
    simp [show i ≠ 5 by omega]
  · simp [h4]

theorem newFlags_type (f : VmRegionFlags) : (newFlags f).type = f.type := by
  apply BitVec.eq_of_getLsbD_eq
  intro i hi
  rw [VmRegionFlags.type, VmRegionFlags.type, BitField.getLsbD_get (by decide) _ hi,
    BitField.getLsbD_get (by decide) _ hi]
  by_cases h1 : i < 1
  · rw [getLsbD_newFlags f (show 4 + i < 8 by omega)]
    simp [show 4 + i ≠ 5 by omega]
  · simp [h1]

theorem newFlags_isRoot (f : VmRegionFlags) : (newFlags f).isRoot = 0 := by
  apply BitVec.eq_of_getLsbD_eq
  intro i hi
  rw [VmRegionFlags.isRoot, BitField.getLsbD_get (by decide) _ hi]
  by_cases h1 : i < 1
  · rw [getLsbD_newFlags f (show 5 + i < 8 by omega)]
    simp [show 5 + i = 5 by omega]
  · simp [h1]

/-! One call. -/

/-- Each capability of `f` is one of `g`. -/
def CapSubset (f g : VmRegionFlags) : Prop :=
  ∀ i, f.capability.getLsbD i = true → g.capability.getLsbD i = true

theorem CapSubset.trans {f g h : VmRegionFlags} (hfg : CapSubset f g) (hgh : CapSubset g h) :
    CapSubset f h := fun i hi => hgh i (hfg i hi)

theorem capSubset_of_check {f g : VmRegionFlags}
    (h : f.capability &&& g.capability = f.capability) : CapSubset f g := by
  intro i hi
  rw [← h, BitVec.getLsbD_and, Bool.and_eq_true] at hi
  exact hi.2

theorem child_mem_of_mem_holesFrom {m : Regions} {self : VmRegion} {offset : BitVec 64}
    {cs : List ℕ} {h : Hole} (hm : h ∈ holesFrom m self offset cs) {b : ℕ}
    (hb : h.child = some b) : b ∈ cs := by
  induction cs generalizing offset with
  | nil =>
    unfold holesFrom at hm
    split_ifs at hm
    · rw [List.mem_singleton] at hm
      subst hm
      cases hb
    · cases hm
  | cons c cs ih =>
    unfold holesFrom at hm
    dsimp only at hm
    split_ifs at hm
    · rcases List.mem_cons.mp hm with rfl | hm
      · obtain rfl := Option.some.inj hb
        exact List.mem_cons_self
      · exact List.mem_cons_of_mem _ (ih hm)
    · exact List.mem_cons_of_mem _ (ih hm)

/-- A call that returns leaves the tree as it is, or adds one child with checked flags. -/
theorem Call.run_adds {m m' : Regions} {c : Call} (h : c.run m = some m') :
    m' = m ∨ ∃ new before vmr, c.alloc = some new ∧
      CapSubset c.flags (m.region c.this).flags ∧ c.flags.type = typeRegion ∧
      (∀ b, before = some b → b ∈ (m.region c.this).children) ∧
      vmr.flags = newFlags c.flags ∧ vmr.parent = some c.this ∧ vmr.children = [] ∧
      m' = m.addChild c.this before new vmr := by
  rw [Call.run_eq] at h
  rcases c.result_cases m with ⟨hrun, -⟩ | ⟨e, hrun, -⟩ | ⟨new, hole, halloc, href, hfit, hrun⟩
  · rw [hrun] at h
    cases h
  · rw [hrun] at h
    exact Or.inl (Option.some.inj h).symm
  · rw [hrun] at h
    rw [Call.Refused, not_or, not_or, not_not, not_not] at href
    have hmem := List.mem_of_find?_eq_some hfit
    exact Or.inr ⟨new, hole.child, c.made m hole, halloc, capSubset_of_check href.1, href.2.1,
      fun b => child_mem_of_mem_holesFrom hmem, rfl, rfl, rfl, (Option.some.inj h).symm⟩

/-! The tree, by its parent pointers and by its lists. -/

def IsParent (m : Regions) (c p : ℕ) : Prop := c ∈ m.live ∧ (m.region c).parent = some p

def Ancestor (m : Regions) : ℕ → ℕ → Prop := Relation.TransGen (IsParent m)

/-- The regions of a tree from the root 0 down, whose flags are checked against the parent. -/
structure Capped (m : Regions) : Prop where
  listed : ∀ p c, c ∈ (m.region p).children ↔ IsParent m c p
  parent_live : ∀ c p, IsParent m c p → p ∈ m.live
  rooted : ∀ r ∈ m.live, r ≠ 0 → Ancestor m r 0
  child : ∀ c p, IsParent m c p → CapSubset (m.region c).flags (m.region p).flags
  flags : ∀ r ∈ m.live, r ≠ 0 →
    (m.region r).flags.type = typeRegion ∧ (m.region r).flags.isRoot = 0

/-- Each region below the root has the root above it, `REGION` as its type, no `is_root`
bit, and no capability that one of its ancestors lacks. -/
structure CapsShrink (m : Regions) : Prop where
  rooted : ∀ r ∈ m.live, r ≠ 0 → Ancestor m r 0
  listed : ∀ p c, c ∈ (m.region p).children ↔ IsParent m c p
  subset : ∀ r a, Ancestor m r a → CapSubset (m.region r).flags (m.region a).flags
  flags : ∀ r ∈ m.live, r ≠ 0 →
    (m.region r).flags.type = typeRegion ∧ (m.region r).flags.isRoot = 0

theorem Capped.capsShrink {m : Regions} (h : Capped m) : CapsShrink m := by
  refine ⟨h.rooted, h.listed, fun r a hanc => ?_, h.flags⟩
  induction hanc with
  | single hp => exact h.child _ _ hp
  | tail _ hp ih => exact ih.trans (h.child _ _ hp)

theorem capped_rootTree (base size : BitVec 64) (flags : VmRegionFlags) (aspace : ℕ) :
    Capped (rootTree base size flags aspace) where
  listed p c := by simp [rootTree, IsParent]
  parent_live c p hp := by simp [rootTree, IsParent] at hp
  rooted r hr hne := absurd (List.mem_singleton.mp hr) hne
  child c p hp := by simp [rootTree, IsParent] at hp
  flags r hr hne := absurd (List.mem_singleton.mp hr) hne

section AddChild

variable {m : Regions} {this new : ℕ} {before : Option ℕ} {vmr : VmRegion}

theorem addChild_parent_flags {r : ℕ} (hnew : r ≠ new) :
    ((m.addChild this before new vmr).region r).parent = (m.region r).parent ∧
      ((m.addChild this before new vmr).region r).flags = (m.region r).flags := by
  by_cases hthis : r = this
  · subst hthis
    simp [Regions.addChild]
  · rw [addChild_of_ne hthis hnew]
    exact ⟨rfl, rfl⟩

theorem mem_addChild_this (hbefore : ∀ b, before = some b → b ∈ (m.region this).children)
    {c : ℕ} : c ∈ ((m.addChild this before new vmr).region this).children ↔
      c = new ∨ c ∈ (m.region this).children := by
  cases before with
  | none => simp [Regions.addChild, or_comm]
  | some b =>
    have hperm := insertSeq_perm (n := new) (hbefore b rfl)
    simp [Regions.addChild, hperm.mem_iff]

theorem isParent_addChild (hne : new ≠ this) (hnew : new ∉ m.live)
    (hparent : vmr.parent = some this) {c p : ℕ} :
    IsParent (m.addChild this before new vmr) c p ↔
      IsParent m c p ∨ (c = new ∧ p = this) := by
  have hlive : c ∈ (m.addChild this before new vmr).live ↔ c ∈ m.live ∨ c = new := by
    simp [Regions.addChild]
  rw [IsParent, IsParent, hlive]
  by_cases hc : c = new
  · subst hc
    rw [addChild_new hne, hparent, Option.some.injEq]
    simp [hnew, eq_comm]
  · rw [(addChild_parent_flags hc).1]
    simp [hc]

/-- A child with checked flags keeps the tree. -/
theorem Capped.addChild (h : Capped m) (hthis : this ∈ m.live) (hnew : new ∉ m.live)
    (hbefore : ∀ b, before = some b → b ∈ (m.region this).children)
    (hparent : vmr.parent = some this) (hchildren : vmr.children = [])
    (hcap : CapSubset vmr.flags (m.region this).flags) (htype : vmr.flags.type = typeRegion)
    (hroot : vmr.flags.isRoot = 0) : Capped (m.addChild this before new vmr) := by
  have hne : new ≠ this := fun he => hnew (he ▸ hthis)
  have hlift : ∀ {r a}, Ancestor m r a → Ancestor (m.addChild this before new vmr) r a :=
    fun hanc => Relation.TransGen.mono
      (fun c p hp => (isParent_addChild hne hnew hparent).mpr (Or.inl hp)) _ _ hanc
  have hlive : ∀ r, r ∈ (m.addChild this before new vmr).live → r ∈ m.live ∨ r = new := by
    intro r hr
    exact (List.mem_append.mp hr).imp_right List.mem_singleton.mp
  have hkeep : ∀ r ∈ m.live, ((m.addChild this before new vmr).region r).flags =
      (m.region r).flags := by
    intro r hr
    have hrn : r ≠ new := fun he => hnew (he ▸ hr)
    exact (addChild_parent_flags hrn).2
  refine ⟨fun p c => ?_, fun c p hp => ?_, fun r hr hr0 => ?_, fun c p hp => ?_,
    fun r hr hr0 => ?_⟩
  · rw [isParent_addChild hne hnew hparent]
    by_cases hp : p = this
    · subst hp
      rw [mem_addChild_this hbefore, h.listed, or_comm]
      simp
    · by_cases hpn : p = new
      · subst hpn
        have hnone : ¬ IsParent m c p := fun hc => hnew (h.parent_live c p hc)
        simp [addChild_new hne, hchildren, hnone, hne]
      · rw [addChild_of_ne hp hpn, h.listed]
        simp [hp]
  · rcases (isParent_addChild hne hnew hparent).mp hp with hp | ⟨-, rfl⟩
    · exact List.mem_append_left _ (h.parent_live c p hp)
    · exact List.mem_append_left _ hthis
  · rcases hlive r hr with hr | rfl
    · exact hlift (h.rooted r hr hr0)
    · have hstep : IsParent (m.addChild this before r vmr) r this :=
        (isParent_addChild hne hnew hparent).mpr (Or.inr ⟨rfl, rfl⟩)
      by_cases ht : this = 0
      · exact .single (ht ▸ hstep)
      · exact .head hstep (hlift (h.rooted this hthis ht))
  · rcases (isParent_addChild hne hnew hparent).mp hp with hp | ⟨rfl, rfl⟩
    · rw [hkeep c hp.1, hkeep p (h.parent_live c p hp)]
      exact h.child c p hp
    · rw [addChild_new hne, hkeep p hthis]
      exact hcap
  · rcases hlive r hr with hr | rfl
    · rw [hkeep r hr]
      exact h.flags r hr hr0
    · rw [addChild_new hne]
      exact ⟨htype, hroot⟩

end AddChild

/-! Whole runs. -/

/-- A call on a region that exists, with fresh memory for a new one. -/
def OnExisting (m : Regions) (c : Call) : Prop :=
  c.this ∈ m.live ∧ ∀ n, c.alloc = some n → n ∉ m.live

theorem preserves_capped : Preserves Call.run Capped OnExisting := by
  intro m c m' h hon hrun
  rcases Call.run_adds hrun with rfl | ⟨new, before, vmr, halloc, hcap, htype, hbefore, hflags,
    hparent, hchildren, rfl⟩
  · exact h
  · refine h.addChild hon.1 (hon.2 new halloc) hbefore hparent hchildren ?_ ?_ ?_
    · rw [hflags, CapSubset, newFlags_capability]
      exact hcap
    · rw [hflags, newFlags_type, htype]
    · rw [hflags, newFlags_isRoot]

/-- From any root, and through any calls on its regions, capabilities only shrink. -/
theorem capabilities_shrink (base size : BitVec 64) (flags : VmRegionFlags) (aspace : ℕ)
    (cs : List Call) (hon : AlongRun Call.run OnExisting (rootTree base size flags aspace) cs) :
    EveryState Call.run CapsShrink (rootTree base size flags aspace) cs :=
  preserves_capped.everyState (fun _ h => h.capsShrink) (capped_rootTree base size flags aspace) hon

/-- Two levels below the root, with the capabilities cut down twice. -/
theorem capabilities_shrink_user :
    EveryState Call.run CapsShrink userRoot
      [⟨0, 8192, 0, 0xE3, some 1⟩, ⟨1, 4096, 0, 0x21, some 2⟩] := by
  refine capabilities_shrink 0 24576 0x2F 0 _ ?_
  refine .cons ⟨by decide, by decide⟩ rfl (.cons ⟨by decide, by decide⟩ rfl trivial)

end CxKernel.Vm
