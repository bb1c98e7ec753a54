import CxKernel.Lib.Placed
import CxKernel.Lib.Words
import CxKernel.Proofs.ListPool
import CxKernel.Spec.VmRegion

/-! Where first-fit allocation keeps the region tree in order. In a region based
at 0 the hole walk sees the true gaps between the children; in any other it mixes
offsets with addresses, and its first hole is not in the region at all. -/

namespace CxKernel.Vm

open Placement LinkedList

/-! The tree as a property of its intervals. -/

def VmRegion.interval (r : VmRegion) : Set ℕ :=
  Set.Ico r.base.toNat (r.base.toNat + r.size.toNat)

/-- The children of one region lie inside it, apart from each other and in order. -/
structure ChildrenPlaced (m : Regions) (r : ℕ) : Prop where
  inside : ∀ c ∈ (m.region r).children, (m.region c).interval ⊆ (m.region r).interval
  disjoint : (m.region r).children.Pairwise fun c d =>
    Disjoint (m.region c).interval (m.region d).interval
  sorted : (m.region r).children.Pairwise fun c d => (m.region c).base < (m.region d).base

def TreePlaced (m : Regions) : Prop := ∀ r ∈ m.live, ChildrenPlaced m r

theorem ChildrenPlaced.within {m : Regions} {r c : ℕ} (h : ChildrenPlaced m r)
    (hc : c ∈ (m.region r).children) (hpos : 0 < (m.region c).size.toNat) :
    (m.region r).base.toNat ≤ (m.region c).base.toNat ∧
      (m.region c).base.toNat + (m.region c).size.toNat ≤
        (m.region r).base.toNat + (m.region r).size.toNat := by
  have hsub := h.inside c hc
  rwa [VmRegion.interval, VmRegion.interval, Set.Ico_subset_Ico_iff (by omega)] at hsub

/-- Each child ends before the next one begins. -/
theorem ChildrenPlaced.apart {m : Regions} {r : ℕ} (h : ChildrenPlaced m r)
    (hpos : ∀ c ∈ (m.region r).children, 0 < (m.region c).size.toNat) :
    (m.region r).children.Pairwise fun c d =>
      (m.region c).base.toNat + (m.region c).size.toNat ≤ (m.region d).base.toNat := by
  refine (h.disjoint.and h.sorted).imp_of_mem ?_
  rintro c d - hd ⟨hdisj, hlt⟩
  have hp := hpos d hd
  rw [VmRegion.interval, VmRegion.interval, Set.Ico_disjoint_Ico] at hdisj
  rw [BitVec.lt_def] at hlt
  omega

theorem VmRegion.toNat_end {r : VmRegion} (h : r.base.toNat + r.size.toNat < 2 ^ 64) :
    (r.base + r.size).toNat = r.base.toNat + r.size.toNat := by
  rw [BitVec.toNat_add, Nat.mod_eq_of_lt h]

/-- The bounds of the children, in list order. -/
def bounds (m : Regions) (cs : List ℕ) : List (ℕ × ℕ) :=
  cs.map fun c => ((m.region c).base.toNat, (m.region c).base.toNat + (m.region c).size.toNat)

@[simp] theorem bounds_nil (m : Regions) : bounds m [] = [] := rfl

@[simp] theorem bounds_cons (m : Regions) (c : ℕ) (cs : List ℕ) :
    bounds m (c :: cs) = ((m.region c).base.toNat,
      (m.region c).base.toNat + (m.region c).size.toNat) :: bounds m cs := rfl

@[simp] theorem bounds_append (m : Regions) (cs ds : List ℕ) :
    bounds m (cs ++ ds) = bounds m cs ++ bounds m ds := List.map_append

theorem mem_bounds (m : Regions) {c : ℕ} {cs : List ℕ} (hc : c ∈ cs) :
    ((m.region c).base.toNat, (m.region c).base.toNat + (m.region c).size.toNat) ∈ bounds m cs :=
  List.mem_map.mpr ⟨c, hc, rfl⟩

/-! The hole walk, as the list of the holes it reports. -/

structure Hole where
  child : Option ℕ
  offset : BitVec 64
  len : BitVec 64

def holesFrom (m : Regions) (self : VmRegion) : BitVec 64 → List ℕ → List Hole
  | offset, [] =>
    if self.base + self.size > self.base + offset then
      [⟨none, offset, self.base + self.size - self.base - offset⟩]
    else []
  | offset, c :: cs =>
    let child := m.region c
    if child.base > self.base + offset then
      ⟨some c, offset, child.base - self.base - offset⟩ ::
        holesFrom m self (child.base + child.size) cs
    else holesFrom m self (child.base + child.size) cs

def holes (m : Regions) (self : VmRegion) : List Hole := holesFrom m self 0 self.children

/-- A callback that always continues sees these holes, in this order. -/
theorem foreachHoleFrom_collect (m : Regions) (self : VmRegion) (offset : BitVec 64)
    (cs : List ℕ) (acc : List Hole) :
    foreachHoleFrom m self (fun x o l acc => (acc ++ [⟨x, o, l⟩], true)) offset cs acc =
      acc ++ holesFrom m self offset cs := by
  induction cs generalizing offset acc with
  | nil =>
    unfold foreachHoleFrom holesFrom
    split_ifs <;> simp
  | cons c cs ih =>
    unfold foreachHoleFrom holesFrom
    dsimp only
    split_ifs
    · rw [ih, List.append_assoc]; rfl
    · exact ih _ _

/-- The first hole that passes the 64-bit fit test. -/
def firstFit (m : Regions) (self : VmRegion) (size align : BitVec 64) : Option Hole :=
  (holes m self).find? fun h => fits size align h.offset h.len

theorem search_eq (m : Regions) (self : VmRegion) (size align offset : BitVec 64)
    (cs : List ℕ) :
    foreachHoleFrom m self (takeHole size align) offset cs none =
      ((holesFrom m self offset cs).find? fun h => fits size align h.offset h.len).map
        fun h => ⟨h.child, alignUp h.offset align, size⟩ := by
  induction cs generalizing offset with
  | nil =>
    unfold foreachHoleFrom holesFrom takeHole
    split_ifs <;> simp_all
  | cons c cs ih =>
    unfold foreachHoleFrom holesFrom
    dsimp only
    split_ifs with hgap
    · unfold takeHole
      rw [List.find?_cons]
      cases hfit : fits size align offset ((m.region c).base - self.base - offset)
      · simp only [Bool.false_eq_true, if_false]
        exact ih _
      · simp
    · exact ih _

/-- In a region based at 0 each hole lies between the children before it and the
child it is reported with. -/
theorem holesFrom_zero {m : Regions} {self : VmRegion} (hbase : self.base = 0) (pre : List ℕ)
    {cs : List ℕ} {offset : BitVec 64} (hpre : Placed offset.toNat 0 (bounds m pre))
    (hcs : Placed self.size.toNat offset.toNat (bounds m cs)) (hnil : offset ≠ 0 → pre ≠ []) :
    ∀ h ∈ holesFrom m self offset cs, ∃ p q, pre ++ cs = p ++ q ∧ h.child = q.head? ∧
      Placed h.offset.toNat 0 (bounds m p) ∧
      Placed self.size.toNat (h.offset.toNat + h.len.toNat) (bounds m q) ∧
      (h.offset ≠ 0 → p ≠ []) := by
  induction cs generalizing offset pre with
  | nil =>
    intro h hm
    unfold holesFrom at hm
    split_ifs at hm with hgap
    · rw [List.mem_singleton] at hm
      subst hm
      refine ⟨pre, [], rfl, rfl, hpre, ?_, hnil⟩
      have hle := hcs.le
      rw [hbase, BitVec.ofNat_eq_ofNat, BitVec.zero_add, BitVec.sub_zero,
        BitVec.toNat_sub_of_le (BitVec.le_def.mpr hle), bounds_nil, placed_nil]
      exact (Nat.add_sub_of_le hle).le
    · exact absurd hm List.not_mem_nil
  | cons c cs ih =>
    rw [bounds_cons, placed_cons] at hcs
    obtain ⟨hlo, hlt, hrest⟩ := hcs
    dsimp only at hlo hlt hrest
    have hend := VmRegion.toNat_end (r := m.region c) (hrest.le.trans_lt self.size.isLt)
    have hpre' : Placed ((m.region c).base + (m.region c).size).toNat 0 (bounds m (pre ++ [c])) := by
      rw [bounds_append, bounds_cons, bounds_nil, placed_append_cons, hend]
      exact ⟨hpre.mono le_rfl hlo, hlt, le_rfl⟩
    have hrec := ih (pre ++ [c]) hpre' (by rw [hend]; exact hrest) (fun _ => by simp)
    rw [List.append_assoc, List.singleton_append] at hrec
    intro h hm
    unfold holesFrom at hm
    dsimp only at hm
    split_ifs at hm with hgap
    · rcases List.mem_cons.mp hm with rfl | hm
      · refine ⟨pre, c :: cs, rfl, rfl, hpre, ?_, hnil⟩
        dsimp only
        rw [hbase, BitVec.ofNat_eq_ofNat, BitVec.sub_zero,
          BitVec.toNat_sub_of_le (BitVec.le_def.mpr hlo), bounds_cons, placed_cons]
        exact ⟨by dsimp only; omega, hlt, hrest⟩
      · exact hrec h hm
    · exact hrec h hm

/-! The alignment in force is a power of two, of 32 bits. -/

theorem effectiveAlign_toNat_mod (p : BitVec 8) :
    (effectiveAlign p).toNat = 2 ^ max (p.toNat % 32) 12 := by
  have hmod : p.toNat % 32 < 32 := Nat.mod_lt _ (by decide)
  generalize hk : p.toNat % 32 = k at hmod
  have hlt : 2 ^ k < 2 ^ 32 := Nat.pow_lt_pow_right (by omega) hmod
  have hshift : (1#32 <<< k).toNat = 2 ^ k := by
    rw [BitVec.toNat_shiftLeft, Nat.shiftLeft_eq, BitVec.toNat_ofNat, Nat.mod_eq_of_lt (by simpa)]
    simp
  have hpage : (BitVec.ofNat 32 pageSize).toNat = 2 ^ 12 := rfl
  rw [effectiveAlign, hk, eblMax, BitVec.toNat_setWidth_of_le (by omega)]
  simp only [BitVec.lt_def, hshift, hpage]
  split_ifs with h
  · rw [hpage, max_eq_right (by
      by_contra hn
      have := Nat.pow_le_pow_right (show 0 < 2 by omega) (show 12 ≤ k by omega)
      omega)]
  · rw [hshift, max_eq_left (by
      by_contra hn
      exact h (Nat.pow_lt_pow_right (by omega) (by omega)))]

theorem effectiveAlign_toNat {p : BitVec 8} (hp : p.toNat ≤ 31) :
    (effectiveAlign p).toNat = 2 ^ max p.toNat 12 := by
  rw [effectiveAlign_toNat_mod, Nat.mod_eq_of_lt (by omega)]

/-! A call past its checks, by the hole it takes. -/

theorem paged_iff {size : BitVec 64} :
    size % .ofNat 64 pageSize = 0 ↔ size.toNat % pageSize = 0 := by
  rw [← BitVec.toNat_inj, BitVec.toNat_umod]
  rfl

theorem allocateVmrCompact_eq {m : Regions} {this : ℕ} {size : BitVec 64} {flags : VmRegionFlags}
    (hcap : flags.capability &&& (m.region this).flags.capability = flags.capability)
    (htype : flags.type = typeRegion) (hpaged : size.toNat % pageSize = 0) (alignPow2 : BitVec 8)
    (alloc : Option ℕ) :
    allocateVmrCompact m this size alignPow2 flags alloc =
      match firstFit m (m.region this) size (effectiveAlign alignPow2) with
      | none => some (.error .allocationFailed, m)
      | some h =>
        match alloc with
        | none => some (.error .outOfMemory, m)
        | some new => some (.ok new, m.addChild this h.child new
          { base := alignUp h.offset (effectiveAlign alignPow2), size, flags := newFlags flags
            parent := some this, aspace := (m.region this).aspace, children := [] }) := by
  have hsize : ¬ size % .ofNat 64 pageSize ≠ 0 := not_not.mpr (paged_iff.mpr hpaged)
  unfold allocateVmrCompact
  dsimp only
  rw [if_neg (not_not.mpr hcap), if_neg (not_not.mpr htype), if_neg hsize, foreachHole, search_eq,
    firstFit, holes]
  cases (holesFrom m (m.region this) 0 (m.region this).children).find? _ <;> rfl

/-! The calls of a client, and the runs they make up. -/

structure Call where
  this : ℕ
  size : BitVec 64
  alignPow2 : BitVec 8
  flags : VmRegionFlags
  alloc : Option ℕ

def Call.result (m : Regions) (c : Call) : Option (Except E ℕ × Regions) :=
  allocateVmrCompact m c.this c.size c.alignPow2 c.flags c.alloc

def Call.run (m : Regions) (c : Call) : Option Regions :=
  (allocateVmrCompact m c.this c.size c.alignPow2 c.flags c.alloc).map Prod.snd

/-- A call on a constructed region, for a positive number of pages no larger than
it; the memory handed out for the new region is not in use. -/
structure Call.Legal (m : Regions) (c : Call) : Prop where
  live : c.this ∈ m.live
  pos : 0 < c.size.toNat
  paged : c.size.toNat % pageSize = 0
  le : c.size.toNat ≤ (m.region c.this).size.toNat
  align : c.alignPow2.toNat ≤ 31
  fresh : ∀ n, c.alloc = some n → n ∉ m.live

/-- All states from `m` on, the first and the last included. -/
def states (m : Regions) : List Call → List Regions
  | [] => [m]
  | c :: cs => m :: match c.run m with
    | some m' => states m' cs
    | none => []

def LegalRun (m : Regions) : List Call → Prop
  | [] => True
  | c :: cs => c.Legal m ∧ ∀ m', c.run m = some m' → LegalRun m' cs

/-- The call is turned down before it can touch the tree, whatever the holes. -/
def Call.Refused (m : Regions) (c : Call) : Prop :=
  c.flags.capability &&& (m.region c.this).flags.capability ≠ c.flags.capability ∨
    c.flags.type ≠ typeRegion ∨ c.alloc = none

/-- One of the two sums of the fit test leaves 64 bits. -/
def Hole.Wraps (size align : BitVec 64) (h : Hole) : Prop :=
  2 ^ 64 ≤ h.offset.toNat + (align.toNat - 1) ∨
    2 ^ 64 ≤ (alignUp h.offset align).toNat + size.toNat

/-- When the call keeps the tree in order: it is refused, or the region reaches the
end of the address space so that the walk reports no hole, or the region is based
at 0 and the first hole to pass the fit test passes it without wrapping. -/
def Call.Sound (m : Regions) (c : Call) : Prop :=
  c.Refused m ∨
    2 ^ 64 ≤ (m.region c.this).base.toNat + (m.region c.this).size.toNat ∨
    ((m.region c.this).base = 0 ∧
      ∀ h, firstFit m (m.region c.this) c.size (effectiveAlign c.alignPow2) = some h →
        ¬ h.Wraps c.size (effectiveAlign c.alignPow2))

def SoundRun (m : Regions) : List Call → Prop
  | [] => True
  | c :: cs => c.Sound m ∧ ∀ m', c.run m = some m' → SoundRun m' cs

/-- A root on its own, as `AddressSpace` and `init_aspace` set it up. -/
def rootTree (base size : BitVec 64) (flags : VmRegionFlags) (aspace : ℕ) : Regions :=
  { region := fun _ =>
      { base := base, size := size, flags := flags, parent := none, aspace := aspace
        children := [] }
    live := [0] }

/-- The new region of an accepted hole. -/
def Call.made (m : Regions) (c : Call) (h : Hole) : VmRegion :=
  { base := alignUp h.offset (effectiveAlign c.alignPow2), size := c.size
    flags := newFlags c.flags, parent := some c.this, aspace := (m.region c.this).aspace
    children := [] }

/-- Everything a call can do. It does not return where the size is no number of pages. -/
theorem Call.result_cases (m : Regions) (c : Call) :
    (c.result m = none ∧ c.size.toNat % pageSize ≠ 0) ∨
    (∃ e, c.result m = some (.error e, m) ∧ (c.Refused m ∨
      firstFit m (m.region c.this) c.size (effectiveAlign c.alignPow2) = none)) ∨
    ∃ new h, c.alloc = some new ∧ ¬ c.Refused m ∧
      firstFit m (m.region c.this) c.size (effectiveAlign c.alignPow2) = some h ∧
      c.result m = some (.ok new, m.addChild c.this h.child new (c.made m h)) := by
  by_cases hcap : c.flags.capability &&& (m.region c.this).flags.capability ≠ c.flags.capability
  · have hrun : c.result m = some (.error .permissionDenied, m) := if_pos hcap
    exact .inr (.inl ⟨_, hrun, .inl (.inl hcap)⟩)
  by_cases htype : c.flags.type ≠ typeRegion
  · have hrun : c.result m = some (.error .invalidArgument, m) :=
      (if_neg hcap).trans (if_pos htype)
    exact .inr (.inl ⟨_, hrun, .inl (.inr (.inl htype))⟩)
  by_cases hpaged : c.size.toNat % pageSize = 0
  · have hrun : c.result m = _ :=
      allocateVmrCompact_eq (not_not.mp hcap) (not_not.mp htype) hpaged c.alignPow2 c.alloc
    cases hfit : firstFit m (m.region c.this) c.size (effectiveAlign c.alignPow2) with
    | none =>
      rw [hfit] at hrun
      exact .inr (.inl ⟨_, hrun, .inr rfl⟩)
    | some h =>
      cases halloc : c.alloc with
      | none =>
        rw [hfit, halloc] at hrun
        exact .inr (.inl ⟨_, hrun, .inl (.inr (.inr halloc))⟩)
      | some new =>
        rw [hfit, halloc] at hrun
        have href : ¬ c.Refused m := by
          intro hor
          rcases hor with h | h | h
          · exact hcap h
          · exact htype h
          · rw [halloc] at h
            cases h
        exact .inr (.inr ⟨new, h, rfl, href, rfl, hrun⟩)
  · have hsize : c.size % .ofNat 64 pageSize ≠ 0 := fun h => hpaged (paged_iff.mp h)
    exact .inl ⟨(if_neg hcap).trans ((if_neg htype).trans (if_pos hsize)), hpaged⟩

theorem Call.run_eq (m : Regions) (c : Call) : c.run m = (c.result m).map Prod.snd := rfl

/-- Everything a legal call can do. -/
theorem Call.run_cases {m : Regions} {c : Call} (hl : c.Legal m) :
    (c.run m = some m ∧ (c.Refused m ∨
      firstFit m (m.region c.this) c.size (effectiveAlign c.alignPow2) = none)) ∨
    ∃ new h, c.alloc = some new ∧ ¬ c.Refused m ∧
      firstFit m (m.region c.this) c.size (effectiveAlign c.alignPow2) = some h ∧
      c.run m = some (m.addChild c.this h.child new (c.made m h)) := by
  rw [Call.run_eq]
  rcases c.result_cases m with ⟨-, hpaged⟩ | ⟨e, hrun, hwhy⟩ | ⟨new, h, halloc, href, hfit, hrun⟩
  · exact absurd hl.paged hpaged
  · rw [hrun]
    exact .inl ⟨rfl, hwhy⟩
  · rw [hrun]
    exact .inr ⟨new, h, halloc, href, hfit, rfl⟩

/-! What adding a child does. -/

section AddChild

variable {m : Regions} {this new : ℕ} {before : Option ℕ} {vmr : VmRegion}

theorem addChild_new (hne : new ≠ this) : (m.addChild this before new vmr).region new = vmr := by
  simp [Regions.addChild, hne]

theorem addChild_of_ne {r : ℕ} (hthis : r ≠ this) (hnew : r ≠ new) :
    (m.addChild this before new vmr).region r = m.region r := by
  simp [Regions.addChild, hthis, hnew]

variable (m this before vmr) in
theorem addChild_base_size {r : ℕ} (hnew : r ≠ new) :
    ((m.addChild this before new vmr).region r).base = (m.region r).base ∧
      ((m.addChild this before new vmr).region r).size = (m.region r).size := by
  by_cases hthis : r = this
  · subst hthis
    simp [Regions.addChild]
  · rw [addChild_of_ne hthis hnew]
    exact ⟨rfl, rfl⟩

theorem addChild_bounds {cs : List ℕ} (hnew : new ∉ cs) :
    bounds (m.addChild this before new vmr) cs = bounds m cs := by
  refine List.map_congr_left fun c hc => ?_
  obtain ⟨hb, hs⟩ := addChild_base_size m this before vmr (show c ≠ new from fun h => hnew (h ▸ hc))
  rw [hb, hs]

variable (new vmr) in
/-- The new child goes between the children before the hole and those after it. -/
theorem addChild_children {lo hi : ℕ} {p q : List ℕ} (hsplit : (m.region this).children = p ++ q)
    (hplaced : Placed hi lo (bounds m (p ++ q))) (hbefore : before = q.head?) :
    ((m.addChild this before new vmr).region this).children = p ++ new :: q := by
  subst hbefore
  cases q with
  | nil => simp [Regions.addChild, hsplit]
  | cons c q =>
    have hc : c ∉ p := by
      intro hm
      rw [bounds_append, bounds_cons, placed_append_cons] at hplaced
      have hb := hplaced.1.bounds (mem_bounds m hm)
      exact absurd (hb.2.1.trans_le hb.2.2) (lt_irrefl _)
    simp [Regions.addChild, hsplit, insertSeq_append hc]

end AddChild

/-- The invariant of a run that keeps order: regions based above 0 stay childless. -/
structure Tidy (m : Regions) : Prop where
  children_live : ∀ r ∈ m.live, ∀ c ∈ (m.region r).children, c ∈ m.live
  childless : ∀ r ∈ m.live, (m.region r).base ≠ 0 → (m.region r).children = []
  placed : ∀ r ∈ m.live, Placed ((m.region r).base.toNat + (m.region r).size.toNat)
    (m.region r).base.toNat (bounds m (m.region r).children)

theorem tidy_rootTree (base size : BitVec 64) (flags : VmRegionFlags) (aspace : ℕ) :
    Tidy (rootTree base size flags aspace) where
  children_live _ _ _ hc := absurd hc List.not_mem_nil
  childless _ _ _ := rfl
  placed _ _ := Nat.le_add_right _ _

theorem childrenPlaced_of_placed {m : Regions} {r : ℕ}
    (h : Placed ((m.region r).base.toNat + (m.region r).size.toNat) (m.region r).base.toNat
      (bounds m (m.region r).children)) : ChildrenPlaced m r := by
  have hpw := List.pairwise_map.mp h.pairwise
  refine ⟨fun c hc => h.subset (mem_bounds m hc), hpw.imp ?_, hpw.imp fun h => h.2⟩
  intro c d h
  exact disjoint_of_le (i := ((m.region c).base.toNat, _)) (j := ((m.region d).base.toNat, _)) h.1

theorem Tidy.treePlaced {m : Regions} (ht : Tidy m) : TreePlaced m :=
  fun r hr => childrenPlaced_of_placed (ht.placed r hr)

theorem Tidy.addChild {m : Regions} (ht : Tidy m) {this new : ℕ} {before : Option ℕ}
    {vmr : VmRegion} {p q : List ℕ} (hthis : this ∈ m.live) (hnew : new ∉ m.live)
    (hbase : (m.region this).base = 0) (hsplit : (m.region this).children = p ++ q)
    (hbefore : before = q.head?) (hchildren : vmr.children = []) (hpos : 0 < vmr.size.toNat)
    (hp : Placed vmr.base.toNat 0 (bounds m p))
    (hq : Placed (m.region this).size.toNat (vmr.base.toNat + vmr.size.toNat) (bounds m q)) :
    Tidy (m.addChild this before new vmr) := by
  have hne : new ≠ this := fun h => hnew (h ▸ hthis)
  have hold := ht.placed this hthis
  have hlive := ht.children_live this hthis
  rw [hsplit] at hold hlive
  have hcs := addChild_children new vmr hsplit hold hbefore
  have hfresh : ∀ r ∈ m.live, ∀ c ∈ (m.region r).children, c ≠ new :=
    fun r hr c hc h => hnew (h ▸ ht.children_live r hr c hc)
  have hkept : ∀ r ∈ m.live, r ≠ this →
      (m.addChild this before new vmr).region r = m.region r :=
    fun r hr h => addChild_of_ne h fun h' => hnew (h' ▸ hr)
  have hcases : ∀ r ∈ (m.addChild this before new vmr).live, r = new ∨ r = this ∨
      (r ∈ m.live ∧ r ≠ this) := by
    intro r hr
    rcases List.mem_append.mp hr with hr | hr
    · by_cases h : r = this
      · exact .inr (.inl h)
      · exact .inr (.inr ⟨hr, h⟩)
    · exact .inl (List.mem_singleton.mp hr)
  have hb := addChild_base_size m this before vmr hne.symm
  refine ⟨fun r hr c hc => ?_, fun r hr hr0 => ?_, fun r hr => ?_⟩
  · rcases hcases r hr with rfl | rfl | ⟨hr, hrt⟩
    · rw [addChild_new hne, hchildren] at hc
      exact absurd hc List.not_mem_nil
    · rw [hcs] at hc
      rcases List.mem_append.mp hc with hc | hc
      · exact List.mem_append_left _ (hlive c (List.mem_append_left _ hc))
      · rcases List.mem_cons.mp hc with rfl | hc
        · exact List.mem_append_right _ (List.mem_singleton_self _)
        · exact List.mem_append_left _ (hlive c (List.mem_append_right _ hc))
    · rw [hkept r hr hrt] at hc
      exact List.mem_append_left _ (ht.children_live r hr c hc)
  · rcases hcases r hr with rfl | rfl | ⟨hr, hrt⟩
    · rw [addChild_new hne, hchildren]
    · exact absurd (hb.1.trans hbase) hr0
    · rw [hkept r hr hrt] at hr0 ⊢
      exact ht.childless r hr hr0
  · rcases hcases r hr with rfl | rfl | ⟨hr, hrt⟩
    · rw [addChild_new hne, hchildren]
      exact Nat.le_add_right _ _
    · have hpn : new ∉ p := fun h => hnew (hlive new (List.mem_append_left _ h))
      have hqn : new ∉ q := fun h => hnew (hlive new (List.mem_append_right _ h))
      rw [hcs, hb.1, hb.2, hbase, bounds_append, bounds_cons, addChild_bounds hpn,
        addChild_bounds hqn, addChild_new hne, placed_append_cons]
      exact ⟨hp, by dsimp only; omega, by simpa using hq⟩
    · rw [hkept r hr hrt, addChild_bounds fun h => hfresh r hr new h rfl]
      exact ht.placed r hr

/-! One step. -/

/-- The walk of a region that reaches the end of the address space reports nothing. -/
theorem firstFit_top {m : Regions} (ht : Tidy m) {r : ℕ} (hr : r ∈ m.live)
    (htop : 2 ^ 64 ≤ (m.region r).base.toNat + (m.region r).size.toNat) (size align : BitVec 64) :
    firstFit m (m.region r) size align = none := by
  have hb := (m.region r).base.isLt
  have hs := (m.region r).size.isLt
  have hne : (m.region r).base ≠ 0 := by
    intro h
    rw [h] at htop
    simp at htop
    omega
  have hgap : ¬ (m.region r).base + (m.region r).size > (m.region r).base + 0 := by
    rw [gt_iff_lt, BitVec.lt_def, BitVec.ofNat_eq_ofNat, BitVec.add_zero, BitVec.toNat_add,
      Nat.mod_eq_sub_mod htop, Nat.mod_eq_of_lt (by omega)]
    omega
  rw [firstFit, holes, ht.childless r hr hne, holesFrom, if_neg hgap, List.find?_nil]

/-- Based above 0 and short of the end of the address space, a childless region
offers the hole at offset 0, which any request fits. -/
theorem firstFit_high {m : Regions} {r : ℕ} (hchildren : (m.region r).children = [])
    (htop : (m.region r).base.toNat + (m.region r).size.toNat < 2 ^ 64) {size : BitVec 64}
    (hpos : 0 < size.toNat) (hle : size.toNat ≤ (m.region r).size.toNat) (align : BitVec 64) :
    firstFit m (m.region r) size align = some ⟨none, 0, (m.region r).size⟩ := by
  have hgap : (m.region r).base + (m.region r).size > (m.region r).base + 0 := by
    rw [gt_iff_lt, BitVec.lt_def, BitVec.ofNat_eq_ofNat, BitVec.add_zero, VmRegion.toNat_end htop]
    omega
  have hlen : (m.region r).base + (m.region r).size - (m.region r).base - 0 =
      (m.region r).size := by
    rw [BitVec.ofNat_eq_ofNat, BitVec.sub_zero, BitVec.add_comm, BitVec.add_sub_cancel]
  have hfit : fits size align 0 (m.region r).size = true := by
    simp [fits, alignUp, BitVec.le_def, hle]
  rw [firstFit, holes, hchildren, holesFrom, if_pos hgap, hlen, List.find?_cons, hfit]

/-- A fit that does not wrap is a fit in unbounded arithmetic. -/
theorem Hole.room {size : BitVec 64} {p : BitVec 8} (hp : p.toNat ≤ 31) {h : Hole}
    (hfit : fits size (effectiveAlign p) h.offset h.len = true)
    (hend : h.offset.toNat + h.len.toNat < 2 ^ 64) (hw : ¬ h.Wraps size (effectiveAlign p)) :
    h.offset.toNat ≤ (alignUp h.offset (effectiveAlign p)).toNat ∧
      (alignUp h.offset (effectiveAlign p)).toNat + size.toNat ≤ h.offset.toNat + h.len.toNat := by
  have hpow := effectiveAlign_toNat hp
  rw [Hole.Wraps, not_or, not_le, not_le] at hw
  have hup := Words.toNat_roundUp hpow (x := h.offset) (by rw [← hpow]; exact hw.1)
  refine ⟨hup.1, ?_⟩
  simp only [fits, Bool.not_eq_true', decide_eq_false_iff_not, gt_iff_lt, BitVec.lt_def,
    BitVec.toNat_add, not_lt] at hfit
  rwa [Nat.mod_eq_of_lt hw.2, Nat.mod_eq_of_lt hend] at hfit

/-- Where first fit puts a child: between those before its hole and those after it. -/
theorem firstFit_split {m : Regions} {self : VmRegion} (hbase : self.base = 0)
    (hplaced : Placed self.size.toNat 0 (bounds m self.children)) {size align : BitVec 64} {h : Hole}
    (hh : firstFit m self size align = some h) :
    fits size align h.offset h.len = true ∧ ∃ p q, self.children = p ++ q ∧
      h.child = q.head? ∧ Placed h.offset.toNat 0 (bounds m p) ∧
      Placed self.size.toNat (h.offset.toNat + h.len.toNat) (bounds m q) ∧
      (h.offset ≠ 0 → p ≠ []) := by
  refine ⟨by simpa using List.find?_some hh, ?_⟩
  exact holesFrom_zero hbase [] (by simp) (by simpa using hplaced) (fun h => absurd rfl h)
    h (List.mem_of_find?_eq_some hh)

theorem firstFit_zero {m : Regions} (ht : Tidy m) {r : ℕ} (hr : r ∈ m.live)
    (hbase : (m.region r).base = 0) {size align : BitVec 64} {h : Hole}
    (hh : firstFit m (m.region r) size align = some h) :
    fits size align h.offset h.len = true ∧ ∃ p q, (m.region r).children = p ++ q ∧
      h.child = q.head? ∧ Placed h.offset.toNat 0 (bounds m p) ∧
      Placed (m.region r).size.toNat (h.offset.toNat + h.len.toNat) (bounds m q) ∧
      (h.offset ≠ 0 → p ≠ []) := by
  have hplaced := ht.placed r hr
  rw [hbase] at hplaced
  exact firstFit_split hbase (by simpa using hplaced) hh

/-- A sound call keeps the invariant. -/
theorem Call.Sound.tidy {m : Regions} {c : Call} (hs : c.Sound m) (ht : Tidy m)
    (hl : c.Legal m) : ∃ m', c.run m = some m' ∧ Tidy m' := by
  rcases Call.run_cases hl with ⟨hrun, -⟩ | ⟨new, h, halloc, href, hfirst, hrun⟩
  · exact ⟨m, hrun, ht⟩
  rcases hs with hs | htop | ⟨hbase, hwrap⟩
  · exact absurd hs href
  · rw [firstFit_top ht hl.live htop] at hfirst
    cases hfirst
  · obtain ⟨hfit, p, q, hsplit, hchild, hp, hq, -⟩ := firstFit_zero ht hl.live hbase hfirst
    have hend := hq.le
    have hsize := (m.region c.this).size.isLt
    obtain ⟨hlo, hhi⟩ := Hole.room hl.align hfit (by omega) (hwrap h hfirst)
    exact ⟨_, hrun, ht.addChild hl.live (hl.fresh new halloc) hbase hsplit hchild rfl hl.pos
      (hp.mono le_rfl hlo) (hq.mono hhi le_rfl)⟩

theorem Call.made_mem_interval {m : Regions} {c : Call} (h : Hole) {a : ℕ}
    (hlo : (c.made m h).base.toNat ≤ a) (hhi : a < (c.made m h).base.toNat + c.size.toNat) :
    a ∈ (c.made m h).interval := ⟨hlo, hhi⟩

/-- A call that is not refused and finds a hole adds a region there. -/
theorem Call.run_of_firstFit {m : Regions} {c : Call} (hl : c.Legal m) (href : ¬ c.Refused m)
    {h : Hole} (hfirst : firstFit m (m.region c.this) c.size (effectiveAlign c.alignPow2) = some h) :
    ∃ new, c.run m = some (m.addChild c.this h.child new (c.made m h)) ∧ new ≠ c.this := by
  rcases Call.run_cases hl with ⟨-, hr | hn⟩ | ⟨new, h', halloc, -, hfirst', hrun⟩
  · exact absurd hr href
  · rw [hn] at hfirst
    cases hfirst
  · rw [hfirst, Option.some.injEq] at hfirst'
    subst hfirst'
    exact ⟨new, hrun, fun he => hl.fresh new halloc (he ▸ hl.live)⟩

/-- In a region based at 0, a hole where the sums wrap gives a child out of place. -/
theorem Call.not_treePlaced_of_wraps {m : Regions} {c : Call} (ht : Tidy m) (hl : c.Legal m)
    (href : ¬ c.Refused m) (hbase : (m.region c.this).base = 0) {h : Hole}
    (hfirst : firstFit m (m.region c.this) c.size (effectiveAlign c.alignPow2) = some h)
    (hwraps : h.Wraps c.size (effectiveAlign c.alignPow2)) :
    ∃ m', c.run m = some m' ∧ ¬ TreePlaced m' := by
  have hpos := hl.pos
  obtain ⟨new, hrun, hne⟩ := Call.run_of_firstFit hl href hfirst
  obtain ⟨-, p, q, hsplit, hchild, -, -, hnil⟩ := firstFit_zero ht hl.live hbase hfirst
  have hplaced := ht.placed c.this hl.live
  rw [hsplit] at hplaced
  have hcs := addChild_children new (c.made m h) hsplit hplaced hchild
  refine ⟨_, hrun, fun htree => ?_⟩
  obtain ⟨hinside, -, hsorted⟩ := htree c.this (List.mem_append_left _ hl.live)
  rw [hcs] at hinside hsorted
  have hpow := effectiveAlign_toNat hl.align
  rcases hwraps with hw | hw
  · -- rounding up wrapped to 0, behind a child that is there already
    have hoff : h.offset ≠ 0 := by
      intro h0
      have hk : 2 ^ max c.alignPow2.toNat 12 ≤ 2 ^ 31 :=
        Nat.pow_le_pow_right (by omega) (by have := hl.align; omega)
      rw [h0, hpow] at hw
      simp at hw
      omega
    obtain ⟨d, hd⟩ := List.exists_mem_of_ne_nil p (hnil hoff)
    have hlt := (List.pairwise_append.mp hsorted).2.2 d hd new List.mem_cons_self
    have hzero : (c.made m h).base.toNat = 0 := Words.roundUp_eq_zero hpow (by rwa [← hpow])
    rw [addChild_new hne, BitVec.lt_def, hzero] at hlt
    exact Nat.not_lt_zero _ hlt
  · -- the range runs past the last address
    have hsub := hinside new (by simp)
    rw [addChild_new hne] at hsub
    have hlast := hsub (Call.made_mem_interval h
      (a := (c.made m h).base.toNat + c.size.toNat - 1) (by omega) (by omega))
    have hb := addChild_base_size m c.this h.child (c.made m h) hne.symm
    have hlt := hlast.2
    rw [hb.1, hb.2, hbase] at hlt
    have hsz := (m.region c.this).size.isLt
    have hge : 2 ^ 64 ≤ (c.made m h).base.toNat + c.size.toNat := hw
    simp at hlt
    omega

/-- In a region that is based higher the child comes to lie at 0. -/
theorem Call.not_treePlaced_of_based {m : Regions} {c : Call} (ht : Tidy m) (hl : c.Legal m)
    (href : ¬ c.Refused m)
    (htop : (m.region c.this).base.toNat + (m.region c.this).size.toNat < 2 ^ 64)
    (hbase : (m.region c.this).base ≠ 0) : ∃ m', c.run m = some m' ∧ ¬ TreePlaced m' := by
  have hpos := hl.pos
  have hchildren := ht.childless c.this hl.live hbase
  have hfirst := firstFit_high hchildren htop hpos hl.le (effectiveAlign c.alignPow2)
  obtain ⟨new, hrun, hne⟩ := Call.run_of_firstFit hl href hfirst
  refine ⟨_, hrun, fun htree => ?_⟩
  obtain ⟨hinside, -, -⟩ := htree c.this (List.mem_append_left _ hl.live)
  have hsub := hinside new (by simp [Regions.addChild])
  rw [addChild_new hne] at hsub
  have hzero : (c.made m ⟨none, 0, (m.region c.this).size⟩).base = 0 := by
    simp [Call.made, alignUp]
  have hlow := hsub (Call.made_mem_interval _ (a := 0) (by rw [hzero]; rfl) (by omega))
  have hb := addChild_base_size m c.this none (c.made m ⟨none, 0, (m.region c.this).size⟩)
    hne.symm
  have hle := hlow.1
  rw [hb.1] at hle
  exact hbase (BitVec.eq_of_toNat_eq (by simpa using hle))

/-- Any other call puts the new region out of place. -/
theorem Call.not_treePlaced {m : Regions} {c : Call} (hs : ¬ c.Sound m) (ht : Tidy m)
    (hl : c.Legal m) : ∃ m', c.run m = some m' ∧ ¬ TreePlaced m' := by
  rw [Call.Sound, not_or, not_or, not_le] at hs
  obtain ⟨href, htop, hzero⟩ := hs
  by_cases hbase : (m.region c.this).base = 0
  · obtain ⟨h, hfirst, hwraps⟩ : ∃ h, firstFit m (m.region c.this) c.size
        (effectiveAlign c.alignPow2) = some h ∧ h.Wraps c.size (effectiveAlign c.alignPow2) := by
      by_contra hno
      exact hzero ⟨hbase, fun h hh hw => hno ⟨h, hh, hw⟩⟩
    exact Call.not_treePlaced_of_wraps ht hl href hbase hfirst hwraps
  · exact Call.not_treePlaced_of_based ht hl href htop hbase

theorem states_head (m : Regions) (cs : List Call) : m ∈ states m cs := by
  cases cs <;> simp [states]

theorem treePlaced_iff_soundRun {m : Regions} (ht : Tidy m) {cs : List Call}
    (hl : LegalRun m cs) : (∀ m' ∈ states m cs, TreePlaced m') ↔ SoundRun m cs := by
  induction cs generalizing m with
  | nil => simp [states, SoundRun, ht.treePlaced]
  | cons c cs ih =>
    by_cases hs : c.Sound m
    · obtain ⟨m', hrun, ht'⟩ := hs.tidy ht hl.1
      have hrec := ih ht' (hl.2 m' hrun)
      simp only [states, hrun, SoundRun, List.forall_mem_cons, Option.some.injEq, forall_eq']
      exact ⟨fun h => ⟨hs, hrec.mp h.2⟩, fun h => ⟨ht.treePlaced, hrec.mpr h.2⟩⟩
    · obtain ⟨m', hrun, hbad⟩ := Call.not_treePlaced hs ht hl.1
      refine ⟨fun h => absurd (h m' ?_) hbad, fun h => absurd h.1 hs⟩
      simp [states, hrun, states_head]

/-- From any root, and through any calls of a client, the tree stays in order in
every state reached exactly when every call is sound in the state it is made in. -/
theorem allocate_run_placed_iff (base size : BitVec 64) (flags : VmRegionFlags) (aspace : ℕ)
    (cs : List Call) (hl : LegalRun (rootTree base size flags aspace) cs) :
    (∀ m ∈ states (rootTree base size flags aspace) cs, TreePlaced m) ↔
      SoundRun (rootTree base size flags aspace) cs :=
  treePlaced_iff_soundRun (tidy_rootTree base size flags aspace) hl

/-- In the address spaces of `init_aspace` no sum of the fit test can wrap, and a
call on any region based at 0 is sound. -/
theorem Call.sound_of_base_zero {m : Regions} {c : Call} (ht : Tidy m) (hl : c.Legal m)
    (hbase : (m.region c.this).base = 0) (hsize : (m.region c.this).size.toNat < 2 ^ 62) :
    c.Sound m := by
  refine .inr (.inr ⟨hbase, fun h hfirst hwraps => ?_⟩)
  obtain ⟨-, p, q, -, -, -, hq, -⟩ := firstFit_zero ht hl.live hbase hfirst
  have hend := hq.le
  have hle := hl.le
  have hpow := effectiveAlign_toNat hl.align
  have hk : 2 ^ max c.alignPow2.toNat 12 ≤ 2 ^ 31 :=
    Nat.pow_le_pow_right (by omega) (by have := hl.align; omega)
  rcases hwraps with hw | hw
  · omega
  · have hup := (Words.toNat_roundUp hpow (x := h.offset) (by omega)).2.1
    change (alignUp h.offset (effectiveAlign c.alignPow2)).toNat < _ at hup
    omega

/-! The user root of the tests: six pages from 0, one page asked for at a time. -/

def userRoot : Regions := rootTree 0 24576 0x2F 0

def onePage (this new : ℕ) : Call := ⟨this, 4096, 0, 0, some new⟩

def pageAt (base : BitVec 64) (parent : ℕ) : VmRegion := ⟨base, 4096, 0, some parent, 0, []⟩

def userRoot₁ : Regions := userRoot.addChild 0 none 1 (pageAt 0 0)

theorem childrenPlaced_userRoot₁ : ChildrenPlaced userRoot₁ 0 := by
  refine childrenPlaced_of_placed ?_
  change Placed 24576 0 [(0, 4096)]
  simp

def userRoot₂ : Regions := userRoot₁.addChild 0 none 2 (pageAt 4096 0)

def userRoot₃ : Regions := userRoot₂.addChild 2 none 3 (pageAt 0 2)

theorem userRoot_run₁ : (onePage 0 1).run userRoot = some userRoot₁ := rfl

theorem userRoot_run₂ : (onePage 0 2).run userRoot₁ = some userRoot₂ := rfl

theorem userRoot_run₃ : (onePage 2 3).run userRoot₂ = some userRoot₃ := rfl

theorem legalRun_cons {m m' : Regions} {c : Call} {cs : List Call} (hl : c.Legal m)
    (hrun : c.run m = some m') (h : LegalRun m' cs) : LegalRun m (c :: cs) :=
  ⟨hl, fun _ hm => Option.some.inj (hrun.symm.trans hm) ▸ h⟩

theorem userRoot_legalRun : LegalRun userRoot [onePage 0 1, onePage 0 2, onePage 2 3] := by
  refine legalRun_cons ?_ userRoot_run₁ (legalRun_cons ?_ userRoot_run₂
    (legalRun_cons ?_ userRoot_run₃ trivial))
  all_goals exact ⟨by decide, by decide, by decide, by decide, by decide, by decide⟩

/-- Two pages out of the root, and one out of the second: sound up to the last. -/
theorem allocate_run_placed_iff_user :
    (∀ m ∈ states userRoot [onePage 0 1, onePage 0 2, onePage 2 3], TreePlaced m) ↔
      SoundRun userRoot [onePage 0 1, onePage 0 2, onePage 2 3] :=
  allocate_run_placed_iff 0 24576 0x2F 0 _ userRoot_legalRun

/-- The page asked for in the region `[4096, 8192)` is put at address 0. -/
theorem nested_page_escapes :
    LegalRun userRoot [onePage 0 1, onePage 0 2, onePage 2 3] ∧
      ¬ ∀ m ∈ states userRoot [onePage 0 1, onePage 0 2, onePage 2 3], TreePlaced m := by
  refine ⟨userRoot_legalRun, fun h => ?_⟩
  have hplaced := h userRoot₃ (by
    simp [states, userRoot_run₁, userRoot_run₂, userRoot_run₃]) 2 (by decide)
  have hzero := hplaced.inside 3 (by decide) (show 0 ∈ Set.Ico 0 4096 by simp)
  exact absurd hzero.1 (by decide)

end CxKernel.Vm
