import CxKernel.Lib.Gaps
import CxKernel.Proofs.VmRegion
import Mathlib.Data.List.Find

/-! First fit in a region based at 0. The holes of the walk are the gaps between the
children, so the search finds the least aligned place with room, as long as the sums of
the fit test stay within 64 bits. -/

namespace CxKernel.Vm

open Placement LinkedList

/-- A region based at 0, whose children lie inside it and end before the next one begins. -/
structure Ordered (m : Regions) (r : ℕ) : Prop where
  base : (m.region r).base = 0
  inside : ∀ c ∈ (m.region r).children,
    (m.region c).base.toNat + (m.region c).size.toNat ≤ (m.region r).size.toNat
  apart : (m.region r).children.Pairwise fun c d =>
    (m.region c).base.toNat + (m.region c).size.toNat ≤ (m.region d).base.toNat

theorem Ordered.spaced {m : Regions} {r : ℕ} (h : Ordered m r) :
    Spaced (m.region r).size.toNat 0 (bounds m (m.region r).children) := by
  refine spaced_of_pairwise (Nat.zero_le _) (fun i hi => ?_) (List.pairwise_map.mpr h.apart)
  obtain ⟨c, hc, rfl⟩ := List.mem_map.mp hi
  exact ⟨Nat.zero_le _, Nat.le_add_right _ _, h.inside c hc⟩

/-- A region based at 0, with children that are not empty. -/
structure ZeroBased (m : Regions) (r : ℕ) : Prop extends ChildrenPlaced m r where
  base : (m.region r).base = 0
  pos : ∀ c ∈ (m.region r).children, 0 < (m.region c).size.toNat

theorem ZeroBased.ordered {m : Regions} {r : ℕ} (h : ZeroBased m r) : Ordered m r := by
  refine ⟨h.base, fun c hc => ?_, h.apart h.pos⟩
  have hend := (h.within hc (h.pos c hc)).2
  rw [h.base] at hend
  simpa using hend

theorem ZeroBased.placed {m : Regions} {r : ℕ} (h : ZeroBased m r) :
    Placed (m.region r).size.toNat 0 (bounds m (m.region r).children) := by
  refine h.ordered.spaced.placed fun i hi => ?_
  obtain ⟨c, hc, rfl⟩ := List.mem_map.mp hi
  exact Nat.lt_add_of_pos_right (h.pos c hc)

/-- The multiples of `A` where `size` bytes fit between the children. -/
def Regions.places (m : Regions) (r size A : ℕ) : Set ℕ :=
  {a | A ∣ a ∧ a + size ≤ (m.region r).size.toNat ∧ ∀ c ∈ (m.region r).children,
    a + size ≤ (m.region c).base.toNat ∨ (m.region c).base.toNat + (m.region c).size.toNat ≤ a}

theorem places_eq (m : Regions) (r size A : ℕ) : m.places r size A =
    Placement.places (A ∣ ·) (· + size) (m.region r).size.toNat 0
      (bounds m (m.region r).children) := by
  ext a
  simp [Regions.places, Placement.places, bounds]

/-! The holes are the gaps. -/

def Hole.bounds (h : Hole) : ℕ × ℕ := (h.offset.toNat, h.offset.toNat + h.len.toNat)

theorem map_holesFrom {m : Regions} {self : VmRegion} (hbase : self.base = 0) {cs : List ℕ}
    {offset : BitVec 64} (h : Spaced self.size.toNat offset.toNat (Vm.bounds m cs)) :
    (holesFrom m self offset cs).map Hole.bounds =
      gaps self.size.toNat offset.toNat (Vm.bounds m cs) := by
  induction cs generalizing offset with
  | nil =>
    have hle := h.le
    rw [holesFrom, Vm.bounds_nil, gaps, hbase, BitVec.ofNat_eq_ofNat, BitVec.zero_add,
      BitVec.zero_add, BitVec.sub_zero]
    by_cases hgap : offset.toNat < self.size.toNat
    · rw [if_pos (BitVec.lt_def.mpr hgap), if_pos hgap]
      simp only [List.map_cons, List.map_nil, Hole.bounds,
        BitVec.toNat_sub_of_le (BitVec.le_def.mpr hle), Nat.add_sub_of_le hle]
    · rw [if_neg fun h => hgap (BitVec.lt_def.mp h), if_neg hgap, List.map_nil]
  | cons c cs ih =>
    obtain ⟨hlo, -, hrest⟩ := h
    dsimp only at hlo hrest
    have hend := VmRegion.toNat_end (r := m.region c) (hrest.le.trans_lt self.size.isLt)
    rw [← hend] at hrest
    have hrec := ih hrest
    rw [hend] at hrec
    rw [holesFrom, bounds_cons, gaps, hbase, BitVec.ofNat_eq_ofNat, BitVec.zero_add,
      BitVec.sub_zero]
    by_cases hgap : offset.toNat < (m.region c).base.toNat
    · rw [if_pos (BitVec.lt_def.mpr hgap), if_pos hgap]
      simp only [List.map_cons, Hole.bounds, hrec,
        BitVec.toNat_sub_of_le (BitVec.le_def.mpr hlo), Nat.add_sub_of_le hlo]
    · rw [if_neg fun h => hgap (BitVec.lt_def.mp h), if_neg hgap]
      exact hrec

theorem Ordered.map_holes {m : Regions} {r : ℕ} (h : Ordered m r) :
    (holes m (m.region r)).map Hole.bounds =
      gaps (m.region r).size.toNat 0 (Vm.bounds m (m.region r).children) :=
  map_holesFrom h.base h.spaced

theorem Ordered.hole_gap {m : Regions} {r : ℕ} (h : Ordered m r) {hole : Hole}
    (hm : hole ∈ holes m (m.region r)) :
    hole.bounds ∈ gaps (m.region r).size.toNat 0 (Vm.bounds m (m.region r).children) :=
  h.map_holes ▸ List.mem_map_of_mem hm

/-! The fit test, with its sums cut to 64 bits. -/

/-- It passes if there is room, and also if the end of the new region runs over 2^64 and
what is left of it does not pass the end of the hole. -/
theorem fits_iff {size align offset len : BitVec 64}
    (hend : offset.toNat + len.toNat < 2 ^ 64) :
    fits size align offset len = true ↔
      (alignUp offset align).toNat + size.toNat ≤ offset.toNat + len.toNat ∨
      (2 ^ 64 ≤ (alignUp offset align).toNat + size.toNat ∧
        (alignUp offset align).toNat + size.toNat ≤ 2 ^ 64 + (offset.toNat + len.toNat)) := by
  have ha := (alignUp offset align).isLt
  have hs := size.isLt
  simp only [fits, Bool.not_eq_true', decide_eq_false_iff_not, gt_iff_lt, BitVec.lt_def, not_lt,
    BitVec.toNat_add, Nat.mod_eq_of_lt hend]
  omega

section Search

variable {m : Regions} {r k : ℕ} {size align : BitVec 64}

theorem alignUp_le_half (ha : align.toNat = 2 ^ k) (hk : k ≤ 31) {x : BitVec 64}
    (hx : x.toNat < 2 ^ 63) : (alignUp x align).toNat ≤ 2 ^ 63 := by
  have hpow : 2 ^ k ≤ 2 ^ 31 := Nat.pow_le_pow_right (by decide) hk
  exact Words.roundUp_le ha (by omega) (Nat.pow_dvd_pow 2 (show k ≤ 63 by omega)) hx.le

theorem isLeast_alignUp (ha : align.toNat = 2 ^ k) (hk : k ≤ 31) {x : BitVec 64}
    (hx : x.toNat < 2 ^ 63) :
    IsLeast {a | 2 ^ k ∣ a ∧ x.toNat ≤ a} (alignUp x align).toNat := by
  have hpow : 2 ^ k ≤ 2 ^ 31 := Nat.pow_le_pow_right (by decide) hk
  have hsum : x.toNat + (2 ^ k - 1) < 2 ^ 64 := by omega
  obtain ⟨hlo, -, hdvd⟩ := Words.toNat_roundUp ha hsum
  exact ⟨⟨hdvd, hlo⟩, fun n hn => Words.roundUp_le ha hsum hn.1 hn.2⟩

/-- The rounding of the search, on numbers. -/
def roundUp (align : BitVec 64) (x : ℕ) : ℕ := (alignUp (.ofNat 64 x) align).toNat

theorem roundUp_toNat (align x : BitVec 64) :
    roundUp align x.toNat = (alignUp x align).toNat := by
  rw [roundUp, BitVec.ofNat_toNat, BitVec.setWidth_eq]

variable (h : Ordered m r) (hsize : (m.region r).size.toNat < 2 ^ 63)
  (ha : align.toNat = 2 ^ k) (hk : k ≤ 31)

include h hsize in
theorem Ordered.gap_lt {g : ℕ × ℕ}
    (hg : g ∈ gaps (m.region r).size.toNat 0 (Vm.bounds m (m.region r).children)) :
    g.1 < 2 ^ 63 ∧ g.2 < 2 ^ 63 := by
  obtain ⟨-, hlt, hle⟩ := h.spaced.gap_bounds hg
  omega

include h hsize ha hk

theorem Ordered.isLeast_roundUp {g : ℕ × ℕ}
    (hg : g ∈ gaps (m.region r).size.toNat 0 (Vm.bounds m (m.region r).children)) :
    IsLeast {a | 2 ^ k ∣ a ∧ g.1 ≤ a} (roundUp align g.1) := by
  obtain ⟨hlt, -⟩ := h.gap_lt hsize hg
  have hword : (BitVec.ofNat 64 g.1).toNat = g.1 := by
    rw [BitVec.toNat_ofNat, Nat.mod_eq_of_lt (by omega)]
  have hleast := isLeast_alignUp ha hk (x := .ofNat 64 g.1) (by omega)
  rwa [hword] at hleast

/-- A request no larger than the region is tested without a carry. -/
theorem Ordered.firstFit_eq_find (hle : size.toNat ≤ (m.region r).size.toNat) :
    (firstFit m (m.region r) size align).map Hole.bounds =
      (gaps (m.region r).size.toNat 0 (Vm.bounds m (m.region r).children)).find?
        fun g => decide (roundUp align g.1 + size.toNat ≤ g.2) := by
  rw [← h.map_holes, List.find?_map, firstFit]
  refine congrArg _ (List.find?_congr fun hole hm => ?_)
  obtain ⟨hlo, hhi⟩ := h.gap_lt hsize (h.hole_gap hm)
  have hup := alignUp_le_half ha hk (x := hole.offset) hlo
  rw [Bool.eq_iff_iff, fits_iff (hhi.trans (by decide))]
  simp only [Function.comp_apply, Hole.bounds, roundUp_toNat, decide_eq_true_eq]
  omega

variable (hpos : 0 < size.toNat) (hle : size.toNat ≤ (m.region r).size.toNat)

include hpos hle

theorem Ordered.firstFit_some {hole : Hole}
    (hfirst : firstFit m (m.region r) size align = some hole) :
    IsLeast (m.places r size.toNat (2 ^ k)) (alignUp hole.offset align).toNat := by
  have hfind := h.firstFit_eq_find hsize ha hk hle
  rw [hfirst, Option.map_some] at hfind
  rw [places_eq, ← roundUp_toNat]
  exact h.spaced.isLeast_of_find (g := hole.bounds)
    (fun g hg => h.isLeast_roundUp hsize ha hk hg) (fun a b hab => Nat.add_le_add_right hab _)
    (fun a => Nat.lt_add_of_pos_right hpos) hfind.symm

theorem Ordered.firstFit_none (hfirst : firstFit m (m.region r) size align = none) :
    m.places r size.toNat (2 ^ k) = ∅ := by
  have hfind := h.firstFit_eq_find hsize ha hk hle
  rw [hfirst, Option.map_none] at hfind
  rw [places_eq]
  exact h.spaced.places_eq_empty_of_find (fun g hg => h.isLeast_roundUp hsize ha hk hg)
    (fun a b hab => Nat.add_le_add_right hab _) (fun a => Nat.lt_add_of_pos_right hpos) hfind.symm

omit h hsize ha hk hpos hle in
/-- The new region lies between the children before its hole and those after it. -/
theorem ZeroBased.firstFit_room (h : ZeroBased m r) (hsize : (m.region r).size.toNat < 2 ^ 63)
    (ha : align.toNat = 2 ^ k) (hk : k ≤ 31) (hle : size.toNat ≤ (m.region r).size.toNat)
    {hole : Hole} (hfirst : firstFit m (m.region r) size align = some hole) :
    ∃ p q, (m.region r).children = p ++ q ∧ hole.child = q.head? ∧
      Placed (alignUp hole.offset align).toNat 0 (Vm.bounds m p) ∧
      Placed (m.region r).size.toNat ((alignUp hole.offset align).toNat + size.toNat)
        (Vm.bounds m q) := by
  obtain ⟨hfit, p, q, hsplit, hchild, hp, hq, -⟩ := firstFit_split h.base h.placed hfirst
  have hend := hq.le
  have hup := alignUp_le_half ha hk (x := hole.offset) (by omega)
  have hge := (isLeast_alignUp ha hk (x := hole.offset) (by omega)).1.2
  have hroom : (alignUp hole.offset align).toNat + size.toNat ≤
      hole.offset.toNat + hole.len.toNat := by
    rcases (fits_iff (by omega)).mp hfit with hroom | ⟨hwrap, -⟩
    · exact hroom
    · omega
  exact ⟨p, q, hsplit, hchild, hp.mono le_rfl hge, hq.mono hroom le_rfl⟩

end Search

/-! A call that finds a place, or none. -/

section Allocate

variable {m : Regions} {this new : ℕ} {vmr : VmRegion} {p q : List ℕ}

theorem ZeroBased.addChild (h : ZeroBased m this) (hne : new ≠ this)
    (hnew : new ∉ (m.region this).children) (hsplit : (m.region this).children = p ++ q)
    (hpos : 0 < vmr.size.toNat) (hp : Placed vmr.base.toNat 0 (Vm.bounds m p))
    (hq : Placed (m.region this).size.toNat (vmr.base.toNat + vmr.size.toNat) (Vm.bounds m q)) :
    ((m.addChild this q.head? new vmr).region this).children = p ++ new :: q ∧
      ZeroBased (m.addChild this q.head? new vmr) this := by
  have hold := h.placed
  rw [hsplit] at hold hnew
  have hcs := addChild_children new vmr hsplit hold rfl
  have hb := addChild_base_size m this q.head? vmr hne.symm
  have hpn : new ∉ p := fun hm => hnew (List.mem_append_left _ hm)
  have hqn : new ∉ q := fun hm => hnew (List.mem_append_right _ hm)
  have hplaced : Placed (m.region this).size.toNat 0
      (Vm.bounds (m.addChild this q.head? new vmr) (p ++ new :: q)) := by
    rw [bounds_append, bounds_cons, addChild_bounds hpn, addChild_bounds hqn, addChild_new hne,
      placed_append_cons]
    exact ⟨hp, by dsimp only; omega, hq⟩
  refine ⟨hcs, childrenPlaced_of_placed ?_, hb.1.trans h.base, fun c hc => ?_⟩
  · rw [hcs, hb.1, hb.2, h.base]
    simpa using hplaced
  · rw [hcs] at hc
    have hlt := (hplaced.bounds (mem_bounds _ hc)).2.1
    dsimp only at hlt
    omega

/-- What a successful call leaves: the new region among the children, still in order, and
nothing else changed. -/
structure Inserted (m m' : Regions) (this new : ℕ) : Prop where
  children : ∃ p q, (m.region this).children = p ++ q ∧
    m'.region this = { m.region this with children := p ++ new :: q }
  ordered : ZeroBased m' this
  frame : ∀ r, r ≠ this → r ≠ new → m'.region r = m.region r

variable {size : BitVec 64} {alignPow2 : BitVec 8} {flags : VmRegionFlags}

variable (alignPow2) in
/-- The call takes the least multiple of the alignment where the request fits, and fails
only if it fits nowhere. -/
theorem ZeroBased.allocate_places (h : ZeroBased m this)
    (hsize : (m.region this).size.toNat < 2 ^ 63) (hpos : 0 < size.toNat)
    (hpaged : size.toNat % pageSize = 0) (hle : size.toNat ≤ (m.region this).size.toNat)
    (hcap : flags.capability &&& (m.region this).flags.capability = flags.capability)
    (htype : flags.type = typeRegion) (hne : new ≠ this)
    (hnew : new ∉ (m.region this).children) :
    (m.places this size.toNat (2 ^ max (alignPow2.toNat % 32) 12) = ∅ ∧
      ∀ alloc, allocateVmrCompact m this size alignPow2 flags alloc =
        some (.error .allocationFailed, m)) ∨
    ∃ m', allocateVmrCompact m this size alignPow2 flags (some new) = some (.ok new, m') ∧
      IsLeast (m.places this size.toNat (2 ^ max (alignPow2.toNat % 32) 12))
        (m'.region new).base.toNat ∧
      (m'.region new).size = size ∧ Inserted m m' this new := by
  have ha := effectiveAlign_toNat_mod alignPow2
  have hk : max (alignPow2.toNat % 32) 12 ≤ 31 := by omega
  cases hfirst : firstFit m (m.region this) size (effectiveAlign alignPow2) with
  | none =>
    refine Or.inl ⟨h.ordered.firstFit_none hsize ha hk hpos hle hfirst, fun alloc => ?_⟩
    rw [allocateVmrCompact_eq hcap htype hpaged, hfirst]
  | some hole =>
    obtain ⟨p, q, hsplit, hchild, hp, hq⟩ := h.firstFit_room hsize ha hk hle hfirst
    let vmr : VmRegion :=
      { base := alignUp hole.offset (effectiveAlign alignPow2), size, flags := newFlags flags
        parent := some this, aspace := (m.region this).aspace, children := [] }
    obtain ⟨hcs, hordered⟩ := h.addChild hne hnew hsplit (show 0 < vmr.size.toNat from hpos) hp hq
    have hrun := allocateVmrCompact_eq hcap htype hpaged alignPow2 (some new)
    rw [hfirst] at hrun
    dsimp only at hrun
    rw [hchild] at hrun
    refine Or.inr ⟨_, hrun, ?_, ?_, ⟨⟨p, q, hsplit, ?_⟩, hordered, fun r hr hrn =>
      addChild_of_ne hr hrn⟩⟩
    · rw [addChild_new hne]
      exact h.ordered.firstFit_some hsize ha hk hpos hle hfirst
    · rw [addChild_new hne]
    · rw [← hcs]
      simp [Regions.addChild]

end Allocate

/-- Where the call may put its region, with the alignment it asks for. -/
def Call.places (m : Regions) (c : Call) : Set ℕ :=
  m.places c.this c.size.toNat (max (2 ^ c.alignPow2.toNat) pageSize)

theorem max_two_pow (k : ℕ) : max (2 ^ k) pageSize = 2 ^ max k 12 := by
  rcases le_total k 12 with hk | hk
  · rw [max_eq_right hk]
    exact max_eq_right (Nat.pow_le_pow_right (show 2 > 0 by decide) hk)
  · rw [max_eq_left hk]
    exact max_eq_left (Nat.pow_le_pow_right (show 2 > 0 by decide) hk)

variable {m m' : Regions} {c : Call} {new : ℕ}

/-- First fit is exact: it places the region at the least address there is, and fails only
where there is none. -/
theorem first_fit_exact (h : ZeroBased m c.this) (hsize : (m.region c.this).size.toNat < 2 ^ 62)
    (hpos : 0 < c.size.toNat) (hpaged : c.size.toNat % pageSize = 0)
    (hle : c.size.toNat ≤ (m.region c.this).size.toNat) (halign : c.alignPow2.toNat ≤ 31)
    (hcap : c.flags.capability &&& (m.region c.this).flags.capability = c.flags.capability)
    (htype : c.flags.type = typeRegion) (halloc : c.alloc = some new) (hne : new ≠ c.this)
    (hnew : new ∉ (m.region c.this).children) :
    ((c.places m).Nonempty → ∃ m', c.result m = some (.ok new, m') ∧
      IsLeast (c.places m) (m'.region new).base.toNat ∧ (m'.region new).size = c.size ∧
      Inserted m m' c.this new) ∧
    (¬ (c.places m).Nonempty → c.result m = some (.error .allocationFailed, m)) := by
  have hcall := h.allocate_places c.alignPow2 (hsize.trans (by decide)) hpos hpaged hle hcap htype
    hne hnew
  rw [Nat.mod_eq_of_lt (by omega), ← max_two_pow] at hcall
  rw [Call.result, halloc]
  rcases hcall with ⟨hempty, hfail⟩ | ⟨m', hrun, hleast, hrest⟩
  · rw [Call.places, hempty]
    exact ⟨fun hn => absurd hn Set.not_nonempty_empty, fun _ => hfail _⟩
  · exact ⟨fun _ => ⟨m', hrun, hleast, hrest⟩, fun hn => absurd ⟨_, hleast.1⟩ hn⟩

theorem zeroBased_userRoot₁ : ZeroBased userRoot₁ 0 := by
  refine ⟨childrenPlaced_userRoot₁, rfl, fun c hc => ?_⟩
  obtain rfl := List.mem_singleton.mp hc
  decide

/-- Two pages at a multiple of two pages, behind a child of one page. -/
def twoPages : Call := ⟨0, 8192, 13, 0, some 2⟩

theorem first_fit_exact_twoPages :
    ((twoPages.places userRoot₁).Nonempty → ∃ m', twoPages.result userRoot₁ = some (.ok 2, m') ∧
      IsLeast (twoPages.places userRoot₁) (m'.region 2).base.toNat ∧
      (m'.region 2).size = twoPages.size ∧ Inserted userRoot₁ m' 0 2) ∧
    (¬ (twoPages.places userRoot₁).Nonempty →
      twoPages.result userRoot₁ = some (.error .allocationFailed, userRoot₁)) :=
  first_fit_exact zeroBased_userRoot₁ (by decide) (by decide) (by decide) (by decide) (by decide)
    (by decide) (by decide) rfl (by decide) (by decide)

end CxKernel.Vm
