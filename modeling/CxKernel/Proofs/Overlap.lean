import CxKernel.Proofs.VmRegion
import Mathlib.Data.List.Find

/-! When the overlap query is right. It looks only at the first child that starts at or
above the range, so it misses one that reaches into the range from below, and counts one that
begins right behind it. -/

namespace CxKernel.Vm

variable {m : Regions} {r : ℕ} {offset size : BitVec 64}

/-- The first address of the queried range, and the one past its last. -/
def rangeLo (m : Regions) (r : ℕ) (offset : BitVec 64) : ℕ := (m.region r).base.toNat + offset.toNat

def rangeHi (m : Regions) (r : ℕ) (offset size : BitVec 64) : ℕ := rangeLo m r offset + size.toNat

/-- The query says yes exactly if some child shares an address with the range. -/
def OverlapExact (m : Regions) (r : ℕ) (offset size : BitVec 64) : Prop :=
  doesOverlapChild m (m.region r) offset size = true ↔ ∃ c ∈ (m.region r).children,
    ((m.region c).interval ∩ Set.Ico (rangeLo m r offset) (rangeHi m r offset size)).Nonempty

/-- A child begins in the range. -/
def StartsIn (m : Regions) (r : ℕ) (offset size : BitVec 64) : Prop :=
  ∃ c ∈ (m.region r).children, rangeLo m r offset ≤ (m.region c).base.toNat ∧
    (m.region c).base.toNat < rangeHi m r offset size

/-- A child begins right behind the range. -/
def StartsBehind (m : Regions) (r : ℕ) (offset size : BitVec 64) : Prop :=
  ∃ c ∈ (m.region r).children, (m.region c).base.toNat = rangeHi m r offset size

/-- A child that begins below the range goes on into it. -/
def ReachesIn (m : Regions) (r : ℕ) (offset : BitVec 64) : Prop :=
  ∃ c ∈ (m.region r).children, (m.region c).base.toNat < rangeLo m r offset ∧
    rangeLo m r offset < (m.region c).base.toNat + (m.region c).size.toNat

theorem shares_iff {c : ℕ} (hpos : 0 < (m.region c).size.toNat) (hsize : 0 < size.toNat) :
    ((m.region c).interval ∩ Set.Ico (rangeLo m r offset) (rangeHi m r offset size)).Nonempty ↔
      (m.region c).base.toNat < rangeHi m r offset size ∧
        rangeLo m r offset < (m.region c).base.toNat + (m.region c).size.toNat := by
  rw [VmRegion.interval, Set.Ico_inter_Ico, Set.nonempty_Ico, sup_lt_iff, lt_inf_iff, lt_inf_iff, rangeHi]
  omega

/-! The child the query looks at. -/

theorem findChildAbove_eq_none_iff : findChildAbove m (m.region r) offset = none ↔
    ∀ c ∈ (m.region r).children, (m.region c).base < (m.region r).base + offset := by
  simp only [findChildAbove, List.find?_eq_none, decide_eq_true_eq, ge_iff_le, BitVec.not_le]

/-- It is the lowest one that starts at `offset` or above. -/
theorem ChildrenPlaced.findChildAbove_eq_some (h : ChildrenPlaced m r) {c : ℕ}
    (hfind : findChildAbove m (m.region r) offset = some c) :
    c ∈ (m.region r).children ∧ (m.region r).base + offset ≤ (m.region c).base ∧
      ∀ d ∈ (m.region r).children, (m.region r).base + offset ≤ (m.region d).base →
        (m.region c).base ≤ (m.region d).base := by
  obtain ⟨hge, before, after, hsplit, hbefore⟩ := List.find?_eq_some_iff_append.mp hfind
  refine ⟨List.mem_of_find?_eq_some hfind, of_decide_eq_true hge, fun d hd hdge => ?_⟩
  have hsorted := h.sorted
  rw [hsplit] at hd hsorted
  rcases List.mem_append.mp hd with hd | hd
  · have hno := hbefore d hd
    rw [Bool.not_eq_true', decide_eq_false_iff_not] at hno
    exact absurd hdge hno
  · rcases List.mem_cons.mp hd with rfl | hd
    · exact BitVec.le_refl _
    · exact BitVec.le_of_lt
        ((List.pairwise_cons.mp (List.pairwise_append.mp hsorted).2.1).1 d hd)

section Query

variable (h : ChildrenPlaced m r) (hpos : ∀ c ∈ (m.region r).children, 0 < (m.region c).size.toNat)
  (hle : offset.toNat + size.toNat ≤ (m.region r).size.toNat)

include h hpos hle

/-- What the query computes: where the range ends below 2^64, some child begins in it or
right behind it. -/
theorem ChildrenPlaced.doesOverlapChild_iff :
    doesOverlapChild m (m.region r) offset size = true ↔ rangeHi m r offset size < 2 ^ 64 ∧
      ∃ c ∈ (m.region r).children, rangeLo m r offset ≤ (m.region c).base.toNat ∧
        (m.region c).base.toNat ≤ rangeHi m r offset size := by
  have hbase := (m.region r).base.isLt
  have hsize := (m.region r).size.isLt
  unfold doesOverlapChild
  by_cases hwrap : rangeHi m r offset size < 2 ^ 64
  · have hlo : ((m.region r).base + offset).toNat = rangeLo m r offset := by
      unfold rangeHi rangeLo at hwrap
      rw [BitVec.toNat_add, Nat.mod_eq_of_lt (by omega)]
      rfl
    have hhi : ((m.region r).base + offset + size).toNat = rangeHi m r offset size := by
      rw [BitVec.toNat_add, hlo]
      exact Nat.mod_eq_of_lt hwrap
    cases hfind : findChildAbove m (m.region r) offset with
    | none =>
      refine iff_of_false nofun ?_
      rintro ⟨-, c, hc, hge, -⟩
      have hlt := findChildAbove_eq_none_iff.mp hfind c hc
      rw [BitVec.lt_def, hlo] at hlt
      exact absurd hge (Nat.not_le.mpr hlt)
    | some c =>
      obtain ⟨hc, hge, hlowest⟩ := h.findChildAbove_eq_some hfind
      dsimp only
      rw [decide_eq_true_eq, BitVec.le_def, hhi]
      refine ⟨fun hend => ⟨hwrap, c, hc, ?_, hend⟩, ?_⟩
      · rwa [BitVec.le_def, hlo] at hge
      · rintro ⟨-, d, hd, hdge, hdend⟩
        have hfirst := hlowest d hd (by rwa [BitVec.le_def, hlo])
        exact (BitVec.le_def.mp hfirst).trans hdend
  · refine iff_of_false (fun hyes => ?_) fun hand => hwrap hand.1
    -- the end of the range has wrapped around to below the region
    have hhi : ((m.region r).base + offset + size).toNat < (m.region r).base.toNat := by
      unfold rangeHi rangeLo at hwrap
      bv_omega
    cases hfind : findChildAbove m (m.region r) offset with
    | none =>
      rw [hfind] at hyes
      cases hyes
    | some c =>
      rw [hfind] at hyes
      dsimp only at hyes
      rw [decide_eq_true_eq, BitVec.le_def] at hyes
      have hc := (h.findChildAbove_eq_some hfind).1
      have hge := (h.within hc (hpos c hc)).1
      omega

end Query

/-- A child shares an address with the range if it begins in it, or goes on into it. -/
theorem exists_shares_iff (hpos : ∀ c ∈ (m.region r).children, 0 < (m.region c).size.toNat)
    (hsize : 0 < size.toNat) : (∃ c ∈ (m.region r).children, ((m.region c).interval ∩
      Set.Ico (rangeLo m r offset) (rangeHi m r offset size)).Nonempty) ↔
      StartsIn m r offset size ∨ ReachesIn m r offset := by
  refine ⟨?_, fun hor => ?_⟩
  · rintro ⟨c, hc, hshare⟩
    obtain ⟨hlt, hend⟩ := (shares_iff (hpos c hc) hsize).mp hshare
    rcases Nat.lt_or_ge (m.region c).base.toNat (rangeLo m r offset) with hbelow | hge
    · exact Or.inr ⟨c, hc, hbelow, hend⟩
    · exact Or.inl ⟨c, hc, hge, hlt⟩
  · rcases hor with ⟨c, hc, hge, hlt⟩ | ⟨c, hc, hbelow, hend⟩
    · have hc' := hpos c hc
      exact ⟨c, hc, (shares_iff hc' hsize).mpr ⟨hlt, by omega⟩⟩
    · refine ⟨c, hc, (shares_iff (hpos c hc) hsize).mpr ⟨?_, hend⟩⟩
      unfold rangeHi
      omega

theorem StartsBehind.lt (h : StartsBehind m r offset size) : rangeHi m r offset size < 2 ^ 64 := by
  obtain ⟨c, -, heq⟩ := h
  exact heq ▸ (m.region c).base.isLt

/-- The query is exact if a child begins in a range that ends below 2^64, or else if none
begins in the range and its two mistakes are both made or both not. -/
theorem overlap_exact_iff (h : ChildrenPlaced m r)
    (hpos : ∀ c ∈ (m.region r).children, 0 < (m.region c).size.toNat) (hsize : 0 < size.toNat)
    (hle : offset.toNat + size.toNat ≤ (m.region r).size.toNat) :
    OverlapExact m r offset size ↔
      (StartsIn m r offset size ∧ rangeHi m r offset size < 2 ^ 64) ∨
      (¬ StartsIn m r offset size ∧ (StartsBehind m r offset size ↔ ReachesIn m r offset)) := by
  have hyes : (rangeHi m r offset size < 2 ^ 64 ∧ ∃ c ∈ (m.region r).children,
      rangeLo m r offset ≤ (m.region c).base.toNat ∧
        (m.region c).base.toNat ≤ rangeHi m r offset size) ↔
      (StartsIn m r offset size ∧ rangeHi m r offset size < 2 ^ 64) ∨
        StartsBehind m r offset size := by
    refine ⟨?_, fun hor => ?_⟩
    · rintro ⟨hwrap, c, hc, hge, hend⟩
      rcases Nat.lt_or_eq_of_le hend with hlt | heq
      · exact Or.inl ⟨⟨c, hc, hge, hlt⟩, hwrap⟩
      · exact Or.inr ⟨c, hc, heq⟩
    · rcases hor with ⟨⟨c, hc, hge, hlt⟩, hwrap⟩ | hbehind
      · exact ⟨hwrap, c, hc, hge, hlt.le⟩
      · have hwrap := hbehind.lt
        obtain ⟨c, hc, heq⟩ := hbehind
        refine ⟨hwrap, c, hc, ?_, heq.le⟩
        rw [heq]
        exact Nat.le_add_right _ _
  have hbehind : StartsBehind m r offset size → rangeHi m r offset size < 2 ^ 64 := StartsBehind.lt
  rw [OverlapExact, h.doesOverlapChild_iff hpos hle, exists_shares_iff hpos hsize, hyes]
  by_cases hin : StartsIn m r offset size
  · simp only [hin, true_and, true_or, iff_true, not_true_eq_false, false_and, or_false]
    exact or_iff_left_of_imp hbehind
  · simp only [hin, false_and, false_or, not_false_eq_true, true_and]

/-! A root of six pages, its first page taken. -/

theorem overlap_exact_iff_page :
    OverlapExact userRoot₁ 0 0 4096 ↔
      (StartsIn userRoot₁ 0 0 4096 ∧ rangeHi userRoot₁ 0 0 4096 < 2 ^ 64) ∨
      (¬ StartsIn userRoot₁ 0 0 4096 ∧
        (StartsBehind userRoot₁ 0 0 4096 ↔ ReachesIn userRoot₁ 0 0)) :=
  overlap_exact_iff childrenPlaced_userRoot₁ (by decide) (by decide) (by decide)

/-- Half of the range is in the page that is taken, but the query looks above it only. -/
theorem overlap_missed : doesOverlapChild userRoot₁ (userRoot₁.region 0) 2048 4096 = false ∧
    ¬ OverlapExact userRoot₁ 0 2048 4096 := by
  refine ⟨by decide, fun hexact => ?_⟩
  have hyes := hexact.mpr ⟨1, by decide, 2048, ⟨by decide, by decide⟩, by decide, by decide⟩
  exact absurd hyes (by decide)

end CxKernel.Vm
