import CxKernel.Proofs.FirstFit

/-! The hole walk against the gaps between the children, in a region based anywhere. The
first hole is an offset into the region; behind the first child the walk goes on with
addresses, so in a region based above 0 no hole found there is a gap. -/

namespace CxKernel.Vm

open Placement

/-- The holes a callback that always continues is given. -/
def reported (m : Regions) (r : ℕ) : List Hole :=
  foreachHole m (m.region r) (fun x offset len acc => (acc ++ [⟨x, offset, len⟩], true)) []

theorem reported_eq (m : Regions) (r : ℕ) : reported m r = holes m (m.region r) :=
  foreachHoleFrom_collect m (m.region r) 0 (m.region r).children []

/-- The addresses of a hole, its offset taken from `base`. -/
def Hole.range (base : ℕ) (h : Hole) : ℕ × ℕ :=
  (base + h.offset.toNat, base + h.offset.toNat + h.len.toNat)

/-- Based above 0, a hole does not begin where the walk has got to. -/
theorem Hole.range_ne {base o e : ℕ} (hbase : 0 < base) {h : Hole} (ho : o ≤ h.offset.toNat) :
    h.range base ≠ (o, e) := by
  intro he
  have hstart : base + h.offset.toNat = o := congrArg Prod.fst he
  omega

def VmRegion.limit (r : VmRegion) : ℕ := r.base.toNat + r.size.toNat

/-- The address ranges of the holes of a region. -/
def ranges (m : Regions) (r : ℕ) : List (ℕ × ℕ) :=
  (reported m r).map (Hole.range (m.region r).base.toNat)

/-- The holes are the gaps between the children, in order, each with the child behind it. -/
structure HolesExact (m : Regions) (r : ℕ) : Prop where
  ascending : (ranges m r).Pairwise fun g g' => g.2 ≤ g'.1
  gaps : ∀ g, g ∈ ranges m r ↔
    IsGap (m.region r).limit (m.region r).base.toNat (bounds m (m.region r).children) g
  partition : ∀ a, a ∈ (m.region r).interval ↔
    (∃ g ∈ ranges m r, a ∈ Set.Ico g.1 g.2) ∨
      ∃ c ∈ (m.region r).children, a ∈ (m.region c).interval
  followed : ∀ h ∈ reported m r, h.child = (m.region r).children.find? fun c =>
    decide ((h.range (m.region r).base.toNat).2 ≤ (m.region c).base.toNat)

/-- When the holes are the gaps: the region is based at 0, or has no children, or these leave
no gap from the first one on and no sum of the walk runs over. -/
def HolesSound (m : Regions) (r : ℕ) : Prop :=
  (m.region r).base = 0 ∨ (m.region r).children = [] ∨
    (m.region r).base.toNat + (m.region r).limit < 2 ^ 64 ∧
      ∀ c ∈ (m.region r).children.head?, ∀ a, (m.region c).limit ≤ a → a < (m.region r).limit →
        ∃ d ∈ (m.region r).children, a ∈ (m.region d).interval

/-- Children in place are spaced, wherever the region is based. -/
theorem ChildrenPlaced.spaced {m : Regions} {r : ℕ} (h : ChildrenPlaced m r)
    (hpos : ∀ c ∈ (m.region r).children, 0 < (m.region c).size.toNat) :
    Spaced (m.region r).limit (m.region r).base.toNat (bounds m (m.region r).children) := by
  refine spaced_of_pairwise (Nat.le_add_right _ _) (fun i hi => ?_)
    (List.pairwise_map.mpr (h.apart hpos))
  obtain ⟨c, hc, rfl⟩ := List.mem_map.mp hi
  obtain ⟨hlo, hhi⟩ := h.within hc (hpos c hc)
  exact ⟨hlo, Nat.le_add_right _ _, hhi⟩

section Walk

variable {m : Regions} {self : VmRegion} {o : BitVec 64} {c : ℕ} {cs : List ℕ}

/-- The walk goes on from where the child ends. -/
theorem spaced_tail {hi : ℕ} (hhi : hi < 2 ^ 64) (h : Spaced hi o.toNat (bounds m (c :: cs))) :
    ((m.region c).base + (m.region c).size).toNat = (m.region c).limit ∧
      Spaced hi ((m.region c).base + (m.region c).size).toNat (bounds m cs) := by
  obtain ⟨-, -, hrest⟩ := h
  have hend : ((m.region c).base + (m.region c).size).toNat = (m.region c).limit :=
    VmRegion.toNat_end (lt_of_le_of_lt hrest.le hhi)
  exact ⟨hend, by rw [hend]; exact hrest⟩

theorem mem_gaps_bounds {hi lo : ℕ} {g : ℕ × ℕ} : g ∈ gaps hi lo (bounds m (c :: cs)) ↔
    (lo < (m.region c).base.toNat ∧ g = (lo, (m.region c).base.toNat)) ∨
      g ∈ gaps hi (m.region c).limit (bounds m cs) := mem_gaps_cons

theorem holesFrom_tail_subset : ∀ h ∈ holesFrom m self ((m.region c).base + (m.region c).size) cs,
    h ∈ holesFrom m self o (c :: cs) := by
  intro h hm
  rw [holesFrom]
  split_ifs
  · exact List.mem_cons_of_mem _ hm
  · exact hm

theorem le_offset {hi : ℕ} (hhi : hi < 2 ^ 64) (hs : Spaced hi o.toNat (bounds m cs)) :
    ∀ h ∈ holesFrom m self o cs, o.toNat ≤ h.offset.toNat := by
  induction cs generalizing o with
  | nil =>
    intro h hm
    rw [holesFrom] at hm
    split_ifs at hm
    · rw [List.mem_singleton.mp hm]
    · cases hm
  | cons c cs ih =>
    intro h hm
    obtain ⟨hend, htail⟩ := spaced_tail hhi hs
    have hle : o.toNat ≤ (m.region c).limit := hs.1.trans (Nat.le_add_right _ _)
    rw [holesFrom] at hm
    split_ifs at hm
    · rcases List.mem_cons.mp hm with rfl | hm
      · exact le_rfl
      · exact hle.trans (hend ▸ ih htail h hm)
    · exact hle.trans (hend ▸ ih htail h hm)

variable (hlimit : self.limit < 2 ^ 64)

include hlimit

/-- Based above 0, the walk from an address on reports gaps only if it reports nothing. -/
theorem holesFrom_eq_nil (hbase : 0 < self.base.toNat)
    (hs : Spaced self.limit o.toNat (bounds m cs))
    (hgaps : ∀ h ∈ holesFrom m self o cs,
      h.range self.base.toNat ∈ gaps self.limit o.toNat (bounds m cs)) :
    holesFrom m self o cs = [] := by
  induction cs generalizing o with
  | nil =>
    rw [holesFrom] at hgaps ⊢
    split_ifs at hgaps ⊢ with hgap
    · have hmem := hgaps _ (List.mem_singleton_self _)
      rw [bounds_nil, gaps] at hmem
      split_ifs at hmem
      · exact absurd (List.mem_singleton.mp hmem) (Hole.range_ne hbase le_rfl)
      · cases hmem
    · rfl
  | cons c cs ih =>
    obtain ⟨hend, htail⟩ := spaced_tail hlimit hs
    have hlo : o.toNat ≤ (m.region c).base.toNat := hs.1
    have hle : (m.region c).base.toNat ≤ (m.region c).limit := Nat.le_add_right _ _
    have hrec : holesFrom m self ((m.region c).base + (m.region c).size) cs = [] := by
      refine ih htail fun h hm => ?_
      have hoff := le_offset hlimit htail h hm
      rcases mem_gaps_bounds.mp (hgaps h (holesFrom_tail_subset h hm)) with ⟨-, he⟩ | hmem
      · exact absurd he (Hole.range_ne hbase (by omega))
      · rwa [hend]
    rw [holesFrom, hrec] at hgaps ⊢
    split_ifs at hgaps ⊢ with hgap
    · -- the hole in front of `c` starts behind the gap there, and ends before any later one
      have hmem := hgaps _ (List.mem_singleton_self _)
      have hlt := (hs.gap_bounds hmem).2
      rw [gt_iff_lt, BitVec.lt_def, BitVec.toNat_add] at hgap
      rcases mem_gaps_bounds.mp hmem with ⟨-, he⟩ | hmem
      · exact absurd he (Hole.range_ne hbase le_rfl)
      · have hstart := (htail.gap_bounds (hend ▸ hmem)).1
        simp only [Hole.range] at hlt hstart
        omega
    · rfl

/-- The holes and the gaps of a region, as far as they lie behind its first child. -/
theorem holes_behind_eq_nil (hbase : 0 < self.base.toNat) (hpos : 0 < (m.region c).size.toNat)
    (hs : Spaced self.limit self.base.toNat (bounds m (c :: cs)))
    (hmem : ∀ g, g ∈ (holesFrom m self 0 (c :: cs)).map (Hole.range self.base.toNat) ↔
      g ∈ gaps self.limit self.base.toNat (bounds m (c :: cs))) :
    holesFrom m self ((m.region c).base + (m.region c).size) cs = [] ∧
      gaps self.limit (m.region c).limit (bounds m cs) = [] := by
  have hlo : self.base.toNat ≤ (m.region c).base.toNat := hs.1
  have hlt : (m.region c).base.toNat < (m.region c).limit := Nat.lt_add_of_pos_right hpos
  obtain ⟨hend, htail⟩ := spaced_tail hlimit hs
  have hnone : holesFrom m self ((m.region c).base + (m.region c).size) cs = [] := by
    refine holesFrom_eq_nil hlimit hbase htail fun hole hm => ?_
    have hoff := le_offset hlimit htail hole hm
    have hgap := (hmem _).mp (List.mem_map_of_mem (holesFrom_tail_subset hole hm))
    rcases mem_gaps_bounds.mp hgap with ⟨-, he⟩ | hgap
    · exact absurd he (Hole.range_ne hbase (by omega))
    · rwa [hend]
  refine ⟨hnone, List.eq_nil_iff_forall_not_mem.mpr fun g hg => ?_⟩
  -- the only hole left is the one in front of `c`
  obtain ⟨hole, hm, rfl⟩ := List.mem_map.mp ((hmem g).mpr (mem_gaps_bounds.mpr (Or.inr hg)))
  have hstart := (htail.gap_bounds (hend ▸ hg)).1
  rw [holesFrom, hnone] at hm
  split_ifs at hm
  · rw [List.mem_singleton] at hm
    subst hm
    simp only [Hole.range, BitVec.toNat_zero, BitVec.ofNat_eq_ofNat] at hstart
    omega
  · cases hm

omit hlimit in
theorem gaps_behind_eq_nil_iff (hs : Spaced self.limit (m.region c).limit (bounds m cs)) :
    gaps self.limit (m.region c).limit (bounds m cs) = [] ↔
      ∀ a, (m.region c).limit ≤ a → a < self.limit → ∃ d ∈ c :: cs, a ∈ (m.region d).interval := by
  rw [hs.gaps_eq_nil_iff]
  constructor
  · intro hcover a hge hlt
    obtain ⟨i, hi, hai⟩ := hcover a ⟨hge, hlt⟩
    obtain ⟨d, hd, rfl⟩ := List.mem_map.mp hi
    exact ⟨d, List.mem_cons_of_mem _ hd, hai⟩
  · intro hfill a ha
    obtain ⟨d, hd, had⟩ := hfill a ha.1 ha.2
    rcases List.mem_cons.mp hd with rfl | hd
    · exact absurd had.2 (not_lt.mpr ha.1)
    · exact ⟨_, mem_bounds m hd, had⟩

/-- Where there is no gap ahead, nothing is reported unless the sums run over. -/
theorem holesFrom_eq_nil_iff (hs : Spaced self.limit o.toNat (bounds m cs))
    (hnone : gaps self.limit o.toNat (bounds m cs) = []) :
    holesFrom m self o cs = [] ↔ self.base.toNat + self.limit < 2 ^ 64 := by
  have hb := self.base.isLt
  have hlimit' : (self.base + self.size).toNat = self.limit := VmRegion.toNat_end hlimit
  induction cs generalizing o with
  | nil =>
    have hle := hs.le
    rw [bounds_nil, gaps] at hnone
    have hge : ¬ o.toNat < self.limit := fun hlt => by simp [hlt] at hnone
    rw [holesFrom]
    split_ifs with hgap
    all_goals rw [gt_iff_lt, BitVec.lt_def, hlimit', BitVec.toNat_add] at hgap
    · simp only [false_iff]
      omega
    · simp only [true_iff]
      omega
  | cons c cs ih =>
    obtain ⟨hend, htail⟩ := spaced_tail hlimit hs
    have hle := hs.le
    rw [bounds_cons, gaps] at hnone
    have hge : ¬ o.toNat < (m.region c).base.toNat := fun hlt => by simp [hlt] at hnone
    have hlo : o.toNat ≤ (m.region c).base.toNat := hs.1
    rw [if_neg hge] at hnone
    have hrec := ih htail (by rw [hend]; exact hnone)
    rw [holesFrom]
    split_ifs with hgap
    · rw [gt_iff_lt, BitVec.lt_def, BitVec.toNat_add] at hgap
      simp only [false_iff]
      omega
    · exact hrec

end Walk

section Exact

variable {m : Regions} {r : ℕ}

/-- It is enough to find the gaps as a list, and the child behind each. -/
theorem holesExact_of_ranges
    (hs : Spaced (m.region r).limit (m.region r).base.toNat (bounds m (m.region r).children))
    (hranges : ranges m r =
      gaps (m.region r).limit (m.region r).base.toNat (bounds m (m.region r).children))
    (hfollowed : ∀ h ∈ reported m r, h.child = (m.region r).children.find? fun c =>
      decide ((h.range (m.region r).base.toNat).2 ≤ (m.region c).base.toNat)) :
    HolesExact m r := by
  refine ⟨?_, fun g => ?_, fun a => ?_, hfollowed⟩
  · rw [hranges]
    exact hs.pairwise_gaps
  · rw [hranges]
    exact hs.mem_gaps_iff
  · rw [hranges]
    refine hs.mem_Ico_iff.trans (or_congr_right ?_)
    simp [bounds, VmRegion.interval]

/-- Between children before a hole and children behind it, the first behind is found. -/
theorem find?_split {p q : List ℕ} {lo e hi : ℕ} (hp : Placed lo 0 (bounds m p)) (hle : lo ≤ e)
    (hq : Placed hi e (bounds m q)) :
    (p ++ q).find? (fun c => decide (e ≤ (m.region c).base.toNat)) = q.head? := by
  have hbefore : p.find? (fun c => decide (e ≤ (m.region c).base.toNat)) = none := by
    refine List.find?_eq_none.mpr fun c hc => ?_
    have hb := hp.bounds (mem_bounds m hc)
    dsimp only at hb
    rw [decide_eq_true_eq]
    omega
  rw [List.find?_append, hbefore, Option.none_or]
  cases q with
  | nil => rfl
  | cons d q => rw [List.find?_cons, decide_eq_true hq.1, List.head?_cons]

theorem holesExact_of_base_zero (h : ChildrenPlaced m r)
    (hpos : ∀ c ∈ (m.region r).children, 0 < (m.region c).size.toNat)
    (hbase : (m.region r).base = 0) : HolesExact m r := by
  have hz : ZeroBased m r := { h with base := hbase, pos := hpos }
  have hb : (m.region r).base.toNat = 0 := by rw [hbase]; rfl
  have hlimit : (m.region r).limit = (m.region r).size.toNat := by
    rw [VmRegion.limit, hb, Nat.zero_add]
  have hrange : Hole.range 0 = Hole.bounds := by
    funext hole
    simp [Hole.range, Hole.bounds]
  refine holesExact_of_ranges (h.spaced hpos) ?_ fun hole hm => ?_
  · rw [ranges, reported_eq, hb, hrange, hlimit]
    exact hz.ordered.map_holes
  · rw [reported_eq] at hm
    obtain ⟨p, q, hsplit, hchild, hp, hq, -⟩ := holesFrom_zero hbase [] (by simp)
      (by simpa using hz.placed) (fun hne => absurd rfl hne) hole hm
    rw [List.nil_append] at hsplit
    rw [hb, hrange, hsplit, hchild]
    exact (find?_split hp (Nat.le_add_right _ _) hq).symm

/-- A walk that can only report what lies in front of `a`. -/
theorem holesExact_of_single
    (hs : Spaced (m.region r).limit (m.region r).base.toNat (bounds m (m.region r).children))
    {a : BitVec 64} (child : Option ℕ) (hle : (m.region r).base.toNat ≤ a.toNat)
    (hreported : reported m r =
      if a > (m.region r).base then [⟨child, 0, a - (m.region r).base⟩] else [])
    (hgaps : gaps (m.region r).limit (m.region r).base.toNat (bounds m (m.region r).children) =
      if (m.region r).base.toNat < a.toNat then [((m.region r).base.toNat, a.toNat)] else [])
    (hchild : child = (m.region r).children.find? fun c =>
      decide (a.toNat ≤ (m.region c).base.toNat)) :
    HolesExact m r := by
  have hend : (m.region r).base.toNat + (a - (m.region r).base).toNat = a.toNat := by
    rw [BitVec.toNat_sub_of_le (BitVec.le_def.mpr hle), Nat.add_sub_of_le hle]
  have hrange : Hole.range (m.region r).base.toNat ⟨child, 0, a - (m.region r).base⟩ =
      ((m.region r).base.toNat, a.toNat) := Prod.ext rfl hend
  refine holesExact_of_ranges hs ?_ fun hole hm => ?_
  · rw [ranges, hreported, hgaps]
    by_cases hgap : (m.region r).base.toNat < a.toNat
    · rw [if_pos (BitVec.lt_def.mpr hgap), if_pos hgap, List.map_singleton, hrange]
    · rw [if_neg fun hlt => hgap (BitVec.lt_def.mp hlt), if_neg hgap, List.map_nil]
  · rw [hreported] at hm
    split_ifs at hm
    · rw [List.mem_singleton] at hm
      subst hm
      rw [hrange]
      exact hchild
    · cases hm

/-- The walk that stops behind the first child. -/
theorem holesExact_of_head
    (hs : Spaced (m.region r).limit (m.region r).base.toNat (bounds m (m.region r).children))
    {c : ℕ} {cs : List ℕ} (hcs : (m.region r).children = c :: cs)
    (hgaps : gaps (m.region r).limit (m.region c).limit (bounds m cs) = [])
    (htail : holesFrom m (m.region r) ((m.region c).base + (m.region c).size) cs = []) :
    HolesExact m r := by
  have hle : (m.region r).base.toNat ≤ (m.region c).base.toNat := by
    rw [hcs] at hs
    exact hs.1
  refine holesExact_of_single hs (some c) hle ?_ ?_ ?_
  · rw [reported_eq, holes, hcs, holesFrom, htail, BitVec.ofNat_eq_ofNat, BitVec.add_zero,
      BitVec.sub_zero]
  · rw [hcs, bounds_cons, gaps]
    dsimp only
    rw [← VmRegion.limit, hgaps]
  · rw [hcs, List.find?_cons, decide_eq_true le_rfl]

theorem holesExact_of_nil (hlimit : (m.region r).limit < 2 ^ 64)
    (hs : Spaced (m.region r).limit (m.region r).base.toNat (bounds m (m.region r).children))
    (hcs : (m.region r).children = []) : HolesExact m r := by
  have hend : ((m.region r).base + (m.region r).size).toNat = (m.region r).limit :=
    VmRegion.toNat_end hlimit
  have hle : (m.region r).base.toNat ≤ ((m.region r).base + (m.region r).size).toNat := by
    rw [hend]
    exact Nat.le_add_right _ _
  refine holesExact_of_single hs none hle ?_ ?_ ?_
  · rw [reported_eq, holes, hcs, holesFrom, BitVec.ofNat_eq_ofNat, BitVec.add_zero,
      BitVec.sub_zero]
  · rw [hcs, bounds_nil, gaps, hend]
  · rw [hcs, List.find?_nil]

variable (h : ChildrenPlaced m r)
  (hpos : ∀ c ∈ (m.region r).children, 0 < (m.region c).size.toNat)
  (hlimit : (m.region r).limit < 2 ^ 64)

include h hpos hlimit

theorem HolesSound.exact (hsound : HolesSound m r) : HolesExact m r := by
  have hs := h.spaced hpos
  cases hcs : (m.region r).children with
  | nil => exact holesExact_of_nil hlimit hs hcs
  | cons c cs =>
    rcases hsound with hbase | hnil | ⟨hsum, hfill⟩
    · exact holesExact_of_base_zero h hpos hbase
    · rw [hcs] at hnil
      cases hnil
    have hs' := hs
    rw [hcs] at hs' hfill
    obtain ⟨hend, htail⟩ := spaced_tail hlimit hs'
    have hgaps := (gaps_behind_eq_nil_iff (hend ▸ htail)).mpr (hfill c rfl)
    have hnone := (holesFrom_eq_nil_iff hlimit htail (by rw [hend]; exact hgaps)).mpr hsum
    exact holesExact_of_head hs hcs hgaps hnone

/-- Behind the first child of a region based above 0 nothing may be reported, and there may
be no gap. -/
theorem HolesExact.sound (hexact : HolesExact m r) : HolesSound m r := by
  by_cases hbase : (m.region r).base = 0
  · exact Or.inl hbase
  have hb : 0 < (m.region r).base.toNat :=
    Nat.pos_of_ne_zero fun h0 => hbase (BitVec.eq_of_toNat_eq h0)
  cases hcs : (m.region r).children with
  | nil => exact Or.inr (Or.inl hcs)
  | cons c cs =>
    have hs := h.spaced hpos
    have hmem : ∀ g, g ∈ (holesFrom m (m.region r) 0 (c :: cs)).map
        (Hole.range (m.region r).base.toNat) ↔
        g ∈ Placement.gaps (m.region r).limit (m.region r).base.toNat (bounds m (c :: cs)) := by
      intro g
      have hg := (hexact.gaps g).trans hs.mem_gaps_iff.symm
      rwa [ranges, reported_eq, holes, hcs] at hg
    rw [hcs] at hs
    have hpos_c := hpos c (hcs ▸ List.mem_cons_self)
    obtain ⟨hnone, hgaps⟩ := holes_behind_eq_nil hlimit hb hpos_c hs hmem
    obtain ⟨hend, htail⟩ := spaced_tail hlimit hs
    have hsum := (holesFrom_eq_nil_iff hlimit htail (by rw [hend]; exact hgaps)).mp hnone
    refine Or.inr (Or.inr ⟨hsum, ?_⟩)
    rw [hcs]
    rintro _ ⟨⟩
    exact (gaps_behind_eq_nil_iff (hend ▸ htail)).mp hgaps

/-- The walk reports the gaps between the children only where it is sound. -/
theorem foreach_hole_exact_iff : HolesExact m r ↔ HolesSound m r :=
  ⟨HolesExact.sound h hpos hlimit, HolesSound.exact h hpos hlimit⟩

end Exact

/-- The kernel's root as `init_aspace` sets it up, with a child in its first page. -/
def kernelRoot₁ : Regions :=
  (rootTree 0xFFFF800000000000 0x7FFFFFFFFFFF 0x2F 0).addChild 0 none 1
    (pageAt 0xFFFF800000000000 0)

theorem childrenPlaced_kernelRoot₁ : ChildrenPlaced kernelRoot₁ 0 := by
  refine childrenPlaced_of_placed ?_
  change Placed 0xFFFFFFFFFFFFFFFF 0xFFFF800000000000 [(0xFFFF800000000000, 0xFFFF800000001000)]
  simp

theorem kernelRoot₁_pos :
    ∀ c ∈ (kernelRoot₁.region 0).children, 0 < (kernelRoot₁.region c).size.toNat := by
  intro c hc
  obtain rfl := List.mem_singleton.mp hc
  decide

theorem foreach_hole_exact_iff_kernelRoot₁ : HolesExact kernelRoot₁ 0 ↔ HolesSound kernelRoot₁ 0 :=
  foreach_hole_exact_iff childrenPlaced_kernelRoot₁ kernelRoot₁_pos (by decide)

/-- The rest of the kernel's root is a gap, and no hole is reported there. -/
theorem kernelRoot₁_not_exact : ¬ HolesExact kernelRoot₁ 0 := by
  intro h
  have hs := childrenPlaced_kernelRoot₁.spaced kernelRoot₁_pos
  have hgap : ((0xFFFF800000001000, 0xFFFFFFFFFFFFFFFF) : ℕ × ℕ) ∈
      gaps (kernelRoot₁.region 0).limit (kernelRoot₁.region 0).base.toNat
        (bounds kernelRoot₁ (kernelRoot₁.region 0).children) := by decide
  exact absurd ((h.gaps _).mpr (hs.mem_gaps_iff.mp hgap)) (by decide)

end CxKernel.Vm
