import CxKernel.Proofs.FirstFit

/-! Where the arithmetic of the fit test goes wrong. The end of a huge region wraps past
2^64 and looks small, and an alignment of 2^32 or more is cut down with its shift count. -/

namespace CxKernel.Vm

open Placement LinkedList

variable {m m' : Regions} {c : Call} {new : ℕ}

theorem Call.result_ok_iff (hpaged : c.size.toNat % pageSize = 0) :
    c.result m = some (.ok new, m') ↔ ¬ c.Refused m ∧ c.alloc = some new ∧
      ∃ hole, firstFit m (m.region c.this) c.size (effectiveAlign c.alignPow2) = some hole ∧
        m' = m.addChild c.this hole.child new (c.made m hole) := by
  rcases c.result_cases m with ⟨-, hno⟩ | ⟨e, hrun, hwhy⟩ | ⟨n, hole, halloc, href, hfit, hrun⟩
  · exact absurd hpaged hno
  · rw [hrun]
    refine iff_of_false nofun ?_
    rintro ⟨href, -, hole, hfit, -⟩
    rcases hwhy with hr | hnone
    · exact href hr
    · rw [hnone] at hfit
      cases hfit
  · rw [hrun, halloc, hfit]
    refine ⟨fun heq => ?_, ?_⟩
    · cases heq
      exact ⟨href, rfl, hole, rfl, rfl⟩
    · rintro ⟨-, hn, hole', hh, rfl⟩
      cases hn
      cases hh
      rfl

/-- The memory for a new region is not in use. -/
def Call.Fresh (m : Regions) (c : Call) : Prop :=
  ∀ new, c.alloc = some new → new ≠ c.this ∧ new ∉ (m.region c.this).children

/-- The new region is the only one that joins the children. -/
theorem mem_addChild_children {this d : ℕ} {before : Option ℕ} {vmr : VmRegion}
    (hd : d ∈ ((m.addChild this before new vmr).region this).children) :
    d = new ∨ d ∈ (m.region this).children := by
  simp only [Regions.addChild, Function.update_self] at hd
  cases before with
  | none => exact (List.mem_append.mp hd).symm.imp_left List.mem_singleton.mp
  | some child => exact mem_insertSeq hd

/-! Huge sizes. -/

/-- If the call succeeds, its region ends inside its parent, in unbounded arithmetic, and
overlaps no sibling. -/
def Call.StaysInside (m : Regions) (c : Call) : Prop :=
  ∀ new m', c.result m = some (.ok new, m') →
    (m'.region new).base.toNat + (m'.region new).size.toNat ≤ (m.region c.this).size.toNat ∧
    ∀ d ∈ (m'.region c.this).children, d ≠ new →
      Disjoint (m'.region new).interval (m'.region d).interval

/-- In no gap `[o, e)` is there `2^64 ≤ a + size ≤ 2^64 + e`, for the first aligned
address `a` from `o` on. -/
def Call.NoWrap (m : Regions) (c : Call) : Prop :=
  ∀ g ∈ gaps (m.region c.this).size.toNat 0 (Vm.bounds m (m.region c.this).children), ∀ a,
    max (2 ^ c.alignPow2.toNat) pageSize ∣ a → g.1 ≤ a →
    a < g.1 + max (2 ^ c.alignPow2.toNat) pageSize →
    ¬ (2 ^ 64 ≤ a + c.size.toNat ∧ a + c.size.toNat ≤ 2 ^ 64 + g.2)

section Huge

variable (h : Ordered m c.this) (hsize : (m.region c.this).size.toNat < 2 ^ 63)
  (halign : c.alignPow2.toNat ≤ 31)

include h hsize halign

/-- In a hole where the test passes, the region fits or its end wraps around. -/
theorem Ordered.fits_hole {hole : Hole} (hm : hole ∈ holes m (m.region c.this))
    (hno : c.NoWrap m)
    (hfit : fits c.size (effectiveAlign c.alignPow2) hole.offset hole.len = true) :
    (alignUp hole.offset (effectiveAlign c.alignPow2)).toNat + c.size.toNat ≤
      hole.offset.toNat + hole.len.toNat := by
  have ha := effectiveAlign_toNat halign
  have hpow : 2 ^ max c.alignPow2.toNat 12 ≤ 2 ^ 31 := Nat.pow_le_pow_right (by decide) (by omega)
  have hgap := h.hole_gap hm
  obtain ⟨hlo, hhi⟩ := h.gap_lt hsize hgap
  dsimp only [Hole.bounds] at hlo hhi
  obtain ⟨hge, hlt, hdvd⟩ := Words.toNat_roundUp ha (x := hole.offset) (by omega)
  rcases (fits_iff (by omega)).mp hfit with hroom | hwrap
  · exact hroom
  · refine absurd hwrap (hno _ hgap _ ?_ hge ?_)
    · rw [max_two_pow]
      exact hdvd
    · rw [max_two_pow]
      exact hlt

theorem Ordered.staysInside (hpaged : c.size.toNat % pageSize = 0) (hfresh : c.Fresh m)
    (hno : c.NoWrap m) : c.StaysInside m := by
  intro new m' hok
  obtain ⟨-, halloc, hole, hfirst, rfl⟩ := (Call.result_ok_iff hpaged).mp hok
  obtain ⟨hne, -⟩ := hfresh new halloc
  have hm := List.mem_of_find?_eq_some hfirst
  have hfit : fits c.size (effectiveAlign c.alignPow2) hole.offset hole.len = true :=
    (List.find?_eq_some_iff_append.mp hfirst).1
  have hroom := h.fits_hole hsize halign hm hno hfit
  have hgap := h.hole_gap hm
  obtain ⟨hlo, -⟩ := h.gap_lt hsize hgap
  have hge := (isLeast_alignUp (effectiveAlign_toNat halign) (by omega) (x := hole.offset) hlo).1.2
  rw [addChild_new hne]
  refine ⟨hroom.trans (h.spaced.gap_bounds hgap).2.2, fun d hd hdn => ?_⟩
  have hold := (mem_addChild_children hd).resolve_left hdn
  obtain ⟨hb, hs⟩ := addChild_base_size m c.this hole.child (c.made m hole) hdn
  rw [VmRegion.interval, VmRegion.interval, hb, hs]
  rcases h.spaced.gap_clear hgap (mem_bounds m hold) with hbelow | habove
  · exact disjoint_of_le (i := (_, _)) (j := (_, _)) (hroom.trans hbelow)
  · exact (disjoint_of_le (i := (_, _)) (j := (_, _)) (habove.trans hge)).symm

/-- A wrapped sum takes a request larger than the region, which has no other place. -/
theorem Ordered.noWrap_of_staysInside (hpaged : c.size.toNat % pageSize = 0)
    (hfresh : c.Fresh m) (href : ¬ c.Refused m) (hin : c.StaysInside m) : c.NoWrap m := by
  intro g hg a hdvd hge hlt hwrap
  have ha := effectiveAlign_toNat halign
  have hk : max c.alignPow2.toNat 12 ≤ 31 := by omega
  rw [max_two_pow] at hdvd hlt
  obtain ⟨hole, hm, rfl⟩ : ∃ hole ∈ holes m (m.region c.this), hole.bounds = g := by
    rw [← h.map_holes] at hg
    exact List.mem_map.mp hg
  obtain ⟨hlo, hhi⟩ := h.gap_lt hsize hg
  dsimp only [Hole.bounds] at hlo hhi hge hlt hwrap
  obtain ⟨⟨hdvd', hge'⟩, hleast⟩ := isLeast_alignUp ha hk (x := hole.offset) hlo
  have hup := alignUp_le_half ha hk (x := hole.offset) hlo
  have hle := hleast ⟨hdvd, hge⟩
  -- `a` is the rounded-up base
  have heq : a = (alignUp hole.offset (effectiveAlign c.alignPow2)).toNat := by
    have hzero := Nat.eq_zero_of_dvd_of_lt (Nat.dvd_sub hdvd hdvd') (by omega)
    omega
  have hfit : fits c.size (effectiveAlign c.alignPow2) hole.offset hole.len = true :=
    (fits_iff (by omega)).mpr (Or.inr (heq ▸ hwrap))
  cases hfirst : firstFit m (m.region c.this) c.size (effectiveAlign c.alignPow2) with
  | none => exact absurd hfit (List.find?_eq_none.mp hfirst hole hm)
  | some taken =>
    obtain ⟨new, halloc⟩ : ∃ new, c.alloc = some new :=
      Option.ne_none_iff_exists'.mp fun hnone => href (Or.inr (Or.inr hnone))
    have hok := (Call.result_ok_iff hpaged).mpr ⟨href, halloc, taken, hfirst, rfl⟩
    obtain ⟨hend, -⟩ := hin new _ hok
    rw [addChild_new (hfresh new halloc).1] at hend
    change (alignUp taken.offset _).toNat + c.size.toNat ≤ _ at hend
    omega

end Huge

/-- A call of any size stays inside exactly if it is refused for another reason, or no sum
of the fit test wraps around to within its hole. -/
theorem huge_sizes_refused_iff (h : Ordered m c.this)
    (hsize : (m.region c.this).size.toNat < 2 ^ 63) (hpaged : c.size.toNat % pageSize = 0)
    (halign : c.alignPow2.toNat ≤ 31) (hfresh : c.Fresh m) :
    c.StaysInside m ↔ c.Refused m ∨ c.NoWrap m := by
  refine ⟨fun hin => ?_, fun hor => ?_⟩
  · exact or_iff_not_imp_left.mpr fun href =>
      h.noWrap_of_staysInside hsize halign hpaged hfresh href hin
  · rcases hor with href | hno
    · intro new m' hok
      exact absurd href ((Call.result_ok_iff hpaged).mp hok).1
    · exact h.staysInside hsize halign hpaged hfresh hno

theorem ordered_userRoot₁ : Ordered userRoot₁ 0 := zeroBased_userRoot₁.ordered

/-- The request that wraps around, at a region with one page in use. -/
def hugeCall : Call := ⟨0, 0xfffffffffffff000, 0, 0, some 2⟩

theorem huge_sizes_refused_iff_two :
    twoPages.StaysInside userRoot₁ ↔ twoPages.Refused userRoot₁ ∨ twoPages.NoWrap userRoot₁ :=
  huge_sizes_refused_iff ordered_userRoot₁ (by decide) (by decide) (by decide) (by
    intro new halloc
    obtain rfl := Option.some.inj halloc
    decide)

/-- A request for all of the address space but a page succeeds after the first page. -/
theorem huge_size_accepted : ∃ m', hugeCall.result userRoot₁ = some (.ok 2, m') ∧
    (userRoot₁.region 0).size.toNat < (m'.region 2).base.toNat + (m'.region 2).size.toNat ∧
    ¬ hugeCall.StaysInside userRoot₁ := by
  have hok : hugeCall.result userRoot₁ =
      some (.ok 2, userRoot₁.addChild 0 none 2 (hugeCall.made userRoot₁ ⟨none, 4096, 20480⟩)) := by
    rfl
  have hout : (userRoot₁.region 0).size.toNat < 4096 + hugeCall.size.toNat := by decide
  refine ⟨_, hok, hout, fun hin => ?_⟩
  obtain ⟨hend, -⟩ := hin 2 _ hok
  exact absurd hend (not_le.mpr hout)

/-! Large alignments. -/

/-- If the call succeeds, its region has the alignment asked for. -/
def Call.Aligned (m : Regions) (c : Call) : Prop :=
  ∀ new m', c.result m = some (.ok new, m') → 2 ^ c.alignPow2.toNat ∣ (m'.region new).base.toNat

/-- Wherever the request fits with its alignment cut down, it fits no higher up with the
alignment asked for. -/
def Call.FitsAligned (m : Regions) (c : Call) : Prop :=
  ∀ a ∈ m.places c.this c.size.toNat (max (2 ^ (c.alignPow2.toNat % 32)) pageSize),
    ∃ b ∈ c.places m, b ≤ a

section Aligned

variable (h : Ordered m c.this) (hsize : (m.region c.this).size.toNat < 2 ^ 63)
  (hpos : 0 < c.size.toNat) (hpaged : c.size.toNat % pageSize = 0)
  (hle : c.size.toNat ≤ (m.region c.this).size.toNat) (hfresh : c.Fresh m)

include h hsize hpos hpaged hle hfresh

/-- The region is at the least place for the alignment cut down. -/
theorem Ordered.isLeast_of_ok (hok : c.result m = some (.ok new, m')) :
    IsLeast (m.places c.this c.size.toNat (max (2 ^ (c.alignPow2.toNat % 32)) pageSize))
      (m'.region new).base.toNat := by
  obtain ⟨-, halloc, hole, hfirst, rfl⟩ := (Call.result_ok_iff hpaged).mp hok
  rw [addChild_new (hfresh new halloc).1, max_two_pow]
  exact h.firstFit_some hsize (effectiveAlign_toNat_mod _) (by omega) hpos hle hfirst

theorem Ordered.fitsAligned (hcut : ¬ c.alignPow2.toNat ≤ 31) (href : ¬ c.Refused m)
    (hdvd : c.Aligned m) : c.FitsAligned m := by
  intro a ha
  cases hfirst : firstFit m (m.region c.this) c.size (effectiveAlign c.alignPow2) with
  | none =>
    have hempty := h.firstFit_none hsize (effectiveAlign_toNat_mod _) (by omega) hpos hle hfirst
    rw [max_two_pow, hempty] at ha
    exact absurd ha (Set.notMem_empty a)
  | some hole =>
    obtain ⟨new, halloc⟩ : ∃ new, c.alloc = some new :=
      Option.ne_none_iff_exists'.mp fun hnone => href (Or.inr (Or.inr hnone))
    have hok := (Call.result_ok_iff hpaged).mpr ⟨href, halloc, hole, hfirst, rfl⟩
    obtain ⟨⟨-, hroom⟩, hleast⟩ := h.isLeast_of_ok hsize hpos hpaged hle hfresh hok
    refine ⟨_, ⟨?_, hroom⟩, hleast ha⟩
    rw [max_two_pow, max_eq_left (by omega)]
    exact hdvd new _ hok

theorem Ordered.aligned (hfit : c.FitsAligned m) : c.Aligned m := by
  intro new m' hok
  obtain ⟨hmem, hleast⟩ := h.isLeast_of_ok hsize hpos hpaged hle hfresh hok
  obtain ⟨b, ⟨hdvd, hroom⟩, hb⟩ := hfit _ hmem
  rw [max_two_pow] at hdvd
  have hcut : 2 ^ max (c.alignPow2.toNat % 32) 12 ∣ b :=
    (Nat.pow_dvd_pow 2 (max_le_max_right 12 (Nat.mod_le _ 32))).trans hdvd
  rw [← max_two_pow] at hcut
  rw [← le_antisymm hb (hleast ⟨hcut, hroom⟩)]
  exact (Nat.pow_dvd_pow 2 (le_max_left _ 12)).trans hdvd

end Aligned

/-- The region has the alignment asked for exactly if that is less than 2^32, the call is
refused for another reason, or there is a place with it as low as with the one in force. -/
theorem alignment_honoured_iff (h : Ordered m c.this)
    (hsize : (m.region c.this).size.toNat < 2 ^ 63) (hpos : 0 < c.size.toNat)
    (hpaged : c.size.toNat % pageSize = 0) (hle : c.size.toNat ≤ (m.region c.this).size.toNat)
    (halign : c.alignPow2.toNat ≤ 62) (hfresh : c.Fresh m) :
    c.Aligned m ↔ c.alignPow2.toNat ≤ 31 ∨ c.Refused m ∨ c.FitsAligned m := by
  refine ⟨fun hdvd => ?_, fun hor => ?_⟩
  · by_cases hcut : c.alignPow2.toNat ≤ 31
    · exact Or.inl hcut
    by_cases href : c.Refused m
    · exact Or.inr (Or.inl href)
    · exact Or.inr (Or.inr (h.fitsAligned hsize hpos hpaged hle hfresh hcut href hdvd))
  · rcases hor with hcut | href | hfit
    · refine h.aligned hsize hpos hpaged hle hfresh fun a ha => ⟨a, ?_, le_rfl⟩
      rwa [Nat.mod_eq_of_lt (by omega)] at ha
    · intro new m' hok
      exact absurd href ((Call.result_ok_iff hpaged).mp hok).1
    · exact h.aligned hsize hpos hpaged hle hfresh hfit

theorem alignment_honoured_iff_two :
    twoPages.Aligned userRoot₁ ↔
      twoPages.alignPow2.toNat ≤ 31 ∨ twoPages.Refused userRoot₁ ∨
        twoPages.FitsAligned userRoot₁ :=
  alignment_honoured_iff ordered_userRoot₁ (by decide) (by decide) (by decide) (by decide)
    (by decide) (by
      intro new halloc
      obtain rfl := Option.some.inj halloc
      decide)

/-- One page at a multiple of 2^40. -/
def farPage : Call := ⟨0, 4096, 40, 0, some 2⟩

/-- The shift count 40 acts as 8, and the page goes right behind the first one. -/
theorem alignment_cut_down : ∃ m', farPage.result userRoot₁ = some (.ok 2, m') ∧
    (m'.region 2).base = 4096 ∧ ¬ farPage.Aligned userRoot₁ := by
  have hok : farPage.result userRoot₁ =
      some (.ok 2, userRoot₁.addChild 0 none 2 (farPage.made userRoot₁ ⟨none, 4096, 20480⟩)) := by
    rfl
  refine ⟨_, hok, rfl, fun hdvd => ?_⟩
  exact absurd (hdvd 2 _ hok) (by decide)

end CxKernel.Vm
