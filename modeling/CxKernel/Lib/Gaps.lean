import CxKernel.Lib.Placed
import Mathlib.Order.Bounds.Defs

/-! The gaps that intervals in order leave, and first fit into them. An interval that keeps
clear of all of these lies in one gap: the gaps are the maximal clear intervals, and the first
gap with room has the least place there is. -/

namespace Placement

universe u

variable {α : Type u} [LinearOrder α]

/-- The intervals lie one after the other in `[lo, hi)`, some of them empty. -/
def Spaced (hi : α) : α → List (α × α) → Prop
  | lo, [] => lo ≤ hi
  | lo, i :: t => lo ≤ i.1 ∧ i.1 ≤ i.2 ∧ Spaced hi i.2 t

/-- The gaps in `[lo, hi)`, in order. -/
def gaps (hi : α) : α → List (α × α) → List (α × α)
  | lo, [] => if lo < hi then [(lo, hi)] else []
  | lo, i :: t => if lo < i.1 then (lo, i.1) :: gaps hi i.2 t else gaps hi i.2 t

variable {hi lo : α} {l : List (α × α)} {g : α × α}

theorem Spaced.le (h : Spaced hi lo l) : lo ≤ hi := by
  induction l generalizing lo with
  | nil => exact h
  | cons i t ih => exact h.1.trans (h.2.1.trans (ih h.2.2))

theorem Spaced.bounds (h : Spaced hi lo l) {i : α × α} (hm : i ∈ l) : lo ≤ i.1 ∧ i.2 ≤ hi := by
  induction l generalizing lo with
  | nil => cases hm
  | cons j t ih =>
    obtain ⟨hlo, hle, ht⟩ := h
    rcases List.mem_cons.mp hm with rfl | hm
    · exact ⟨hlo, ht.le⟩
    · obtain ⟨hj, hi⟩ := ih ht hm
      exact ⟨hlo.trans (hle.trans hj), hi⟩

/-- Intervals in order, each inside, are spaced. -/
theorem spaced_of_pairwise (hle : lo ≤ hi) (hin : ∀ i ∈ l, lo ≤ i.1 ∧ i.1 ≤ i.2 ∧ i.2 ≤ hi)
    (hpw : l.Pairwise fun i j => i.2 ≤ j.1) : Spaced hi lo l := by
  induction l generalizing lo with
  | nil => exact hle
  | cons i t ih =>
    obtain ⟨hlo, hlt, hhi⟩ := hin i List.mem_cons_self
    obtain ⟨hhead, htail⟩ := List.pairwise_cons.mp hpw
    refine ⟨hlo, hlt, ih hhi (fun j hj => ?_) htail⟩
    obtain ⟨-, hj⟩ := hin j (List.mem_cons_of_mem _ hj)
    exact ⟨hhead j ‹_›, hj⟩

/-- Placed are those none of which is empty. -/
theorem Spaced.placed (h : Spaced hi lo l) (hlt : ∀ i ∈ l, i.1 < i.2) : Placed hi lo l := by
  induction l generalizing lo with
  | nil => exact h
  | cons i t ih =>
    exact ⟨h.1, hlt i List.mem_cons_self, ih h.2.2 fun j hj => hlt j (List.mem_cons_of_mem _ hj)⟩

/-! Gaps. -/

theorem mem_gaps_cons {i : α × α} {t : List (α × α)} :
    g ∈ gaps hi lo (i :: t) ↔ (lo < i.1 ∧ g = (lo, i.1)) ∨ g ∈ gaps hi i.2 t := by
  rw [gaps]
  split_ifs with h <;> simp [h]

theorem Spaced.gap_bounds (h : Spaced hi lo l) (hg : g ∈ gaps hi lo l) :
    lo ≤ g.1 ∧ g.1 < g.2 ∧ g.2 ≤ hi := by
  induction l generalizing lo with
  | nil =>
    rw [gaps] at hg
    split_ifs at hg with hlt
    · rw [List.mem_singleton] at hg
      subst hg
      exact ⟨le_rfl, hlt, le_rfl⟩
    · cases hg
  | cons i t ih =>
    obtain ⟨hlo, hle, ht⟩ := h
    rcases mem_gaps_cons.mp hg with ⟨hgap, rfl⟩ | hg
    · exact ⟨le_rfl, hgap, hle.trans ht.le⟩
    · obtain ⟨hi₁, hi₂, hi₃⟩ := ih ht hg
      exact ⟨hlo.trans (hle.trans hi₁), hi₂, hi₃⟩

theorem Spaced.gap_clear (h : Spaced hi lo l) (hg : g ∈ gaps hi lo l) {i : α × α}
    (hm : i ∈ l) : g.2 ≤ i.1 ∨ i.2 ≤ g.1 := by
  induction l generalizing lo with
  | nil => cases hm
  | cons j t ih =>
    obtain ⟨hlo, hle, ht⟩ := h
    rcases mem_gaps_cons.mp hg with ⟨-, rfl⟩ | hg
    · left
      rcases List.mem_cons.mp hm with rfl | hm
      · exact le_rfl
      · exact hle.trans (ht.bounds hm).1
    · rcases List.mem_cons.mp hm with rfl | hm
      · exact Or.inr (ht.gap_bounds hg).1
      · exact ih ht hg hm

/-- Gaps come one after the other. -/
theorem Spaced.pairwise_gaps (h : Spaced hi lo l) :
    (gaps hi lo l).Pairwise fun g g' => g.2 ≤ g'.1 := by
  induction l generalizing lo with
  | nil =>
    rw [gaps]
    split_ifs <;> simp
  | cons i t ih =>
    obtain ⟨hlo, hle, ht⟩ := h
    rw [gaps]
    split_ifs
    · exact .cons (fun g hg => hle.trans (ht.gap_bounds hg).1) (ih ht)
    · exact ih ht

/-- What keeps clear of every interval lies in a gap. -/
theorem Spaced.exists_gap (h : Spaced hi lo l) {a b : α} (hab : a < b) (hlo : lo ≤ a)
    (hhi : b ≤ hi) (hclear : ∀ i ∈ l, b ≤ i.1 ∨ i.2 ≤ a) :
    ∃ g ∈ gaps hi lo l, g.1 ≤ a ∧ b ≤ g.2 := by
  induction l generalizing lo with
  | nil =>
    refine ⟨(lo, hi), ?_, hlo, hhi⟩
    rw [gaps, if_pos (hlo.trans_lt (hab.trans_le hhi))]
    exact List.mem_singleton_self _
  | cons i t ih =>
    rcases hclear i List.mem_cons_self with hb | ha
    · exact ⟨(lo, i.1), mem_gaps_cons.mpr (Or.inl ⟨hlo.trans_lt (hab.trans_le hb), rfl⟩), hlo, hb⟩
    · obtain ⟨g, hg, hga, hgb⟩ := ih h.2.2 ha fun j hj => hclear j (List.mem_cons_of_mem _ hj)
      exact ⟨g, mem_gaps_cons.mpr (Or.inr hg), hga, hgb⟩

/-- An interval that is not empty and keeps clear of all of these. -/
structure Clear (hi lo : α) (l : List (α × α)) (g : α × α) : Prop where
  lower : lo ≤ g.1
  nonempty : g.1 < g.2
  upper : g.2 ≤ hi
  clear : ∀ i ∈ l, g.2 ≤ i.1 ∨ i.2 ≤ g.1

/-- A clear interval that no other contains. -/
structure IsGap (hi lo : α) (l : List (α × α)) (g : α × α) : Prop extends Clear hi lo l g where
  maximal : ∀ g', Clear hi lo l g' → g'.1 ≤ g.1 → g.2 ≤ g'.2 → g' = g

theorem Spaced.clear_of_mem_gaps (h : Spaced hi lo l) (hg : g ∈ gaps hi lo l) : Clear hi lo l g := by
  obtain ⟨hlo, hlt, hhi⟩ := h.gap_bounds hg
  exact ⟨hlo, hlt, hhi, fun i hi => h.gap_clear hg hi⟩

/-- No gap contains another. -/
theorem Spaced.gap_eq_of_subset (h : Spaced hi lo l) {g g' : α × α} (hg : g ∈ gaps hi lo l)
    (hg' : g' ∈ gaps hi lo l) (h₁ : g'.1 ≤ g.1) (h₂ : g.2 ≤ g'.2) : g' = g := by
  have hapart : ∀ x ∈ gaps hi lo l, ∀ y ∈ gaps hi lo l, x = y ∨ x.2 ≤ y.1 ∨ y.2 ≤ x.1 := by
    exact List.Pairwise.forall_of_forall_of_flip (fun x _ => Or.inl rfl)
      (h.pairwise_gaps.imp fun hle => Or.inr (Or.inl hle))
      (h.pairwise_gaps.imp fun hle => Or.inr (Or.inr hle))
  have hlt := (h.gap_bounds hg).2.1
  rcases hapart g' hg' g hg with he | hle | hle
  · exact he
  · exact absurd (hle.trans_lt hlt) (not_lt.mpr h₂)
  · exact absurd (hle.trans h₁) (not_le.mpr hlt)

theorem Spaced.mem_gaps_iff (h : Spaced hi lo l) : g ∈ gaps hi lo l ↔ IsGap hi lo l g := by
  constructor
  · intro hg
    refine ⟨h.clear_of_mem_gaps hg, fun g' hg' h₁ h₂ => ?_⟩
    obtain ⟨g'', hg'', h₁', h₂'⟩ := h.exists_gap hg'.nonempty hg'.lower hg'.upper hg'.clear
    have he := h.gap_eq_of_subset hg hg'' (h₁'.trans h₁) (h₂.trans h₂')
    subst he
    exact Prod.ext (le_antisymm h₁ h₁') (le_antisymm h₂' h₂)
  · intro hg
    obtain ⟨g', hg', h₁, h₂⟩ := h.exists_gap hg.nonempty hg.lower hg.upper hg.clear
    exact hg.maximal g' (h.clear_of_mem_gaps hg') h₁ h₂ ▸ hg'

/-- Gaps and intervals make up the whole. -/
theorem Spaced.mem_Ico_iff (h : Spaced hi lo l) {a : α} : a ∈ Set.Ico lo hi ↔
    (∃ g ∈ gaps hi lo l, a ∈ Set.Ico g.1 g.2) ∨ ∃ i ∈ l, a ∈ Set.Ico i.1 i.2 := by
  constructor
  · intro ha
    induction l generalizing lo with
    | nil =>
      refine Or.inl ⟨(lo, hi), ?_, ha⟩
      rw [gaps, if_pos (ha.1.trans_lt ha.2)]
      exact List.mem_singleton_self _
    | cons i t ih =>
      by_cases hi₁ : a < i.1
      · exact Or.inl ⟨(lo, i.1), mem_gaps_cons.mpr (Or.inl ⟨ha.1.trans_lt hi₁, rfl⟩), ha.1, hi₁⟩
      by_cases hi₂ : a < i.2
      · exact Or.inr ⟨i, List.mem_cons_self, not_lt.mp hi₁, hi₂⟩
      rcases ih h.2.2 ⟨not_lt.mp hi₂, ha.2⟩ with ⟨g, hg, hag⟩ | ⟨j, hj, haj⟩
      · exact Or.inl ⟨g, mem_gaps_cons.mpr (Or.inr hg), hag⟩
      · exact Or.inr ⟨j, List.mem_cons_of_mem _ hj, haj⟩
  · rintro (⟨g, hg, hag⟩ | ⟨i, hi, hai⟩)
    · obtain ⟨hlo, -, hhi⟩ := h.gap_bounds hg
      exact ⟨hlo.trans hag.1, hag.2.trans_le hhi⟩
    · obtain ⟨hlo, hhi⟩ := h.bounds hi
      exact ⟨hlo.trans hai.1, hai.2.trans_le hhi⟩

/-- No gap is left where the intervals cover everything. -/
theorem Spaced.gaps_eq_nil_iff (h : Spaced hi lo l) :
    gaps hi lo l = [] ↔ ∀ a ∈ Set.Ico lo hi, ∃ i ∈ l, a ∈ Set.Ico i.1 i.2 := by
  constructor
  · intro hnil a ha
    rcases h.mem_Ico_iff.mp ha with ⟨g, hg, -⟩ | hin
    · rw [hnil] at hg
      cases hg
    · exact hin
  · intro hcover
    refine List.eq_nil_iff_forall_not_mem.mpr fun g hg => ?_
    obtain ⟨hlo, hlt, hhi⟩ := h.gap_bounds hg
    obtain ⟨i, hi, hai⟩ := hcover g.1 ⟨hlo, hlt.trans_le hhi⟩
    rcases h.gap_clear hg hi with hle | hle
    · exact (hai.1.trans_lt hlt).not_ge hle
    · exact hai.2.not_ge hle

/-! First fit: `up x` is the least admissible point from `x` on, and `fin a` the end of
what would be placed at `a`. -/

section FirstFit

variable {P : α → Prop} {up fin : α → α}

/-- The admissible points where there is room. -/
def places (P : α → Prop) (fin : α → α) (hi lo : α) (l : List (α × α)) : Set α :=
  {a | P a ∧ lo ≤ a ∧ fin a ≤ hi ∧ ∀ i ∈ l, fin a ≤ i.1 ∨ i.2 ≤ a}

theorem Spaced.exists_fit (h : Spaced hi lo l) (hlt : ∀ a, a < fin a) {a : α}
    (ha : a ∈ places P fin hi lo l) : ∃ g ∈ gaps hi lo l, g.1 ≤ a ∧ fin a ≤ g.2 :=
  h.exists_gap (hlt a) ha.2.1 ha.2.2.1 ha.2.2.2

theorem Spaced.mem_places (h : Spaced hi lo l) (hg : g ∈ gaps hi lo l) {a : α} (hP : P a)
    (hga : g.1 ≤ a) (hfit : fin a ≤ g.2) : a ∈ places P fin hi lo l := by
  obtain ⟨hlo, -, hhi⟩ := h.gap_bounds hg
  refine ⟨hP, hlo.trans hga, hfit.trans hhi, fun i hi => ?_⟩
  exact (h.gap_clear hg hi).imp hfit.trans fun hle => hle.trans hga

variable (hup : ∀ g ∈ gaps hi lo l, IsLeast {a | P a ∧ g.1 ≤ a} (up g.1)) (hfin : Monotone fin)
  (hlt : ∀ a, a < fin a)

include hup hfin hlt

/-- First fit finds the least place. -/
theorem Spaced.isLeast_of_find (h : Spaced hi lo l)
    (hfind : (gaps hi lo l).find? (fun g => decide (fin (up g.1) ≤ g.2)) = some g) :
    IsLeast (places P fin hi lo l) (up g.1) := by
  have hmem := List.mem_of_find?_eq_some hfind
  obtain ⟨hfit, before, after, hsplit, hnone⟩ := List.find?_eq_some_iff_append.mp hfind
  rw [decide_eq_true_eq] at hfit
  obtain ⟨⟨hP, hge⟩, -⟩ := hup g hmem
  refine ⟨h.mem_places hmem hP hge hfit, fun a ha => ?_⟩
  obtain ⟨g', hg', hga, hgb⟩ := h.exists_fit hlt ha
  have hle := (hup g' hg').2 ⟨ha.1, hga⟩
  rw [hsplit] at hg'
  rcases List.mem_append.mp hg' with hb | hb
  · -- an earlier gap would have been taken
    have hno := hnone g' hb
    rw [Bool.not_eq_true', decide_eq_false_iff_not] at hno
    exact absurd ((hfin hle).trans hgb) hno
  · rcases List.mem_cons.mp hb with rfl | hb
    · exact hle
    · have hpw := h.pairwise_gaps
      rw [hsplit, List.pairwise_append] at hpw
      have hafter := (List.pairwise_cons.mp hpw.2.1).1 g' hb
      exact (hlt _).le.trans (hfit.trans (hafter.trans hga))

/-- First fit fails only where there is no place. -/
theorem Spaced.places_eq_empty_of_find (h : Spaced hi lo l)
    (hfind : (gaps hi lo l).find? (fun g => decide (fin (up g.1) ≤ g.2)) = none) :
    places P fin hi lo l = ∅ := by
  refine Set.eq_empty_of_forall_notMem fun a ha => ?_
  obtain ⟨g, hg, hga, hgb⟩ := h.exists_fit hlt ha
  have hno := List.find?_eq_none.mp hfind g hg
  rw [decide_eq_true_eq] at hno
  exact hno ((hfin ((hup g hg).2 ⟨ha.1, hga⟩)).trans hgb)

end FirstFit

end Placement
