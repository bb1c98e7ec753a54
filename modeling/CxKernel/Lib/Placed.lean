import Mathlib.Order.CompletePartialOrder
import Mathlib.Order.Interval.Set.Disjoint

/-! Lists of intervals placed side by side in `[lo, hi)`: non-empty, ascending and
non-overlapping, over any linear order. -/

namespace Placement

universe u

variable {α : Type u} [LinearOrder α]

/-- The intervals `[i.1, i.2)` of the list lie one after the other in `[lo, hi)`. -/
def Placed (hi : α) : α → List (α × α) → Prop
  | lo, [] => lo ≤ hi
  | lo, i :: t => lo ≤ i.1 ∧ i.1 < i.2 ∧ Placed hi i.2 t

@[simp] theorem placed_nil {hi lo : α} : Placed hi lo [] ↔ lo ≤ hi := Iff.rfl

@[simp] theorem placed_cons {hi lo : α} {i : α × α} {t : List (α × α)} :
    Placed hi lo (i :: t) ↔ lo ≤ i.1 ∧ i.1 < i.2 ∧ Placed hi i.2 t := Iff.rfl

theorem Placed.le {hi lo : α} {l : List (α × α)} (h : Placed hi lo l) : lo ≤ hi := by
  induction l generalizing lo with
  | nil => exact h
  | cons i t ih => exact h.1.trans (h.2.1.le.trans (ih h.2.2))

theorem Placed.mono {hi hi' lo lo' : α} {l : List (α × α)} (h : Placed hi lo l) (hlo : lo' ≤ lo)
    (hhi : hi ≤ hi') : Placed hi' lo' l := by
  induction l generalizing lo lo' with
  | nil => exact hlo.trans (le_trans h hhi)
  | cons i t ih => exact ⟨hlo.trans h.1, h.2.1, ih h.2.2 le_rfl⟩

/-- An interval splits the list into a part below it and a part above it. -/
theorem placed_append_cons {hi lo : α} {pre post : List (α × α)} {i : α × α} :
    Placed hi lo (pre ++ i :: post) ↔ Placed i.1 lo pre ∧ i.1 < i.2 ∧ Placed hi i.2 post := by
  induction pre generalizing lo with
  | nil => simp
  | cons j t ih => simp only [List.cons_append, placed_cons, ih, and_assoc]

theorem Placed.bounds {hi lo : α} {l : List (α × α)} (h : Placed hi lo l) {i : α × α}
    (hm : i ∈ l) : lo ≤ i.1 ∧ i.1 < i.2 ∧ i.2 ≤ hi := by
  obtain ⟨pre, post, rfl⟩ := List.append_of_mem hm
  obtain ⟨hpre, hlt, hpost⟩ := placed_append_cons.mp h
  exact ⟨hpre.le, hlt, hpost.le⟩

theorem Placed.subset {hi lo : α} {l : List (α × α)} (h : Placed hi lo l) {i : α × α}
    (hm : i ∈ l) : Set.Ico i.1 i.2 ⊆ Set.Ico lo hi := by
  obtain ⟨hlo, -, hhi⟩ := h.bounds hm
  exact Set.Ico_subset_Ico hlo hhi

/-- Earlier intervals end before later ones begin. -/
theorem Placed.pairwise {hi lo : α} {l : List (α × α)} (h : Placed hi lo l) :
    l.Pairwise fun i j => i.2 ≤ j.1 ∧ i.1 < j.1 := by
  induction l generalizing lo with
  | nil => exact List.Pairwise.nil
  | cons i t ih =>
    refine List.Pairwise.cons (fun j hj => ?_) (ih h.2.2)
    have hb := h.2.2.bounds hj
    exact ⟨hb.1, h.2.1.trans_le hb.1⟩

theorem disjoint_of_le {i j : α × α} (h : i.2 ≤ j.1) :
    Disjoint (Set.Ico i.1 i.2) (Set.Ico j.1 j.2) := by
  rw [Set.Ico_disjoint_Ico]
  exact (min_le_left _ _).trans (h.trans (le_max_right _ _))

end Placement
