import Mathlib.Data.Set.Card

/-! How many arguments a function sends to a value, and what changing it at one argument
does to that. -/

namespace CxKernel.FiberCount

variable {H V : Type} [DecidableEq H]

noncomputable def fiberCount (f : H → V) (v : V) : ℕ := {h | f h = v}.ncard

variable {f : H → V} {h : H} {v w : V}

omit [DecidableEq H] in
theorem fiberCount_pos (hfin : {h | f h = v}.Finite) (hh : f h = v) : 0 < fiberCount f v :=
  (Set.ncard_pos hfin).mpr ⟨h, hh⟩

theorem fiber_update_self : {k | Function.update f h v k = v} = insert h {k | f k = v} := by
  ext k
  by_cases hk : k = h
  · simp [hk]
  · simp [hk]

theorem fiber_update_ne (hw : w ≠ v) :
    {k | Function.update f h w k = v} = {k | f k = v} \ {h} := by
  ext k
  by_cases hk : k = h
  · simp [hk, hw]
  · simp [hk]

theorem finite_fiber_update (hfin : {k | f k = v}.Finite) :
    {k | Function.update f h w k = v}.Finite := by
  by_cases hw : w = v
  · subst hw
    rw [fiber_update_self]
    exact hfin.insert h
  · rw [fiber_update_ne hw]
    exact hfin.sdiff

/-- The old value loses an argument and the new one gains it. -/
theorem fiberCount_update [DecidableEq V] (hfin : {k | f k = v}.Finite) :
    fiberCount (Function.update f h w) v + (if f h = v then 1 else 0) =
      fiberCount f v + (if w = v then 1 else 0) := by
  unfold fiberCount
  by_cases hw : w = v
  · subst hw
    rw [fiber_update_self]
    by_cases hv : f h = w
    · have hmem : h ∈ {k | f k = w} := hv
      rw [Set.insert_eq_of_mem hmem, if_pos hv, if_pos rfl]
    · have hmem : h ∉ {k | f k = w} := hv
      rw [Set.ncard_insert_of_notMem hmem hfin, if_neg hv, if_pos rfl]
  · rw [fiber_update_ne hw, if_neg hw]
    by_cases hv : f h = v
    · have hmem : h ∈ {k | f k = v} := hv
      rw [if_pos hv]
      exact Set.ncard_sdiff_singleton_add_one hmem hfin
    · have hmem : h ∉ {k | f k = v} := hv
      rw [if_neg hv, Set.sdiff_singleton_eq_self hmem]

end CxKernel.FiberCount
