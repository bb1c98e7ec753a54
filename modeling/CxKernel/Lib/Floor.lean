import Mathlib.Data.List.Induction
import Mathlib.Data.Set.Basic
import Mathlib.Order.Bounds.Defs

/-! One pass over a list for the entry with the greatest key in `(lo, hi]`, the first of
them where keys are equal. -/

namespace Floor

universe u v

variable {ι : Type u} {α : Type v} [LinearOrder α] {key : ι → α} {lo hi : α} {l : List ι} {i j : ι}

/-- The key of the entry held, `lo` if there is none. -/
def heldKey (key : ι → α) (lo : α) (held : Option ι) : α := held.elim lo key

/-- The entry held after one more: `i` if its key is greater and not above `hi`. -/
def take (key : ι → α) (lo hi : α) (held : Option ι) (i : ι) : Option ι :=
  if heldKey key lo held < key i ∧ key i ≤ hi then some i else held

def floor (key : ι → α) (lo hi : α) (l : List ι) : Option ι := l.foldl (take key lo hi) none

/-- What a pass has found: no key in range, or an entry whose key is greater than those
before it and no less than those after it, as far as they are in range. -/
inductive Found (key : ι → α) (lo hi : α) (l : List ι) : Option ι → Prop
  | none (h : ∀ j ∈ l, lo < key j → hi < key j) : Found key lo hi l none
  | some (pre : List ι) (i : ι) (post : List ι) (split : l = pre ++ i :: post)
      (above : lo < key i) (below : key i ≤ hi) (before : ∀ j ∈ pre, key j ≤ hi → key j < key i)
      (after : ∀ j ∈ post, key j ≤ hi → key j ≤ key i) : Found key lo hi l (some i)

theorem Found.take {held : Option ι} (h : Found key lo hi l held) (i : ι) :
    Found key lo hi (l ++ [i]) (take key lo hi held i) := by
  rw [Floor.take]
  cases h with
  | none h =>
    split_ifs with hi
    · refine .some l i [] rfl hi.1 hi.2 (fun j hj hle => ?_) (by simp)
      -- a key in range that was passed over is not above `lo`
      exact (not_lt.mp fun hlt => (h j hj hlt).not_ge hle).trans_lt hi.1
    · refine .none fun j hj hlt => ?_
      rcases List.mem_append.mp hj with hj | hj
      · exact h j hj hlt
      · rw [List.mem_singleton] at hj
        subst hj
        exact not_le.mp fun hle => hi ⟨hlt, hle⟩
  | some pre k post split above below before after =>
    subst split
    split_ifs with hi
    · refine .some _ i [] rfl (above.trans hi.1) hi.2 (fun j hj hle => ?_) (by simp)
      rcases List.mem_append.mp hj with hj | hj
      · exact (before j hj hle).trans hi.1
      · rcases List.mem_cons.mp hj with rfl | hj
        · exact hi.1
        · exact (after j hj hle).trans_lt hi.1
    · refine .some pre k (post ++ [i]) (by simp) above below before fun j hj hle => ?_
      rcases List.mem_append.mp hj with hj | hj
      · exact after j hj hle
      · rw [List.mem_singleton] at hj
        subst hj
        exact not_lt.mp fun hlt => hi ⟨hlt, hle⟩

variable (key lo hi l) in
theorem found_floor : Found key lo hi l (floor key lo hi l) := by
  induction l using List.reverseRecOn with
  | nil => exact .none (by simp)
  | append_singleton l i ih =>
    rw [floor, List.foldl_append]
    exact ih.take i

variable (key lo hi l) in
/-- The keys in range. -/
def keys : Set α := {v | lo < v ∧ v ≤ hi ∧ ∃ i ∈ l, key i = v}

theorem keys_eq_empty (h : floor key lo hi l = none) : keys key lo hi l = ∅ := by
  have hf := found_floor key lo hi l
  rw [h] at hf
  cases hf with
  | none hf =>
    refine Set.eq_empty_of_forall_notMem ?_
    rintro v ⟨hlo, hhi, j, hj, rfl⟩
    exact (hf j hj hlo).not_ge hhi

theorem isGreatest_floor (h : floor key lo hi l = some i) : IsGreatest (keys key lo hi l) (key i) := by
  have hf := found_floor key lo hi l
  rw [h] at hf
  cases hf with
  | some pre _ post split above below before after =>
    subst split
    refine ⟨⟨above, below, i, by simp, rfl⟩, ?_⟩
    rintro v ⟨-, hhi, j, hj, rfl⟩
    rcases List.mem_append.mp hj with hj | hj
    · exact (before j hj hhi).le
    · rcases List.mem_cons.mp hj with rfl | hj
      · exact le_rfl
      · exact after j hj hhi

/-- In an ascending list the entry found is the least with its key. -/
theorem isLeast_floor [LinearOrder ι] (hl : l.Pairwise (· < ·)) (h : floor key lo hi l = some i) :
    IsLeast {j | j ∈ l ∧ key j = key i} i := by
  have hf := found_floor key lo hi l
  rw [h] at hf
  cases hf with
  | some pre _ post split above below before after =>
    subst split
    refine ⟨⟨by simp, rfl⟩, ?_⟩
    rintro j ⟨hj, hkey⟩
    rcases List.mem_append.mp hj with hj | hj
    · exact absurd hkey (before j hj (hkey ▸ below)).ne
    · rcases List.mem_cons.mp hj with rfl | hj
      · exact le_rfl
      · exact (List.rel_of_pairwise_cons (List.pairwise_append.mp hl).2.1 hj).le

end Floor
