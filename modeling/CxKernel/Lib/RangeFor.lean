import Mathlib.Data.Nat.Notation
import Mathlib.Data.Option.Basic

/-! Range-for loops over iterators that may fault, and may never reach their end. -/

namespace RangeFor

/-- What the loop does with an iterator. Dereferencing may move it. -/
structure Cursor (I A : Type) where
  atEnd : I → Bool
  deref : I → Option (A × I)
  incr : I → Option I

variable {I A : Type} {c : Cursor I A} {it it₁ it₂ it' : I} {a : A} {xs ys : List A}

/-- What the body sees from `it` on, if the loop gets to its end. -/
def visit (c : Cursor I A) (it : I) : Option (List A) :=
  -- the loop as a value: a written call would keep its place in the text in the definition
  haveI visit : Cursor I A → I → Option (List A) := by apply visit
  if c.atEnd it then some []
  else do
    let (a, it) ← c.deref it
    let it ← c.incr it
    let rest ← visit c it
    return a :: rest
partial_fixpoint

theorem visit_end (h : c.atEnd it = true) : visit c it = some [] := by
  rw [visit, if_pos h]

theorem visit_step (hgo : c.atEnd it = false) (hderef : c.deref it = some (a, it₁))
    (hincr : c.incr it₁ = some it₂) : visit c it = (visit c it₂).map (a :: ·) := by
  rw [visit, if_neg (Bool.eq_false_iff.mp hgo), hderef, Option.bind_eq_bind, Option.bind_some]
  dsimp only
  rw [hincr, Option.bind_eq_bind, Option.bind_some, Option.map_eq_bind]
  rfl

theorem visit_of_deref_none (hgo : c.atEnd it = false) (hderef : c.deref it = none) :
    visit c it = none := by
  rw [visit, if_neg (Bool.eq_false_iff.mp hgo), hderef]
  rfl

theorem visit_of_incr_none (hgo : c.atEnd it = false) (hderef : c.deref it = some (a, it₁))
    (hincr : c.incr it₁ = none) : visit c it = none := by
  rw [visit, if_neg (Bool.eq_false_iff.mp hgo), hderef, Option.bind_eq_bind, Option.bind_some]
  dsimp only
  rw [hincr]
  rfl

/-- Two iterators that dereference alike. -/
theorem visit_congr (hgo : c.atEnd it = false) (hgo₁ : c.atEnd it₁ = false)
    (hderef : c.deref it = c.deref it₁) : visit c it = visit c it₁ := by
  rw [visit, visit, if_neg (Bool.eq_false_iff.mp hgo), if_neg (Bool.eq_false_iff.mp hgo₁), hderef]

/-- A loop that has not ended sees something more. -/
theorem ne_nil_of_visit (hgo : c.atEnd it = false) (h : visit c it = some xs) : xs ≠ [] := by
  rw [visit, if_neg (Bool.eq_false_iff.mp hgo)] at h
  obtain ⟨⟨a, it₁⟩, -, h⟩ := Option.bind_eq_some_iff.mp h
  obtain ⟨it₂, -, h⟩ := Option.bind_eq_some_iff.mp h
  obtain ⟨rest, -, h⟩ := Option.bind_eq_some_iff.mp h
  cases h
  exact List.cons_ne_nil _ _

/-- The loop with a body that may leave it, and what it is left with. The body can fail too. -/
def search (c : Cursor I A) (body : A → Option Bool) (it : I) : Option (Option A) :=
  haveI search : Cursor I A → (A → Option Bool) → I → Option (Option A) := by apply search
  if c.atEnd it then some none
  else do
    let (a, it) ← c.deref it
    if ← body a then return some a
    else
      let it ← c.incr it
      search c body it
partial_fixpoint

variable {body : A → Option Bool}

theorem search_end (h : c.atEnd it = true) : search c body it = some none := by
  rw [search, if_pos h]

theorem search_found (hgo : c.atEnd it = false) (hderef : c.deref it = some (a, it₁))
    (ha : body a = some true) : search c body it = some (some a) := by
  rw [search, if_neg (Bool.eq_false_iff.mp hgo), hderef, Option.bind_eq_bind, Option.bind_some]
  dsimp only
  rw [ha]
  rfl

theorem search_step (hgo : c.atEnd it = false) (hderef : c.deref it = some (a, it₁))
    (ha : body a = some false) (hincr : c.incr it₁ = some it₂) :
    search c body it = search c body it₂ := by
  rw [search, if_neg (Bool.eq_false_iff.mp hgo), hderef, Option.bind_eq_bind, Option.bind_some]
  dsimp only
  rw [ha, hincr]
  rfl

theorem search_congr (hgo : c.atEnd it = false) (hgo₁ : c.atEnd it₁ = false)
    (hderef : c.deref it = c.deref it₁) : search c body it = search c body it₁ := by
  rw [search, search, if_neg (Bool.eq_false_iff.mp hgo), if_neg (Bool.eq_false_iff.mp hgo₁),
    hderef]

theorem search_of_deref_none (hgo : c.atEnd it = false) (hderef : c.deref it = none) :
    search c body it = none := by
  rw [search, if_neg (Bool.eq_false_iff.mp hgo), hderef]
  rfl

/-- The loop gets from `it` to `it'` and sees `xs` on the way. -/
inductive Sees (c : Cursor I A) : I → List A → I → Prop
  | nil (it : I) : Sees c it [] it
  | cons {it it₁ it₂ it' : I} {a : A} {xs : List A} (go : c.atEnd it = false)
      (deref : c.deref it = some (a, it₁)) (incr : c.incr it₁ = some it₂)
      (rest : Sees c it₂ xs it') : Sees c it (a :: xs) it'

theorem Sees.snoc (h : Sees c it xs it') (go : c.atEnd it' = false)
    (deref : c.deref it' = some (a, it₁)) (incr : c.incr it₁ = some it₂) :
    Sees c it (xs ++ [a]) it₂ := by
  induction h with
  | nil it => exact .cons go deref incr (.nil it₂)
  | cons go' deref' incr' rest ih => exact .cons go' deref' incr' (ih go deref)

theorem Sees.visit_eq (h : Sees c it xs it') : visit c it = (visit c it').map (xs ++ ·) := by
  induction h with
  | nil it => exact Option.map_id'.symm
  | cons go deref incr rest ih =>
    rw [visit_step go deref incr, ih, Option.map_map]
    rfl

theorem Sees.visit_eq_some (h : Sees c it xs it') (hend : c.atEnd it' = true) :
    visit c it = some xs := by
  rw [h.visit_eq, visit_end hend, Option.map_some, List.append_nil]

/-- Where the loop goes on, it sees more. -/
theorem Sees.visit_ne (h : Sees c it xs it') (hgo : c.atEnd it' = false) :
    visit c it ≠ some xs := by
  rw [h.visit_eq]
  intro hvisit
  obtain ⟨ys, hys, happ⟩ := Option.map_eq_some_iff.mp hvisit
  exact ne_nil_of_visit hgo hys (List.append_right_eq_self.mp happ)

end RangeFor
