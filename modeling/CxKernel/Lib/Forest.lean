import Mathlib.Logic.Relation
import Mathlib.Logic.Relator

/-! Forests, given by which nodes are the children of which: no node has two parents. If
every path down from a node ends, none leads back to it, and what is below one of its
children is below no other. -/

namespace Forest

open Relation

universe u

variable {α : Type u} {child : α → α → Prop} {x y c d : α}

theorem not_below_self (hfin : Acc (Function.swap child) x) : ¬ TransGen child x x := by
  intro hx
  have hback : TransGen (Function.swap child) x x := transGen_swap.mpr hx
  have hacc := hfin.transGen
  clear hx hfin
  induction hacc with
  | intro z _ ih => exact ih z hback hback

theorem not_reach_parent (hfin : Acc (Function.swap child) x) (hc : child x c) :
    ¬ ReflTransGen child c x :=
  fun hx => not_below_self hfin (TransGen.head' hc hx)

/-- What is below a node is below one of its children, or is one of these. -/
theorem below_iff : TransGen child x y ↔ ∃ c, child x c ∧ ReflTransGen child c y :=
  TransGen.head'_iff

/-- Two ways up from a node are the same as far as they both go. -/
theorem reach_total (huniq : Relator.LeftUnique child) (hc : ReflTransGen child c y)
    (hd : ReflTransGen child d y) : ReflTransGen child c d ∨ ReflTransGen child d c := by
  have hright : Relator.RightUnique (Function.swap child) := fun _ _ _ h h' => huniq h h'
  have htotal := ReflTransGen.total_of_right_unique hright
    (reflTransGen_swap.mpr hc) (reflTransGen_swap.mpr hd)
  rcases htotal with hcd | hdc
  · exact Or.inr (reflTransGen_swap.mp hcd)
  · exact Or.inl (reflTransGen_swap.mp hdc)

theorem eq_of_reach_sibling (huniq : Relator.LeftUnique child)
    (hfin : Acc (Function.swap child) x) (hc : child x c) (hd : child x d)
    (hcd : ReflTransGen child c d) : c = d := by
  rcases ReflTransGen.cases_tail hcd with heq | ⟨p, hp, hpd⟩
  · exact heq.symm
  · obtain rfl := huniq hpd hd
    exact absurd hp (not_reach_parent hfin hc)

/-- The children of one node share nothing that is below them. -/
theorem sibling_eq (huniq : Relator.LeftUnique child) (hfin : Acc (Function.swap child) x)
    (hc : child x c) (hd : child x d) (hcy : ReflTransGen child c y)
    (hdy : ReflTransGen child d y) : c = d := by
  rcases reach_total huniq hcy hdy with hcd | hdc
  · exact eq_of_reach_sibling huniq hfin hc hd hcd
  · exact (eq_of_reach_sibling huniq hfin hd hc hdc).symm

end Forest
