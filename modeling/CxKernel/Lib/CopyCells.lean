import Mathlib.Data.Nat.Notation
import Mathlib.Logic.Function.Basic

/-! Cells copied one after the other, each read when its turn has come. The copy has what the
sources had as long as no source is written before it is read. -/

namespace CopyCells

variable {A V : Type} [DecidableEq A] {mem : A → V} {a : A}

/-- Each pair is a destination and its source. -/
def copyCells (mem : A → V) : List (A × A) → A → V
  | [] => mem
  | (d, s) :: rest => copyCells (Function.update mem d (mem s)) rest

/-- The pairs may be copied in this order: what one writes, no later one reads or writes. -/
def Ordered (ps : List (A × A)) : Prop := ps.Pairwise fun p q => p.1 ≠ q.2 ∧ p.1 ≠ q.1

theorem copyCells_of_notMem {ps : List (A × A)} (h : ∀ p ∈ ps, p.1 ≠ a) :
    copyCells mem ps a = mem a := by
  induction ps generalizing mem with
  | nil => rfl
  | cons p ps ih =>
    obtain ⟨d, s⟩ := p
    rw [copyCells, ih fun p hp => h p (List.mem_cons_of_mem _ hp),
      Function.update_of_ne (h _ List.mem_cons_self).symm]

theorem copyCells_of_mem {ps : List (A × A)} (h : Ordered ps) {d s : A} (hp : (d, s) ∈ ps) :
    copyCells mem ps d = mem s := by
  induction ps generalizing mem with
  | nil => exact absurd hp List.not_mem_nil
  | cons p ps ih =>
    obtain ⟨hfirst, hrest⟩ := List.pairwise_cons.mp h
    rcases List.mem_cons.mp hp with rfl | hp
    · rw [copyCells, copyCells_of_notMem fun q hq => (hfirst q hq).2.symm, Function.update_self]
    · rw [copyCells, ih hrest hp, Function.update_of_ne (hfirst _ hp).1.symm]

end CopyCells
