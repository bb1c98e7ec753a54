import CxKernel.Lib.Floor
import CxKernel.Spec.Elf

/-! Symbol lookup finds the greatest value not above the address, and both lookups find
the same symbol. Each of the two loops is one pass over the values of the table. -/

namespace CxKernel.Elf.Context64

open ByteMem Floor

variable (mem : Bytes) (ctx : Context64) (addr : BitVec 64)

/-- `tab[i].st_value`, as a number. -/
def value (i : ℕ) : ℕ := (stValue mem (ctx.symbol i)).toNat

/-- The values that are not 0 and not above the address. -/
def candidates : Set ℕ := {v | 0 < v ∧ v ≤ addr.toNat ∧ ∃ i < ctx.count, value mem ctx i = v}

/-- The symbol a pass over the first symbols holds. -/
def held (l : List ℕ) : Option ℕ := floor (value mem ctx) 0 addr.toNat l

theorem held_append (l : List ℕ) (i : ℕ) : held mem ctx addr (l ++ [i]) =
    take (value mem ctx) 0 addr.toNat (held mem ctx addr l) i := by
  simp [held, floor]

/-- The value held, as the loops keep it. -/
def val (s : Option ℕ) : BitVec 64 := s.elim 0 fun i => stValue mem (ctx.symbol i)

theorem toNat_val (s : Option ℕ) : (val mem ctx s).toNat = heldKey (value mem ctx) 0 s := by
  cases s <;> rfl

/-- Both loops take a symbol where the pass does. -/
theorem taken_iff (s : Option ℕ) (i : ℕ) :
    (stValue mem (ctx.symbol i) > val mem ctx s ∧ stValue mem (ctx.symbol i) ≤ addr) ↔
      heldKey (value mem ctx) 0 s < value mem ctx i ∧ value mem ctx i ≤ addr.toNat := by
  rw [gt_iff_lt, BitVec.lt_def, BitVec.le_def, toNat_val]
  rfl

theorem addrLoop (l : List ℕ) :
    l.foldl (addrStep mem ctx addr) 0 = val mem ctx (held mem ctx addr l) := by
  induction l using List.reverseRecOn with
  | nil => rfl
  | append_singleton l i ih =>
    rw [List.foldl_append, ih, held_append, List.foldl_cons, List.foldl_nil, addrStep, take]
    simp only [taken_iff]
    split_ifs <;> rfl

theorem nameLoop (l : List ℕ) : l.foldl (nameStep mem ctx addr) (none, 0) =
    ((held mem ctx addr l).map ctx.symbol, val mem ctx (held mem ctx addr l)) := by
  induction l using List.reverseRecOn with
  | nil => rfl
  | append_singleton l i ih =>
    rw [List.foldl_append, ih, held_append, List.foldl_cons, List.foldl_nil, nameStep, take]
    simp only [taken_iff]
    split_ifs <;> rfl

/-- The symbol both lookups find. -/
def found : Option ℕ := held mem ctx addr (List.range ctx.count)

theorem getSymbolAddr_eq : getSymbolAddr mem ctx addr = val mem ctx (found mem ctx addr) :=
  addrLoop mem ctx addr _

theorem getSymbolName_eq : getSymbolName mem ctx addr =
    (found mem ctx addr).map fun i => nameOf mem ctx (ctx.symbol i) := by
  rw [getSymbolName, nameLoop, found]
  exact Option.map_map ..

theorem keys_eq : keys (value mem ctx) 0 addr.toNat (List.range ctx.count) =
    candidates mem ctx addr := by
  simp only [keys, candidates, List.mem_range]

/-- Lookup is the greatest lower bound, and the name belongs to the first symbol there. -/
theorem symbol_lookup :
    (IsGreatest (candidates mem ctx addr) (getSymbolAddr mem ctx addr).toNat ∨
      candidates mem ctx addr = ∅ ∧ getSymbolAddr mem ctx addr = 0) ∧
    (getSymbolName mem ctx addr = none ↔ getSymbolAddr mem ctx addr = 0) ∧
    (getSymbolAddr mem ctx addr ≠ 0 → ∃ i,
      IsLeast {j | j < ctx.count ∧ stValue mem (ctx.symbol j) = getSymbolAddr mem ctx addr} i ∧
      getSymbolName mem ctx addr = some (nameOf mem ctx (ctx.symbol i))) := by
  rw [getSymbolAddr_eq, getSymbolName_eq, ← keys_eq]
  cases h : found mem ctx addr with
  | none =>
    exact ⟨Or.inr ⟨keys_eq_empty h, rfl⟩, by simp [val], fun hne => absurd rfl hne⟩
  | some i =>
    have hgreatest := isGreatest_floor h
    have hne : val mem ctx (some i) ≠ 0 := by
      intro h0
      have hpos := hgreatest.1.1
      rw [show value mem ctx i = (val mem ctx (some i)).toNat from rfl, h0] at hpos
      exact lt_irrefl _ hpos
    refine ⟨Or.inl hgreatest, iff_of_false (Option.some_ne_none _) hne, fun _ => ⟨i, ?_, rfl⟩⟩
    have hleast := isLeast_floor List.pairwise_lt_range h
    simpa only [List.mem_range, value, BitVec.toNat_inj, val, Option.elim_some] using hleast

end CxKernel.Elf.Context64
