import Mathlib.Data.Nat.Digits.Lemmas

/-! Numbers written as digits, the most significant one first, and read back. `enc` writes a
digit and `dec` reads one. -/

namespace Numeral

variable {α : Type*} {b : ℕ} {enc : ℕ → α} {dec : α → Option ℕ} {ds : List ℕ}

def numeral (b : ℕ) (enc : ℕ → α) (m : ℕ) : List α := (Nat.digits b m).reverse.map enc

/-- One more digit of a number that is being read. -/
def readDigit (b : ℕ) (dec : α → Option ℕ) (acc : ℕ) (c : α) : Option ℕ := do
  let d ← dec c
  if d < b then some (acc * b + d) else none

def read (b : ℕ) (dec : α → Option ℕ) (cs : List α) : Option ℕ := cs.foldlM (readDigit b dec) 0

theorem length_numeral_le_iff (hb : 1 < b) {k m : ℕ} :
    (numeral b enc m).length ≤ k ↔ m < b ^ k := by
  rw [numeral, List.length_map, List.length_reverse]
  exact Nat.digits_length_le_iff hb m

theorem numeral_ne_nil {m : ℕ} (hm : m ≠ 0) : numeral b enc m ≠ [] := by
  rw [numeral, ne_eq, List.map_eq_nil_iff, List.reverse_eq_nil_iff]
  exact Nat.digits_ne_nil_iff_ne_zero.mpr hm

theorem mem_numeral (hb : 1 < b) {m : ℕ} {c : α} (hc : c ∈ numeral b enc m) :
    ∃ d < b, c = enc d := by
  obtain ⟨d, hd, rfl⟩ := List.mem_map.mp hc
  exact ⟨d, Nat.digits_lt_base hb (List.mem_reverse.mp hd), rfl⟩

section RoundTrip

variable (h : ∀ d < b, dec (enc d) = some d)

include h

theorem readDigit_enc {acc d : ℕ} (hd : d < b) : readDigit b dec acc (enc d) = some (acc * b + d) := by
  rw [readDigit, h d hd, Option.bind_eq_bind, Option.bind_some, if_pos hd]

/-- Digits from the least significant one on are read from the end. -/
theorem foldlM_reverse_map (hds : ∀ d ∈ ds, d < b) :
    (ds.reverse.map enc).foldlM (readDigit b dec) 0 = some (Nat.ofDigits b ds) := by
  induction ds with
  | nil => rfl
  | cons d ds ih =>
    rw [List.reverse_cons, List.map_append, List.foldlM_append,
      ih fun e he => hds e (List.mem_cons_of_mem d he), Option.bind_eq_bind, Option.bind_some,
      List.map_singleton, List.foldlM_cons, readDigit_enc h (hds d List.mem_cons_self),
      Nat.ofDigits_cons, Nat.mul_comm, Nat.add_comm]
    rfl

theorem read_numeral (hb : 1 < b) (m : ℕ) : read b dec (numeral b enc m) = some m := by
  rw [read, numeral, foldlM_reverse_map h fun d => Nat.digits_lt_base hb, Nat.ofDigits_digits]

/-- Zeros in front make no difference. -/
theorem read_replicate_zero (hb : 0 < b) (k : ℕ) (cs : List α) :
    read b dec (List.replicate k (enc 0) ++ cs) = read b dec cs := by
  induction k with
  | zero => rfl
  | succ k ih =>
    rw [List.replicate_succ, List.cons_append, read, List.foldlM_cons, readDigit_enc h hb,
      Nat.zero_mul, Option.bind_eq_bind, Option.bind_some]
    exact ih

end RoundTrip

end Numeral
