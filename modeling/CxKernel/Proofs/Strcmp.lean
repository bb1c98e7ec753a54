import CxKernel.Proofs.Strstr

/-! `strcmp` against the lexicographic order of the two strings. Its loop ends within the second
string whatever is at the first pointer. -/

namespace CxKernel.Strings

variable {n : ℕ} {mem : Mem n} {r : Ptr n → Bool} {s1 s2 p : Ptr n} {a b s : List (BitVec 8)}
  {c : BitVec 8}

theorem Given.tail (h : Given mem r p (c :: s)) : Given mem r (p + 1) s := by
  have hfits := h.str.fits
  rw [List.length_cons] at hfits
  have hone : (p + 1).toNat = p.toNat + 1 := toNat_add_ofNat (i := 1) (by omega)
  refine ⟨⟨fun i hi => ?_, fun hmem => ?_, ?_, by omega⟩, fun i hi => ?_, ?_⟩
  · have hbyte := h.str.byte (i + 1) (Nat.succ_lt_succ hi)
    rwa [List.getElem_cons_succ, add_comm i 1, ← add_ofNat_add] at hbyte
  · exact h.str.nonzero (List.mem_cons_of_mem c hmem)
  · have hnul := h.str.nul
    rwa [List.length_cons, Nat.add_comm, ← add_ofNat_add] at hnul
  · have hread := h.readable (i + 1) (Nat.succ_le_succ hi)
    rwa [Nat.add_comm, ← add_ofNat_add] at hread
  · exact h.addr_ne_zero (i := 1) (Nat.succ_le_succ (Nat.zero_le _))

theorem Given.readByte_nul (h : Given mem r p []) : readByte r mem p = some 0 := by
  have hread := h.readByte_eq (Nat.zero_le _)
  rwa [BitVec.add_zero] at hread

theorem Given.readByte_head (h : Given mem r p (c :: s)) : readByte r mem p = some c := by
  have hread := h.readByte_eq (Nat.zero_le _)
  rwa [BitVec.add_zero] at hread

theorem Given.head_ne_zero (h : Given mem r p (c :: s)) : c ≠ 0 := fun hzero =>
  h.str.nonzero (hzero ▸ List.mem_cons_self)

/-- One round, on the two bytes it reads. -/
theorem strcmp_eq {u1 u2 : BitVec 8} (h1 : readByte r mem s1 = some u1)
    (h2 : readByte r mem s2 = some u2) : strcmp r mem s1 s2 =
      if u1 ≠ 0 ∧ u1 = u2 then strcmp r mem (s1 + 1) (s2 + 1)
      else some ((u1.toNat : ℤ) - u2.toNat) := by
  rw [strcmp, h1, h2]
  rfl

theorem sub_eq_zero_iff {u1 u2 : BitVec 8} : (u1.toNat : ℤ) - u2.toNat = 0 ↔ u1 = u2 := by
  rw [← BitVec.toNat_inj]
  omega

/-- A byte decides where the strings differ first. -/
theorem Given.strcmp_order (h₁ : Given mem r s1 a) (h₂ : Given mem r s2 b) :
    ∃ d, strcmp r mem s1 s2 = some d ∧ (d = 0 ↔ a = b) ∧ (d < 0 ↔ a < b) ∧ (0 < d ↔ b < a) := by
  induction a generalizing b s1 s2 with
  | nil =>
    cases b with
    | nil =>
      rw [strcmp_eq h₁.readByte_nul h₂.readByte_nul, if_neg fun h => h.1 rfl]
      exact ⟨_, rfl, by simp⟩
    | cons y b =>
      rw [strcmp_eq h₁.readByte_nul h₂.readByte_head, if_neg fun h => h.1 rfl]
      have hy : y.toNat ≠ 0 := fun h => h₂.head_ne_zero (BitVec.eq_of_toNat_eq h)
      refine ⟨_, rfl, ?_, ?_, ?_⟩
      · simpa using hy
      · simp
        omega
      · simp
  | cons x a ih =>
    have hx := h₁.head_ne_zero
    cases b with
    | nil =>
      rw [strcmp_eq h₁.readByte_head h₂.readByte_nul, if_neg fun h => hx h.2]
      have hpos : x.toNat ≠ 0 := fun h => hx (BitVec.eq_of_toNat_eq h)
      refine ⟨_, rfl, ?_, ?_, ?_⟩
      · simpa using hpos
      · simp
      · simp
        omega
    | cons y b =>
      rw [strcmp_eq h₁.readByte_head h₂.readByte_head]
      simp only [List.cons_lt_cons_iff, List.cons.injEq]
      by_cases hxy : x = y
      · subst hxy
        obtain ⟨d, hd, heq, hlt, hgt⟩ := ih h₁.tail h₂.tail
        rw [if_pos ⟨hx, rfl⟩]
        exact ⟨d, hd, by simpa using heq, by simpa using hlt, by simpa using hgt⟩
      · rw [if_neg fun h => hxy h.2]
        refine ⟨_, rfl, ?_, ?_, ?_⟩
        · rw [sub_eq_zero_iff]
          exact iff_of_false hxy fun h => hxy h.1
        · rw [BitVec.lt_def]
          simp only [hxy, false_and, or_false]
          omega
        · rw [BitVec.lt_def]
          simp only [Ne.symm hxy, false_and, or_false]
          omega

/-- The result is negative, zero or positive as the first string is less than the second, equal
to it or greater, and no byte is read behind the end of either. -/
theorem strcmp_lexicographic (h₁ : CStr mem s1 a) (h₂ : CStr mem s2 b) (hs1 : s1 ≠ 0)
    (hs2 : s2 ≠ 0) : ∃ d, strcmp (both s1 s2 a b) mem s1 s2 = some d ∧
      (d < 0 ↔ a < b) ∧ (d = 0 ↔ a = b) ∧ (0 < d ↔ b < a) := by
  obtain ⟨hgiven₁, hgiven₂⟩ := given_both h₁ h₂ hs1 hs2
  obtain ⟨d, hd, heq, hlt, hgt⟩ := hgiven₁.strcmp_order hgiven₂
  exact ⟨d, hd, hlt, heq, hgt⟩

theorem strcmp_lexicographic_samples :
    ∃ d, strcmp (both 0x1000 0x2000 [97, 98, 97, 98] [98, 97]) samples 0x1000 0x2000 = some d ∧
      d < 0 := by
  have hsecond : CStr samples 0x2000 [98, 97] := ⟨by decide, by decide, by decide, by decide⟩
  obtain ⟨d, hd, hlt, -⟩ := strcmp_lexicographic samples_text hsecond (by decide) (by decide)
  exact ⟨d, hd, hlt.mpr (by decide)⟩

/-- The string `s`, and a NUL behind it. -/
def Spells (mem : Mem n) : Ptr n → List (BitVec 8) → Prop
  | p, [] => mem p = 0
  | p, c :: s => mem p = c ∧ Spells mem (p + 1) s

instance instDecidableSpells (mem : Mem n) : (p : Ptr n) → (s : List (BitVec 8)) →
    Decidable (Spells mem p s)
  | p, [] => inferInstanceAs (Decidable (mem p = 0))
  | p, _ :: s => @instDecidableAnd _ _ _ (instDecidableSpells mem (p + 1) s)

theorem Spells.congr {m m' : Mem n} (h : ∀ i < s.length + 1, m' (p + .ofNat _ i) = m (p + .ofNat _ i)) (hs : Spells m p s) :
    Spells m' p s := by
  have hhead := h 0 (Nat.succ_pos _)
  rw [BitVec.add_zero] at hhead
  induction s generalizing p with
  | nil => exact hhead.trans hs
  | cons c s ih =>
    refine ⟨hhead.trans hs.1, ih (fun i hi => ?_) hs.2 ?_⟩
    · have hbyte := h (i + 1) (Nat.succ_lt_succ hi)
      rwa [Nat.add_comm, ← add_ofNat_add] at hbyte
    · exact h 1 (Nat.succ_lt_succ (Nat.succ_pos _))

theorem strcmp_unchecked (s1 s2 : Ptr n) : strcmp (fun _ => true) mem s1 s2 =
    if mem s1 ≠ 0 ∧ mem s1 = mem s2 then strcmp (fun _ => true) mem (s1 + 1) (s2 + 1)
    else some (((mem s1).toNat : ℤ) - (mem s2).toNat) := strcmp_eq rfl rfl

/-- Against a string, `strcmp` ends, and is zero where the other pointer has the same string. -/
theorem strcmp_spells (hs : Spells mem s2 b) (hb : 0 ∉ b) (s1 : Ptr n) :
    ∃ d, strcmp (fun _ => true) mem s1 s2 = some d ∧ (d = 0 ↔ Spells mem s1 b) := by
  induction b generalizing s1 s2 with
  | nil =>
    rw [strcmp_unchecked, show mem s2 = 0 from hs, if_neg fun h => h.1 h.2]
    exact ⟨_, rfl, sub_eq_zero_iff⟩
  | cons y b ih =>
    obtain ⟨rfl, htail⟩ := hs
    rw [List.mem_cons, not_or] at hb
    obtain ⟨hy, hrest⟩ := hb
    rw [strcmp_unchecked, Spells]
    by_cases hne : mem s1 = mem s2
    · obtain ⟨d, hd, hiff⟩ := ih htail hrest (s1 + 1)
      rw [if_pos ⟨hne ▸ Ne.symm hy, hne⟩]
      exact ⟨d, hd, by rw [hiff, and_iff_right hne]⟩
    · rw [if_neg fun h => hne h.2]
      exact ⟨_, rfl, sub_eq_zero_iff.trans (iff_of_false hne fun h => hne h.1)⟩

end CxKernel.Strings
