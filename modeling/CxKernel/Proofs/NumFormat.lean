import CxKernel.Proofs.NumText

/-! The characters `num` writes: they denote the number, and where they fill the width. -/

namespace CxKernel.Stdio

variable {flags base : BitVec 8} {v : BitVec 64} {width percision : ℤ} {k m : ℕ}

/-- What digits in `base` say, of either case. -/
def readNum (base : BitVec 8) (cs : List (BitVec 8)) : Option ℕ :=
  Numeral.read base.toNat digitValue cs

theorem digit_zero (flags : BitVec 8) : digit flags 0 = ch '0' := rfl

theorem digit_mem {d : ℕ} (hd : d < 16) : digit flags d ∈ baseStr flags := by
  rw [digit, List.getD_eq_getElem _ _ (by rwa [length_baseStr])]
  exact List.getElem_mem _

theorem numText_ne_nil : numText base flags m ≠ [] := by
  unfold numText
  split_ifs with hm
  · exact List.cons_ne_nil _ _
  · exact Numeral.numeral_ne_nil hm

theorem mem_numText (h : Base base) {c : BitVec 8} (hc : c ∈ numText base flags m) :
    ∃ d < base.toNat, c = digit flags d := by
  have hle := h.le
  unfold numText at hc
  split_ifs at hc
  · exact ⟨0, by omega, List.mem_singleton.mp hc⟩
  · exact Numeral.mem_numeral (by omega) hc

/-- The text of a number reads as that number, and so it does behind zeros. -/
theorem readNum_numText (h : Base base) :
    readNum base (List.replicate k (ch '0') ++ numText base flags m) = some m := by
  have hle := h.le
  have hdec : ∀ d < base.toNat, digitValue (digit flags d) = some d :=
    fun d hd => digitValue_digit (hd.trans_le hle.2)
  have hzeros := Numeral.read_replicate_zero hdec (by omega) k (numText base flags m)
  rw [digit_zero] at hzeros
  rw [readNum, hzeros]
  unfold numText
  split_ifs with hm
  · subst hm
    exact Numeral.read_replicate_zero hdec (by omega) 1 []
  · exact Numeral.read_numeral hdec (by omega) m

/-- The parts say the number `v`, signed if the flags say so. -/
structure Parts.Denotes (p : Parts) (v : BitVec 64) (base flags : BitVec 8) : Prop where
  sign : p.sign ∈ [[], [ch '-'], [ch '+'], [ch ' ']]
  minus : p.sign = [ch '-'] ↔ has flags SIGNED ∧ v.slt 0
  digits : p.digits ≠ []
  alphabet : ∀ c ∈ p.digits, c ∈ baseStr flags
  value : readNum base (List.replicate p.zeros (ch '0') ++ p.digits) = some (magnitude flags v)

theorem signText_mem : signText flags v ∈ [[], [ch '-'], [ch '+'], [ch ' ']] := by
  unfold signText
  split_ifs <;> decide

theorem signText_eq_minus_iff : signText flags v = [ch '-'] ↔ has flags SIGNED ∧ v.slt 0 := by
  unfold signText
  split_ifs with hneg hs hsp hfp
  · exact iff_of_true rfl ⟨hs, hneg⟩
  · exact iff_of_false (by decide) fun h => hs h.1
  · exact iff_of_false (by decide) fun h => hneg h.2
  · exact iff_of_false (by decide) fun h => hneg h.2
  · exact iff_of_false (by decide) fun h => hneg h.2

theorem parts_denotes (h : Base base) (width percision : ℤ) :
    (parts base flags v width percision).Denotes v base flags where
  sign := signText_mem
  minus := signText_eq_minus_iff
  digits := numText_ne_nil
  alphabet c hc := by
    obtain ⟨d, hd, rfl⟩ := mem_numText h hc
    exact digit_mem (hd.trans_le h.le.2)
  value := readNum_numText h

/-- For every number, base and flags `num` ends, keeps inside its digit buffer, and writes the
number. -/
theorem num_denotes (h : Base base) (v : BitVec 64) (flags : BitVec 8) (width percision : ℤ) :
    ∃ out p, num v base flags width percision = some out ∧ out.emitted = Parts.text p base flags ∧
      p.Denotes v base flags :=
  ⟨_, parts base flags v width percision, num_eq h, rfl, parts_denotes h _ _⟩

theorem num_denotes_octal : ∃ out p, num 0xFFFFFFFFFFFFFFFF 8 PREFIX 30 (-1) = some out ∧
    out.emitted = Parts.text p 8 PREFIX ∧ p.Denotes 0xFFFFFFFFFFFFFFFF 8 PREFIX :=
  num_denotes (Or.inl rfl) _ _ _ _

/-! The width. -/

/-- The digits, the prefix, and the sign of a signed number. -/
def fieldChars (base flags : BitVec 8) (v : BitVec 64) : ℕ :=
  max 1 (Nat.digits base.toNat (magnitude flags v)).length +
    (if has flags PREFIX ∧ base = 16 then 2 else if has flags PREFIX ∧ base = 8 then 1 else 0) +
    if has flags SIGNED ∧ (v.slt 0 ∨ has flags FPLUS ∨ has flags SPLUS) then 1 else 0

/-- The sign that an unsigned number is given. -/
def extraSign (flags : BitVec 8) (v : BitVec 64) : Bool :=
  ¬ has flags SIGNED ∧ ¬ v.slt 0 ∧ (has flags FPLUS ∨ has flags SPLUS)

/-- What is written fills the width, or is what would be written without one. -/
def WidthKept (v : BitVec 64) (base flags : BitVec 8) (width percision : ℤ) : Prop :=
  ∃ out narrow, num v base flags width percision = some out ∧
    num v base flags 0 percision = some narrow ∧
    (out.emitted.length : ℤ) = max width narrow.emitted.length

theorem length_numText : (numText base flags m).length = max 1 (Nat.digits base.toNat m).length := by
  unfold numText
  split_ifs with hm
  · rw [hm, Nat.digits_zero]
    rfl
  · have hpos := List.length_pos_of_ne_nil (Nat.digits_ne_nil_iff_ne_zero (b := base.toNat).mpr hm)
    rw [Numeral.numeral, List.length_map, List.length_reverse, max_eq_right hpos]

theorem counted_eq : counted base flags v = fieldChars base flags v := by
  rw [counted, fieldChars, length_numText, length_prefixText, signWidth_eq]
  congr 1
  exact if_congr (by rw [and_or_left, and_or_left]) rfl rfl

theorem length_signText (flags : BitVec 8) (v : BitVec 64) :
    (signText flags v).length = signWidth flags v + (extraSign flags v).toNat := by
  unfold signWidth signText extraSign
  generalize v.slt 0 = neg, has flags SIGNED = signed, has flags SPLUS = splus,
    has flags FPLUS = fplus
  revert neg signed splus fplus
  decide

theorem length_parts : ((parts base flags v width percision).text base flags).length =
    padding base flags v width + percision.toNat + fieldChars base flags v +
      (extraSign flags v).toNat := by
  have hpads : (parts base flags v width percision).lead + (parts base flags v width percision).zeros +
      (parts base flags v width percision).trail = percision.toNat + padding base flags v width := by
    unfold parts
    by_cases hz : has flags ZEROPAD = true
    · simp [hz]
    · by_cases hl : has flags LEFT = true
      · simp [hz, hl]
      · simp [hz, hl, Nat.add_comm]
  have hsign := length_signText flags v
  rw [Parts.text, List.length_append, List.length_append, List.length_append, List.length_append,
    List.length_append, List.length_replicate, List.length_replicate, List.length_replicate,
    ← counted_eq, counted]
  dsimp only [parts] at hpads ⊢
  omega

theorem widthKept_iff_length (h : Base base) : WidthKept v base flags width percision ↔
    (((parts base flags v width percision).text base flags).length : ℤ) =
      max width ((parts base flags v 0 percision).text base flags).length := by
  refine ⟨?_, fun hlen => ⟨_, _, num_eq h, num_eq h, hlen⟩⟩
  rintro ⟨out, narrow, hout, hnum, hlen⟩
  obtain rfl := Option.some.inj ((num_eq h).symm.trans hout)
  obtain rfl := Option.some.inj ((num_eq h).symm.trans hnum)
  exact hlen

/-- The zeros of a precision and the sign of an unsigned number are not counted, so the width is
kept unless one of them comes with padding. -/
theorem num_width_iff (h : Base base) (v : BitVec 64) (flags : BitVec 8) (width percision : ℤ) :
    WidthKept v base flags width percision ↔
      width ≤ fieldChars base flags v ∨ percision ≤ 0 ∧ extraSign flags v = false := by
  rw [widthKept_iff_length h, length_parts, length_parts, padding, padding, counted_eq]
  cases extraSign flags v
  · simp only [Bool.toNat_false, and_true]
    omega
  · simp only [Bool.toNat_true, Bool.true_eq_false, and_false, or_false]
    omega

theorem num_width_iff_signed : WidthKept (-5) 10 SIGNED 6 (-1) ↔
    6 ≤ (fieldChars 10 SIGNED (-5) : ℤ) ∨ (-1 : ℤ) ≤ 0 ∧ extraSign SIGNED (-5) = false :=
  num_width_iff (Or.inr (Or.inl rfl)) _ _ _ _

/-- `5` with a precision of 3 in a field of 5. -/
theorem width_not_kept : ¬ WidthKept 5 10 0 5 3 := by
  rw [widthKept_iff_length (Or.inr (Or.inl rfl)), length_parts, length_parts]
  decide

end CxKernel.Stdio
