import CxKernel.Lib.Numeral
import CxKernel.Spec.Stdio
import Mathlib.Data.List.GetD

/-! `num` in closed form: what it writes, and in which order. -/

namespace CxKernel.Stdio

variable {flags base : BitVec 8} {v : BitVec 64} {width percision w : ℤ} {out : Out}
  {c : BitVec 8} {cs ds : List (BitVec 8)} {k m : ℕ}

namespace Out

/-- The characters `cs`, written and counted. -/
def puts (out : Out) (cs : List (BitVec 8)) : Out :=
  { out with emitted := out.emitted ++ cs, written := out.written + cs.length }

@[simp] theorem puts_emitted (out : Out) (cs : List (BitVec 8)) :
    (out.puts cs).emitted = out.emitted ++ cs := rfl

@[simp] theorem puts_written (out : Out) (cs : List (BitVec 8)) :
    (out.puts cs).written = out.written + cs.length := rfl

@[simp] theorem puts_stored (out : Out) (cs : List (BitVec 8)) :
    (out.puts cs).stored = out.stored := rfl

@[simp] theorem puts_nil (out : Out) : out.puts [] = out := by
  cases out
  simp [puts]

@[simp] theorem puts_puts (out : Out) (cs ds : List (BitVec 8)) :
    (out.puts cs).puts ds = out.puts (cs ++ ds) := by
  simp [puts, add_assoc]

theorem f_eq (out : Out) (c : BitVec 8) : out.f c = out.puts [c] := rfl

theorem add_puts (out : Out) (cs : List (BitVec 8)) : out.add (empty.puts cs) = out.puts cs := by
  simp [add, puts, empty]

theorem pad_eq (c : BitVec 8) (out : Out) (w : ℤ) :
    out.pad c w = (out.puts (List.replicate w.toNat c), min w 0 - 1) := by
  induction hk : w.toNat generalizing out w with
  | zero =>
    rw [pad, if_neg (by omega), List.replicate_zero, puts_nil, min_eq_left (by omega)]
  | succ k ih =>
    rw [pad, if_pos (by omega), ih _ _ (by omega), f_eq, puts_puts]
    rw [List.replicate_succ, min_eq_right (by omega), min_eq_right (by omega)]
    rfl

theorem padPre_eq (c : BitVec 8) (out : Out) (w : ℤ) :
    out.padPre c w = (out.puts (List.replicate (w - 1).toNat c), min (w - 1) 0) := by
  induction hk : (w - 1).toNat generalizing out w with
  | zero =>
    rw [padPre, if_neg (by omega), List.replicate_zero, puts_nil, min_eq_left (by omega)]
  | succ k ih =>
    rw [padPre, if_pos (by omega), ih _ _ (by omega), f_eq, puts_puts]
    rw [List.replicate_succ, min_eq_right (by omega), min_eq_right (by omega)]
    rfl

end Out

/-! The digits. -/

/-- The character for a digit. -/
def digit (flags : BitVec 8) (d : ℕ) : BitVec 8 := (baseStr flags).getD d 0

/-- What a character stands for, in whichever case. -/
def digitValue (c : BitVec 8) : Option ℕ :=
  if isDigit c then some (c.toNat - (ch '0').toNat)
  else if ch 'a' ≤ c ∧ c ≤ ch 'f' then some (c.toNat - (ch 'a').toNat + 10)
  else if ch 'A' ≤ c ∧ c ≤ ch 'F' then some (c.toNat - (ch 'A').toNat + 10)
  else none

theorem length_baseStr : (baseStr flags).length = 16 := by
  unfold baseStr
  split_ifs <;> rfl

theorem digitValue_digit {d : ℕ} (hd : d < 16) : digitValue (digit flags d) = some d := by
  unfold digit baseStr
  split_ifs <;> revert d <;> decide

theorem digit_ne_zero {d : ℕ} (hd : d < 16) : digit flags d ≠ 0 := by
  unfold digit baseStr
  split_ifs <;> revert d <;> decide

/-- The bases in use. -/
def Base (base : BitVec 8) : Prop := base = 8 ∨ base = 10 ∨ base = 16

theorem Base.toNat_signExtend (h : Base base) : (base.signExtend 64).toNat = base.toNat := by
  rcases h with rfl | rfl | rfl <;> rfl

theorem Base.le (h : Base base) : 8 ≤ base.toNat ∧ base.toNat ≤ 16 := by
  rcases h with rfl | rfl | rfl <;> decide

/-- The digits of `m`, and one zero for 0. -/
def numText (base flags : BitVec 8) (m : ℕ) : List (BitVec 8) :=
  if m = 0 then [ch '0'] else Numeral.numeral base.toNat (digit flags) m

theorem zero_notMem_numText (h : Base base) : 0 ∉ numText base flags m := by
  have hle := h.le
  unfold numText
  split_ifs
  · decide
  · intro hmem
    obtain ⟨d, hd, hz⟩ := Numeral.mem_numeral (by omega) hmem
    exact digit_ne_zero (hd.trans_le hle.2) hz.symm

/-- 22 digits are enough, in any of the bases. -/
theorem length_numText_le (h : Base base) (flags : BitVec 8) (hm : m < 2 ^ 64) :
    (numText base flags m).length ≤ 22 := by
  have hle := h.le
  unfold numText
  split_ifs
  · decide
  · refine (Numeral.length_numeral_le_iff (by omega)).mpr (hm.trans_le ?_)
    calc 2 ^ 64 ≤ 8 ^ 22 := by decide
      _ ≤ base.toNat ^ 22 := Nat.pow_le_pow_left hle.1 22

/-- The loop fills up the buffer behind what is there, if there is room. -/
theorem digitLoop_eq (h : Base base) (flags : BitVec 8) (cs : List (BitVec 8))
    (divide : BitVec 64)
    (hk : (Nat.digits base.toNat divide.toNat).length ≤ k) :
    digitLoop (baseStr flags) (base.signExtend 64) divide cs.length (cs ++ List.replicate k 0) =
      some (cs ++ (Nat.digits base.toNat divide.toNat).map (digit flags) ++
        List.replicate (k - (Nat.digits base.toNat divide.toNat).length) 0) := by
  have hle := h.le
  have hbase := h.toNat_signExtend
  induction k generalizing cs divide with
  | zero =>
    have hzero : divide = 0 := by
      have hnil := Nat.digits_eq_nil_iff_eq_zero.mp (List.eq_nil_of_length_eq_zero (Nat.le_zero.mp hk))
      exact BitVec.eq_of_toNat_eq hnil
    subst hzero
    rw [digitLoop, if_neg (by decide)]
    simp
  | succ k ih =>
    by_cases hzero : divide = 0
    · subst hzero
      rw [digitLoop, if_neg (by decide)]
      simp
    · have hpos : 0 < divide.toNat := by
        refine Nat.pos_of_ne_zero fun he => hzero (BitVec.eq_of_toNat_eq he)
      have hmod : (divide % base.signExtend 64).toNat = divide.toNat % base.toNat := by
        rw [BitVec.toNat_umod, hbase]
      have hdiv : (divide / base.signExtend 64).toNat = divide.toNat / base.toNat := by
        rw [BitVec.toNat_udiv, hbase]
      have hlt : divide.toNat % base.toNat < 16 := (Nat.mod_lt _ (by omega)).trans_le hle.2
      have hdigit : (baseStr flags)[divide.toNat % base.toNat]? =
          some (digit flags (divide.toNat % base.toNat)) := by
        rw [digit, List.getD_eq_getElem _ _ (by rwa [length_baseStr])]
        exact List.getElem?_eq_getElem _
      rw [Nat.digits_def' (by omega) hpos, List.length_cons, Nat.succ_le_succ_iff, ← hdiv] at hk
      rw [digitLoop, if_pos (by rw [gt_iff_lt, BitVec.lt_def]; exact hpos), hmod, hdigit,
        Option.bind_eq_bind, Option.bind_some, if_pos (by simp)]
      have hset : (cs ++ List.replicate (k + 1) 0).set cs.length
          (digit flags (divide.toNat % base.toNat)) =
          (cs ++ [digit flags (divide.toNat % base.toNat)]) ++ List.replicate k 0 := by
        rw [List.replicate_succ, List.set_append_right _ _ le_rfl, Nat.sub_self, List.set_cons_zero,
          List.append_assoc, List.singleton_append]
      have hlen : cs.length + 1 = (cs ++ [digit flags (divide.toNat % base.toNat)]).length := by
        rw [List.length_append, List.length_singleton]
      rw [hset, hlen, ih _ _ hk, hdiv, Nat.digits_def' (by omega : 1 < base.toNat) hpos, List.map_cons,
        List.length_cons, Nat.succ_sub_succ, List.append_assoc cs, List.singleton_append]

/-- What `num` writes its digits of. -/
def magnitude (flags : BitVec 8) (v : BitVec 64) : ℕ :=
  if has flags SIGNED then v.toInt.natAbs else v.toNat

theorem slt_zero_iff : v.slt 0 = true ↔ 2 ^ 64 ≤ 2 * v.toNat := by
  rw [BitVec.slt_iff_toInt_lt]
  exact BitVec.toInt_neg_iff

theorem natAbs_toInt (v : BitVec 64) :
    v.toInt.natAbs = if v.slt 0 then 2 ^ 64 - v.toNat else v.toNat := by
  have hlt := v.isLt
  rw [BitVec.toInt_eq_toNat_cond]
  by_cases hneg : v.slt 0 = true
  · have hbig := slt_zero_iff.mp hneg
    rw [if_pos hneg, if_neg (by omega)]
    omega
  · have hsmall := slt_zero_iff.not.mp hneg
    rw [if_neg hneg, if_pos (by omega)]
    omega

theorem magnitude_lt (flags : BitVec 8) (v : BitVec 64) : magnitude flags v < 2 ^ 64 := by
  have hlt := v.isLt
  unfold magnitude
  rw [natAbs_toInt]
  split_ifs with _ hneg
  · have hbig := slt_zero_iff.mp hneg
    omega
  · exact hlt
  · exact hlt

theorem magnitude_eq_zero_iff (flags : BitVec 8) : magnitude flags v = 0 ↔ v = 0 := by
  unfold magnitude
  split_ifs
  · rw [Int.natAbs_eq_zero]
    exact BitVec.toInt_inj (y := 0)
  · exact BitVec.toNat_inj (y := 0)

/-- Two's complement, at the least number too. -/
theorem toNat_divide :
    (if v.slt 0 ∧ has flags SIGNED then -v else v).toNat = magnitude flags v := by
  unfold magnitude
  rw [natAbs_toInt]
  by_cases hs : has flags SIGNED = true
  · rw [if_pos hs]
    by_cases hneg : v.slt 0 = true
    · rw [if_pos ⟨hneg, hs⟩, if_pos hneg, BitVec.toNat_neg, Nat.mod_eq_of_lt]
      have hbig := slt_zero_iff.mp hneg
      omega
    · rw [if_neg fun h => hneg h.1, if_neg hneg]
  · rw [if_neg fun h => hs h.2, if_neg hs]

/-- The text of a number as `num` has it, the last digit first. -/
def stored (base flags : BitVec 8) (v : BitVec 64) : List (BitVec 8) :=
  (numText base flags (magnitude flags v)).reverse ++
    List.replicate (23 - (numText base flags (magnitude flags v)).length) 0

/-- The digit buffer is filled inside its bounds. -/
theorem exists_digitLoop (h : Base base) (flags : BitVec 8) (v : BitVec 64) :
    ∃ str, digitLoop (baseStr flags) (base.signExtend 64)
    (if v.slt 0 ∧ has flags SIGNED then -v else v) 0 (List.replicate 23 0) = some str ∧
    (if v = 0 then str.set 0 (ch '0') else str) = stored base flags v := by
  have hle := h.le
  have hlen := length_numText_le h flags (magnitude_lt flags v)
  have hloop := digitLoop_eq h flags [] (if v.slt 0 ∧ has flags SIGNED then -v else v) (k := 23)
  rw [toNat_divide, List.nil_append, List.length_nil, List.nil_append] at hloop
  by_cases hv : v = 0
  · have hm := (magnitude_eq_zero_iff flags).mpr hv
    rw [hm, Nat.digits_zero] at hloop
    refine ⟨_, hloop (Nat.zero_le _), ?_⟩
    rw [if_pos hv, stored, hm, numText, if_pos rfl]
    rfl
  · have hm := (magnitude_eq_zero_iff flags).not.mpr hv
    rw [numText, if_neg hm, Numeral.numeral, List.length_map, List.length_reverse] at hlen
    refine ⟨_, hloop (by omega), ?_⟩
    rw [if_neg hv, stored, numText, if_neg hm, Numeral.numeral, ← List.map_reverse,
      List.reverse_reverse, List.length_map, List.length_reverse]

theorem bufLen_stored (h : Base base) :
    bufLen (stored base flags v) = (numText base flags (magnitude flags v)).length := by
  have hnonzero : ∀ c ∈ (numText base flags (magnitude flags v)).reverse,
      decide (c ≠ 0) = true := by
    intro c hc
    refine decide_eq_true fun hz => zero_notMem_numText h (hz ▸ List.mem_reverse.mp hc)
  rw [bufLen, stored, List.takeWhile_append_of_pos hnonzero, List.length_append, List.length_reverse]
  rcases 23 - (numText base flags (magnitude flags v)).length with _ | k
  · rfl
  · rw [List.replicate_succ, List.takeWhile_cons_of_neg (by decide)]
    rfl

theorem putDigits_eq {str : List (BitVec 8)} (hk : k ≤ str.length) :
    putDigits str k out = some (out.puts (str.take k).reverse) := by
  induction k generalizing out with
  | zero => rw [putDigits, List.take_zero, List.reverse_nil, Out.puts_nil]
  | succ k ih =>
    rw [putDigits, List.getElem?_eq_getElem (by omega), Option.bind_eq_bind, Option.bind_some,
      ih (by omega), Out.f_eq, Out.puts_puts, List.take_succ_eq_append_getElem (by omega),
      List.reverse_append]
    rfl

theorem putDigits_stored (h : Base base) :
    putDigits (stored base flags v) (bufLen (stored base flags v)) out =
      some (out.puts (numText base flags (magnitude flags v))) := by
  rw [putDigits_eq, bufLen_stored h, stored, List.take_left' (List.length_reverse ..),
    List.reverse_reverse]
  rw [bufLen_stored h, stored, List.length_append, List.length_reverse]
  omega

/-! The parts in front of the digits. -/

def signText (flags : BitVec 8) (v : BitVec 64) : List (BitVec 8) :=
  if v.slt 0 then if has flags SIGNED then [ch '-'] else []
  else if has flags SPLUS then [ch ' ']
  else if has flags FPLUS then [ch '+'] else []

def prefixText (base flags : BitVec 8) : List (BitVec 8) :=
  if has flags PREFIX ∧ base = 16 then [ch '0', if has flags SMALL then ch 'x' else ch 'X']
  else if has flags PREFIX ∧ base = 8 then [ch '0'] else []

theorem putPrefix_eq : putPrefix base flags out = out.puts (prefixText base flags) := by
  unfold putPrefix prefixText
  split_ifs
  · exact Out.puts_puts out _ _
  · exact Out.puts_puts out _ _
  · rfl
  · exact (Out.puts_nil out).symm

theorem numSign_eq : numSign v flags =
    if v.slt 0 then if has flags SIGNED then ch '-' else 0
    else if has flags SPLUS then ch ' '
    else if has flags FPLUS then ch '+' else 0 := by
  unfold numSign
  dsimp only
  by_cases hneg : v.slt 0 = true
  · rw [if_neg fun h => h.1 hneg, if_neg fun h => h.1 hneg, if_pos hneg]
    exact if_congr (and_iff_right hneg) rfl rfl
  · rw [if_neg hneg, if_congr (and_iff_right hneg) rfl rfl, if_congr (and_iff_right hneg) rfl rfl]
    rw [if_neg fun h : v.slt 0 = true ∧ has flags SIGNED = true => hneg h.1]

theorem sign_eq :
    (if numSign v flags ≠ 0 then out.f (numSign v flags) else out) = out.puts (signText flags v) := by
  rw [numSign_eq]
  unfold signText
  by_cases hneg : v.slt 0 = true
  · rw [if_pos hneg, if_pos hneg]
    by_cases hs : has flags SIGNED = true
    · rw [if_pos hs, if_pos hs]
      rfl
    · rw [if_neg hs, if_neg hs]
      exact (Out.puts_nil out).symm
  · rw [if_neg hneg, if_neg hneg]
    by_cases hsp : has flags SPLUS = true
    · rw [if_pos hsp, if_pos hsp]
      rfl
    · rw [if_neg hsp, if_neg hsp]
      by_cases hfp : has flags FPLUS = true
      · rw [if_pos hfp, if_pos hfp]
        rfl
      · rw [if_neg hfp, if_neg hfp]
        exact (Out.puts_nil out).symm

/-- A sign is counted in the width of a signed number only. -/
def signWidth (flags : BitVec 8) (v : BitVec 64) : ℕ :=
  if has flags SIGNED then (signText flags v).length else 0

/-- The characters that are counted when the padding is worked out. -/
def counted (base flags : BitVec 8) (v : BitVec 64) : ℕ :=
  (numText base flags (magnitude flags v)).length + (prefixText base flags).length +
    signWidth flags v

/-- The padding, whatever it is filled with. -/
def padding (base flags : BitVec 8) (v : BitVec 64) (width : ℤ) : ℕ :=
  (width - counted base flags v).toNat

theorem signWidth_eq (flags : BitVec 8) (v : BitVec 64) : signWidth flags v =
    if (has flags SIGNED ∧ v.slt 0) ∨ (has flags SIGNED ∧ has flags FPLUS) ∨
      (has flags SIGNED ∧ has flags SPLUS) then 1 else 0 := by
  unfold signWidth signText
  by_cases hs : has flags SIGNED = true
  · rw [if_pos hs, if_pos hs]
    split_ifs <;> simp_all
  · rw [if_neg hs, if_neg]
    rintro (h | h | h) <;> exact hs h.1

theorem length_prefixText (base flags : BitVec 8) : (prefixText base flags).length =
    if has flags PREFIX ∧ base = 16 then 2 else if has flags PREFIX ∧ base = 8 then 1 else 0 := by
  unfold prefixText
  split_ifs <;> rfl

theorem padWidth_eq (h : Base base) :
    padWidth v base flags width (stored base flags v) = padding base flags v width := by
  have hp := length_prefixText base flags
  have hs := signWidth_eq flags v
  unfold padWidth padding counted
  rw [bufLen_stored h, hp, hs]
  push_cast
  split_ifs <;> omega

/-- The parts of a formatted number. -/
structure Parts where
  lead : ℕ
  sign : List (BitVec 8)
  zeros : ℕ
  digits : List (BitVec 8)
  trail : ℕ

/-- Spaces, the sign, the prefix for the base, zeros, digits and spaces. -/
def Parts.text (p : Parts) (base flags : BitVec 8) : List (BitVec 8) :=
  List.replicate p.lead (ch ' ') ++ p.sign ++ prefixText base flags ++
    List.replicate p.zeros (ch '0') ++ p.digits ++ List.replicate p.trail (ch ' ')

/-- The padding goes to one of three places. -/
def parts (base flags : BitVec 8) (v : BitVec 64) (width percision : ℤ) : Parts where
  lead := if ¬ has flags ZEROPAD ∧ ¬ has flags LEFT then padding base flags v width else 0
  sign := signText flags v
  zeros := percision.toNat + if has flags ZEROPAD then padding base flags v width else 0
  digits := numText base flags (magnitude flags v)
  trail := if ¬ has flags ZEROPAD ∧ has flags LEFT then padding base flags v width else 0

/-- `num` ends, without leaving its digit buffer, and writes the parts one after the other. -/
theorem num_eq (h : Base base) : num v base flags width percision =
    some (Out.empty.puts ((parts base flags v width percision).text base flags)) := by
  obtain ⟨str, hloop, hbuf⟩ := exists_digitLoop h flags v
  have hp : (if percision = -1 then 0 else percision).toNat = percision.toNat := by
    split_ifs <;> omega
  have hpad : (padding base flags v width : ℤ).toNat = padding base flags v width :=
    Int.toNat_natCast _
  rw [num]
  dsimp only
  rw [hloop, Option.bind_eq_bind, Option.bind_some]
  simp only [hbuf, padWidth_eq h, sign_eq, putPrefix_eq, Out.pad_eq, putDigits_stored h, hp, hpad]
  unfold Parts.text parts
  by_cases hz : has flags ZEROPAD = true
  · simp [hz, ← List.replicate_append_replicate]
  · by_cases hl : has flags LEFT = true
    · simp [hz, hl]
    · simp [hz, hl]

end CxKernel.Stdio
