import CxKernel.Proofs.FormatScan
import CxKernel.Proofs.NumFormat

/-! `%d` of an `int`. The conversion takes the whole slot for the number, so the text is right if
the upper half of the slot is the sign of the lower one. -/

namespace CxKernel.Stdio

open Strings

variable {mem : Mem 8} {flags c d : BitVec 8} {v : BitVec 64} {p : Parts} {k t : ℕ}
  {ds fs body : List (BitVec 8)}

/-- The number at the start of a text, if there are only spaces behind it. -/
def readDigits (cs : List (BitVec 8)) : Option ℕ :=
  if cs.headD (ch ' ') = ch ' ' ∨ (cs.dropWhile (· ≠ ch ' ')).any (· ≠ ch ' ') then none
  else readNum 10 (cs.takeWhile (· ≠ ch ' '))

/-- Spaces, a sign, and a number. -/
def readInt (cs : List (BitVec 8)) : Option ℤ :=
  let cs := cs.dropWhile (· = ch ' ')
  if cs.headD 0 = ch '-' then (readDigits cs.tail).map fun m : ℕ => -(m : ℤ)
  else if cs.headD 0 = ch '+' then (readDigits cs.tail).map fun m : ℕ => (m : ℤ)
  else (readDigits cs).map fun m : ℕ => (m : ℤ)

theorem mem_baseStr (hc : c ∈ baseStr flags) : c ≠ ch ' ' ∧ c ≠ ch '-' ∧ c ≠ ch '+' := by
  have hall : ∀ c ∈ baseStr flags, ch '0' ≤ c := by
    unfold baseStr
    split_ifs <;> decide +kernel
  have hle := hall c hc
  refine ⟨?_, ?_, ?_⟩ <;>
  · rintro rfl
    exact absurd hle (by decide)

theorem dropWhile_spaces (hc : c ≠ ch ' ') (k : ℕ) :
    (List.replicate k (ch ' ') ++ c :: body).dropWhile (· = ch ' ') = c :: body := by
  induction k with
  | zero => exact List.dropWhile_cons_of_neg (by rw [decide_eq_true_eq]; exact hc)
  | succ k ih =>
    rw [List.replicate_succ, List.cons_append]
    exact (List.dropWhile_cons_of_pos (p := fun x => decide (x = ch ' '))
      (decide_eq_true rfl)).trans ih

theorem readDigits_eq (hbody : ∀ c ∈ body, c ≠ ch ' ') (hne : body ≠ []) (t : ℕ) :
    readDigits (body ++ List.replicate t (ch ' ')) = readNum 10 body := by
  have hall : ∀ c ∈ body, decide (c ≠ ch ' ') = true := fun c hc => decide_eq_true (hbody c hc)
  have hrest : (List.replicate t (ch ' ')).dropWhile (· ≠ ch ' ') = List.replicate t (ch ' ') ∧
      (List.replicate t (ch ' ')).takeWhile (· ≠ ch ' ') = [] := by
    cases t <;> exact ⟨rfl, rfl⟩
  obtain ⟨c, cs, rfl⟩ := List.exists_cons_of_ne_nil hne
  rw [readDigits, List.dropWhile_append_of_pos hall, List.takeWhile_append_of_pos hall, hrest.1,
    hrest.2, List.append_nil, if_neg]
  rintro (hhead | hany)
  · exact hbody c List.mem_cons_self hhead
  · obtain ⟨d, hd, hne⟩ := List.any_eq_true.mp hany
    exact of_decide_eq_true hne (List.eq_of_mem_replicate hd)

theorem readInt_minus (k : ℕ) (cs : List (BitVec 8)) :
    readInt (List.replicate k (ch ' ') ++ ch '-' :: cs) =
      (readDigits cs).map fun m : ℕ => -(m : ℤ) := by
  rw [readInt, dropWhile_spaces (by decide)]
  exact if_pos rfl

theorem readInt_plus (k : ℕ) (cs : List (BitVec 8)) :
    readInt (List.replicate k (ch ' ') ++ ch '+' :: cs) =
      (readDigits cs).map fun m : ℕ => (m : ℤ) := by
  rw [readInt, dropWhile_spaces (by decide)]
  exact (if_neg (show ¬ ch '+' = ch '-' by decide)).trans (if_pos rfl)

theorem readInt_digit (hc : c ≠ ch ' ' ∧ c ≠ ch '-' ∧ c ≠ ch '+') (k : ℕ) (cs : List (BitVec 8)) :
    readInt (List.replicate k (ch ' ') ++ c :: cs) =
      (readDigits (c :: cs)).map fun m : ℕ => (m : ℤ) := by
  rw [readInt, dropWhile_spaces hc.1]
  exact (if_neg hc.2.1).trans (if_neg hc.2.2)

/-- The text of a signed number in base 10 reads as the number. -/
theorem readInt_text (h : p.Denotes v 10 flags) (hs : has flags SIGNED = true) :
    readInt (p.text 10 flags) = some v.toInt := by
  have hprefix : prefixText 10 flags = [] := by
    rw [prefixText, if_neg fun h => absurd h.2 (by decide),
      if_neg fun h => absurd h.2 (by decide)]
  have hmem : ∀ c ∈ List.replicate p.zeros (ch '0') ++ p.digits, c ∈ baseStr flags := by
    intro c hc
    rcases List.mem_append.mp hc with hz | hd
    · rw [List.eq_of_mem_replicate hz, ← digit_zero flags]
      exact digit_mem (by decide)
    · exact h.alphabet c hd
  have hne : List.replicate p.zeros (ch '0') ++ p.digits ≠ [] := by
    rw [ne_eq, List.append_eq_nil_iff]
    exact fun hnil => h.digits hnil.2
  have hvalue := h.value
  have hminus := h.minus
  rw [magnitude, if_pos hs] at hvalue
  rw [Parts.text, hprefix, List.append_nil, List.append_assoc _ _ p.digits]
  generalize List.replicate p.zeros (ch '0') ++ p.digits = body at hmem hne hvalue ⊢
  have hdigits := readDigits_eq (fun c hc => (mem_baseStr (hmem c hc)).1) hne p.trail
  rw [hvalue] at hdigits
  -- a sign that is no minus leaves the absolute value as it is
  have hpos : p.sign ≠ [ch '-'] → ((v.toInt.natAbs : ℕ) : ℤ) = v.toInt := by
    intro hsign
    have hneg : ¬ v.slt 0 = true := fun hlt => hsign (hminus.mpr ⟨hs, hlt⟩)
    rw [BitVec.slt_iff_toInt_lt, BitVec.ofNat_eq_ofNat, BitVec.toInt_zero] at hneg
    omega
  obtain ⟨c, cs, hcs⟩ := List.exists_cons_of_ne_nil hne
  have hc := mem_baseStr (hmem c (hcs ▸ List.mem_cons_self))
  have hsign := h.sign
  simp only [List.mem_cons, List.not_mem_nil, or_false] at hsign
  rcases hsign with hsign | hsign | hsign | hsign
  · rw [hsign, List.append_nil, List.append_assoc, hcs, List.cons_append, readInt_digit hc,
      ← List.cons_append, ← hcs, hdigits, Option.map_some, hpos (by rw [hsign]; decide)]
  · have hneg := (hminus.mp hsign).2
    rw [BitVec.slt_iff_toInt_lt, BitVec.ofNat_eq_ofNat, BitVec.toInt_zero] at hneg
    rw [hsign, List.append_assoc, List.append_assoc, List.singleton_append, readInt_minus, hdigits,
      Option.map_some]
    congr 1
    omega
  · rw [hsign, List.append_assoc, List.append_assoc, List.singleton_append, readInt_plus, hdigits,
      Option.map_some, hpos (by rw [hsign]; decide)]
  · have hspace : List.replicate p.lead (ch ' ') ++ [ch ' '] =
        List.replicate (p.lead + 1) (ch ' ') := List.replicate_succ'.symm
    rw [hsign, hspace, List.append_assoc, hcs, List.cons_append, readInt_digit hc,
      ← List.cons_append, ← hcs, hdigits, Option.map_some, hpos (by rw [hsign]; decide)]

/-! The format. -/

/-- The width of a conversion: digits, or a star and its slot. -/
inductive FieldWidth
  | digits (ds : List (BitVec 8)) (h : ∀ c ∈ ds, isDigit c = true)
  | star (slot : BitVec 64)

def FieldWidth.text : FieldWidth → List (BitVec 8)
  | digits ds _ => ds
  | star _ => [ch '*']

def FieldWidth.args : FieldWidth → List (BitVec 64)
  | digits _ _ => []
  | star slot => [slot]

theorem dropWhile_concat {q : BitVec 8 → Bool} (hd : q d = false) (ds : List (BitVec 8)) :
    (ds ++ [d]).dropWhile q = ds.dropWhile q ++ [d] := by
  induction ds with
  | nil => exact List.dropWhile_cons_of_neg (by rw [hd]; decide)
  | cons c ds ih =>
    rw [List.cons_append, List.dropWhile_cons, List.dropWhile_cons, ih]
    split_ifs
    · rfl
    · rfl

/-- What is read of `% flags width d`. -/
theorem scan_int (hfs : ∀ c ∈ fs, isFlag c = true) (width : FieldWidth)
    (hd : d = ch 'd' ∨ d = ch 'i') :
    scanConversion (fs ++ width.text ++ [d]) = ⟨width.args.length, 0, [d]⟩ := by
  have hflag : isFlag d = false := by rcases hd with rfl | rfl <;> rfl
  have hdigit : isDigit d = false := by rcases hd with rfl | rfl <;> rfl
  have hnumber : scanNumber ((fs ++ width.text ++ [d]).dropWhile isFlag) =
      ⟨width.args.length, 0, [d]⟩ := by
    rw [List.append_assoc, List.dropWhile_append_of_pos hfs, dropWhile_concat hflag]
    cases width with
    | digits ds hds =>
      have hall : ∀ c ∈ ds.dropWhile isFlag, isDigit c = true :=
        fun c hc => hds c ((List.dropWhile_sublist _).subset hc)
      have hstar : (ds.dropWhile isFlag ++ [d]).headD 0 ≠ ch '*' := by
        intro hhead
        cases hdrop : ds.dropWhile isFlag with
        | nil =>
          rw [hdrop] at hhead
          rw [show d = ch '*' from hhead] at hd
          exact absurd hd (by decide)
        | cons c cs =>
          rw [hdrop] at hhead
          have hc := hall c (hdrop ▸ List.mem_cons_self)
          rw [show c = ch '*' from hhead] at hc
          exact absurd hc (by decide)
      dsimp only [FieldWidth.text, FieldWidth.args]
      rw [scanNumber, if_neg hstar, List.dropWhile_append_of_pos hall]
      exact congrArg (Scan.mk 0 0) (List.dropWhile_cons_of_neg (by rw [hdigit]; decide))
    | star slot => rfl
  unfold scanConversion
  rw [hnumber]
  rcases hd with rfl | rfl <;> rfl

/-- `ssprintf` ends, and what it writes says `n`. -/
def Prints (mem : Mem 8) (fmt : List (BitVec 8)) (args : List (BitVec 64)) (n : BitVec 32) :
    Prop :=
  ∃ ret out, ssprintf mem (fmt ++ [0]) args = some (ret, out) ∧ readInt out.emitted = some n.toInt

theorem has_or_self (flags : BitVec 8) : has (flags ||| SIGNED) SIGNED = true := by
  rw [has, decide_eq_true_eq]
  intro hzero
  have hbit := congrArg (BitVec.getLsbD · 0) hzero
  simp [SIGNED] at hbit

/-- The whole slot is printed. -/
theorem ssprintf_int (mem : Mem 8) (hfs : ∀ c ∈ fs, isFlag c = true) (width : FieldWidth)
    (hd : d = ch 'd' ∨ d = ch 'i') (slot : BitVec 64) :
    ∃ ret out, ssprintf mem (ch '%' :: (fs ++ width.text ++ [d]) ++ [0]) (width.args ++ [slot]) =
      some (ret, out) ∧ readInt out.emitted = some slot.toInt := by
  have hscan := scan_int hfs width hd
  obtain ⟨cv, hcv, hfmt, hargs, hlen⟩ := parseConversion_eq (fs ++ width.text ++ [d])
    (width.args ++ [slot]) (by rw [hscan, List.length_append]; exact Nat.le_add_right _ _)
  rw [hscan] at hfmt hargs hlen
  dsimp only at hfmt hargs hlen
  rw [List.drop_left] at hargs
  have hconvert : convertArg mem cv d = some (convertSigned cv) := by
    rcases hd with rfl | rfl <;> rfl
  have hnum : convertSigned cv slot .empty = some (Out.empty.puts
      ((parts 10 (cv.flags ||| SIGNED) slot cv.width cv.percision).text 10 (cv.flags ||| SIGNED))) := by
    rw [convertSigned, hlen, if_neg (by decide), if_neg (by decide), num_eq (Or.inr (Or.inl rfl)),
      Option.bind_eq_bind, Option.bind_some, Out.add_puts]
    rfl
  have hread := readInt_text (parts_denotes (v := slot) (Or.inr (Or.inl rfl)) cv.width cv.percision)
    (has_or_self cv.flags)
  generalize (parts 10 (cv.flags ||| SIGNED) slot cv.width cv.percision).text 10
    (cv.flags ||| SIGNED) = text at hnum hread
  refine ⟨(Out.empty.puts text).written, Out.empty.puts text, ?_, hread⟩
  rw [ssprintf, List.cons_append, ssprintfLoop_letter hcv hfmt, hconvert]
  dsimp only
  rw [hargs, List.head?_cons, Option.bind_eq_bind, Option.bind_some, hnum, Option.bind_eq_bind,
    Option.bind_some]
  exact ssprintfLoop_nul

theorem prints_iff (fs : List (BitVec 8)) (hfs : ∀ c ∈ fs, isFlag c = true) (width : FieldWidth)
    (hd : d = ch 'd' ∨ d = ch 'i') (slot : BitVec 64) (n : BitVec 32) :
    Prints mem (ch '%' :: (fs ++ width.text ++ [d])) (width.args ++ [slot]) n ↔
      slot.toInt = n.toInt := by
  obtain ⟨ret, out, hrun, hread⟩ := ssprintf_int mem hfs width hd slot
  constructor
  · rintro ⟨ret', out', hrun', hread'⟩
    obtain ⟨-, rfl⟩ := Prod.mk.inj (Option.some.inj (hrun.symm.trans hrun'))
    exact Option.some.inj (hread.symm.trans hread')
  · intro hslot
    exact ⟨ret, out, hrun, hslot ▸ hread⟩

/-- `%d` prints the `int` it was given if and only if its slot holds the sign-extended `int`. -/
theorem print_int_iff (mem : Mem 8) (fs : List (BitVec 8)) (hfs : ∀ c ∈ fs, isFlag c = true)
    (width : FieldWidth) (hd : d = ch 'd' ∨ d = ch 'i') (upper n : BitVec 32) :
    Prints mem (ch '%' :: (fs ++ width.text ++ [d])) (width.args ++ [upper ++ n]) n ↔
      upper ++ n = n.signExtend 64 := by
  rw [prints_iff fs hfs width hd, ← BitVec.toInt_signExtend_of_le (by decide : 32 ≤ 64)]
  exact BitVec.toInt_inj

/-- `%+*d` with a width of 8. -/
theorem print_int_iff_star :
    Prints (fun _ => 0) (['%', '+', '*', 'd'].map ch) [8, (0 : BitVec 32) ++ (5 : BitVec 32)] 5 ↔
    (0 : BitVec 32) ++ (5 : BitVec 32) = (5 : BitVec 32).signExtend 64 :=
  print_int_iff _ [ch '+'] (by decide) (.star 8) (Or.inl rfl) 0 5

/-- -1 in a slot whose upper half is clear is printed as 4294967295. -/
theorem not_prints_minus_one : ¬ Prints (fun _ => 0) (['%', 'd'].map ch)
    [(0 : BitVec 32) ++ (-1 : BitVec 32)] (-1) :=
  fun h => absurd ((prints_iff [] (by decide) (.digits [] (by decide)) (Or.inl rfl) _ _).mp h)
    (by decide)

end CxKernel.Stdio
