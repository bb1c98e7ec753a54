import CxKernel.Proofs.FormatScan
import CxKernel.Proofs.NumFormat

/-! Formats of plain text, hexadecimal fields and strings: what `ssprintf` writes for one, and how
the values of the fields are read back. -/

namespace CxKernel.Stdio

open Strings

/-- A conversion to upper-case hexadecimal digits, filled up with zeros if at all. -/
structure HexField where
  spec : List (BitVec 8)
  flags : BitVec 8
  width : ℤ
  parses : ∀ rest args, parseConversion (spec ++ rest) args =
    some ⟨flags, width, -1, ch 'l', ch 'X' :: rest, args⟩
  plain : flags = ZEROPAD ∨ flags = 0 ∧ width ≤ 1

variable {mem : Mem 8} {field : HexField} {v : BitVec 64} {out : Out} {rest : List (BitVec 8)}

def HexField.text (field : HexField) (v : BitVec 64) : List (BitVec 8) :=
  List.replicate (field.width.toNat - (numText 16 field.flags v.toNat).length) (ch '0') ++
    numText 16 field.flags v.toNat

/-- No sign, no prefix and no spaces. -/
theorem HexField.parts_text (field : HexField) (v : BitVec 64) :
    (parts 16 field.flags v field.width (-1)).text 16 field.flags = field.text v := by
  rcases field.plain with hflags | ⟨hflags, hwidth⟩
  · simp [HexField.text, hflags, parts, Parts.text, padding, counted, signText, prefixText, signWidth,
      magnitude, has, ZEROPAD, SIGNED, LEFT, PREFIX, SPLUS, FPLUS]
  · have hlen : 0 < (numText 16 0 v.toNat).length := List.length_pos_iff.mpr numText_ne_nil
    have hzeros : field.width.toNat - (numText 16 0 v.toNat).length = 0 := by omega
    simp [HexField.text, hflags, parts, Parts.text, padding, counted, signText, prefixText, signWidth,
      magnitude, has]
    exact Or.inl hzeros

theorem HexField.convert_eq (field : HexField) (rest : List (BitVec 8)) (args : List (BitVec 64)) :
    convertUnsigned ⟨field.flags, field.width, -1, ch 'l', ch 'X' :: rest, args⟩ 16 field.flags v
      out = some (out.puts (field.text v)) := by
  rw [convertUnsigned, if_pos rfl, num_eq (Or.inr (Or.inr rfl)), field.parts_text, Option.bind_eq_bind,
    Option.bind_some, Out.add_puts]
  rfl

/-- A part of a format. -/
inductive Piece where
  | lit (cs : List (BitVec 8))
  | hex (field : HexField)
  | str

def Piece.format : Piece → List (BitVec 8)
  | lit cs => cs
  | hex field => ch '%' :: field.spec
  | str => [ch '%', ch 's']

/-- The text has neither a conversion nor a NUL. -/
def Piece.plain : Piece → Bool
  | lit cs => cs.all fun c => c ≠ 0 ∧ c ≠ ch '%'
  | hex _ => true
  | str => true

/-- A part of a format with its argument. -/
inductive Filled where
  | lit (cs : List (BitVec 8))
  | hex (field : HexField) (v : BitVec 64)
  | str (p : BitVec 64) (s : List (BitVec 8))

namespace Filled

def piece : Filled → Piece
  | lit cs => .lit cs
  | hex field _ => .hex field
  | str _ _ => .str

def format (f : Filled) : List (BitVec 8) := f.piece.format

def args : Filled → List (BitVec 64)
  | lit _ => []
  | hex _ v => [v]
  | str p _ => [p]

def text : Filled → List (BitVec 8)
  | lit cs => cs
  | hex field v => field.text v
  | str _ s => s

/-- The values of the fields. -/
def values : Filled → List (BitVec 64)
  | lit _ => []
  | hex _ v => [v]
  | str _ _ => []

def strings : Filled → List (BitVec 64 × List (BitVec 8))
  | lit _ => []
  | hex _ _ => []
  | str p s => [(p, s)]

end Filled

/-! What is written. -/

/-- The string is in memory, and shorter than an `int` can say. -/
def StringAt (mem : Mem 8) (x : BitVec 64 × List (BitVec 8)) : Prop :=
  CStr mem x.1 x.2 ∧ x.2.length < 2 ^ 31

theorem ssprintfLoop_plain {cs : List (BitVec 8)} {args : List (BitVec 64)}
    (hplain : ∀ c ∈ cs, c ≠ 0 ∧ c ≠ ch '%') (out : Out) :
    ssprintfLoop mem (cs ++ rest) args out = ssprintfLoop mem rest args (out.puts cs) := by
  induction cs generalizing out with
  | nil => rw [List.nil_append, Out.puts_nil]
  | cons c cs ih =>
    obtain ⟨hc, hcs⟩ := List.forall_mem_cons.mp hplain
    rw [List.cons_append, ssprintfLoop_lit hc.1 hc.2, ih hcs, Out.f_eq, Out.puts_puts,
      List.singleton_append]

theorem putString_cstr {p : BitVec 64} {s : List (BitVec 8)} (h : CStr mem p s) {i : ℕ}
    (hi : i ≤ s.length) (out : Out) : putString mem p i out = some (out.puts (s.drop i)) := by
  induction hd : s.length - i generalizing i out with
  | zero =>
    obtain rfl : i = s.length := by omega
    rw [putString, List.drop_length, Out.puts_nil]
    exact if_neg (not_not.mpr h.nul)
  | succ d ih =>
    have hlt : i < s.length := by omega
    have hnonzero : mem (p + .ofNat _ i) ≠ 0 := h.firstNul.before i hlt
    rw [putString]
    refine (if_pos hnonzero).trans ?_
    rw [ih (by omega) _ (by omega), h.byte i hlt, Out.f_eq, Out.puts_puts, List.drop_eq_getElem_cons hlt,
      List.singleton_append]

theorem pad_of_nonpos (c : BitVec 8) (out : Out) {w : ℤ} (hw : w ≤ 0) : out.pad c w = (out, w - 1) := by
  rw [Out.pad_eq, Int.toNat_of_nonpos hw, List.replicate_zero, Out.puts_nil, min_eq_left hw]

/-- The width of -1 less a length, in `size_t` and cut to an `int` again. -/
theorem toInt_wrapped {k : ℕ} (hk : k < 2 ^ 31) :
    ((BitVec.ofInt 64 (-1) - BitVec.ofNat (8 * 8) k).setWidth 32).toInt ≤ 0 := by
  have hone : BitVec.ofInt 64 (-1) = -1 := by decide
  have hnat : ((BitVec.ofInt 64 (-1) - BitVec.ofNat (8 * 8) k).setWidth 32).toNat = 2 ^ 32 - 1 - k := by
    rw [hone, BitVec.toNat_setWidth, BitVec.toNat_sub, BitVec.toNat_ofNat]
    have hones : (-1 : BitVec 64).toNat = 2 ^ 64 - 1 := by decide
    omega
  rw [BitVec.toInt_eq_toNat_cond, hnat, if_neg (by omega)]
  omega

/-- Without a width there is no padding. -/
theorem convertString_eq {cv : Conversion} (hwidth : cv.width = -1) (hflags : cv.flags = 0)
    {p : BitVec 64} {s : List (BitVec 8)} (h : CStr mem p s) (hlen : s.length < 2 ^ 31) :
    convertString mem cv p out = some (out.puts s) := by
  have hwrap := toInt_wrapped hlen
  rw [convertString, h.firstNul.strlen_eq (Or.inr rfl), Option.bind_eq_bind, Option.bind_some]
  dsimp only
  rw [hwidth, hflags]
  generalize BitVec.ofInt 64 (-1) - BitVec.ofNat (8 * 8) s.length = diff at hwrap ⊢
  have hle : (if diff > 0 then (diff.setWidth 32).toInt else 0) ≤ 0 := by
    split_ifs
    · exact hwrap
    · exact le_rfl
  generalize (if diff > 0 then (diff.setWidth 32).toInt else 0) = w at hle ⊢
  rw [if_pos (by decide), pad_of_nonpos _ _ hle]
  dsimp only
  rw [putString_cstr h (Nat.zero_le _), Option.bind_eq_bind, Option.bind_some, List.drop_zero,
    pad_of_nonpos _ _ (by omega)]
  rfl

theorem Filled.step {f : Filled} (hplain : f.piece.plain = true)
    (hstrings : ∀ x ∈ f.strings, StringAt mem x) (args : List (BitVec 64)) (out : Out) :
    ssprintfLoop mem (f.format ++ rest) (f.args ++ args) out =
      ssprintfLoop mem rest args (out.puts f.text) := by
  cases f with
  | lit cs =>
    refine ssprintfLoop_plain (fun c hc => ?_) out
    exact of_decide_eq_true (List.all_eq_true.mp hplain c hc)
  | hex field v =>
    have hconvert : ∀ cv, convertArg mem cv (ch 'X') = some (convertUnsigned cv 16 cv.flags) :=
      fun cv => rfl
    dsimp only [Filled.format, Filled.piece, Piece.format, Filled.args, List.cons_append,
      List.nil_append]
    rw [ssprintfLoop_letter (field.parses rest _) rfl, hconvert]
    dsimp only [List.head?_cons, List.tail_cons]
    rw [Option.bind_eq_bind, Option.bind_some, field.convert_eq]
    rfl
  | str p s =>
    obtain ⟨hstr, hlen⟩ := hstrings (p, s) List.mem_cons_self
    have hparse : parseConversion (ch 's' :: rest) (p :: args) =
      some ⟨0, -1, -1, 0, ch 's' :: rest, p :: args⟩ := rfl
    have hconvert : ∀ cv, convertArg mem cv (ch 's') = some (convertString mem cv) := fun cv => rfl
    dsimp only [Filled.format, Filled.piece, Piece.format, Filled.args, List.cons_append,
      List.nil_append]
    rw [ssprintfLoop_letter hparse rfl, hconvert]
    dsimp only [List.head?_cons, List.tail_cons]
    rw [Option.bind_eq_bind, Option.bind_some, convertString_eq rfl rfl hstr hlen]
    rfl

/-- `ssprintf` writes the texts of the parts one after the other. -/
theorem ssprintf_filled {fs : List Filled} (hplain : ∀ f ∈ fs, f.piece.plain = true)
    (hstrings : ∀ x ∈ fs.flatMap Filled.strings, StringAt mem x) :
    ssprintf mem (fs.flatMap Filled.format ++ [0]) (fs.flatMap Filled.args) =
      some ((Out.empty.puts (fs.flatMap Filled.text)).written, Out.empty.puts (fs.flatMap Filled.text)) := by
  have hloop : ∀ out, ssprintfLoop mem (fs.flatMap Filled.format ++ [0]) (fs.flatMap Filled.args) out =
      ssprintfLoop mem [0] [] (out.puts (fs.flatMap Filled.text)) := by
    induction fs with
    | nil =>
      intro out
      rw [List.flatMap_nil, List.flatMap_nil, List.flatMap_nil, Out.puts_nil, List.nil_append]
    | cons f fs ih =>
      intro out
      obtain ⟨hf, hrest⟩ := List.forall_mem_cons.mp hplain
      rw [List.flatMap_cons, List.forall_mem_append] at hstrings
      rw [List.flatMap_cons, List.flatMap_cons, List.flatMap_cons, List.append_assoc,
        Filled.step hf hstrings.1, ih hrest hstrings.2, Out.puts_puts]
  rw [ssprintf, hloop, ssprintfLoop_nul]

/-! What is read back. -/

def isHex (c : BitVec 8) : Bool := (digitValue c).isSome

/-- The value of a part, if it has one, and what comes then. -/
def Piece.read : Piece → List (BitVec 8) → Option (List (BitVec 64) × List (BitVec 8))
  | lit cs, text => if cs <+: text then some ([], text.drop cs.length) else none
  | hex _, text => do
    let n ← readNum 16 (text.takeWhile isHex)
    return ([.ofNat _ n], text.dropWhile isHex)
  | str, text => some ([], text.dropWhile (· ≠ ch '\n'))

def readPieces : List Piece → List (BitVec 8) → Option (List (BitVec 64) × List (BitVec 8))
  | [], text => some ([], text)
  | p :: ps, text => do
    let (vs, text) ← p.read text
    let (ws, text) ← readPieces ps text
    return (vs ++ ws, text)

/-- The character that comes first, where the format has it. -/
def firstChar : List Piece → Option (BitVec 8)
  | .lit (c :: _) :: _ => some c
  | _ => none

/-- The text of the piece is known to end before the character. -/
def Piece.endsBefore : Piece → Option (BitVec 8) → Bool
  | lit _, _ => true
  | hex _, some c => !isHex c
  | str, some c => c = ch '\n'
  | _, none => false

def separated : List Piece → Bool
  | [] => true
  | p :: ps => p.endsBefore (firstChar ps) && separated ps

theorem HexField.isHex_text (field : HexField) (v : BitVec 64) : ∀ c ∈ field.text v, isHex c = true := by
  intro c hc
  have hdigit : ∀ d < 16, isHex (digit field.flags d) = true := by
    intro d hd
    rw [isHex, digitValue_digit hd]
    rfl
  rcases List.mem_append.mp hc with hc | hc
  · rw [List.eq_of_mem_replicate hc, ← digit_zero field.flags]
    exact hdigit 0 (by decide)
  · obtain ⟨d, hd, rfl⟩ := mem_numText (Or.inr (Or.inr rfl)) hc
    exact hdigit d hd

theorem HexField.readNum_text (field : HexField) (v : BitVec 64) :
    readNum 16 (field.text v) = some v.toNat := readNum_numText (Or.inr (Or.inr rfl))

theorem takeWhile_append_stop {q : BitVec 8 → Bool} {cs : List (BitVec 8)} {c : BitVec 8}
    (hcs : ∀ c ∈ cs, q c = true) (hc : q c = false) (rest : List (BitVec 8)) :
    (cs ++ c :: rest).takeWhile q = cs ∧ (cs ++ c :: rest).dropWhile q = c :: rest := by
  have hstop : ¬ q c = true := by rw [hc]; decide
  rw [List.takeWhile_append_of_pos hcs, List.dropWhile_append_of_pos hcs,
    List.takeWhile_cons_of_neg hstop, List.dropWhile_cons_of_neg hstop, List.append_nil]
  exact ⟨rfl, rfl⟩

theorem read_hex {field : HexField} {c : BitVec 8} (hc : isHex c = false) (v : BitVec 64) :
    (Piece.hex field).read (field.text v ++ c :: rest) = some ([v], c :: rest) := by
  obtain ⟨htake, hdrop⟩ := takeWhile_append_stop (field.isHex_text v) hc rest
  rw [Piece.read, htake, hdrop, field.readNum_text, Option.bind_eq_bind, Option.bind_some,
    BitVec.ofNat_toNat, BitVec.setWidth_eq]
  rfl

theorem read_str {s : List (BitVec 8)} (hs : ch '\n' ∉ s) :
    Piece.str.read (s ++ ch '\n' :: rest) = some ([], ch '\n' :: rest) := by
  have hline : ∀ c ∈ s, decide (c ≠ ch '\n') = true :=
    fun c hc => decide_eq_true fun heq => hs (heq ▸ hc)
  obtain ⟨-, hdrop⟩ := takeWhile_append_stop hline (decide_eq_false (not_not.mpr rfl)) rest
  rw [Piece.read, hdrop]

theorem read_lit (cs : List (BitVec 8)) : (Piece.lit cs).read (cs ++ rest) = some ([], rest) := by
  rw [Piece.read, if_pos (List.prefix_append cs rest), List.drop_left]

theorem text_of_firstChar {fs : List Filled} {c : BitVec 8}
    (h : firstChar (fs.map Filled.piece) = some c) : ∃ tail, fs.flatMap Filled.text = c :: tail := by
  cases fs with
  | nil => cases h
  | cons f fs =>
    cases f with
    | lit cs =>
      cases cs with
      | nil => cases h
      | cons d cs =>
        obtain rfl : d = c := Option.some.inj h
        exact ⟨cs ++ fs.flatMap Filled.text, rfl⟩
    | hex field v => cases h
    | str p s => cases h

/-- A piece is read off the text of all. -/
theorem read_filled {f : Filled} {fs : List Filled} (hf : ∀ x ∈ f.strings, ch '\n' ∉ x.2)
    (hsep : f.piece.endsBefore (firstChar (fs.map Filled.piece)) = true) (rest : List (BitVec 8)) :
    f.piece.read (f.text ++ (fs.flatMap Filled.text ++ rest)) =
      some (f.values, fs.flatMap Filled.text ++ rest) := by
  cases f with
  | lit cs => exact read_lit cs
  | hex field v =>
    cases hfirst : firstChar (fs.map Filled.piece) with
    | none =>
      rw [hfirst] at hsep
      cases hsep
    | some c =>
      obtain ⟨tail, htext⟩ := text_of_firstChar hfirst
      rw [hfirst] at hsep
      rw [htext, List.cons_append]
      exact read_hex ((Bool.not_eq_true' _).mp hsep) v
  | str p s =>
    cases hfirst : firstChar (fs.map Filled.piece) with
    | none =>
      rw [hfirst] at hsep
      cases hsep
    | some c =>
      obtain ⟨tail, htext⟩ := text_of_firstChar hfirst
      rw [hfirst] at hsep
      obtain rfl := of_decide_eq_true hsep
      rw [htext, List.cons_append]
      exact read_str (hf (p, s) List.mem_cons_self)

/-- The values are read back from the text, whatever comes behind it, if the strings stay on
their lines. -/
theorem readPieces_filled {fs : List Filled} (hsep : separated (fs.map Filled.piece) = true)
    (hlines : ∀ x ∈ fs.flatMap Filled.strings, ch '\n' ∉ x.2) (rest : List (BitVec 8)) :
    readPieces (fs.map Filled.piece) (fs.flatMap Filled.text ++ rest) =
      some (fs.flatMap Filled.values, rest) := by
  induction fs with
  | nil => rfl
  | cons f fs ih =>
    rw [List.flatMap_cons, List.forall_mem_append] at hlines
    rw [List.map_cons, separated, Bool.and_eq_true] at hsep
    rw [List.map_cons, List.flatMap_cons, List.flatMap_cons, List.append_assoc, readPieces,
      read_filled hlines.1 hsep.1, Option.bind_eq_bind, Option.bind_some]
    dsimp only
    rw [ih hsep.2 hlines.2, Option.bind_some]
    rfl

end CxKernel.Stdio
