import CxKernel.Proofs.NumText
import CxKernel.Proofs.Strlen
import Mathlib.Data.List.TakeWhile

/-! `ssprintf` against what its format asks for. -/

namespace CxKernel.Stdio

open Strings

variable {mem : Mem 8} {fmt rest : List (BitVec 8)} {args : List (BitVec 64)} {out : Out}
  {cv : Conversion} {flags c : BitVec 8} {k : ℕ}

def isFlag (c : BitVec 8) : Bool := c ∈ [ch '0', ch ' ', ch '+', ch '#', ch '-']

/-- A conversion up to its letter: how many `int`s it asks for, its length, and what comes then.
Behind the end of a format is its NUL. -/
structure Scan where
  words : ℕ
  length : BitVec 8
  rest : List (BitVec 8)

/-- A number, or a star for an `int`. -/
def scanNumber (fmt : List (BitVec 8)) : Scan :=
  if fmt.headD 0 = ch '*' then ⟨1, 0, fmt.tail⟩ else ⟨0, 0, fmt.dropWhile isDigit⟩

def scanPercision (fmt : List (BitVec 8)) : Scan :=
  if fmt.headD 0 = ch '.' then scanNumber fmt.tail else ⟨0, 0, fmt⟩

def isLength (c : BitVec 8) : Bool := c ∈ [ch 'h', ch 'l', ch 'L']

def scanLength (fmt : List (BitVec 8)) : Scan :=
  let length := if isLength (fmt.headD 0) then fmt.headD 0 else 0
  let fmt := if isLength (fmt.headD 0) then fmt.tail else fmt
  ⟨0, length, if fmt.headD 0 = ch 'l' then fmt.tail else fmt⟩

def scanConversion (fmt : List (BitVec 8)) : Scan :=
  let width := scanNumber (fmt.dropWhile isFlag)
  let percision := scanPercision width.rest
  let length := scanLength percision.rest
  ⟨width.words + percision.words, length.length, length.rest⟩

/-- What is asked for in one slot. -/
inductive Ask
  | word
  | text

/-- What the letter of a conversion asks for, if it is one. -/
def askOf (c : BitVec 8) : Option (List Ask) :=
  if c = ch 's' then some [.text]
  else if c ∈ ['c', 'x', 'X', 'o', 'u', 'p', 'i', 'd', 'n'].map ch then some [.word]
  else if c = ch '%' then some []
  else none

theorem scanNumber_suffix (fmt : List (BitVec 8)) : (scanNumber fmt).rest <:+ fmt := by
  unfold scanNumber
  split_ifs
  · exact List.tail_suffix fmt
  · exact List.dropWhile_suffix _

theorem scanNumber_length (fmt : List (BitVec 8)) : (scanNumber fmt).length = 0 := by
  unfold scanNumber
  split_ifs <;> rfl

theorem scanPercision_length (fmt : List (BitVec 8)) : (scanPercision fmt).length = 0 := by
  unfold scanPercision
  split_ifs
  · exact scanNumber_length _
  · rfl

theorem scanPercision_suffix (fmt : List (BitVec 8)) : (scanPercision fmt).rest <:+ fmt := by
  unfold scanPercision
  split_ifs
  · exact (scanNumber_suffix _).trans (List.tail_suffix fmt)
  · exact List.suffix_refl fmt

theorem scanLength_suffix (fmt : List (BitVec 8)) : (scanLength fmt).rest <:+ fmt := by
  unfold scanLength
  dsimp only
  split_ifs
  · exact (List.tail_suffix _).trans (List.tail_suffix fmt)
  · exact List.tail_suffix fmt
  · exact List.tail_suffix fmt
  · exact List.suffix_refl fmt

theorem scanConversion_suffix (fmt : List (BitVec 8)) : (scanConversion fmt).rest <:+ fmt :=
  (scanLength_suffix _).trans ((scanPercision_suffix _).trans
    ((scanNumber_suffix _).trans (List.dropWhile_suffix _)))

/-- What a format asks for up to its first unknown conversion, and whether it has one. -/
def asks (fmt : List (BitVec 8)) : List Ask × Bool :=
  match fmt with
  | [] => ([], false)
  | c :: fmt =>
    if c = ch '%' then
      let words := List.replicate (scanConversion fmt).words .word
      match _ : (scanConversion fmt).rest with
      | [] => (words, true)
      | t :: rest =>
        match askOf t with
        | some as => (words ++ as ++ (asks rest).1, (asks rest).2)
        | none => (words, true)
    else asks fmt
termination_by fmt.length
decreasing_by
  · rename_i h
    have hle := (scanConversion_suffix fmt).length_le
    rw [h, List.length_cons] at hle
    exact Nat.lt_succ_of_lt hle
  · exact Nat.lt_succ_self _

/-- There is a slot for everything that is asked for, and the texts end. -/
def Fits (mem : Mem 8) : List Ask → List (BitVec 64) → Prop
  | [], _ => True
  | _ :: _, [] => False
  | .word :: as, _ :: args => Fits mem as args
  | .text :: as, str :: args => (∃ k, FirstNul mem (str : Ptr 8) k) ∧ Fits mem as args

theorem Fits.words {as : List Ask} (h : Fits mem (List.replicate k .word ++ as) args) :
    k ≤ args.length ∧ Fits mem as (args.drop k) := by
  induction k generalizing args with
  | zero => exact ⟨Nat.zero_le _, h⟩
  | succ k ih =>
    cases args with
    | nil => exact h.elim
    | cons slot args =>
      obtain ⟨hle, hfits⟩ := ih h
      exact ⟨Nat.succ_le_succ hle, hfits⟩

theorem Fits.text {as : List Ask} (h : Fits mem (.text :: as) args) :
    ∃ str slots, args = str :: slots ∧ (∃ k, FirstNul mem (str : Ptr 8) k) ∧ Fits mem as slots := by
  cases args with
  | nil => exact h.elim
  | cons str slots => exact ⟨str, slots, rfl, h⟩

theorem Fits.word {as : List Ask} (h : Fits mem (.word :: as) args) :
    ∃ slot slots, args = slot :: slots ∧ Fits mem as slots := by
  cases args with
  | nil => exact h.elim
  | cons slot slots => exact ⟨slot, slots, rfl, h⟩

/-! The code reads what is scanned. -/

theorem repeatFlags_eq (fmt : List (BitVec 8)) (flags : BitVec 8) :
    ∃ flags', repeatFlags flags (fmt ++ [0]) = some (flags', fmt.dropWhile isFlag ++ [0]) := by
  induction fmt generalizing flags with
  | nil => exact ⟨flags, rfl⟩
  | cons c fmt ih =>
    rw [List.cons_append, repeatFlags]
    by_cases hc : isFlag c = true
    · rw [List.dropWhile_cons_of_pos hc]
      rw [isFlag, decide_eq_true_eq] at hc
      split_ifs with h0 h1 h2 h3 h4
      · exact ih _
      · exact ih _
      · exact ih _
      · exact ih _
      · exact ih _
      · simp [h0, h1, h2, h3, h4] at hc
    · rw [List.dropWhile_cons_of_neg hc]
      rw [isFlag, decide_eq_true_eq] at hc
      simp only [List.mem_cons, not_or] at hc
      rw [if_neg hc.1, if_neg hc.2.1, if_neg hc.2.2.1, if_neg hc.2.2.2.1, if_neg hc.2.2.2.2.1]
      exact ⟨flags, rfl⟩

theorem parseNum_eq (fmt : List (BitVec 8)) (num : ℤ) :
    ∃ num', parseNum num (fmt ++ [0]) = some (num', fmt.dropWhile isDigit ++ [0]) := by
  induction fmt generalizing num with
  | nil => exact ⟨num, rfl⟩
  | cons c fmt ih =>
    rw [List.cons_append, parseNum]
    by_cases hc : isDigit c = true
    · rw [List.dropWhile_cons_of_pos hc, if_pos hc]
      exact ih _
    · rw [List.dropWhile_cons_of_neg hc, if_neg hc]
      exact ⟨num, rfl⟩

/-- `parse` reads what `scan` says, of any format that is long enough to have an end. -/
def Reads (parse : Conversion → Option Conversion) (scan : List (BitVec 8) → Scan) : Prop :=
  ∀ cv fmt, cv.fmt = fmt ++ [0] → (scan fmt).words ≤ cv.args.length → cv.length = 0 →
    ∃ cv', parse cv = some cv' ∧ cv'.fmt = (scan fmt).rest ++ [0] ∧
      cv'.args = cv.args.drop (scan fmt).words ∧ cv'.length = (scan fmt).length

theorem head?_append_zero (fmt : List (BitVec 8)) : (fmt ++ [0]).head? = some (fmt.headD 0) := by
  cases fmt <;> rfl

theorem tail_append_zero (hc : fmt.headD 0 ≠ 0) : (fmt ++ [0]).tail = fmt.tail ++ [0] := by
  cases fmt with
  | nil => exact (hc rfl).elim
  | cons c fmt => rfl

theorem dropWhile_of_headD {p : BitVec 8 → Bool} (hp : p (fmt.headD 0) = false) :
    fmt.dropWhile p = fmt := by
  cases fmt with
  | nil => rfl
  | cons c fmt => exact List.dropWhile_cons_of_neg (by rw [← Bool.not_eq_true] at hp; exact hp)

/-- A star for an `int`, or the digits of a number, or neither. -/
inductive Number (fmt : List (BitVec 8)) : Scan → Prop
  | star (h : fmt.headD 0 = ch '*') (htail : (fmt ++ [0]).tail = fmt.tail ++ [0]) :
    Number fmt ⟨1, 0, fmt.tail⟩
  | digits (h : fmt.headD 0 ≠ ch '*') (hdigit : isDigit (fmt.headD 0) = true) (num : ℤ)
    (hnum : parseNum 0 (fmt ++ [0]) = some (num, fmt.dropWhile isDigit ++ [0])) :
    Number fmt ⟨0, 0, fmt.dropWhile isDigit⟩
  | absent (h : fmt.headD 0 ≠ ch '*') (hdigit : ¬ isDigit (fmt.headD 0) = true) :
    Number fmt ⟨0, 0, fmt⟩

theorem number (fmt : List (BitVec 8)) : Number fmt (scanNumber fmt) := by
  unfold scanNumber
  split_ifs with hstar
  · exact .star hstar (tail_append_zero (by rw [hstar]; decide))
  · by_cases hdigit : isDigit (fmt.headD 0) = true
    · obtain ⟨num, hnum⟩ := parseNum_eq fmt 0
      exact .digits hstar hdigit num hnum
    · rw [dropWhile_of_headD (Bool.eq_false_iff.mpr hdigit)]
      exact .absent hstar hdigit

theorem reads_width : Reads parseWidth scanNumber := by
  intro cv fmt hfmt hargs hlen
  rw [parseWidth, hfmt, head?_append_zero, Option.bind_eq_bind, Option.bind_some]
  have hnumber := number fmt
  generalize scanNumber fmt = scan at hnumber hargs ⊢
  cases hnumber with
  | star hstar htail =>
    obtain ⟨slot, args, hcons⟩ := List.exists_cons_of_length_pos (Nat.lt_of_succ_le hargs)
    rw [if_pos hstar, hcons, List.head?_cons, Option.bind_eq_bind, Option.bind_some]
    dsimp only
    split_ifs
    · exact ⟨_, rfl, htail, rfl, hlen⟩
    · exact ⟨_, rfl, htail, rfl, hlen⟩
  | digits hstar hdigit width hnum =>
    rw [if_neg hstar, if_pos hdigit, hnum]
    exact ⟨_, rfl, rfl, rfl, hlen⟩
  | absent hstar hdigit =>
    rw [if_neg hstar, if_neg hdigit]
    exact ⟨cv, rfl, hfmt, rfl, hlen⟩

theorem reads_percision : Reads parsePercision scanPercision := by
  intro cv fmt hfmt hargs hlen
  rw [parsePercision, hfmt, head?_append_zero, Option.bind_eq_bind, Option.bind_some]
  unfold scanPercision at hargs ⊢
  by_cases hdot : fmt.headD 0 = ch '.'
  · rw [if_pos hdot] at hargs ⊢
    rw [if_pos hdot, tail_append_zero (by rw [hdot]; decide)]
    dsimp only
    rw [head?_append_zero, Option.bind_some]
    have hnumber := number fmt.tail
    generalize scanNumber fmt.tail = scan at hnumber hargs ⊢
    cases hnumber with
    | star hstar htail =>
      obtain ⟨slot, args, hcons⟩ := List.exists_cons_of_length_pos (Nat.lt_of_succ_le hargs)
      rw [if_pos hstar, hcons, List.head?_cons, Option.bind_eq_bind, Option.bind_some]
      exact ⟨_, rfl, htail, rfl, hlen⟩
    | digits hstar hdigit percision hnum =>
      rw [if_neg hstar, if_pos hdigit, hnum]
      exact ⟨_, rfl, rfl, rfl, hlen⟩
    | absent hstar hdigit =>
      rw [if_neg hstar, if_neg hdigit]
      exact ⟨_, rfl, rfl, rfl, hlen⟩
  · rw [if_neg hdot] at hargs ⊢
    rw [if_neg hdot]
    exact ⟨cv, rfl, hfmt, rfl, hlen⟩

theorem isLength_iff : isLength c = true ↔ c = ch 'h' ∨ c = ch 'l' ∨ c = ch 'L' := by
  rw [isLength, decide_eq_true_eq, List.mem_cons, List.mem_cons, List.mem_singleton]

/-- The `l` behind a length, or behind none. -/
theorem skip_l {length : BitVec 8} (hlen : cv.length = length) (hfmt : cv.fmt = fmt ++ [0]) :
    ∃ cv', (do
      let c ← cv.fmt.head?
      return if c = ch 'l' then { cv with fmt := cv.fmt.tail } else cv) = some cv' ∧
      cv'.fmt = (if fmt.headD 0 = ch 'l' then fmt.tail else fmt) ++ [0] ∧ cv'.args = cv.args ∧
      cv'.length = length := by
  rw [hfmt, head?_append_zero, Option.bind_eq_bind, Option.bind_some]
  split_ifs with hl
  · exact ⟨_, rfl, tail_append_zero (by rw [hl]; decide), rfl, hlen⟩
  · exact ⟨_, rfl, hfmt, rfl, hlen⟩

theorem reads_length : Reads parseLength scanLength := by
  intro cv fmt hfmt _ hlen
  rw [parseLength, hfmt, head?_append_zero, Option.bind_eq_bind, Option.bind_some]
  unfold scanLength
  by_cases hc : isLength (fmt.headD 0) = true
  · have htail : (fmt ++ [0]).tail = fmt.tail ++ [0] :=
      tail_append_zero fun hzero => by rw [hzero] at hc; revert hc; decide
    rw [if_pos (isLength_iff.mp hc), if_pos hc, if_pos hc]
    exact skip_l rfl htail
  · rw [if_neg (isLength_iff.not.mp hc), if_neg hc, if_neg hc]
    exact skip_l hlen hfmt

/-- A conversion is read up to its letter, without going past the end of the format. -/
theorem parseConversion_eq (fmt : List (BitVec 8)) (args : List (BitVec 64))
    (hargs : (scanConversion fmt).words ≤ args.length) :
    ∃ cv, parseConversion (fmt ++ [0]) args = some cv ∧
      cv.fmt = (scanConversion fmt).rest ++ [0] ∧
      cv.args = args.drop (scanConversion fmt).words ∧
      cv.length = (scanConversion fmt).length := by
  unfold scanConversion at hargs ⊢
  dsimp only at hargs ⊢
  obtain ⟨flags, hflags⟩ := repeatFlags_eq fmt 0
  obtain ⟨cv₁, h₁, hfmt₁, hargs₁, hlen₁⟩ := reads_width
    ⟨flags, -1, -1, 0, fmt.dropWhile isFlag ++ [0], args⟩ _ rfl (by dsimp only; omega) rfl
  rw [scanNumber_length] at hlen₁
  obtain ⟨cv₂, h₂, hfmt₂, hargs₂, hlen₂⟩ := reads_percision cv₁ _ hfmt₁
    (by rw [hargs₁, List.length_drop]; dsimp only; omega) hlen₁
  rw [scanPercision_length] at hlen₂
  obtain ⟨cv₃, h₃, hfmt₃, hargs₃, hlen₃⟩ := reads_length cv₂ _ hfmt₂ (Nat.zero_le _) hlen₂
  have h₀ : parseFlags (fmt ++ [0]) args =
      some ⟨flags, -1, -1, 0, fmt.dropWhile isFlag ++ [0], args⟩ := by
    rw [parseFlags, hflags]
    rfl
  refine ⟨cv₃, ?_, hfmt₃, ?_, hlen₃⟩
  · rw [parseConversion, h₀, Option.bind_eq_bind, Option.bind_some, h₁, Option.bind_some, h₂,
      Option.bind_some, h₃]
  · rw [hargs₃, hargs₂, hargs₁, List.drop_drop]
    exact List.drop_drop

/-! The conversions. -/

/-- The count is the number of characters. -/
def Out.Counted (out : Out) : Prop := out.written = out.emitted.length

theorem Out.Counted.puts (h : out.Counted) (cs : List (BitVec 8)) : (out.puts cs).Counted := by
  rw [Out.Counted, Out.puts_emitted, Out.puts_written, h, List.length_append, Nat.cast_add]

theorem Out.Counted.padded (h : out.Counted) {w : ℤ} : (out.pad c w).1.Counted := by
  rw [Out.pad_eq]
  exact h.puts _

theorem putString_eq {str : Ptr 8} {n i : ℕ} (h : FirstNul mem str n) (out : Out) (hi : i ≤ n) :
    ∃ cs, putString mem str i out = some (out.puts cs) := by
  induction hd : n - i generalizing i out with
  | zero =>
    obtain rfl : i = n := by omega
    refine ⟨[], ?_⟩
    rw [putString, Out.puts_nil]
    exact if_neg (not_not.mpr h.nul)
  | succ d ih =>
    obtain ⟨cs, hcs⟩ := ih (out.f (mem (str + .ofNat _ i))) (i := i + 1) (by omega) (by omega)
    refine ⟨mem (str + .ofNat _ i) :: cs, ?_⟩
    rw [putString]
    refine (if_pos (h.before i (by omega))).trans ?_
    rw [hcs, Out.f_eq, Out.puts_puts, List.singleton_append]

theorem putString_counted {str : Ptr 8} {n : ℕ} (h : FirstNul mem str n) (hout : out.Counted)
    (w : ℤ) : ∃ out', (do
      let out ← putString mem str 0 out
      return (out.pad (ch ' ') w).1) = some out' ∧ out'.Counted := by
  obtain ⟨cs, hcs⟩ := putString_eq h out (Nat.zero_le n)
  rw [hcs]
  exact ⟨_, rfl, (hout.puts cs).padded⟩

theorem convertString_counted (cv : Conversion) {str : Ptr 8} {n : ℕ} (h : FirstNul mem str n)
    (hout : out.Counted) : ∃ out', convertString mem cv str out = some out' ∧ out'.Counted := by
  rw [convertString, h.strlen_eq (Or.inr rfl), Option.bind_eq_bind, Option.bind_some]
  dsimp only
  generalize (if BitVec.ofInt 64 cv.width - BitVec.ofNat (8 * 8) n > 0 then
    ((BitVec.ofInt 64 cv.width - BitVec.ofNat (8 * 8) n).setWidth 32).toInt else 0) = w
  split_ifs
  · exact putString_counted h hout w
  · exact putString_counted h hout.padded _

theorem convertChar_counted {slot : BitVec 64} (hout : out.Counted) :
    (convertChar cv slot out).Counted := by
  unfold convertChar
  rw [Out.padPre_eq]
  split_ifs
  · dsimp only
    rw [Out.padPre_eq, Out.f_eq]
    exact (hout.puts _).puts _
  · dsimp only
    rw [Out.padPre_eq, Out.f_eq]
    exact ((hout.puts _).puts _).puts _

theorem addNum_counted {v : BitVec 64} {base : BitVec 8} (hbase : Base base) {width percision : ℤ}
    (hout : out.Counted) :
    ∃ out', (do return out.add (← num v base flags width percision)) = some out' ∧
      out'.Counted := by
  rw [num_eq hbase]
  exact ⟨_, rfl, by rw [Out.add_puts]; exact hout.puts _⟩

theorem convertPointer_counted {slot : BitVec 64} (hout : out.Counted) :
    ∃ out', convertPointer cv slot out = some out' ∧ out'.Counted := by
  unfold convertPointer
  split_ifs
  · exact addNum_counted (Or.inr (Or.inr rfl)) hout
  · exact addNum_counted (Or.inr (Or.inr rfl)) hout

/-- A letter is one that takes an argument, or a percent sign, or unknown. -/
inductive Letter (mem : Mem 8) (cv : Conversion) (c : BitVec 8) : Option (List Ask) → Prop
  | text (h : convertArg mem cv c = some (convertString mem cv)) : Letter mem cv c (some [.text])
  | word (convert : BitVec 64 → Out → Option Out) (h : convertArg mem cv c = some convert)
    (ends : ∀ slot out, out.Counted → ∃ out', convert slot out = some out' ∧ out'.Counted) :
    Letter mem cv c (some [.word])
  | percent (h : convertArg mem cv c = none) (hc : c = ch '%') : Letter mem cv c (some [])
  | unknown (h : convertArg mem cv c = none) (hc : c ≠ ch '%') : Letter mem cv c none

theorem letter (mem : Mem 8) (cv : Conversion) (c : BitVec 8) : Letter mem cv c (askOf c) := by
  unfold askOf
  split_ifs with hs hw hp
  · subst hs
    exact .text rfl
  · simp only [List.map_cons, List.map_nil, List.mem_cons, List.not_mem_nil, or_false] at hw
    rcases hw with rfl | rfl | rfl | rfl | rfl | rfl | rfl | rfl | rfl
    · exact .word _ rfl fun slot out hout => ⟨_, rfl, convertChar_counted hout⟩
    · exact .word _ rfl fun slot out => addNum_counted (Or.inr (Or.inr rfl))
    · exact .word _ rfl fun slot out => addNum_counted (Or.inr (Or.inr rfl))
    · exact .word _ rfl fun slot out => addNum_counted (Or.inl rfl)
    · exact .word _ rfl fun slot out => addNum_counted (Or.inr (Or.inl rfl))
    · exact .word _ rfl fun slot out => convertPointer_counted
    · exact .word _ rfl fun slot out => addNum_counted (Or.inr (Or.inl rfl))
    · exact .word _ rfl fun slot out => addNum_counted (Or.inr (Or.inl rfl))
    · exact .word _ rfl fun slot out hout => ⟨_, rfl, hout⟩
  · subst hp
    exact .percent rfl rfl
  · refine .unknown ?_ hp
    simp only [List.map_cons, List.map_nil, List.mem_cons, List.not_mem_nil, or_false, not_or] at hw
    obtain ⟨h₁, h₂, h₃, h₄, h₅, h₆, h₇, h₈, h₉⟩ := hw
    rw [convertArg, if_neg hs, if_neg h₁, if_neg h₂, if_neg h₃, if_neg h₄, if_neg h₅, if_neg h₆,
      if_neg (not_or.mpr ⟨h₇, h₈⟩), if_neg h₉]

/-! The loop. -/

/-- What is asked for behind a percent sign, if the format ends or goes on with `t`. -/
theorem asks_end (h : (scanConversion fmt).rest = []) :
    asks (ch '%' :: fmt) = (List.replicate (scanConversion fmt).words .word, true) := by
  rw [asks, if_pos rfl]
  dsimp only
  split
  · rfl
  · simp_all

theorem asks_letter {t : BitVec 8} (h : (scanConversion fmt).rest = t :: rest) :
    asks (ch '%' :: fmt) = match askOf t with
      | some as => (List.replicate (scanConversion fmt).words .word ++ as ++ (asks rest).1,
          (asks rest).2)
      | none => (List.replicate (scanConversion fmt).words .word, true) := by
  rw [asks, if_pos rfl]
  dsimp only
  split
  · simp_all
  · simp_all

/-- One conversion, once it is read up to its letter. -/
theorem ssprintfLoop_letter {t : BitVec 8} (hcv : parseConversion fmt args = some cv)
    (hfmt : cv.fmt = t :: rest) : ssprintfLoop mem (ch '%' :: fmt) args out =
      match convertArg mem cv t with
      | some convert => do
        let out ← convert (← cv.args.head?) out
        ssprintfLoop mem rest cv.args.tail out
      | none =>
        if t = ch '%' then ssprintfLoop mem rest cv.args (out.f (ch '%')) else some (-1, out) := by
  rw [ssprintfLoop, List.head?_cons, Option.bind_eq_bind, Option.bind_some, if_neg (by decide),
    if_pos rfl, List.tail_cons, hcv, Option.bind_eq_bind, Option.bind_some, hfmt, List.head?_cons,
    Option.bind_eq_bind, Option.bind_some, List.tail_cons]
  rfl

theorem ssprintfLoop_nul : ssprintfLoop mem [0] args out = some (out.written, out) := by
  rw [ssprintfLoop, List.head?_cons, Option.bind_eq_bind, Option.bind_some, if_pos rfl]
  rfl

theorem ssprintfLoop_lit (hc : c ≠ 0) (hp : c ≠ ch '%') : ssprintfLoop mem (c :: fmt) args out =
    ssprintfLoop mem fmt args (out.f c) := by
  rw [ssprintfLoop, List.head?_cons, Option.bind_eq_bind, Option.bind_some, if_neg hc, if_neg hp,
    List.tail_cons]

/-- The loop ends, without reading behind the NUL, and keeps its count. -/
theorem ssprintfLoop_counted (fmt : List (BitVec 8)) (out : Out) (hfmt : 0 ∉ fmt)
    (hargs : Fits mem (asks fmt).1 args) (hout : out.Counted) :
    ∃ ret out', ssprintfLoop mem (fmt ++ [0]) args out = some (ret, out') ∧ out'.Counted ∧
      ret = if (asks fmt).2 then -1 else out'.written := by
  induction fmt using asks.induct generalizing args out with
  | case1 => exact ⟨_, out, ssprintfLoop_nul, hout, by rw [asks]; rfl⟩
  | case2 fmt hend =>
    rw [asks_end hend] at hargs ⊢
    rw [← List.append_nil (List.replicate _ _)] at hargs
    obtain ⟨cv, hcv, hrest, -, -⟩ := parseConversion_eq fmt args hargs.words.1
    rw [hend] at hrest
    rw [List.cons_append, ssprintfLoop_letter hcv hrest]
    exact ⟨-1, out, rfl, hout, rfl⟩
  | case3 fmt t rest hrest as ha ih =>
    have htail : 0 ∉ rest := by
      intro hmem
      refine hfmt (List.mem_cons_of_mem _ ((scanConversion_suffix fmt).subset ?_))
      rw [hrest]
      exact List.mem_cons_of_mem t hmem
    rw [asks_letter hrest, ha] at hargs ⊢
    dsimp only at hargs ⊢
    rw [List.append_assoc] at hargs
    obtain ⟨hle, hfits⟩ := hargs.words
    obtain ⟨cv, hcv, hcvfmt, hcvargs, -⟩ := parseConversion_eq fmt args hle
    rw [hrest, List.cons_append] at hcvfmt
    rw [List.cons_append, ssprintfLoop_letter hcv hcvfmt]
    rw [← hcvargs] at hfits
    have hletter := letter mem cv t
    rw [ha] at hletter
    cases hletter with
    | text h =>
      obtain ⟨slot, slots, hslots, ⟨n, hn⟩, hrestfits⟩ := hfits.text
      obtain ⟨out', hconvert, hout'⟩ := convertString_counted cv hn hout
      rw [h, hslots]
      dsimp only
      rw [List.head?_cons, Option.bind_eq_bind, Option.bind_some, hconvert, Option.bind_eq_bind,
        Option.bind_some]
      exact ih _ htail hrestfits hout'
    | word convert h ends =>
      obtain ⟨slot, slots, hslots, hrestfits⟩ := hfits.word
      obtain ⟨out', hconvert, hout'⟩ := ends slot out hout
      rw [h, hslots]
      dsimp only
      rw [List.head?_cons, Option.bind_eq_bind, Option.bind_some, hconvert, Option.bind_eq_bind,
        Option.bind_some]
      exact ih _ htail hrestfits hout'
    | percent h hc =>
      rw [h]
      dsimp only
      rw [if_pos hc]
      exact ih _ htail hfits (hout.puts _)
  | case4 fmt t rest hrest ha =>
    rw [asks_letter hrest, ha] at hargs ⊢
    dsimp only at hargs ⊢
    rw [← List.append_nil (List.replicate _ _)] at hargs
    obtain ⟨cv, hcv, hcvfmt, -, -⟩ := parseConversion_eq fmt args hargs.words.1
    rw [hrest, List.cons_append] at hcvfmt
    rw [List.cons_append, ssprintfLoop_letter hcv hcvfmt]
    have hletter := letter mem cv t
    rw [ha] at hletter
    cases hletter with
    | unknown h hc =>
      rw [h]
      exact ⟨-1, out, if_neg hc, hout, rfl⟩
  | case5 c fmt hc ih =>
    rw [asks, if_neg hc] at hargs ⊢
    rw [List.cons_append, ssprintfLoop_lit (fun hz => hfmt (hz ▸ List.mem_cons_self)) hc]
    exact ih _ (fun hmem => hfmt (List.mem_cons_of_mem c hmem)) hargs (hout.puts [c])

/-- For every format and all arguments it asks for, `ssprintf` ends, reads nothing behind the NUL
of the format, and returns -1 at an unknown conversion and the number of characters otherwise. -/
theorem ssprintf_counts (mem : Mem 8) (hfmt : 0 ∉ fmt) (hargs : Fits mem (asks fmt).1 args) :
    ∃ ret out, ssprintf mem (fmt ++ [0]) args = some (ret, out) ∧
      ret = if (asks fmt).2 then -1 else (out.emitted.length : ℤ) := by
  obtain ⟨ret, out, hrun, hcounted, hret⟩ := ssprintfLoop_counted fmt .empty hfmt hargs rfl
  exact ⟨ret, out, hrun, by rw [hret, hcounted]⟩

/-- `%d%-` ends inside a conversion. -/
theorem ssprintf_counts_malformed :
    ∃ ret out, ssprintf (fun _ => 0) (['%', 'd', '%', '-'].map ch ++ [0]) [7] = some (ret, out) ∧
      ret = if (asks (['%', 'd', '%', '-'].map ch)).2 then -1 else (out.emitted.length : ℤ) := by
  have hd : (scanConversion (['d', '%', '-'].map ch)).rest = ch 'd' :: ['%', '-'].map ch := by decide
  have hend : (asks (['%', '-'].map ch)).1 = [] := by
    rw [List.map_cons, asks_end (by decide)]
    rfl
  refine ssprintf_counts _ (by decide) ?_
  rw [List.map_cons, asks_letter hd]
  exact hend ▸ trivial

end CxKernel.Stdio
