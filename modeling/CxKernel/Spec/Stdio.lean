import CxKernel.Lib.ByteMem
import CxKernel.Spec.Strings

/-! `lib/ebl/stdio.cc`, on the 64-bit build. An `int` is an integer here, so widths and counts
are those of the code below 2 ^ 31. A read of a format byte behind the NUL, an index outside the
digit buffer, a missing argument and a loop that does not end are `none`. -/

namespace CxKernel.Stdio

open Strings

def ch (c : Char) : BitVec 8 := .ofNat _ c.toNat

def SIGNED : BitVec 8 := 0b1
def ZEROPAD : BitVec 8 := 0b10
def FPLUS : BitVec 8 := 0b100
def SPLUS : BitVec 8 := 0b1000
def PREFIX : BitVec 8 := 0b10000
def SMALL : BitVec 8 := 0b100000
def LEFT : BitVec 8 := 0b1000000

/-- `flags & mask` -/
def has (flags mask : BitVec 8) : Bool := flags &&& mask ≠ 0

def isDigit (c : BitVec 8) : Bool := ch '0' ≤ c ∧ c ≤ ch '9'

/-- What was passed to the output function, what was counted, and what `%n` has stored. -/
structure Out where
  emitted : List (BitVec 8)
  written : ℤ
  stored : List (BitVec 64 × ℤ)

namespace Out

def empty : Out := ⟨[], 0, []⟩

/-- `written += f(g, c, buf)` -/
def f (out : Out) (c : BitVec 8) : Out :=
  { out with emitted := out.emitted ++ [c], written := out.written + 1 }

/-- `written += num(...)` -/
def add (out sub : Out) : Out :=
  ⟨out.emitted ++ sub.emitted, out.written + sub.written, out.stored ++ sub.stored⟩

/-- `while(w-- > 0) written += f(g, c, buf);` -/
def pad (c : BitVec 8) (out : Out) (w : ℤ) : Out × ℤ :=
  if w > 0 then pad c (out.f c) (w - 1) else (out, w - 1)
termination_by w.toNat

/-- `while(--width > 0) written += f(g, c, buf);` -/
def padPre (c : BitVec 8) (out : Out) (width : ℤ) : Out × ℤ :=
  if width - 1 > 0 then padPre c (out.f c) (width - 1) else (out, width - 1)
termination_by width.toNat

end Out

/-! `num` -/

def baseStr (flags : BitVec 8) : List (BitVec 8) :=
  (['0', '1', '2', '3', '4', '5', '6', '7', '8', '9'] ++
    if has flags SMALL then ['a', 'b', 'c', 'd', 'e', 'f']
    else ['A', 'B', 'C', 'D', 'E', 'F']).map ch

/-- The digits go to `str` from `i` on, the least one first. -/
def digitLoop (digits : List (BitVec 8)) (base divide : BitVec 64) (i : ℕ)
    (str : List (BitVec 8)) : Option (List (BitVec 8)) :=
  haveI digitLoop : List (BitVec 8) → BitVec 64 → BitVec 64 → ℕ → List (BitVec 8) →
    Option (List (BitVec 8)) := by apply digitLoop
  do
    if divide > 0 then
      let d ← digits[(divide % base).toNat]?
      if i < str.length then digitLoop digits base (divide / base) (i + 1) (str.set i d) else none
    else return str
partial_fixpoint

/-- `strlen(str)` -/
def bufLen (str : List (BitVec 8)) : ℕ := (str.takeWhile (· ≠ 0)).length

def putPrefix (base flags : BitVec 8) (out : Out) : Out :=
  if has flags PREFIX ∧ base = 16 then
    (out.f (ch '0')).f (if has flags SMALL then ch 'x' else ch 'X')
  else if has flags PREFIX ∧ base = 8 then out.f (ch '0')
  else out

/-- `for(int i = strlen(str); i > 0; i--) written += f(g, str[i - 1], _buf);` -/
def putDigits (str : List (BitVec 8)) : ℕ → Out → Option Out
  | 0, out => some out
  | i + 1, out => do
    let c ← str[i]?
    putDigits str i (out.f c)

/-- `w`, once the padding is worked out. -/
def padWidth (num : BitVec 64) (base flags : BitVec 8) (width : ℤ) (str : List (BitVec 8)) : ℤ :=
  let w : ℤ := if has flags PREFIX ∧ base = 16 then 2
    else if has flags PREFIX ∧ base = 8 then 1 else 0
  let w := if (has flags SIGNED ∧ num.slt 0) ∨ (has flags SIGNED ∧ has flags FPLUS) ∨
    (has flags SIGNED ∧ has flags SPLUS) then w + 1 else w
  let w := bufLen str + w
  if width - w > 0 then width - w else 0

/-- `sign`, or NUL for none. -/
def numSign (num : BitVec 64) (flags : BitVec 8) : BitVec 8 :=
  let sign := if num.slt 0 ∧ has flags SIGNED then ch '-' else 0
  let sign := if ¬ num.slt 0 ∧ has flags FPLUS then ch '+' else sign
  if ¬ num.slt 0 ∧ has flags SPLUS then ch ' ' else sign

def num (num : BitVec 64) (base flags : BitVec 8) (width percision : ℤ) : Option Out := do
  let p := if percision = -1 then 0 else percision
  let divide := if num.slt 0 ∧ has flags SIGNED then -num else num
  let str ← digitLoop (baseStr flags) (base.signExtend 64) divide 0 (List.replicate 23 0)
  let str := if num = 0 then str.set 0 (ch '0') else str
  let w := padWidth num base flags width str
  let sign := numSign num flags
  let (out, w) := if ¬ has flags ZEROPAD ∧ ¬ has flags LEFT then Out.empty.pad (ch ' ') w
    else (Out.empty, w)
  let out := if sign ≠ 0 then out.f sign else out
  let out := putPrefix base flags out
  let out := (out.pad (ch '0') p).1
  let (out, w) := if has flags ZEROPAD then out.pad (ch '0') w else (out, w)
  let out ← putDigits str (bufLen str) out
  return if ¬ has flags ZEROPAD ∧ has flags LEFT then (out.pad (ch ' ') w).1 else out

/-! The conversion: its flags, width, precision and length. A format is what of it is left, its
NUL included, and the arguments are what of their eight-byte slots is left. -/

/-- `goto repeat`, after `fmt++` -/
def repeatFlags (flags : BitVec 8) : List (BitVec 8) → Option (BitVec 8 × List (BitVec 8))
  | [] => none
  | c :: fmt =>
    if c = ch '0' then repeatFlags (flags ||| ZEROPAD) fmt
    else if c = ch ' ' then repeatFlags (flags ||| SPLUS) fmt
    else if c = ch '+' then repeatFlags (flags ||| FPLUS) fmt
    else if c = ch '#' then repeatFlags (flags ||| PREFIX) fmt
    else if c = ch '-' then repeatFlags (flags ||| LEFT) fmt
    else some (flags, c :: fmt)

def parseNum (num : ℤ) : List (BitVec 8) → Option (ℤ × List (BitVec 8))
  | [] => none
  | c :: fmt =>
    if isDigit c then parseNum (num * 10 + c.toNat - (ch '0').toNat) fmt else some (num, c :: fmt)

/-- `va_arg(args, int)` -/
def argInt (slot : BitVec 64) : ℤ := (slot.setWidth 32).toInt

/-- What is known of a conversion, and what is left of the format and the arguments. -/
structure Conversion where
  flags : BitVec 8
  width : ℤ
  percision : ℤ
  length : BitVec 8
  fmt : List (BitVec 8)
  args : List (BitVec 64)

def parseFlags (fmt : List (BitVec 8)) (args : List (BitVec 64)) : Option Conversion := do
  let (flags, fmt) ← repeatFlags 0 fmt
  return { flags, width := -1, percision := -1, length := 0, fmt, args }

def parseWidth (cv : Conversion) : Option Conversion := do
  let c ← cv.fmt.head?
  if c = ch '*' then
    let width := argInt (← cv.args.head?)
    let cv := { cv with fmt := cv.fmt.tail, args := cv.args.tail }
    return if width < 0 then { cv with width := -width, flags := cv.flags ||| LEFT }
    else { cv with width }
  else if isDigit c then
    let (width, fmt) ← parseNum 0 cv.fmt
    return { cv with width, fmt }
  else return cv

/-- `percision = percision < 0 ? 0 : percision;` comes last. -/
def parsePercision (cv : Conversion) : Option Conversion := do
  let c ← cv.fmt.head?
  if c = ch '.' then
    let fmt := cv.fmt.tail
    let c ← fmt.head?
    if c = ch '*' then
      let percision := argInt (← cv.args.head?)
      return { cv with percision := max percision 0, fmt := fmt.tail, args := cv.args.tail }
    else if isDigit c then
      let (percision, fmt) ← parseNum 0 fmt
      return { cv with percision := max percision 0, fmt }
    else return { cv with percision := 0, fmt }
  else return cv

/-- An `l` behind the length is ignored. -/
def parseLength (cv : Conversion) : Option Conversion := do
  let c ← cv.fmt.head?
  let cv := if c = ch 'h' ∨ c = ch 'l' ∨ c = ch 'L' then
    { cv with length := c, fmt := cv.fmt.tail } else cv
  let c ← cv.fmt.head?
  return if c = ch 'l' then { cv with fmt := cv.fmt.tail } else cv

def parseConversion (fmt : List (BitVec 8)) (args : List (BitVec 64)) : Option Conversion := do
  parseLength (← parsePercision (← parseWidth (← parseFlags fmt args)))

/-! The type of the conversion. -/

/-- `for(int i = 0; str[i] != '\0'; i++) written += f(g, str[i], &buf);` -/
def putString (mem : Mem 8) (str : BitVec 64) (i : ℕ) (out : Out) : Option Out :=
  haveI putString : Mem 8 → BitVec 64 → ℕ → Out → Option Out := by apply putString
  let c := mem (str + .ofNat _ i)
  if c ≠ 0 then putString mem str (i + 1) (out.f c) else some out
partial_fixpoint

/-- The width is compared in `size_t`, and the difference cut to an `int`. -/
def convertString (mem : Mem 8) (cv : Conversion) (str : BitVec 64) (out : Out) : Option Out := do
  let len ← strlen mem str
  let diff : BitVec 64 := .ofInt _ cv.width - len
  let w := if diff > 0 then (diff.setWidth 32).toInt else 0
  let (out, w) := if ¬ has cv.flags LEFT then out.pad (ch ' ') w else (out, w)
  let out ← putString mem str 0 out
  return (out.pad (ch ' ') w).1

def convertChar (cv : Conversion) (slot : BitVec 64) (out : Out) : Out :=
  let (out, width) := if ¬ has cv.flags LEFT then out.padPre (ch ' ') cv.width
    else (out, cv.width)
  ((out.f (slot.setWidth 8)).padPre (ch ' ') width).1

def convertUnsigned (cv : Conversion) (base flags : BitVec 8) (slot : BitVec 64) (out : Out) :
    Option Out := do
  let val := if cv.length = ch 'l' then slot
    else if cv.length = ch 'h' then (slot.setWidth 16).setWidth 64
    else (slot.setWidth 32).setWidth 64
  return out.add (← num val base flags cv.width cv.percision)

def convertPointer (cv : Conversion) (slot : BitVec 64) (out : Out) : Option Out := do
  let (width, flags) := if cv.width = -1 then (8, cv.flags ||| ZEROPAD) else (cv.width, cv.flags)
  return out.add (← num slot 16 flags width cv.percision)

def convertSigned (cv : Conversion) (slot : BitVec 64) (out : Out) : Option Out := do
  let val := if cv.length = ch 'l' then slot
    else if cv.length = ch 'h' then (slot.setWidth 16).signExtend 64
    else slot
  return out.add (← num val 10 (cv.flags ||| SIGNED) cv.width cv.percision)

/-- A conversion that takes one argument, by its letter. -/
def convertArg (mem : Mem 8) (cv : Conversion) (c : BitVec 8) :
    Option (BitVec 64 → Out → Option Out) :=
  if c = ch 's' then some (convertString mem cv)
  else if c = ch 'c' then some fun slot out => some (convertChar cv slot out)
  else if c = ch 'x' then some (convertUnsigned cv 16 (cv.flags ||| SMALL))
  else if c = ch 'X' then some (convertUnsigned cv 16 cv.flags)
  else if c = ch 'o' then some (convertUnsigned cv 8 cv.flags)
  else if c = ch 'u' then some (convertUnsigned cv 10 cv.flags)
  else if c = ch 'p' then some (convertPointer cv)
  else if c = ch 'i' ∨ c = ch 'd' then some (convertSigned cv)
  else if c = ch 'n' then
    some fun foo out => some { out with stored := out.stored ++ [(foo, out.written)] }
  else none

/-- The whole `while` loop, and what it returns. -/
def ssprintfLoop (mem : Mem 8) (fmt : List (BitVec 8)) (args : List (BitVec 64)) (out : Out) :
    Option (ℤ × Out) :=
  haveI ssprintfLoop : Mem 8 → List (BitVec 8) → List (BitVec 64) → Out → Option (ℤ × Out) := by
    apply ssprintfLoop
  do
    let c ← fmt.head?
    if c = 0 then return (out.written, out)
    else if c = ch '%' then
      let cv ← parseConversion fmt.tail args
      let c ← cv.fmt.head?
      match convertArg mem cv c with
      | some convert =>
        let out ← convert (← cv.args.head?) out
        ssprintfLoop mem cv.fmt.tail cv.args.tail out
      | none =>
        if c = ch '%' then ssprintfLoop mem cv.fmt.tail cv.args (out.f (ch '%'))
        else return (-1, out)
    else ssprintfLoop mem fmt.tail args (out.f c)
partial_fixpoint

def ssprintf (mem : Mem 8) (fmt : List (BitVec 8)) (args : List (BitVec 64)) :
    Option (ℤ × Out) := ssprintfLoop mem fmt args .empty

/-! `vsprintf` -/

/-- `**buf = c; *buf += 1;` -/
def swriteSbuf : Mem 8 → BitVec 64 → List (BitVec 8) → Mem 8
  | mem, _, [] => mem
  | mem, buf, c :: cs => swriteSbuf (Function.update mem buf c) (buf + 1) cs

/-- `*foo = written;` -/
def storeInt (mem : Mem 8) (p : BitVec 64 × ℤ) : Mem 8 :=
  ByteMem.store mem p.1 (BitVec.ofInt 32 p.2)

/-- The bytes written, the `int`s stored and the texts read lie apart, so their order is not
kept. -/
def vsprintf (mem : Mem 8) (buf : BitVec 64) (fmt : List (BitVec 8)) (args : List (BitVec 64)) :
    Option (ℤ × Mem 8) := do
  let (ret, out) ← ssprintf mem fmt args
  return (ret, swriteSbuf (out.stored.foldl storeInt mem) buf out.emitted)

end CxKernel.Stdio
