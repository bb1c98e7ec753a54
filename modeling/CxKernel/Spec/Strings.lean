import Mathlib.Data.Int.Notation
import Mathlib.Data.Nat.Digits.Defs
import Mathlib.Logic.Function.Basic

/-! `lib/ebl/string.cc`, on a machine whose pointers and whose `unsigned long` have `n` bytes.
A loop that does not end is `none`. -/

namespace CxKernel.Strings

variable {n : ℕ}

abbrev Ptr (n : ℕ) := BitVec (8 * n)

abbrev Mem (n : ℕ) := Ptr n → BitVec 8

/-- `while(len--) *d++ = *s++;` -/
def copyUp (d s : Ptr n) : ℕ → Mem n → Mem n
  | 0, mem => mem
  | len + 1, mem => copyUp (d + 1) (s + 1) len (Function.update mem d (mem s))

/-- `while(len--) *lastd-- = *lasts--;` -/
def copyDown (lastd lasts : Ptr n) : ℕ → Mem n → Mem n
  | 0, mem => mem
  | len + 1, mem => copyDown (lastd - 1) (lasts - 1) len (Function.update mem lastd (mem lasts))

def memcpy (mem : Mem n) (dest src len : Ptr n) : Mem n := copyUp dest src len.toNat mem

def memmove (mem : Mem n) (dest src len : Ptr n) : Mem n :=
  if dest < src then copyUp dest src len.toNat mem
  else copyDown (dest + (len - 1)) (src + (len - 1)) len.toNat mem

/-! `strlen` -/

/-- `*longword_ptr` -/
def loadLong (mem : Mem n) (p : Ptr n) : Ptr n :=
  .ofNat _ (Nat.ofDigits 256 ((List.range n).map fun i => (mem (p + .ofNat _ i)).toNat))

/-- A magic number of four bytes, or twice that. -/
def magic (m : Ptr n) : Ptr n := if n > 4 then ((m <<< 16) <<< 16) ||| m else m

def himagic : Ptr n := magic 0x80808080

def lomagic : Ptr n := magic 0x01010101

/-- The bytes of a word that are looked at, in this order. -/
def firstNul (mem : Mem n) (cp : Ptr n) : Option ℕ :=
  ([0, 1, 2, 3] ++ if n > 4 then [4, 5, 6, 7] else []).find? fun i =>
    mem (cp + BitVec.ofNat _ i) = 0

/-! A read is checked: `r` says of which bytes one may be made, and a word may be loaded where
its first byte may be read. -/

section Checked

variable (r : Ptr n → Bool) (mem : Mem n)

def readByte (p : Ptr n) : Option (BitVec 8) := if r p then some (mem p) else none

def readLong (p : Ptr n) : Option (Ptr n) := if r p then some (loadLong mem p) else none

def wordLoop (str longwordPtr : Ptr n) : Option (Ptr n) :=
  haveI wordLoop : Ptr n → Ptr n → Option (Ptr n) := by apply wordLoop
  do
    let longword ← readLong r mem longwordPtr
    let next := longwordPtr + .ofNat _ n
    if (longword - lomagic) &&& ~~~longword &&& himagic ≠ 0 then
      match firstNul mem longwordPtr with
      | some i => return longwordPtr - str + .ofNat _ i
      | none => wordLoop str next
    else wordLoop str next
partial_fixpoint

/-- The loop up to the first aligned address, and what comes after it. -/
def strlenFrom (str ptr : Ptr n) : Option (Ptr n) :=
  haveI strlenFrom : Ptr n → Ptr n → Option (Ptr n) := by apply strlenFrom
  if ptr &&& .ofNat _ (n - 1) ≠ 0 then do
    let c ← readByte r mem ptr
    if c = 0 then return ptr - str else strlenFrom str (ptr + 1)
  else wordLoop r mem str ptr
partial_fixpoint

def strlenIn (str : Ptr n) : Option (Ptr n) := strlenFrom r mem str str

end Checked

def strlen (mem : Mem n) (str : Ptr n) : Option (Ptr n) := strlenIn (fun _ => true) mem str

def strcpy (mem : Mem n) (dest src : Ptr n) : Option (Mem n) := do
  let len ← strlen mem src
  return memcpy mem dest src len

def strcat (mem : Mem n) (dest src : Ptr n) : Option (Mem n) := do
  let len ← strlen mem dest
  strcpy mem (dest + len) src

/-! `strncmp`, `strcmp`, `strchr` and `strstr`, with checked reads too. -/

section Checked

variable (r : Ptr n → Bool) (mem : Mem n)

def strncmp (s1 s2 : Ptr n) : ℕ → Option ℤ
  | 0 => some 0
  | k + 1 => do
    let u1 ← readByte r mem s1
    let u2 ← readByte r mem s2
    if u1 ≠ u2 then return u1.toNat - u2.toNat
    else if u1 = 0 then return 0
    else strncmp (s1 + 1) (s2 + 1) k

def strcmp (str1 str2 : Ptr n) : Option ℤ :=
  haveI strcmp : Ptr n → Ptr n → Option ℤ := by apply strcmp
  do
    let u1 ← readByte r mem str1
    let u2 ← readByte r mem str2
    if u1 ≠ 0 ∧ u1 = u2 then strcmp (str1 + 1) (str2 + 1)
    else return u1.toNat - u2.toNat
partial_fixpoint

/-- The null pointer is address 0. -/
def strchr (s : Ptr n) (c : BitVec 8) : Option (Ptr n) :=
  haveI strchr : Ptr n → BitVec 8 → Option (Ptr n) := by apply strchr
  do
    let b ← readByte r mem s
    if b = c then return s
    else if b = 0 then return 0
    else strchr (s + 1) c
partial_fixpoint

def strstrFrom (p s2 : Ptr n) (len : ℕ) : Option (Ptr n) :=
  haveI strstrFrom : Ptr n → Ptr n → ℕ → Option (Ptr n) := by apply strstrFrom
  do
    let c ← readByte r mem s2
    let p ← strchr r mem p c
    if p = 0 then return 0
    else
      let d ← strncmp r mem p s2 len
      if d = 0 then return p else strstrFrom (p + 1) s2 len
partial_fixpoint

def strstr (s1 s2 : Ptr n) : Option (Ptr n) := do
  let len ← strlenIn r mem s2
  strstrFrom r mem s1 s2 len.toNat

end Checked

end CxKernel.Strings
