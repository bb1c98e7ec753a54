import Mathlib.Data.Nat.Notation

/-! `lib/ebl/bit.h`: a field of `bits` bits at `index` in a word of `w` bits. C++
computes on words narrower than `int` in 32 bits and cuts the result back. -/

namespace CxKernel.BitField

/-- The width in which an operand of `w` bits is computed with. -/
def promoted (w : ℕ) : ℕ := max w 32

/-- `Mask`, built in 32 bits and converted to the word type. -/
def mask (w bits : ℕ) : BitVec w := ((1#32 <<< bits) - 1#32).setWidth w

/-- `operator=(T)` -/
def assign {w : ℕ} (index bits : ℕ) (word value : BitVec w) : BitVec w :=
  let m := (mask w bits).setWidth (promoted w)
  let x := (value.setWidth (promoted w) &&& m) <<< index
  ((word.setWidth (promoted w) &&& ~~~(m <<< index)) ||| x).setWidth w

/-- `operator T` -/
def get {w : ℕ} (index bits : ℕ) (word : BitVec w) : BitVec w :=
  ((word.setWidth (promoted w) >>> index) &&& (mask w bits).setWidth (promoted w)).setWidth w

/-- `operator bool` -/
def test {w : ℕ} (index bits : ℕ) (word : BitVec w) : Bool :=
  word.setWidth (promoted w) &&& ((mask w bits).setWidth (promoted w) <<< index) != 0

/-- The copy assignment the compiler supplies between two fields of one type: it
copies the whole word. -/
def copy {w : ℕ} (_word other : BitVec w) : BitVec w := other

end CxKernel.BitField
