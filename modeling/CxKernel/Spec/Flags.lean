import Mathlib.Data.Nat.Notation

/-! The flags register, as `pushf`, `popf` and `cli` see it in the kernel. -/

namespace CxKernel

/-- What `popf` makes of a word in the kernel: the bits it can write, and bit 1. -/
def popfImage (w : BitVec 64) : BitVec 64 := w &&& 0x247FD5 ||| 2

theorem popfImage_idem (w : BitVec 64) : popfImage (popfImage w) = popfImage w := by
  apply BitVec.eq_of_getLsbD_eq
  intro i hi
  simp only [popfImage, BitVec.getLsbD_or, BitVec.getLsbD_and]
  cases w.getLsbD i <;> cases (0x247FD5 : BitVec 64).getLsbD i <;>
    cases (2 : BitVec 64).getLsbD i <;> rfl

/-- IF -/
def interruptFlag (flags : BitVec 64) : Bool := flags.getLsbD 9

def cli (flags : BitVec 64) : BitVec 64 := flags &&& ~~~0x200

theorem interruptFlag_cli (flags : BitVec 64) : interruptFlag (cli flags) = false := by
  simp [interruptFlag, cli]

theorem interruptFlag_popfImage (w : BitVec 64) :
    interruptFlag (popfImage w) = interruptFlag w := by
  simp [interruptFlag, popfImage]

end CxKernel
