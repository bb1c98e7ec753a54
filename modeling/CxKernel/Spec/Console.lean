import Mathlib.Data.Nat.Notation
import Mathlib.Logic.Function.Basic

/-! The buffered console streams of `lib/ebl/stdio.cc`. The two buffers are one array of
bytes, and a pointer into them is an index of it; `none` is an access outside. -/

namespace CxKernel.Console

/-- `ebl::COUT` and `ebl::CLOG` -/
inductive Fd where
  | cout
  | clog
deriving DecidableEq

/-- Where the buffer of a stream begins. -/
def base : Fd → ℕ
  | .cout => 0
  | .clog => 512

/-- `stream_buffer_org` and `stream_buffer`; the indices written to, by which stream, what
each flush gave to the console, and what was written to a stream since its last flush. -/
structure Streams where
  org : ℕ → BitVec 8
  ptr : Fd → ℕ
  writes : List (Fd × ℕ)
  delivered : List (Fd × List (BitVec 8))
  pending : Fd → List (BitVec 8)

/-- The initial values of the two arrays. -/
def start : Streams where
  org _ := 0
  ptr := base
  writes := []
  delivered := []
  pending _ := []

def newline : BitVec 8 := 10

/-- `*stream_buffer[fd] = c` -/
def Streams.put (s : Streams) (fd : Fd) (c : BitVec 8) : Option Streams :=
  if s.ptr fd < 1024 then
    some { s with
      org := Function.update s.org (s.ptr fd) c
      writes := s.writes ++ [(fd, s.ptr fd)] }
  else none

/-- `console_puts` and `console_log`, with `left` bytes left in the array. -/
def consolePuts (org : ℕ → BitVec 8) (c : ℕ) : ℕ → Option (List (BitVec 8))
  | 0 => none
  | left + 1 =>
    if org c = 0 then some []
    else (consolePuts org (c + 1) left).map (org c :: ·)

/-- The loop over `console_emit`, with `left` bytes to the bound of 512. -/
def emitLoop (org : ℕ → BitVec 8) (c : ℕ) : ℕ → List (BitVec 8)
  | 0 => []
  | left + 1 => if org c = 0 then [] else org c :: emitLoop org (c + 1) left

/-- The pointer goes back to the start, and the text to the console. -/
def Streams.deliver (s : Streams) (fd : Fd) (text : List (BitVec 8)) : Streams :=
  { s with
    ptr := Function.update s.ptr fd (base fd)
    delivered := s.delivered ++ [(fd, text)]
    pending := Function.update s.pending fd [] }

def fflush (s : Streams) : Fd → Option Streams
  | .clog => do
    let s ← s.put .clog 0
    let text ← consolePuts s.org (base .clog) 512
    return s.deliver .clog text
  | .cout => do
    let s ← s.put .cout 0
    return s.deliver .cout (emitLoop s.org (base .cout) 512)

/-- `*stream_buffer[fd]++ = c` -/
def Streams.write (s : Streams) (fd : Fd) (c : BitVec 8) : Option Streams := do
  let s ← s.put fd c
  return { s with
    ptr := Function.update s.ptr fd (s.ptr fd + 1)
    pending := Function.update s.pending fd (s.pending fd ++ [c]) }

/-- A character is stored, and a newline or a full buffer flushes. -/
def stream (fd : Fd) (c : BitVec 8) (s : Streams) : Option Streams := do
  let s ← s.write fd c
  if c = newline ∨ s.ptr fd - base fd > 512 then fflush s fd else some s

def streamLog (c : BitVec 8) (s : Streams) : Option Streams := stream .clog c s

def streamOut (c : BitVec 8) (s : Streams) : Option Streams := stream .cout c s

def step (s : Streams) : Fd × BitVec 8 → Option Streams
  | (.cout, c) => streamOut c s
  | (.clog, c) => streamLog c s

end CxKernel.Console
