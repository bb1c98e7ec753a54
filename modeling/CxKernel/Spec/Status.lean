import Mathlib.Data.Nat.Notation

/-! `lib/ebl/status.h`: the error codes. A call that hands back a `Result` is
`Except E α`, where `E::OK` is no error. `ResultVoid` has the `armed_` flag too. -/

namespace CxKernel

inductive E where
  | invalid
  | notImplemented
  | invalidArgument
  | outOfMemory
  | permissionDenied
  | allocationFailed
deriving DecidableEq, Repr

/-- `Result<void>` -/
structure ResultVoid where
  error : Except E Unit
  armed : Bool

namespace ResultVoid

/-- The constructor from an `E`. -/
def ofE (e : Except E Unit) : ResultVoid := ⟨e, true⟩

def status (r : ResultVoid) : Except E Unit × ResultVoid :=
  (r.error, { r with armed := false })

/-- `operator bool` -/
def toBool (r : ResultVoid) : Bool × ResultVoid := (r.status.1.isOk, r.status.2)

/-- The destructor. -/
def destroy (r : ResultVoid) : Except String Unit :=
  if r.armed = true then .error "Attempted to destroy an armed Result" else .ok ()

end ResultVoid

end CxKernel
