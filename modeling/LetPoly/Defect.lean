/-!
# Broken contracts

Three operations of the library ask something of their caller.  Spans are joined
only within one file, a type variable is bound only while it is free, and a slot is
filled only while it is empty.  A caller that does not keep its side gets a
*defect*.  A defect is not an error of the program being read, and it is kept apart
from those: a computation stops either with an error of its own kind or with a
defect, which `Fault` says.
-/

namespace LetPoly

/-- A condition of an operation that its caller did not keep. -/
inductive Defect where
  /-- Two spans of different files were joined. -/
  | spansOfTwoFiles
  /-- A bound type variable was bound again. -/
  | variableBoundTwice
  /-- A filled slot was filled again. -/
  | slotFilledTwice
  deriving DecidableEq, Repr

/-- Why a computation stopped: with an error of its own kind, or with a defect. -/
inductive Fault (ε : Type) where
  /-- The computation found an error. -/
  | error (e : ε)
  /-- The computation broke a contract. -/
  | defect (d : Defect)
  deriving DecidableEq, Repr

/-- The same stop with another kind of error. -/
def Fault.mapError {ε ε' : Type} (f : ε → ε') : Fault ε → Fault ε'
  | .error e => .error (f e)
  | .defect d => .defect d

end LetPoly
