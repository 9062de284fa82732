import LetPoly.Typing.Error

/-!
# Modes of inference

Bottom-up inference finds the type of every expression without regard to its context
and compares afterwards.  Top-down inference pushes an expected type into an
expression where the context has one.  Which contexts do so can be chosen.  The test
of a conditional is always expected to be a truth value.
-/

namespace LetPoly

/-- Which contexts push an expected type into an expression. -/
structure Propagation where
  /-- The parameter type of a known function is pushed into the argument. -/
  arguments : Bool
  /-- The type expected of a conditional is pushed into its branches. -/
  branches : Bool
  /-- An annotation is pushed into what it annotates. -/
  annotations : Bool
  deriving DecidableEq, Repr

/-- All contexts push. -/
def Propagation.all : Propagation := ⟨true, true, true⟩

/-- A way to infer types. -/
inductive Mode where
  /-- Types are found without regard to the context. -/
  | bottomUp
  /-- Expected types are pushed into expressions. -/
  | topDown (p : Propagation)
  deriving DecidableEq, Repr

/-- Whether a type that is expected for a reason is pushed into the expression. -/
def Mode.propagates : Mode → Because → Bool
  | bottomUp, _ => false
  | topDown p, .ascription _ => p.annotations
  | topDown p, .branch _ => p.branches
  | topDown p, .argument => p.arguments
  | topDown _, .condition => true

end LetPoly
