import LetPoly.Diagnostic
import LetPoly.Ty.Printer
import LetPoly.Ty.Unify

/-!
# Type errors

Two types are unified for a reason, and the reason decides which error a mismatch
becomes.  The message of an error prints each type under names of its own.  Its
diagnostic prints the types of the error under shared names.
-/

namespace LetPoly

/-- Why two types have to be equal. -/
inductive Because where
  /-- The annotation at a span says so. -/
  | ascription (anno : Span)
  /-- They are the types of the branches of the conditional at a span. -/
  | branch (cond : Span)
  /-- One is the type of the test of a conditional. -/
  | condition
  /-- One is the type of an argument, the other that of the parameter. -/
  | argument
  deriving DecidableEq, Repr

/-- Why a program has no types. -/
inductive TypeError where
  /-- A name that is not in scope. -/
  | unbound (span : Span) (x : String)
  /-- Two types that have to be equal are not. -/
  | mismatch (span : Span) (expected found : Ty)
  /-- A variable would have to contain itself. -/
  | occurs (span : Span) (v : TyVar) (ty : Ty)
  /-- The branches of a conditional have different types. -/
  | branches (span : Span) (first other : Ty)
  /-- An expression does not have the type of its annotation. -/
  | ascription (span anno : Span) (expected found : Ty)
  /-- A type that nothing determines. -/
  | ambiguous (span : Span) (ty : Ty)
  deriving DecidableEq, Repr

/-- The message of a failed unification. -/
def UnifyError.message : UnifyError → String
  | mismatch expected found =>
    "cannot unify '" ++ expected.text ++ "' with '" ++ found.text ++ "'"
  | occurs v ty => "'" ++ (Ty.var v).text ++ "' occurs in '" ++ ty.text ++ "'"

namespace TypeError

/-- The error that a failed unification at a span becomes. -/
def ofUnify (because : Because) (span : Span) : UnifyError → TypeError
  | .occurs v ty => occurs span v ty
  | .mismatch expected found =>
    match because with
    | .ascription anno => ascription span anno expected found
    | .branch cond => branches cond expected found
    | .condition => mismatch span expected found
    | .argument => mismatch span expected found

/-- Where an error is. -/
def span : TypeError → Span
  | unbound s _ => s
  | mismatch s _ _ => s
  | occurs s _ _ => s
  | branches s _ _ => s
  | ascription s _ _ _ => s
  | ambiguous s _ => s

/-- The message of an error. -/
def message : TypeError → String
  | unbound _ x => "unbound identifier '" ++ x ++ "'"
  | mismatch _ expected found =>
    "type mismatch: expected '" ++ expected.text ++ "', found '" ++ found.text ++ "'"
  | occurs _ v ty => "recursive type: '" ++ (Ty.var v).text ++ "' occurs in '" ++ ty.text ++ "'"
  | branches _ first other =>
    "conditional branches differ: '" ++ first.text ++ "' and '" ++ other.text ++ "'"
  | ascription _ _ expected found =>
    "annotated as '" ++ expected.text ++ "', but found '" ++ found.text ++ "'"
  | ambiguous _ ty => "ambiguous type '" ++ ty.text ++ "'"

/-- Two types printed one after the other under shared names. -/
def printPair (t u : Ty) : String × String :=
  let (s, names) := t.print Naming.empty
  (s, (u.print names).1)

/-- The problem that an error is. -/
def problem : TypeError → Problem
  | unbound _ x => .unboundName x
  | mismatch _ expected found =>
    let (expected, found) := printPair expected found
    .incompatibleTypes expected found
  | occurs _ v ty =>
    let (v, ty) := printPair (.var v) ty
    .recursiveType v ty
  | branches _ first other =>
    let (first, other) := printPair first other
    .branchMismatch first other
  | ascription _ anno expected found =>
    let (expected, found) := printPair expected found
    .annotationMismatch anno expected found
  | ambiguous _ ty => .ambiguousType ty.text

/-- The diagnostic of an error. -/
def diagnostic (e : TypeError) : Diagnostic := ⟨e.span, e.problem⟩

end TypeError

end LetPoly
