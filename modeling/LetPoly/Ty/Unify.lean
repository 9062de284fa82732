import LetPoly.Ty.Subst

/-!
# Unification

To unify two types under a substitution is to extend it until it makes them equal.
The types are resolved and read side by side from the left.  The first place where
they differ is their *difference*.  If one side of it is a variable that does not
occur in the other, the variable is bound to the other side, and reading goes on with
what stands to the right of the difference.  All to the left of it is equal and stays
so.  Otherwise there is nothing that makes the types equal, and the difference is the
reason.

Each binding is for a variable of the two resolved types, and a bound variable does not
come up again.  So there are at most as many bindings as variables stand in them at the
start, which `unify` counts down from.

A failure leaves the substitution as it was extended up to then, so a caller can still
see what had been solved.
-/

namespace LetPoly

/-- Why two types cannot be made equal.  The types are resolved as of the failure. -/
inductive UnifyError where
  /-- Two constructors, or their numbers of arguments, differ. -/
  | mismatch (expected found : Ty)
  /-- A variable would have to contain itself. -/
  | occurs (v : TyVar) (ty : Ty)
  deriving DecidableEq, Repr

/-- Two types that differ, and what is to the right of them. -/
structure Difference where
  /-- What stands there in the expected type. -/
  expected : Ty
  /-- What stands there in the actual type. -/
  actual : Ty
  /-- The pairs of types further right, which are not compared yet. -/
  right : List (Ty × Ty)
  deriving DecidableEq, Repr

namespace Ty

mutual

/-- The leftmost place where two types differ. -/
def difference? : Ty → Ty → Option Difference
  | con c ts, con d us =>
    if c = d ∧ ts.length = us.length then differenceAll? ts us
    else some ⟨con c ts, con d us, []⟩
  | var v, u => if u = var v then none else some ⟨var v, u, []⟩
  | con c ts, var w => some ⟨con c ts, var w, []⟩

/-- The leftmost place where two lists of types differ. -/
def differenceAll? : List Ty → List Ty → Option Difference
  | t :: ts, u :: us =>
    match difference? t u with
    | some d => some { d with right := d.right ++ ts.zip us }
    | none => differenceAll? ts us
  | _, _ => none

end

end Ty

/-- A substitution that is being extended, and what was added to it. -/
structure Extension where
  /-- The substitution as it is now. -/
  subst : Subst
  /-- The bindings that were added, the newest first. -/
  added : List (TyVar × Ty)
  deriving DecidableEq, Repr

namespace Extension

/-- A substitution to which nothing was added yet. -/
def start (s : Subst) : Extension := ⟨s, []⟩

/-- Adds a binding for a variable that is not bound yet. -/
def bind (x : Extension) (v : TyVar) (t : Ty) : Except Defect Extension := do
  let s ← x.subst.bind v t
  return ⟨s, (v, t) :: x.added⟩

end Extension

namespace Unify

/-- The first difference in a list of pairs of types under a substitution. -/
def firstDifference? (s : Subst) : List (Ty × Ty) → Option Difference
  | [] => none
  | (t, u) :: rest =>
    match Ty.difference? (s.apply t) (s.apply u) with
    | some d => some { d with right := d.right ++ rest }
    | none => firstDifference? s rest

/-- The binding of a variable to a type, if the variable does not occur in the type. -/
def binding (v : TyVar) (t : Ty) : Except UnifyError (TyVar × Ty) :=
  if t.occurs v then .error (.occurs v t) else .ok (v, t)

/-- The binding that makes two different types equal, or the reason why none does. -/
def remedy : Ty → Ty → Except UnifyError (TyVar × Ty)
  | .var v, u => binding v u
  | t, .var w => binding w t
  | t, u => .error (.mismatch t u)

/-- Makes the types of each pair equal, from the left, with at most `n + 1` bindings. -/
def solve : Nat → List (Ty × Ty) → Extension → Except (Fault UnifyError) Unit × Extension
  | n, pairs, x =>
    match firstDifference? x.subst pairs with
    | none => (.ok (), x)
    | some d =>
      match remedy d.expected d.actual with
      | .error e => (.error (.error e), x)
      | .ok (v, t) =>
        match x.bind v t with
        | .error e => (.error (.defect e), x)
        | .ok x' =>
          match n with
          | 0 => (.ok (), x')
          | n + 1 => solve n d.right x'

end Unify

/-- Extends a substitution so that it makes two types equal, the expected one and the actual. -/
def unify (expected actual : Ty) (s : Subst) : Except (Fault UnifyError) Unit × Extension :=
  let occurrences := (s.apply expected).occurrences.length + (s.apply actual).occurrences.length
  Unify.solve occurrences [(expected, actual)] (.start s)

end LetPoly
