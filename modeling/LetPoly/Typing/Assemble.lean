import LetPoly.Tree.Expr
import LetPoly.Ty.Subst
import LetPoly.Typing.Error

/-!
# Assembling types

When all declarations are typed, every slot is resolved with what was solved in the
end.  A type in a tree may mention only variables that are quantified where it stands:
by the scheme of the declaration it belongs to, of a local definition in whose
definition it stands, or of a parameter in whose body it stands.  The first
expression of a declaration with another variable in its type is ambiguous.
-/

namespace LetPoly

/-- The variables that the scheme of a binder quantifies over. -/
def Binder.quantified (b : Binder) : List TyVar :=
  match b.scheme.get? with
  | some σ => σ.vars
  | none => []

namespace Expr

/-- The error of an expression whose type mentions a variable that is not quantified. -/
def ambiguousAt? (bound : VarSet) (m : Mark) : Option TypeError :=
  match m.ty.get? with
  | some t => if t.occurrences.all bound.contains then none else some (.ambiguous m.span t)
  | none => none

mutual

/-- The error of the first ambiguous subexpression, where the given variables are quantified. -/
def ambiguous? (bound : VarSet) : Expr → Option TypeError
  | lit m _ => ambiguousAt? bound m
  | name m _ => ambiguousAt? bound m
  | lam m p b => ambiguousAt? bound m <|> ambiguous? (bound.insertMany p.quantified) b
  | app m f a => ambiguousAt? bound m <|> ambiguous? bound f <|> ambiguous? bound a
  | letIn m b d e =>
    ambiguousAt? bound m <|> ambiguous? (bound.insertMany b.quantified) d <|> ambiguous? bound e
  | cond m c t e =>
    ambiguousAt? bound m <|> ambiguous? bound c <|> ambiguous? bound t <|> ambiguous? bound e
  | anno m e _ => ambiguousAt? bound m <|> ambiguous? bound e
  | tuple m es => ambiguousAt? bound m <|> ambiguousAll? bound es
  | invalid m => ambiguousAt? bound m

/-- The error of the first ambiguous subexpression of the expressions of a list. -/
def ambiguousAll? (bound : VarSet) : List Expr → Option TypeError
  | [] => none
  | e :: es => ambiguous? bound e <|> ambiguousAll? bound es

end

end Expr

/-- The error of the first ambiguous expression of a declaration. -/
def Decl.ambiguous? (d : Decl) : Option TypeError :=
  d.bound.ambiguous? (.ofList d.binder.quantified)

namespace Program

/-- Resolves every slot of a program. -/
def resolve (p : Program) (s : Subst) : Program :=
  p.map (Decl.update (·.resolve s.apply) (·.resolve s.applyScheme))

/-- The ambiguities of a program, at most one for each declaration. -/
def ambiguities (p : Program) : List TypeError := p.filterMap Decl.ambiguous?

end Program

end LetPoly
