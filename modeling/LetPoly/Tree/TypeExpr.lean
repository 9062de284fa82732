import LetPoly.Span
import LetPoly.Ty

/-!
# Written types

The types of annotations, as they stand in a source.  A wildcard leaves a part of a
type open.  `invalid` stands where a type was expected and none was found.
-/

namespace LetPoly

/-- A type as written in an annotation. -/
inductive TypeExpr where
  /-- A primitive type. -/
  | prim (span : Span) (c : Con)
  /-- A function type. -/
  | fn (span : Span) (param result : TypeExpr)
  /-- A tuple type. -/
  | tuple (span : Span) (elems : List TypeExpr)
  /-- A part that is left open. -/
  | wildcard (span : Span)
  /-- No type at all. -/
  | invalid (span : Span)
  deriving Repr, Inhabited

namespace TypeExpr

/-- Where a written type stands. -/
def span : TypeExpr → Span
  | prim s _ => s
  | fn s _ _ => s
  | tuple s _ => s
  | wildcard s => s
  | invalid s => s

/-- Whether a written type is a function type. -/
def isFn : TypeExpr → Bool
  | fn _ _ _ => true
  | _ => false

mutual

/-- A written type the way it would be written in a source. -/
def text : TypeExpr → String
  | prim _ c => c.name
  | fn _ t u =>
    let param := text t
    (if t.isFn then "(" ++ param ++ ")" else param) ++ " -> " ++ text u
  | tuple _ elems => "(" ++ ", ".intercalate (textAll elems) ++ ")"
  | wildcard _ => "_"
  | invalid _ => "<error>"

/-- The written types of a list, each the way it would be written in a source. -/
def textAll : List TypeExpr → List String
  | [] => []
  | t :: ts => text t :: textAll ts

end

end TypeExpr

end LetPoly
