import LetPoly.Parsing.State

/-!
# Parsing types

```
type      = base-type ["->" type]
base-type = NAME / "_" / "(" ")" / "(" type ")" / "(" type 1*("," type) ")"
binder    = NAME [":" type]
```

A pair of parentheses without anything inside is the unit type.  Parentheses around a
single type leave no trace in the tree.
-/

namespace LetPoly.Parser

/-- Parses a type in parentheses, behind the opening one. -/
def typeGroup (levels : Levels) (opener : Span) : Parser TypeExpr := do
  match ← mark? .groupClose with
  | some closer => return .prim (← join opener closer.span) .unit
  | none =>
    let t ← levels.type
    if ← peek (· == .punctuation .comma) then
      let ts ← moreItems levels.type
      closeGroup opener
      return .tuple (← join opener (← previous)) (t :: ts)
    else
      closeGroup opener
      return t

/-- Parses a type without an arrow outside of parentheses. -/
def baseType (levels : Levels) : Parser TypeExpr := do
  match ← next? with
  | none =>
    let span ← here
    report span .expectedType
    return .invalid span
  | some ⟨t, span⟩ =>
    match t with
    | .name x =>
      match Con.primitive? x with
      | some c => return .prim span c
      | none =>
        report span (.unknownType x)
        return .invalid span
    | .punctuation .wildcard => return .wildcard span
    | .punctuation .groupOpen => typeGroup levels span
    | .invalid => return .invalid span
    | _ =>
      report span .expectedType
      return .invalid span

/-- Parses a type with the given levels below it. -/
def typeAbove (levels : Levels) : Parser TypeExpr := do
  let t ← baseType levels
  match ← mark? .arrow with
  | none => return t
  | some _ =>
    let u ← levels.type
    return .fn (← join t.span u.span) t u

/-- Parses a name and where it stands. -/
def name : Parser (String × Span) := do
  match ← accept? (fun | .name _ => true | _ => false) with
  | some ⟨.name x, span⟩ => return (x, span)
  | some ⟨_, span⟩ => return ("", span)
  | none =>
    let span ← here
    report span .expectedName
    return ("", span)

/-- Parses a name with an optional annotation. -/
def binder (levels : Levels) : Parser Binder := do
  let (x, span) ← name
  match ← mark? .colon with
  | some _ => return ⟨x, span, some (← levels.type), .empty⟩
  | none => return ⟨x, span, none, .empty⟩

end LetPoly.Parser
