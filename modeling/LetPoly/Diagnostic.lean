import LetPoly.Span

/-!
# Diagnostics

A *problem* is what is wrong with a program, with the data its explanation mentions.
A diagnostic is a problem at a span.  Everything shown to a reader, the code, the
headline, the labels on the source and the notes, is a function of the two.

Codes are grouped by where a problem arises: `EL` in the characters of the source,
`EP` in its tokens, `ET` in its types.
-/

namespace LetPoly

/-- The largest integer a literal can stand for. -/
def maxInt : Nat := 9223372036854775807

/-- What is wrong with a program. -/
inductive Problem where
  /-- A character that begins no token. -/
  | invalidCharacter (text : String)
  /-- A string literal without its closing quote. -/
  | unterminatedString
  /-- A number that is too large for its type. -/
  | numberTooLarge
  /-- A backslash before a character that it does not combine with. -/
  | invalidEscape (escape : Char)
  /-- No expression stands where one has to. -/
  | expectedExpression
  /-- No type stands where one has to. -/
  | expectedType
  /-- No name stands where one has to. -/
  | expectedName
  /-- A parenthesis without its partner. -/
  | unclosedGroup
  /-- A certain token is missing. -/
  | expectedToken (token : String)
  /-- Something other than a declaration stands at the top level. -/
  | expectedDeclaration
  /-- A name in a type that names no type. -/
  | unknownType (name : String)
  /-- Expressions or types are nested deeper than the limit. -/
  | nestedTooDeeply (limit : Nat)
  /-- Two types that have to be equal are not. -/
  | incompatibleTypes (expected actual : String)
  /-- A name that nothing defines. -/
  | unboundName (name : String)
  /-- A type variable that would have to contain itself. -/
  | recursiveType (v ty : String)
  /-- The branches of a conditional have different types. -/
  | branchMismatch (first other : String)
  /-- An expression does not have the type of the annotation at the given span. -/
  | annotationMismatch (anno : Span) (expected actual : String)
  /-- A type that nothing determines. -/
  | ambiguousType (ty : String)
  deriving DecidableEq, Repr

namespace Problem

/-- The code of a problem. -/
def code : Problem → String
  | invalidCharacter _ => "EL00"
  | unterminatedString => "EL01"
  | numberTooLarge => "EL02"
  | invalidEscape _ => "EL03"
  | expectedExpression => "EP00"
  | expectedType => "EP01"
  | expectedName => "EP02"
  | unclosedGroup => "EP03"
  | expectedToken _ => "EP04"
  | expectedDeclaration => "EP05"
  | unknownType _ => "EP06"
  | nestedTooDeeply _ => "EP07"
  | incompatibleTypes _ _ => "ET00"
  | unboundName _ => "ET01"
  | recursiveType _ _ => "ET02"
  | branchMismatch _ _ => "ET03"
  | annotationMismatch _ _ _ => "ET04"
  | ambiguousType _ => "ET05"

/-- The headline of a problem. -/
def headline : Problem → String
  | invalidCharacter _ => "invalid character"
  | unterminatedString => "unterminated string literal"
  | numberTooLarge => "integer literal is too large"
  | invalidEscape _ => "invalid escape in string literal"
  | expectedExpression => "expected an expression"
  | expectedType => "expected a type"
  | expectedName => "expected a name"
  | unclosedGroup => "unclosed group"
  | expectedToken token => "expected '" ++ token ++ "'"
  | expectedDeclaration => "expected a declaration"
  | unknownType _ => "unknown type"
  | nestedTooDeeply _ => "expression nested too deeply"
  | incompatibleTypes _ _ => "incompatible types"
  | unboundName _ => "unbound name"
  | recursiveType _ _ => "attempted to infer a recursive type"
  | branchMismatch _ _ => "conditional branches have different types"
  | annotationMismatch _ _ _ => "expression does not match its annotation"
  | ambiguousType _ => "cannot infer the type of an ambiguous expression"

/-- What is said at the place of a problem, empty if nothing is. -/
def remark : Problem → String
  | invalidCharacter text => "'" ++ text ++ "' is not part of any token"
  | unterminatedString => ""
  | numberTooLarge => "integers must be at most " ++ toString maxInt
  | invalidEscape escape => "unknown escape sequence '\\" ++ escape.toString ++ "'"
  | expectedExpression => "expected a literal, a name, or a parenthesized expression"
  | expectedType => ""
  | expectedName => ""
  | unclosedGroup => "this parenthesis is never closed"
  | expectedToken token => "expected '" ++ token ++ "' here"
  | expectedDeclaration => ""
  | unknownType name => "'" ++ name ++ "' does not name a type"
  | nestedTooDeeply _ => "the parser gave up here"
  | incompatibleTypes expected actual => "expected '" ++ expected ++ "', got '" ++ actual ++ "'"
  | unboundName name => "'" ++ name ++ "' is not defined here"
  | recursiveType _ _ => ""
  | branchMismatch first other =>
    "one branch has type '" ++ first ++ "', the other '" ++ other ++ "'"
  | annotationMismatch _ _ actual => "this has type '" ++ actual ++ "'"
  | ambiguousType ty =>
    "this expression has type '" ++ ty ++ "', which is never fully determined"

/-- The notes that explain a problem further. -/
def notes : Problem → List String
  | unterminatedString => ["string literals end at a matching '\"'"]
  | expectedDeclaration => ["top-level declarations start with 'let'"]
  | unknownType _ => ["the types are 'Int', 'Float', 'Bool', 'String', 'Unit', and '_'"]
  | nestedTooDeeply limit =>
    ["expressions and types may nest at most " ++ toString limit ++ " levels deep"]
  | recursiveType v ty =>
    ["the variable '" ++ v ++ "' occurs inside the type '" ++ ty
      ++ "', so the two cannot be unified"]
  | _ => []

end Problem

/-- Whether a label marks the place of a problem or a place that has to do with it. -/
inductive LabelStyle where
  | primary
  | secondary
  deriving DecidableEq, Repr

/-- A place in the source with what is said there. -/
structure Label where
  /-- The role of the place. -/
  style : LabelStyle
  /-- The place. -/
  span : Span
  /-- What is said there, empty if nothing is. -/
  text : String
  deriving DecidableEq, Repr

/-- A problem at a place. -/
structure Diagnostic where
  /-- The place. -/
  span : Span
  /-- The problem. -/
  problem : Problem
  deriving DecidableEq, Repr

namespace Diagnostic

/-- The code of a diagnostic. -/
def code (d : Diagnostic) : String := d.problem.code

/-- The labels of a diagnostic: its own place, and for an annotation mismatch also the annotation. -/
def labels (d : Diagnostic) : List Label :=
  ⟨.primary, d.span, d.problem.remark⟩ ::
    match d.problem with
    | .annotationMismatch anno expected _ =>
      [⟨.secondary, anno, "but is annotated as '" ++ expected ++ "'"⟩]
    | _ => []

end Diagnostic

end LetPoly
