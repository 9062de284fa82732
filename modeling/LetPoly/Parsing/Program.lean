import LetPoly.Parsing.Expr

/-!
# Parsing programs

```
program = *decl
decl    = "let" binder "=" expr [";"]
```

What stands between declarations and is none is skipped up to the next declaration,
and reported once at its first lexeme.
-/

namespace LetPoly

namespace Parser

/-- All levels that a declaration may take. -/
def allLevels : Levels := .ofDepth maxDepth

/-- Parses a declaration, behind its keyword at the given place. -/
def decl (opener : Span) : Parser Decl := do
  let b ← binder allLevels
  expect (.punctuation .equal)
  let bound ← allLevels.expr
  let _ ← mark? .semicolon
  return ⟨← join opener bound.span, b, bound⟩

/-- Whether a lexeme begins a declaration. -/
def beginsDecl (l : Lexeme) : Bool := l.token.fits (· == .keyword .letWord)

/-- Parses declarations, in at most `n` steps.  The declarations in `acc` came before, in reverse.
A step uses up a lexeme. -/
def declsFrom : Nat → List Decl → Parser Program
  | 0, acc => return acc.reverse
  | n + 1, acc => do
    match ← keyword? .letWord with
    | some l =>
      let d ← decl l.span
      declsFrom n (d :: acc)
    | none =>
      match (← get).rest with
      | [] => return acc.reverse
      | l :: _ =>
        modify fun s => s.skipWhile fun l => !beginsDecl l
        report l.span .expectedDeclaration
        declsFrom n acc

end Parser

/-- Parses the lexemes of a file.  Gives the tree and the diagnostics found on the way. -/
def parse (file : FileId) (lexemes : List Lexeme) :
    Except Defect (Program × List Diagnostic) := do
  let start : ParserState := ⟨lexemes, none, .origin file, [], false⟩
  let (program, s) ← Parser.declsFrom lexemes.length [] start
  return (program, s.reported.reverse)

end LetPoly
