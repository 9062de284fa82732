import LetPoly.Parsing.Program
import LetPoly.Token.Lexer
import LetPoly.Typing.Run

/-!
# Checking a source

A source is lexed, parsed and, if a mode is given, typed.  The first two always take
place, and types are only inferred if neither found a problem.  Problems are reported
once after lexing, once after parsing, and once after inference if it failed.
-/

namespace LetPoly

/-- What checking a source leaves behind. -/
structure Checked where
  /-- The tree, if there was no problem. -/
  program? : Option Program
  /-- What happened, in order. -/
  events : List Event

/-- Checks the source of a file. -/
def checkSource (mode : Option Mode) (file : FileId) (source : String) :
    Except Defect Checked := do
  let (lexemes, lexical) := lex file source
  let (program, structural) ← parse file lexemes
  let events : List Event :=
    [.lexing file, .reported lexical, .lexed file, .parsing file, .reported structural,
      .parsed file]
  if !(lexical.isEmpty && structural.isEmpty) then return ⟨none, events⟩
  match mode with
  | none => return ⟨some program, events⟩
  | some mode =>
    let run := program.inferTypes mode
    match run.verdict with
    | .typed => return ⟨some run.program, events ++ run.events⟩
    | .illTyped errors =>
      return ⟨none, events ++ run.events ++ [.reported (errors.map TypeError.diagnostic)]⟩
    | .broken d => throw d

end LetPoly
