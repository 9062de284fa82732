import LetPoly.Diagnostic
import LetPoly.Token
import LetPoly.Tree.Expr

/-!
# The parser's state and first steps

A parser reads lexemes from the left and never goes back.  Its state is the lexemes
that are left, the last one read, and the diagnostics so far.  It always returns a
tree.  Where the source is not as it should be, the parser reports a problem and goes
on, with an invalid expression or type if need be.

An invalid token was reported when it was read, and what was meant there is unknown.
So it fits wherever some token is asked for.

Expressions and types may be nested up to a limit.  Past it the parser *gives up*: it
reports that once, skips the rest of the source, and what it would report after that
is dropped.

Spans of different files cannot be joined, which is the only way a parser can stop
without a tree.
-/

namespace LetPoly

/-- How deep expressions and types may be nested. -/
def maxDepth : Nat := 128

/-- The state of a parser. -/
structure ParserState where
  /-- The lexemes that are left. -/
  rest : List Lexeme
  /-- The last lexeme that was read. -/
  last : Option Lexeme
  /-- The place of an empty source. -/
  origin : Span
  /-- The diagnostics so far, the last one first. -/
  reported : List Diagnostic
  /-- Whether the parser has given up. -/
  gaveUp : Bool

namespace ParserState

/-- The place of the next lexeme, or right behind the last one at the end. -/
def here (s : ParserState) : Span :=
  match s.rest, s.last with
  | l :: _, _ => l.span
  | [], some l => l.span.after
  | [], none => s.origin

/-- The place of the last lexeme. -/
def previous (s : ParserState) : Span :=
  match s.last with
  | some l => l.span
  | none => s.origin

/-- Reports a problem, unless the parser has given up. -/
def report (s : ParserState) (span : Span) (p : Problem) : ParserState :=
  if s.gaveUp then s else { s with reported := ⟨span, p⟩ :: s.reported }

/-- Skips lexemes as long as they satisfy a condition. -/
def skipWhile (s : ParserState) (p : Lexeme → Bool) : ParserState :=
  { s with rest := s.rest.dropWhile p, last := (s.rest.takeWhile p).getLast?.or s.last }

/-- Reports that the limit is passed, unless that was done, and skips the rest of the source. -/
def giveUp (s : ParserState) : ParserState :=
  { (s.report s.here (.nestedTooDeeply maxDepth)).skipWhile (fun _ => true) with gaveUp := true }

end ParserState

/-- A parser of values of a type. -/
abbrev Parser := StateT ParserState (Except Defect)

/-- Whether a token is what is asked for.  An invalid token is. -/
def Token.fits (t : Token) (p : Token → Bool) : Bool := t == .invalid || p t

namespace Parser

/-- The place of the next lexeme, or right behind the last one at the end. -/
def here : Parser Span := do return (← get).here

/-- The place of the last lexeme. -/
def previous : Parser Span := do return (← get).previous

/-- The smallest span that covers two spans. -/
def join (s t : Span) : Parser Span := StateT.lift (s.join t)

/-- Reports a problem. -/
def report (span : Span) (p : Problem) : Parser Unit := modify fun s => s.report span p

/-- Gives up. -/
def giveUp : Parser Unit := modify ParserState.giveUp

/-- Whether the next lexeme has a token that fits. -/
def peek (p : Token → Bool) : Parser Bool := do
  match (← get).rest with
  | l :: _ => return l.token.fits p
  | [] => return false

/-- Reads the next lexeme if its token fits. -/
def accept? (p : Token → Bool) : Parser (Option Lexeme) := fun s =>
  match s.rest with
  | l :: rest =>
    if l.token.fits p then .ok (some l, { s with rest := rest, last := some l })
    else .ok (none, s)
  | [] => .ok (none, s)

/-- Reads the next lexeme, if there is one. -/
def next? : Parser (Option Lexeme) := accept? fun _ => true

/-- Reads the next lexeme if its token is the given one. -/
def token? (t : Token) : Parser (Option Lexeme) := accept? (· == t)

/-- Reads the next lexeme if it is the given punctuation mark. -/
def mark? (p : Punctuation) : Parser (Option Lexeme) := token? (.punctuation p)

/-- Reads the next lexeme if it is the given keyword. -/
def keyword? (k : Keyword) : Parser (Option Lexeme) := token? (.keyword k)

/-- Reads a certain token, or reports that it is missing. -/
def expect (t : Token) : Parser Unit := do
  match ← token? t with
  | some _ => return ()
  | none => report (← here) (.expectedToken t.fixedText)

/-- Reads a closing parenthesis, or reports that the opening one has no partner. -/
def closeGroup (opener : Span) : Parser Unit := do
  match ← mark? .groupClose with
  | some _ => return ()
  | none => report opener .unclosedGroup

/-- Reads a comma and an item as often as it can, at most once for each of the given lexemes.  The
items in `acc` came before, in reverse. -/
def moreItemsFrom {α : Type} (item : Parser α) : List Lexeme → List α → Parser (List α)
  | [], acc => return acc.reverse
  | _ :: ls, acc => do
    match ← mark? .comma with
    | some _ =>
      let a ← item
      moreItemsFrom item ls (a :: acc)
    | none => return acc.reverse

/-- Reads a comma and an item as often as it can.  Each time uses up a lexeme. -/
def moreItems {α : Type} (item : Parser α) : Parser (List α) := do
  moreItemsFrom item (← get).rest []

end Parser

/-! ## Levels -/

/-- The parsers of what stands one level deeper. -/
structure Level where
  /-- The parser of an expression. -/
  expr : Parser Expr
  /-- The parser of a type. -/
  type : Parser TypeExpr

/-- The levels that are left, the next one first.  The parsers of a level know of the levels behind
it, so going deeper is taking the next level, and there is an end to it. -/
abbrev Levels := List Level

namespace Levels

/-- Parses an expression one level deeper, or gives up if there is no level left. -/
def expr : Levels → Parser Expr
  | [] => do
    Parser.giveUp
    return .invalid (.new (← Parser.here))
  | l :: _ => l.expr

/-- Parses a type one level deeper, or gives up if there is no level left. -/
def type : Levels → Parser TypeExpr
  | [] => do
    Parser.giveUp
    return .invalid (← Parser.here)
  | l :: _ => l.type

end Levels

end LetPoly
