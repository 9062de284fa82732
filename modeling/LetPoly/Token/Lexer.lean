import LetPoly.Diagnostic
import LetPoly.Number.Decimal
import LetPoly.Text.Quoted
import LetPoly.Token.Piece

/-!
# Lexing

A source is cut into pieces, and every piece that is neither blank nor a comment gives
a lexeme.  A piece that is no word of the language, such as a number that is too large
or a literal with an unknown escape, gives the token `invalid` and a diagnostic at its
span.  Offsets count bytes.
-/

namespace LetPoly

/-! ## Pieces of a source -/

namespace Piece

/-- A piece has a character. -/
theorem text_first_ne_nil (c : Char) (cs : List Char) : (first c cs).1.text ≠ [] := by
  unfold first number literal mark single
  grind [run]

/-- Taking the first piece shortens a source. -/
theorem length_first (c : Char) (cs : List Char) : (first c cs).2.length < (c :: cs).length := by
  have h := congrArg List.length (append_first c cs)
  have hpos := List.length_pos_iff.2 (text_first_ne_nil c cs)
  simp only [List.length_append] at h
  omega

/-- The pieces of a source behind the pieces in `acc`, which are in reverse. -/
def cutFrom (acc : List Piece) : List Char → List Piece
  | [] => acc.reverse
  | c :: cs => cutFrom ((first c cs).1 :: acc) (first c cs).2
termination_by cs => cs.length
decreasing_by exact length_first c cs

/-- The pieces of a source, from the left. -/
def cut (cs : List Char) : List Piece := cutFrom [] cs

/-- The number of bytes of a piece. -/
def byteSize (p : Piece) : Nat := p.text.foldl (fun n c => n + c.utf8Size) 0

/-! ## Reading a piece -/

/-- The integer that a row of digits stands for, unless it is too large.  Underscores between the
digits do not count. -/
def readInt? (cs : List Char) : Option Nat :=
  cs.foldlM
    (fun n c =>
      if c = '_' then some n
      else
        let m := 10 * n + (c.toNat - '0'.toNat)
        if m ≤ maxInt then some m else none)
    0

/-- The finite double nearest to a decimal with digits before and behind the point, if there is
one. -/
def readFloat? (cs : List Char) : Option Double :=
  let digits := cs.filter (· != '_')
  let d := Double.ofPositional (digits.takeWhile isDigit) ((digits.dropWhile isDigit).drop 1) 0
  if d.isFinite then some d else none

/-- The keyword, the truth value or the name that a word is. -/
def readWord (s : String) : Token :=
  match s with
  | "let" => .keyword .letWord
  | "in" => .keyword .inWord
  | "if" => .keyword .ifWord
  | "then" => .keyword .thenWord
  | "else" => .keyword .elseWord
  | "fn" => .keyword .fnWord
  | "true" => .bool true
  | "false" => .bool false
  | _ => .name s

/-- The token that a piece is, or what is wrong with it.  Blanks and comments are no tokens. -/
def read (p : Piece) : Option (Except Problem Token) :=
  match p.kind with
  | .blank => none
  | .comment => none
  | .word => some (.ok (readWord (String.ofList p.text)))
  | .int =>
    match readInt? p.text with
    | some n => some (.ok (.int n))
    | none => some (.error .numberTooLarge)
  | .float =>
    match readFloat? p.text with
    | some d => some (.ok (.float d))
    | none => some (.error .numberTooLarge)
  | .string =>
    match Text.readEscaped (p.text.drop 1).dropLast with
    | .ok cs => some (.ok (.string (String.ofList cs)))
    | .error c => some (.error (.invalidEscape c))
  | .openString => some (.error .unterminatedString)
  | .symbol t => some (.ok t)
  | .stray => some (.error (.invalidCharacter (String.ofList p.text)))

end Piece

/-! ## Lexemes of a source -/

/-- What lexing has found so far. -/
structure Lexing where
  /-- The offset of the next piece. -/
  offset : Nat
  /-- The lexemes, the last one first. -/
  lexemes : List Lexeme
  /-- The diagnostics, the last one first. -/
  diagnostics : List Diagnostic

/-- Adds the lexeme of a piece of the given file. -/
def Lexing.add (file : FileId) (l : Lexing) (p : Piece) : Lexing :=
  let next := l.offset + p.byteSize
  let span : Span := ⟨l.offset, next, file⟩
  match p.read with
  | none => ⟨next, l.lexemes, l.diagnostics⟩
  | some (.ok t) => ⟨next, ⟨t, span⟩ :: l.lexemes, l.diagnostics⟩
  | some (.error e) => ⟨next, ⟨.invalid, span⟩ :: l.lexemes, ⟨span, e⟩ :: l.diagnostics⟩

/-- The lexemes of a source and the diagnostics found on the way. -/
def lex (file : FileId) (source : String) : List Lexeme × List Diagnostic :=
  let l := (Piece.cut source.toList).foldl (Lexing.add file) ⟨0, [], []⟩
  (l.lexemes.reverse, l.diagnostics.reverse)

end LetPoly
