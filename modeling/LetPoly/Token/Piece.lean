import LetPoly.Token

/-!
# Cutting a source into pieces

A source is cut into pieces from the left.  A piece is a word, a number, a string
literal, a symbol, a run of blanks or a comment, and each is as long as it can be.  A
character that begins none of these is a piece of its own.  Blanks and comments are
pieces like the others, so the texts of the pieces make up the source again
(`append_first`).

What a piece means is decided elsewhere.  Here a number may be too large and a string
literal may hold any escape.  A string literal that no quote closes ends before the
line break, or before a backslash that has nothing on the line behind it.
-/

namespace LetPoly

/-- The kinds of pieces. -/
inductive PieceKind where
  | blank
  | comment
  /-- A keyword, a truth value or a name. -/
  | word
  | int
  | float
  /-- A string literal with both quotes. -/
  | string
  /-- A string literal without its closing quote. -/
  | openString
  | symbol (t : Token)
  /-- A character that begins no other piece. -/
  | stray
  deriving DecidableEq, Repr

/-- A stretch of a source. -/
structure Piece where
  /-- What it is. -/
  kind : PieceKind
  /-- Its characters. -/
  text : List Char
  deriving DecidableEq, Repr

namespace Piece

/-! ## Characters -/

/-- The characters that separate words. -/
def isBlank (c : Char) : Bool := c == ' ' || c == '\t' || c == '\r' || c == '\n' || c == '\x0c'

/-- The letters that a word begins with. -/
def isLetter (c : Char) : Bool := ('a' ≤ c && c ≤ 'z') || ('A' ≤ c && c ≤ 'Z')

/-- The digits. -/
def isDigit (c : Char) : Bool := '0' ≤ c && c ≤ '9'

/-- The characters that continue a word. -/
def continuesWord (c : Char) : Bool := isLetter c || isDigit c || c == '_' || c == '\''

/-- The characters that continue a row of digits. -/
def continuesDigits (c : Char) : Bool := isDigit c || c == '_'

/-- The characters that continue a comment. -/
def continuesComment (c : Char) : Bool := c != '\n' && c != '\r'

/-- The symbols of two characters. -/
def doubleSymbol? : Char → Char → Option Token
  | '-', '>' => some (.punctuation .arrow)
  | '+', '+' => some (.operator .append)
  | '=', '=' => some (.operator .equals)
  | '!', '=' => some (.operator .notEquals)
  | '<', '=' => some (.operator .lessEqual)
  | '>', '=' => some (.operator .greaterEqual)
  | '&', '&' => some (.operator .and)
  | '|', '|' => some (.operator .or)
  | _, _ => none

/-- The symbols of one character. -/
def singleSymbol? : Char → Option Token
  | '(' => some (.punctuation .groupOpen)
  | ')' => some (.punctuation .groupClose)
  | ',' => some (.punctuation .comma)
  | ':' => some (.punctuation .colon)
  | ';' => some (.punctuation .semicolon)
  | '=' => some (.punctuation .equal)
  | '_' => some (.punctuation .wildcard)
  | '+' => some (.operator .plus)
  | '-' => some (.operator .minus)
  | '*' => some (.operator .times)
  | '/' => some (.operator .divide)
  | '<' => some (.operator .less)
  | '>' => some (.operator .greater)
  | _ => none

/-! ## The first piece -/

/-- A character and those behind it that belong to the same run. -/
def run (kind : PieceKind) (p : Char → Bool) (c : Char) (cs : List Char) : Piece × List Char :=
  (⟨kind, c :: cs.takeWhile p⟩, cs.dropWhile p)

/-- A number that begins with the digit `c`.  A point continues it if a digit stands behind. -/
def number (c : Char) (cs : List Char) : Piece × List Char :=
  match cs.dropWhile continuesDigits with
  | '.' :: d :: ds =>
    if isDigit d then
      (⟨.float, c :: cs.takeWhile continuesDigits ++ '.' :: d :: ds.takeWhile continuesDigits⟩,
        ds.dropWhile continuesDigits)
    else run .int continuesDigits c cs
  | _ => run .int continuesDigits c cs

/-- The inside of a string literal and what follows it.  The characters in `acc` came before, in
reverse. -/
def insideFrom (acc : List Char) : List Char → List Char × List Char
  | [] => (acc.reverse, [])
  | '\\' :: c :: cs =>
    if c = '\n' then (acc.reverse, '\\' :: c :: cs) else insideFrom (c :: '\\' :: acc) cs
  | c :: cs =>
    if c = '"' ∨ c = '\\' ∨ c = '\n' then (acc.reverse, c :: cs) else insideFrom (c :: acc) cs

/-- The string literal that begins with a quote before `cs`. -/
def literal (cs : List Char) : Piece × List Char :=
  match insideFrom [] cs with
  | (inside, '"' :: rest) => (⟨.string, '"' :: inside ++ ['"']⟩, rest)
  | (inside, rest) => (⟨.openString, '"' :: inside⟩, rest)

/-- The symbol of one character, or a stray character. -/
def single (c : Char) (cs : List Char) : Piece × List Char :=
  match singleSymbol? c with
  | some t => (⟨.symbol t, [c]⟩, cs)
  | none => (⟨.stray, [c]⟩, cs)

/-- The comment or symbol that begins with `c`, or a stray character. -/
def mark (c : Char) : List Char → Piece × List Char
  | [] => single c []
  | d :: ds =>
    if c = '-' ∧ d = '-' then run .comment continuesComment c (d :: ds)
    else
      match doubleSymbol? c d with
      | some t => (⟨.symbol t, [c, d]⟩, ds)
      | none => single c (d :: ds)

/-- The first piece of a source that begins with `c`, and the rest of the source. -/
def first (c : Char) (cs : List Char) : Piece × List Char :=
  if isBlank c then run .blank isBlank c cs
  else if isLetter c then run .word continuesWord c cs
  else if isDigit c then number c cs
  else if c = '"' then literal cs
  else mark c cs

/-! ## Nothing is lost -/

theorem append_run (kind : PieceKind) (p : Char → Bool) (c : Char) (cs : List Char) :
    (run kind p c cs).1.text ++ (run kind p c cs).2 = c :: cs := by
  simp [run, List.takeWhile_append_dropWhile]

/-- A number and what follows it are the text again. -/
theorem append_number (c : Char) (cs : List Char) :
    (number c cs).1.text ++ (number c cs).2 = c :: cs := by
  unfold number
  split
  · rename_i d ds h
    split
    · have hcs := List.takeWhile_append_dropWhile (p := continuesDigits) (l := cs)
      rw [h] at hcs
      have hds := List.takeWhile_append_dropWhile (p := continuesDigits) (l := ds)
      simp only [List.cons_append, List.append_assoc, hds, hcs]
    · exact append_run ..
  · exact append_run ..

/-- What stands inside a literal and what follows it are the text again. -/
theorem append_insideFrom (acc cs : List Char) :
    (insideFrom acc cs).1 ++ (insideFrom acc cs).2 = acc.reverse ++ cs := by
  fun_induction insideFrom acc cs <;> simp_all

theorem append_literal (cs : List Char) :
    (literal cs).1.text ++ (literal cs).2 = '"' :: cs := by
  have h := append_insideFrom [] cs
  unfold literal
  split <;> rename_i heq <;> rw [heq] at h <;> simp_all

theorem append_single (c : Char) (cs : List Char) :
    (single c cs).1.text ++ (single c cs).2 = c :: cs := by
  unfold single
  split <;> rfl

/-- A comment or a symbol and what follows it are the text again. -/
theorem append_mark (c : Char) (cs : List Char) :
    (mark c cs).1.text ++ (mark c cs).2 = c :: cs := by
  cases cs with
  | nil => exact append_single c []
  | cons d ds =>
    simp only [mark]
    split
    · exact append_run ..
    · split
      · rfl
      · exact append_single ..

/-- The first piece and the rest make up the source. -/
theorem append_first (c : Char) (cs : List Char) :
    (first c cs).1.text ++ (first c cs).2 = c :: cs := by
  unfold first
  split
  · exact append_run ..
  · split
    · exact append_run ..
    · split
      · exact append_number ..
      · split
        · rename_i h
          rw [h]
          exact append_literal cs
        · exact append_mark ..

end Piece

end LetPoly
