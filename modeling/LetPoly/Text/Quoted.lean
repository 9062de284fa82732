import LetPoly.Text.Combining
import LetPoly.Text.Unprintable

/-!
# Quoted text

Two ways of writing a text between quotes.

`readEscaped` reads the inside of a string literal of the language.  A backslash and one
of `n`, `t`, `r`, `0`, a backslash or a quote stand for one character, and a backslash
before anything else is an error that names what follows it.

`quote` is how a text is shown in a printed tree.  It escapes the same characters, and
writes those that have no printed form of their own by their code point.
-/

namespace LetPoly.Text

/-- The character that a backslash and the given character stand for. -/
def unescape? : Char → Option Char
  | 'n' => some '\n'
  | 't' => some '\t'
  | 'r' => some '\r'
  | '0' => some '\x00'
  | '\\' => some '\\'
  | '"' => some '"'
  | _ => none

/-- Reads the inside of a string literal, behind the characters in `acc`, which are in reverse. -/
def readEscapedFrom (acc : List Char) : List Char → Except Char (List Char)
  | [] => .ok acc.reverse
  | '\\' :: [] => .error '\\'
  | '\\' :: c :: cs =>
    match unescape? c with
    | some d => readEscapedFrom (d :: acc) cs
    | none => .error c
  | c :: cs => readEscapedFrom (c :: acc) cs

/-- Reads the inside of a string literal.  The error is the character behind the backslash. -/
def readEscaped (cs : List Char) : Except Char (List Char) := readEscapedFrom [] cs

/-- How a character is written between quotes. -/
def quoteChar (c : Char) : List Char :=
  match c with
  | '\x00' => ['\\', '0']
  | '\t' => ['\\', 't']
  | '\r' => ['\\', 'r']
  | '\n' => ['\\', 'n']
  | '"' => ['\\', '"']
  | '\\' => ['\\', '\\']
  | c =>
    if isCombining c || !isPrintable c then
      ['\\', 'u', '\x7b'] ++ Nat.toDigits 16 c.toNat ++ ['\x7d']
    else [c]

/-- A text between quotes, as it is shown in a printed tree. -/
def quote (s : String) : String :=
  "\"" ++ String.ofList (s.toList.flatMap quoteChar) ++ "\""

end LetPoly.Text
