import LetPoly.Number.Double
import LetPoly.Span

/-!
# Tokens

The words of the language: keywords, punctuation, operators, names and literals.  A
stretch of the source that is no word becomes the token `invalid`, which stands in for
whatever was meant there.  A lexeme is a token with its span.
-/

namespace LetPoly

/-- The keywords. -/
inductive Keyword where
  | letWord
  | inWord
  | ifWord
  | thenWord
  | elseWord
  | fnWord
  deriving DecidableEq, Repr

/-- How a keyword is written. -/
def Keyword.text : Keyword → String
  | letWord => "let"
  | inWord => "in"
  | ifWord => "if"
  | thenWord => "then"
  | elseWord => "else"
  | fnWord => "fn"

/-- The punctuation marks. -/
inductive Punctuation where
  | groupOpen
  | groupClose
  | comma
  | colon
  | semicolon
  | equal
  | arrow
  | wildcard
  deriving DecidableEq, Repr

/-- How a punctuation mark is written. -/
def Punctuation.text : Punctuation → String
  | groupOpen => "("
  | groupClose => ")"
  | comma => ","
  | colon => ":"
  | semicolon => ";"
  | equal => "="
  | arrow => "->"
  | wildcard => "_"

/-- The binary operators. -/
inductive Operator where
  | plus
  | minus
  | append
  | times
  | divide
  | equals
  | notEquals
  | less
  | lessEqual
  | greater
  | greaterEqual
  | and
  | or
  deriving DecidableEq, Repr

/-- How an operator is written, which is also the name of the function it stands for. -/
def Operator.text : Operator → String
  | plus => "+"
  | minus => "-"
  | append => "++"
  | times => "*"
  | divide => "/"
  | equals => "=="
  | notEquals => "!="
  | less => "<"
  | lessEqual => "<="
  | greater => ">"
  | greaterEqual => ">="
  | and => "&&"
  | or => "||"

/-- A word of the language. -/
inductive Token where
  | keyword (k : Keyword)
  | punctuation (p : Punctuation)
  | operator (o : Operator)
  | name (x : String)
  | int (n : Int)
  | float (d : Double)
  | string (s : String)
  | bool (b : Bool)
  /-- A stretch of the source that is no word. -/
  | invalid
  deriving DecidableEq, Repr

namespace Token

/-- How a token without a value is written, empty for the others. -/
def fixedText : Token → String
  | keyword k => k.text
  | punctuation p => p.text
  | operator o => o.text
  | _ => ""

/-- The function that an operator stands for. -/
def operatorName? : Token → Option String
  | operator o => some o.text
  | _ => none

end Token

/-- A token and where it stands. -/
structure Lexeme where
  /-- The token. -/
  token : Token
  /-- Where it stands. -/
  span : Span
  deriving DecidableEq, Repr

end LetPoly
