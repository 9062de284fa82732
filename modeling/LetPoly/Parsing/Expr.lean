import LetPoly.Parsing.TypeExpr

/-!
# Parsing expressions

```
expr      = let-expr / if-expr / fn-expr / or-expr
let-expr  = "let" binder "=" expr "in" expr
if-expr   = "if" expr "then" expr "else" expr
fn-expr   = "fn" "(" binder *("," binder) ")" "->" expr
or-expr   = and-expr *("||" and-expr)
and-expr  = cmp-expr *("&&" cmp-expr)
cmp-expr  = add-expr [("==" / "!=" / "<" / "<=" / ">" / ">=") add-expr]
add-expr  = mul-expr *(("+" / "-" / "++") mul-expr)
mul-expr  = call-expr *(("*" / "/") call-expr)
call-expr = base-expr *("(" [expr *("," expr)] ")")
base-expr = INT / FLOAT / STRING / "true" / "false" / NAME
          / "(" ")" / "(" expr [":" type] ")" / "(" expr 1*("," expr) ")"
```

A function of several parameters is a function of the first that gives a function of
the others, and a call with several arguments is a call of a call.  A call without
arguments has the unit value for its argument.  An operator is a call of its name with
the two operands.  Parentheses around a single expression leave no trace in the tree.

A level is taken by each nested expression, and also by each further parameter,
operator of a chain, call and argument, since each of them makes the tree deeper.
-/

namespace LetPoly.Parser

/-- Reads a comma and an item as often as it can, each item one level deeper than the one before.
Gives the items and the levels that are left. -/
def moreBelow {α : Type} (item : Levels → Parser α) : Levels → Parser (List α × Levels)
  | [] => do
    match ← mark? .comma with
    | none => return ([], [])
    | some _ =>
      giveUp
      return ([], [])
  | level :: levels => do
    match ← mark? .comma with
    | none => return ([], level :: levels)
    | some _ =>
      let a ← item levels
      let (as, left) ← moreBelow item levels
      return (a :: as, left)

/-! ## Operators -/

/-- The operand on the left, the operator and the operand on the right as calls. -/
def applyOperator (op : Lexeme) (lhs rhs : Expr) : Parser Expr := do
  let inner ← join lhs.span op.span
  let outer ← join lhs.span rhs.span
  let f := Expr.name (.new op.span) (op.token.operatorName?.getD "")
  return .app (.new outer) (.app (.new inner) f lhs) rhs

/-- Reads the next lexeme if it is one of the operators. -/
def operator? (ops : List Operator) : Parser (Option Lexeme) :=
  accept? fun | .operator o => ops.contains o | _ => false

/-- Continues a chain of operators behind its first operands, whose tree is `e`. -/
def chain (ops : List Operator) (operand : Levels → Parser Expr) : Levels → Expr → Parser Expr
  | levels, e => do
    match ← operator? ops with
    | none => return e
    | some op =>
      match levels with
      | [] =>
        giveUp
        return e
      | _ :: levels =>
        let rhs ← operand levels
        let e ← applyOperator op e rhs
        chain ops operand levels e

/-- Parses a left-associative chain of operators. -/
def binary (ops : List Operator) (operand : Levels → Parser Expr) (levels : Levels) :
    Parser Expr := do
  let e ← operand levels
  chain ops operand levels e

/-! ## Parentheses and literals -/

/-- Parses what stands in parentheses, behind the opening one. -/
def group (levels : Levels) (opener : Span) : Parser Expr := do
  match ← mark? .groupClose with
  | some closer => return .lit (.new (← join opener closer.span)) .unit
  | none =>
    let e ← levels.expr
    match ← mark? .colon with
    | some _ =>
      let t ← levels.type
      closeGroup opener
      return .anno (.new (← join opener (← previous))) e t
    | none =>
      if ← peek (· == .punctuation .comma) then
        let es ← moreItems levels.expr
        closeGroup opener
        return .tuple (.new (← join opener (← previous))) (e :: es)
      else
        closeGroup opener
        return e

/-- Parses a literal, a name, or an expression in parentheses. -/
def baseExpr (levels : Levels) : Parser Expr := do
  match ← next? with
  | none =>
    let span ← here
    report span .expectedExpression
    return .invalid (.new span)
  | some ⟨t, span⟩ =>
    match t with
    | .int n => return .lit (.new span) (.int n)
    | .float d => return .lit (.new span) (.float d)
    | .string s => return .lit (.new span) (.string s)
    | .bool b => return .lit (.new span) (.bool b)
    | .name x => return .name (.new span) x
    | .punctuation .groupOpen => group levels span
    | .invalid => return .invalid (.new span)
    | _ =>
      report span .expectedExpression
      return .invalid (.new span)

/-! ## Calls -/

/-- Parses the arguments of a call, behind the opening parenthesis. -/
def arguments (levels : Levels) (opener : Span) : Parser (List Expr × Levels) := do
  match ← mark? .groupClose with
  | some closer => return ([.lit (.new (← join opener closer.span)) .unit], levels)
  | none =>
    let e ← levels.expr
    let (es, left) ← moreBelow Levels.expr levels
    closeGroup opener
    return (e :: es, left)

/-- The calls of an expression with one argument after the other.  Each ends where the last
argument's parenthesis does. -/
def applyAll (close : Span) : Expr → List Expr → Parser Expr
  | e, [] => return e
  | e, a :: as => do
    let span ← join (← join e.span a.span) close
    applyAll close (.app (.new span) e a) as

/-- Parses calls of `e`, at most `n` of them.  A call uses up a level, so there are never more
calls than levels. -/
def callsFrom : Nat → Levels → Expr → Parser Expr
  | n, levels, e => do
    match ← mark? .groupOpen with
    | none => return e
    | some opener =>
      match n, levels with
      | n + 1, _ :: levels =>
        let (es, left) ← arguments levels opener.span
        let e ← applyAll (← previous) e es
        callsFrom n left e
      | _, _ =>
        giveUp
        return e

/-- Parses an expression and the calls of it. -/
def callExpr (levels : Levels) : Parser Expr := do
  let e ← baseExpr levels
  callsFrom levels.length levels e

/-! ## Precedence -/

/-- Parses a chain of multiplications and divisions. -/
def mulExpr (levels : Levels) : Parser Expr := binary [.times, .divide] callExpr levels

/-- Parses a chain of additions, subtractions and concatenations. -/
def addExpr (levels : Levels) : Parser Expr := binary [.plus, .minus, .append] mulExpr levels

/-- Parses at most one comparison. -/
def cmpExpr (levels : Levels) : Parser Expr := do
  let e ← addExpr levels
  match ← operator? [.equals, .notEquals, .less, .lessEqual, .greater, .greaterEqual] with
  | none => return e
  | some op =>
    let rhs ← addExpr levels
    applyOperator op e rhs

/-- Parses a chain of conjunctions. -/
def andExpr (levels : Levels) : Parser Expr := binary [.and] cmpExpr levels

/-- Parses a chain of disjunctions. -/
def orExpr (levels : Levels) : Parser Expr := binary [.or] andExpr levels

/-! ## Definitions, conditionals and functions -/

/-- Parses a local definition, behind its keyword. -/
def letExpr (levels : Levels) (opener : Span) : Parser Expr := do
  let b ← binder levels
  expect (.punctuation .equal)
  let bound ← levels.expr
  expect (.keyword .inWord)
  let body ← levels.expr
  return .letIn (.new (← join opener body.span)) b bound body

/-- Parses a conditional, behind its keyword. -/
def ifExpr (levels : Levels) (opener : Span) : Parser Expr := do
  let test ← levels.expr
  expect (.keyword .thenWord)
  let yes ← levels.expr
  expect (.keyword .elseWord)
  let no ← levels.expr
  return .cond (.new (← join opener no.span)) test yes no

/-- The function of parameters behind the first, each of which begins at its parameter. -/
def curry (body : Expr) : List Binder → Parser Expr
  | [] => return body
  | b :: bs => do
    let inner ← curry body bs
    return .lam (.new (← join b.span inner.span)) b inner

/-- Parses a function, behind its keyword. -/
def fnExpr (levels : Levels) (opener : Span) : Parser Expr := do
  expect (.punctuation .groupOpen)
  let b ← binder levels
  let (bs, left) ← moreBelow binder levels
  expect (.punctuation .groupClose)
  expect (.punctuation .arrow)
  let body ← left.expr
  let inner ← curry body bs
  return .lam (.new (← join opener inner.span)) b inner

/-- Parses an expression with the given levels below it. -/
def exprAbove (levels : Levels) : Parser Expr := do
  match ← keyword? .letWord with
  | some l => letExpr levels l.span
  | none =>
    match ← keyword? .ifWord with
    | some l => ifExpr levels l.span
    | none =>
      match ← keyword? .fnWord with
      | some l => fnExpr levels l.span
      | none => orExpr levels

end LetPoly.Parser

namespace LetPoly

/-- As many levels as given, each with the parsers for all levels behind it. -/
def Levels.ofDepth : Nat → Levels
  | 0 => []
  | n + 1 =>
    let levels := Levels.ofDepth n
    ⟨Parser.exprAbove levels, Parser.typeAbove levels⟩ :: levels

end LetPoly
