import LetPoly.Parsing.Program

/-!
# A parser that counts

The parsers get the levels they may still take from their caller, so it cannot happen that they take
too many, or that a level is not given back.  Here is the parser that has a counter in its state
instead.  The counter goes up with each level, and each parser has to set it back at the end.

Where the counter does not go up any more the parser *abandons* the source: it records that once,
together with the number of messages so far, and skips the rest.  It goes on recording after that,
and what is too much is cut off when all is done.

Nothing but the counter bounds how deep the parsers call each other, and nothing but the lexemes
bounds how often they repeat a step.  So both have a number of calls they may make, and it is an
outcome of its own if these do not suffice.

For the statements about it, the parser logs all values the counter ever had, and what was recorded
each time it did not go up.
-/

namespace LetPoly

/-- Why a counting parser stops without a value. -/
inductive Stop where
  /-- A contract was broken. -/
  | defect (d : Defect)
  /-- It may make no further calls. -/
  | unfinished

/-- The counter of a counting parser, and its log. -/
structure Counter where
  /-- How deep the parser is. -/
  depth : Int
  /-- How deep it was before, the last value first. -/
  past : List Int
  /-- If the source was abandoned, the number of messages that are kept. -/
  kept : Option Nat
  /-- What was recorded each time the counter did not go up, the last time first. -/
  refusals : List (List Diagnostic)

namespace Counter

/-- The counter at the start. -/
def start : Counter := ⟨0, [], none, []⟩

/-- All values the counter ever had. -/
def values (c : Counter) : List Int := c.depth :: c.past

/-- Gives the counter a value. -/
def goTo (c : Counter) (d : Int) : Counter := { c with depth := d, past := c.values }

@[simp] theorem depth_goTo (c : Counter) (d : Int) : (c.goTo d).depth = d := rfl

/-- Logs that the counter did not go up, after which the given number of messages is kept. -/
def refuse (c : Counter) (recorded : List Diagnostic) (n : Nat) : Counter :=
  { c with kept := c.kept.or (some n), refusals := recorded :: c.refusals }

/-- The messages that are kept of those recorded, the first one first. -/
def messages (c : Counter) (recorded : List Diagnostic) : List Diagnostic :=
  match c.kept with
  | none => recorded.reverse
  | some n => recorded.reverse.take n

end Counter

/-- A parser with a counter. -/
abbrev CountingParser := StateT Counter (StateT ParserState (Except Stop))

namespace CountingParser

/-! ## First steps -/

/-- Makes no further calls. -/
def unfinished {α : Type} : CountingParser α := fun _ _ => .error .unfinished

/-- Does what a parser without a counter does. -/
def plain {α : Type} (q : Parser α) : CountingParser α := fun c s =>
  match q s with
  | .ok (a, s') => .ok ((a, c), s')
  | .error d => .error (.defect d)

/-- How deep the parser is. -/
def depth : CountingParser Int := do return (← get).depth

/-- Sets the counter. -/
def setDepth (d : Int) : CountingParser Unit := modify fun c => c.goTo d

/-- The state in which the source is abandoned, which is recorded unless that was done. -/
def abandon (c : Counter) (s : ParserState) : ParserState :=
  let s := if c.kept.isNone then s.report s.here (.nestedTooDeeply maxDepth) else s
  s.skipWhile fun _ => true

/-- Goes a level deeper, unless that would pass the limit. -/
def descend : CountingParser Bool := fun c s =>
  if c.depth < maxDepth then .ok ((true, c.goTo (c.depth + 1)), s)
  else
    let s' := abandon c s
    .ok ((false, c.refuse s.reported s'.reported.length), s')

/-- Reads the next lexeme if its token fits, and goes a level deeper. -/
def acceptBelow? (p : Token → Bool) : CountingParser (Option Lexeme) := do
  match ← plain (Parser.accept? p) with
  | none => return none
  | some l =>
    if ← descend then return some l
    else return none

/-- Parses something that takes a level.  If there is none left, it is invalid. -/
def nested {α : Type} (form : CountingParser α) (invalid : Span → α) : CountingParser α := do
  if ← descend then
    let a ← form
    setDepth ((← depth) - 1)
    return a
  else return invalid (← plain Parser.here)

/-- Sets the counter back in the end. -/
def resetting {α : Type} (q : CountingParser α) : CountingParser α := do
  let d ← depth
  let a ← q
  setDepth d
  return a

/-- Repeats a step until it gives nothing, at most the given number of times. -/
def iterate {α : Type} (step : α → CountingParser (Option α)) : Nat → α → CountingParser α
  | 0, _ => unfinished
  | n + 1, a => do
    match ← step a with
    | none => return a
    | some a => iterate step n a

/-- Repeats a step that reads a lexeme each time until it gives nothing. -/
def repeatStep {α : Type} (step : α → CountingParser (Option α)) (a : α) : CountingParser α :=
  fun c s => iterate step (s.rest.length + 1) a c s

/-! ## Items -/

/-- Reads a comma and an item. -/
def nextItem {α : Type} (item : CountingParser α) (items : List α) :
    CountingParser (Option (List α)) := do
  match ← plain (Parser.mark? .comma) with
  | none => return none
  | some _ => return some ((← item) :: items)

/-- Reads a comma and an item as often as it can. -/
def moreItems {α : Type} (item : CountingParser α) : CountingParser (List α) := do
  return (← repeatStep (nextItem item) []).reverse

/-- Reads a comma and an item one level deeper. -/
def nextBelow {α : Type} (item : CountingParser α) (items : List α) :
    CountingParser (Option (List α)) := do
  match ← acceptBelow? (· == .punctuation .comma) with
  | none => return none
  | some _ => return some ((← item) :: items)

/-- Reads a comma and an item as often as it can, each item one level deeper than the one before. -/
def moreBelow {α : Type} (item : CountingParser α) : CountingParser (List α) := do
  return (← repeatStep (nextBelow item) []).reverse

/-! ## Types and binders -/

/-- The parsers of nested expressions and types. -/
structure Inner where
  /-- The parser of an expression. -/
  expr : CountingParser Expr
  /-- The parser of a type. -/
  type : CountingParser TypeExpr

/-- Parses a type in parentheses, behind the opening one. -/
def typeGroup (inner : Inner) (opener : Span) : CountingParser TypeExpr := do
  match ← plain (Parser.mark? .groupClose) with
  | some closer => return .prim (← plain (Parser.join opener closer.span)) .unit
  | none =>
    let t ← inner.type
    if ← plain (Parser.peek (· == .punctuation .comma)) then
      let ts ← moreItems inner.type
      plain (Parser.closeGroup opener)
      return .tuple (← plain (Parser.join opener (← plain Parser.previous))) (t :: ts)
    else
      plain (Parser.closeGroup opener)
      return t

/-- Parses a type without an arrow outside of parentheses. -/
def baseType (inner : Inner) : CountingParser TypeExpr := do
  match ← plain Parser.next? with
  | none =>
    let span ← plain Parser.here
    plain (Parser.report span .expectedType)
    return .invalid span
  | some ⟨t, span⟩ =>
    match t with
    | .name x =>
      match Con.primitive? x with
      | some c => return .prim span c
      | none =>
        plain (Parser.report span (.unknownType x))
        return .invalid span
    | .punctuation .wildcard => return .wildcard span
    | .punctuation .groupOpen => typeGroup inner span
    | .invalid => return .invalid span
    | _ =>
      plain (Parser.report span .expectedType)
      return .invalid span

/-- Parses a type on the level it takes. -/
def typeForm (inner : Inner) : CountingParser TypeExpr := do
  let t ← baseType inner
  match ← plain (Parser.mark? .arrow) with
  | none => return t
  | some _ =>
    let u ← inner.type
    return .fn (← plain (Parser.join t.span u.span)) t u

/-- Parses a name with an optional annotation. -/
def binder (inner : Inner) : CountingParser Binder := do
  let (x, span) ← plain Parser.name
  match ← plain (Parser.mark? .colon) with
  | some _ => return ⟨x, span, some (← inner.type), .empty⟩
  | none => return ⟨x, span, none, .empty⟩

/-! ## Expressions -/

/-- Reads an operator and an operand one level deeper. -/
def nextOperand (ops : List Operator) (operand : CountingParser Expr) (e : Expr) :
    CountingParser (Option Expr) := do
  match ← acceptBelow? (fun | .operator o => ops.contains o | _ => false) with
  | none => return none
  | some op =>
    let rhs ← operand
    return some (← plain (Parser.applyOperator op e rhs))

/-- Parses a left-associative chain of operators. -/
def binary (ops : List Operator) (operand : CountingParser Expr) : CountingParser Expr :=
  resetting do
    let e ← operand
    repeatStep (nextOperand ops operand) e

/-- Parses what stands in parentheses, behind the opening one. -/
def group (inner : Inner) (opener : Span) : CountingParser Expr := do
  match ← plain (Parser.mark? .groupClose) with
  | some closer => return .lit (.new (← plain (Parser.join opener closer.span))) .unit
  | none =>
    let e ← inner.expr
    match ← plain (Parser.mark? .colon) with
    | some _ =>
      let t ← inner.type
      plain (Parser.closeGroup opener)
      return .anno (.new (← plain (Parser.join opener (← plain Parser.previous)))) e t
    | none =>
      if ← plain (Parser.peek (· == .punctuation .comma)) then
        let es ← moreItems inner.expr
        plain (Parser.closeGroup opener)
        return .tuple (.new (← plain (Parser.join opener (← plain Parser.previous)))) (e :: es)
      else
        plain (Parser.closeGroup opener)
        return e

/-- Parses a literal, a name, or an expression in parentheses. -/
def baseExpr (inner : Inner) : CountingParser Expr := do
  match ← plain Parser.next? with
  | none =>
    let span ← plain Parser.here
    plain (Parser.report span .expectedExpression)
    return .invalid (.new span)
  | some ⟨t, span⟩ =>
    match t with
    | .int n => return .lit (.new span) (.int n)
    | .float d => return .lit (.new span) (.float d)
    | .string s => return .lit (.new span) (.string s)
    | .bool b => return .lit (.new span) (.bool b)
    | .name x => return .name (.new span) x
    | .punctuation .groupOpen => group inner span
    | .invalid => return .invalid (.new span)
    | _ =>
      plain (Parser.report span .expectedExpression)
      return .invalid (.new span)

/-- Parses the arguments of a call, behind the opening parenthesis. -/
def arguments (inner : Inner) (opener : Span) : CountingParser (List Expr) := do
  match ← plain (Parser.mark? .groupClose) with
  | some closer => return [.lit (.new (← plain (Parser.join opener closer.span))) .unit]
  | none =>
    let e ← inner.expr
    let es ← moreBelow inner.expr
    plain (Parser.closeGroup opener)
    return e :: es

/-- Parses a call of `e`, one level deeper. -/
def nextCall (inner : Inner) (e : Expr) : CountingParser (Option Expr) := do
  match ← acceptBelow? (· == .punctuation .groupOpen) with
  | none => return none
  | some opener =>
    let es ← arguments inner opener.span
    return some (← plain (Parser.applyAll (← plain Parser.previous) e es))

/-- Parses an expression and the calls of it. -/
def callExpr (inner : Inner) : CountingParser Expr :=
  resetting do
    let e ← baseExpr inner
    repeatStep (nextCall inner) e

/-- Parses a chain of multiplications and divisions. -/
def mulExpr (inner : Inner) : CountingParser Expr := binary [.times, .divide] (callExpr inner)

/-- Parses a chain of additions, subtractions and concatenations. -/
def addExpr (inner : Inner) : CountingParser Expr :=
  binary [.plus, .minus, .append] (mulExpr inner)

/-- Parses at most one comparison. -/
def cmpExpr (inner : Inner) : CountingParser Expr := do
  let e ← addExpr inner
  match ← plain (Parser.operator?
      [.equals, .notEquals, .less, .lessEqual, .greater, .greaterEqual]) with
  | none => return e
  | some op =>
    let rhs ← addExpr inner
    plain (Parser.applyOperator op e rhs)

/-- Parses a chain of conjunctions. -/
def andExpr (inner : Inner) : CountingParser Expr := binary [.and] (cmpExpr inner)

/-- Parses a chain of disjunctions. -/
def orExpr (inner : Inner) : CountingParser Expr := binary [.or] (andExpr inner)

/-- Parses a local definition, behind its keyword. -/
def letExpr (inner : Inner) (opener : Span) : CountingParser Expr := do
  let b ← binder inner
  plain (Parser.expect (.punctuation .equal))
  let bound ← inner.expr
  plain (Parser.expect (.keyword .inWord))
  let body ← inner.expr
  return .letIn (.new (← plain (Parser.join opener body.span))) b bound body

/-- Parses a conditional, behind its keyword. -/
def ifExpr (inner : Inner) (opener : Span) : CountingParser Expr := do
  let test ← inner.expr
  plain (Parser.expect (.keyword .thenWord))
  let yes ← inner.expr
  plain (Parser.expect (.keyword .elseWord))
  let no ← inner.expr
  return .cond (.new (← plain (Parser.join opener no.span))) test yes no

/-- Parses a function, behind its keyword. -/
def fnExpr (inner : Inner) (opener : Span) : CountingParser Expr := do
  plain (Parser.expect (.punctuation .groupOpen))
  resetting do
    let b ← binder inner
    let bs ← moreBelow (binder inner)
    plain (Parser.expect (.punctuation .groupClose))
    plain (Parser.expect (.punctuation .arrow))
    let body ← inner.expr
    let rest ← plain (Parser.curry body bs)
    return .lam (.new (← plain (Parser.join opener rest.span))) b rest

/-- Parses an expression on the level it takes. -/
def exprForm (inner : Inner) : CountingParser Expr := do
  match ← plain (Parser.keyword? .letWord) with
  | some l => letExpr inner l.span
  | none =>
    match ← plain (Parser.keyword? .ifWord) with
    | some l => ifExpr inner l.span
    | none =>
      match ← plain (Parser.keyword? .fnWord) with
      | some l => fnExpr inner l.span
      | none => orExpr inner

/-- The parsers of nested expressions and types, which may call each other up to the given depth. -/
def inner : Nat → Inner
  | 0 => ⟨unfinished, unfinished⟩
  | n + 1 =>
    ⟨nested (exprForm (inner n)) fun span => .invalid (.new span),
      nested (typeForm (inner n)) .invalid⟩

/-! ## Programs -/

/-- Parses a declaration, behind its keyword at the given place. -/
def decl (inner : Inner) (opener : Span) : CountingParser Decl := do
  let b ← binder inner
  plain (Parser.expect (.punctuation .equal))
  let bound ← inner.expr
  let _ ← plain (Parser.mark? .semicolon)
  return ⟨← plain (Parser.join opener bound.span), b, bound⟩

/-- Parses a declaration, or skips what is none. -/
def nextDecl (inner : Inner) (ds : List Decl) : CountingParser (Option (List Decl)) := do
  match ← plain (Parser.keyword? .letWord) with
  | some l => return some ((← decl inner l.span) :: ds)
  | none =>
    match ← plain (do return (← get).rest) with
    | [] => return none
    | l :: _ =>
      plain do
        modify fun s => s.skipWhile fun l => !Parser.beginsDecl l
        Parser.report l.span .expectedDeclaration
      return some ds

/-- Parses declarations up to the end. -/
def program (inner : Inner) : CountingParser Program := do
  return (← repeatStep (nextDecl inner) []).reverse

end CountingParser

end LetPoly
