import LetPoly.Token
import LetPoly.Tree.Expr

/-!
# The grammar

What the tokens of a program may be, and which tree they stand for.

```
program   = *decl
decl      = "let" NAME [":" type] "=" expr [";"]
expr      = "let" NAME [":" type] "=" expr "in" expr
          / "if" expr "then" expr "else" expr
          / "fn" "(" param *("," param) ")" "->" expr
          / or-expr
param     = NAME [":" type]
or-expr   = and-expr *("||" and-expr)
and-expr  = cmp-expr *("&&" cmp-expr)
cmp-expr  = add-expr [("==" / "!=" / "<" / "<=" / ">" / ">=") add-expr]
add-expr  = mul-expr *(("+" / "-" / "++") mul-expr)
mul-expr  = call-expr *(("*" / "/") call-expr)
call-expr = base-expr *("(" [expr *("," expr)] ")")
base-expr = INT / FLOAT / STRING / "true" / "false" / NAME
          / "(" ")" / "(" expr [":" type] ")" / "(" expr 1*("," expr) ")"
type      = base-type ["->" type]
base-type = "Int" / "Float" / "Bool" / "String" / "Unit" / "_"
          / "(" ")" / "(" type ")" / "(" type 1*("," type) ")"
```

The tree of a derivation has no places: all its spans are `Span.nowhere`.  A repetition of the
grammar is a list of phrases, which the tree folds: chains of operators and calls from the left,
parameters from the right.
-/

namespace LetPoly

/-- The span of what stands nowhere. -/
def Span.nowhere : Span := .origin 0

/-- The mark of an expression that stands nowhere. -/
def Mark.nowhere : Mark := .new .nowhere

/-! ## Trees without places -/

namespace TypeExpr

mutual

/-- A written type without its places. -/
def unplaced : TypeExpr → TypeExpr
  | prim _ c => prim .nowhere c
  | fn _ t u => fn .nowhere (unplaced t) (unplaced u)
  | tuple _ ts => tuple .nowhere (unplacedAll ts)
  | wildcard _ => wildcard .nowhere
  | invalid _ => invalid .nowhere

/-- The written types of a list without their places. -/
def unplacedAll : List TypeExpr → List TypeExpr
  | [] => []
  | t :: ts => unplaced t :: unplacedAll ts

end

@[simp] theorem unplacedAll_eq_map (ts : List TypeExpr) : unplacedAll ts = ts.map unplaced := by
  induction ts with
  | nil => rfl
  | cons t ts ih => simp [unplacedAll, ih]

end TypeExpr

/-- A mark without its place. -/
def Mark.unplaced (m : Mark) : Mark := { m with span := .nowhere }

/-- A binder without its places. -/
def Binder.unplaced (b : Binder) : Binder :=
  { b with span := .nowhere, anno := b.anno.map TypeExpr.unplaced }

namespace Expr

mutual

/-- An expression without its places. -/
def unplaced : Expr → Expr
  | lit m l => lit m.unplaced l
  | name m x => name m.unplaced x
  | lam m p b => lam m.unplaced p.unplaced (unplaced b)
  | app m f a => app m.unplaced (unplaced f) (unplaced a)
  | letIn m b d e => letIn m.unplaced b.unplaced (unplaced d) (unplaced e)
  | cond m c t e => cond m.unplaced (unplaced c) (unplaced t) (unplaced e)
  | anno m e t => anno m.unplaced (unplaced e) t.unplaced
  | tuple m es => tuple m.unplaced (unplacedAll es)
  | invalid m => invalid m.unplaced

/-- The expressions of a list without their places. -/
def unplacedAll : List Expr → List Expr
  | [] => []
  | e :: es => unplaced e :: unplacedAll es

end

@[simp] theorem unplacedAll_eq_map (es : List Expr) : unplacedAll es = es.map unplaced := by
  induction es with
  | nil => rfl
  | cons e es ih => simp [unplacedAll, ih]

end Expr

/-- A declaration without its places. -/
def Decl.unplaced (d : Decl) : Decl := ⟨.nowhere, d.binder.unplaced, d.bound.unplaced⟩

/-- A program without its places. -/
def Program.unplaced (p : Program) : Program := p.map Decl.unplaced

/-! ## Phrases -/

/-- Tokens and what they stand for. -/
structure Phrase (α : Type) where
  /-- The tokens. -/
  tokens : List Token
  /-- What they stand for. -/
  value : α

/-- The tokens of phrases, each behind a comma. -/
def Phrase.commas {α : Type} (xs : List (Phrase α)) : List Token :=
  xs.flatMap fun x => .punctuation .comma :: x.tokens

theorem Phrase.commas_cons_append {α : Type} (x : Phrase α) (xs : List (Phrase α))
    (ts : List Token) :
    commas (x :: xs) ++ ts = .punctuation .comma :: (x.tokens ++ (commas xs ++ ts)) := by
  simp [commas]

/-! ## Types and binders -/

/-- The nonterminals of types. -/
inductive TypeSort where
  | type
  | base
  deriving DecidableEq

/-- The names of the primitive types. -/
def TypeExpr.primitives : List (String × Con) :=
  [("Int", .int), ("Float", .float), ("Bool", .bool), ("String", .string), ("Unit", .unit)]

/-- The tokens derive from a nonterminal of types, and stand for a written type. -/
inductive TypeExpr.Derives : TypeSort → List Token → TypeExpr → Prop where
  | base {ts : List Token} {t : TypeExpr} (h : Derives .base ts t) : Derives .type ts t
  | fn {ts us : List Token} {t u : TypeExpr} (ht : Derives .base ts t) (hu : Derives .type us u) :
      Derives .type (ts ++ .punctuation .arrow :: us) (.fn .nowhere t u)
  | prim {x : String} {c : Con} (h : (x, c) ∈ primitives) :
      Derives .base [.name x] (.prim .nowhere c)
  | wildcard : Derives .base [.punctuation .wildcard] (.wildcard .nowhere)
  | unit : Derives .base [.punctuation .groupOpen, .punctuation .groupClose] (.prim .nowhere .unit)
  | group {ts : List Token} {t : TypeExpr} (h : Derives .type ts t) :
      Derives .base (.punctuation .groupOpen :: ts ++ [.punctuation .groupClose]) t
  | tuple {x : Phrase TypeExpr} {xs : List (Phrase TypeExpr)} (hne : xs ≠ [])
      (hx : Derives .type x.tokens x.value) (hxs : ∀ y ∈ xs, Derives .type y.tokens y.value) :
      Derives .base
        (.punctuation .groupOpen :: x.tokens ++ Phrase.commas xs ++ [.punctuation .groupClose])
        (.tuple .nowhere (x.value :: xs.map (·.value)))

/-- The tokens are a name with an optional annotation. -/
inductive Binder.Derives : List Token → Binder → Prop where
  | plain (x : String) : Derives [.name x] ⟨x, .nowhere, none, .empty⟩
  | annotated (x : String) {ts : List Token} {t : TypeExpr} (ht : TypeExpr.Derives .type ts t) :
      Derives (.name x :: .punctuation .colon :: ts) ⟨x, .nowhere, some t, .empty⟩

/-! ## Expressions -/

/-- The kinds of chains of operators. -/
inductive Rank where
  | or
  | and
  | add
  | mul
  deriving DecidableEq

/-- The operators of a chain. -/
def Rank.operators : Rank → List Operator
  | or => [.or]
  | and => [.and]
  | add => [.plus, .minus, .append]
  | mul => [.times, .divide]

/-- The operators that compare. -/
def Operator.comparisons : List Operator :=
  [.equals, .notEquals, .less, .lessEqual, .greater, .greaterEqual]

/-- The nonterminals of expressions. -/
inductive ExprSort where
  | expr
  | chain (r : Rank)
  | cmp
  | call
  | base
  deriving DecidableEq

/-- What stands between the operators of a chain. -/
def Rank.operand : Rank → ExprSort
  | or => .chain .and
  | and => .cmp
  | add => .chain .mul
  | mul => .call

namespace Expr

/-- An operator with its operands is a call of its name. -/
def operation (o : Operator) (l r : Expr) : Expr :=
  .app .nowhere (.app .nowhere (.name .nowhere o.text) l) r

/-- A call with several arguments is a call of a call.  One without arguments has the unit value for
its argument. -/
def call (f : Expr) : List Expr → Expr
  | [] => .app .nowhere f (.lit .nowhere .unit)
  | a :: as => (a :: as).foldl (.app .nowhere) f

/-- A function of several parameters is a function of the first that gives a function of the
others. -/
def function (ps : List Binder) (body : Expr) : Expr := ps.foldr (.lam .nowhere) body

/-- The tokens of a chain behind its first operand. -/
def chainTokens (xs : List (Operator × Phrase Expr)) : List Token :=
  xs.flatMap fun x => .operator x.1 :: x.2.tokens

theorem chainTokens_cons_append (x : Operator × Phrase Expr) (xs : List (Operator × Phrase Expr))
    (ts : List Token) :
    chainTokens (x :: xs) ++ ts = .operator x.1 :: (x.2.tokens ++ (chainTokens xs ++ ts)) := by
  simp [chainTokens]

/-- The tokens of the arguments of a call. -/
def argumentTokens : List (Phrase Expr) → List Token
  | [] => [.punctuation .groupOpen, .punctuation .groupClose]
  | x :: xs => .punctuation .groupOpen :: x.tokens ++ Phrase.commas xs ++ [.punctuation .groupClose]

/-- The tokens derive from a nonterminal of expressions, and stand for an expression. -/
inductive Derives : ExprSort → List Token → Expr → Prop where
  | letIn {bs ds es : List Token} {b : Binder} {d e : Expr} (hb : Binder.Derives bs b)
      (hd : Derives .expr ds d) (he : Derives .expr es e) :
      Derives .expr (.keyword .letWord :: bs ++ .punctuation .equal :: ds ++ .keyword .inWord :: es)
        (.letIn .nowhere b d e)
  | cond {cs ts es : List Token} {c t e : Expr} (hc : Derives .expr cs c) (ht : Derives .expr ts t)
      (he : Derives .expr es e) :
      Derives .expr
        (.keyword .ifWord :: cs ++ .keyword .thenWord :: ts ++ .keyword .elseWord :: es)
        (.cond .nowhere c t e)
  | fn {p : Phrase Binder} {ps : List (Phrase Binder)} {es : List Token} {e : Expr}
      (hp : Binder.Derives p.tokens p.value) (hps : ∀ q ∈ ps, Binder.Derives q.tokens q.value)
      (he : Derives .expr es e) :
      Derives .expr
        (.keyword .fnWord :: .punctuation .groupOpen :: p.tokens ++ Phrase.commas ps ++
          .punctuation .groupClose :: .punctuation .arrow :: es)
        (function (p.value :: ps.map (·.value)) e)
  | or {ts : List Token} {e : Expr} (h : Derives (.chain .or) ts e) : Derives .expr ts e
  | chain (r : Rank) {ts : List Token} {e : Expr} {xs : List (Operator × Phrase Expr)}
      (h : Derives r.operand ts e) (hops : ∀ x ∈ xs, x.1 ∈ r.operators)
      (hxs : ∀ x ∈ xs, Derives r.operand x.2.tokens x.2.value) :
      Derives (.chain r) (ts ++ chainTokens xs)
        (xs.foldl (fun l x => operation x.1 l x.2.value) e)
  | uncompared {ts : List Token} {e : Expr} (h : Derives (.chain .add) ts e) : Derives .cmp ts e
  | compared {o : Operator} {ls rs : List Token} {l r : Expr} (ho : o ∈ Operator.comparisons)
      (hl : Derives (.chain .add) ls l) (hr : Derives (.chain .add) rs r) :
      Derives .cmp (ls ++ .operator o :: rs) (operation o l r)
  | call {ts : List Token} {e : Expr} {calls : List (List (Phrase Expr))} (h : Derives .base ts e)
      (hcalls : ∀ xs ∈ calls, ∀ x ∈ xs, Derives .expr x.tokens x.value) :
      Derives .call (ts ++ calls.flatMap argumentTokens)
        (calls.foldl (fun f xs => f.call (xs.map (·.value))) e)
  | int (n : Int) : Derives .base [.int n] (.lit .nowhere (.int n))
  | float (d : Double) : Derives .base [.float d] (.lit .nowhere (.float d))
  | string (s : String) : Derives .base [.string s] (.lit .nowhere (.string s))
  | bool (b : Bool) : Derives .base [.bool b] (.lit .nowhere (.bool b))
  | name (x : String) : Derives .base [.name x] (.name .nowhere x)
  | unit : Derives .base [.punctuation .groupOpen, .punctuation .groupClose] (.lit .nowhere .unit)
  | group {ts : List Token} {e : Expr} (h : Derives .expr ts e) :
      Derives .base (.punctuation .groupOpen :: ts ++ [.punctuation .groupClose]) e
  | anno {es ts : List Token} {e : Expr} {t : TypeExpr} (he : Derives .expr es e)
      (ht : TypeExpr.Derives .type ts t) :
      Derives .base
        (.punctuation .groupOpen :: es ++ .punctuation .colon :: ts ++ [.punctuation .groupClose])
        (.anno .nowhere e t)
  | tuple {x : Phrase Expr} {xs : List (Phrase Expr)} (hne : xs ≠ [])
      (hx : Derives .expr x.tokens x.value) (hxs : ∀ y ∈ xs, Derives .expr y.tokens y.value) :
      Derives .base
        (.punctuation .groupOpen :: x.tokens ++ Phrase.commas xs ++ [.punctuation .groupClose])
        (.tuple .nowhere (x.value :: xs.map (·.value)))

/-- An operand alone is a chain. -/
theorem Derives.of_operand (r : Rank) {ts : List Token} {e : Expr} (h : Derives r.operand ts e) :
    Derives (.chain r) ts e := by
  have hchain := Derives.chain r h (List.forall_mem_nil _) (List.forall_mem_nil _)
  simpa [chainTokens] using hchain

/-- A base expression alone is a call expression. -/
theorem Derives.of_base {ts : List Token} {e : Expr} (h : Derives .base ts e) :
    Derives .call ts e := by
  have hcall := Derives.call h (List.forall_mem_nil _)
  simpa using hcall

/-- A chain of additions alone is an expression. -/
theorem Derives.of_sum {ts : List Token} {e : Expr} (h : Derives (.chain .add) ts e) :
    Derives .expr ts e :=
  .or (.of_operand .or (.of_operand .and (.uncompared h)))

end Expr

/-! ## Programs -/

/-- The tokens are declarations, each with an optional semicolon behind it. -/
inductive Program.Derives : List Token → Program → Prop where
  | nil : Derives [] []
  | cons {bs es ts : List Token} {b : Binder} {e : Expr} {p : Program} (hb : Binder.Derives bs b)
      (he : Expr.Derives .expr es e) (semicolon : Bool) (hp : Derives ts p) :
      Derives
        (.keyword .letWord :: bs ++ .punctuation .equal :: es ++
          (if semicolon then [.punctuation .semicolon] else []) ++ ts)
        (⟨.nowhere, b, e⟩ :: p)

end LetPoly
