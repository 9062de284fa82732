import LetPoly.Number.Double
import LetPoly.Tree.Slot
import LetPoly.Tree.TypeExpr

/-!
# Trees

The tree of a program.  Every expression has a slot for its type, and every name that
is introduced has a slot for its scheme.  `invalid` stands where an expression was
expected and none was found.

Calls and functions have one argument and one parameter each.  The binary operators
are calls of names.
-/

namespace LetPoly

/-- A literal. -/
inductive Literal where
  | int (n : Int)
  | float (d : Double)
  | bool (b : Bool)
  | string (s : String)
  | unit
  deriving DecidableEq, Repr, Inhabited

/-- The type of a literal. -/
def Literal.ty : Literal → Ty
  | int _ => .int
  | float _ => .float
  | bool _ => .bool
  | string _ => .string
  | unit => .unit

/-- A name that a function, a `let` or a declaration introduces. -/
structure Binder where
  /-- The name. -/
  name : String
  /-- Where the name stands. -/
  span : Span
  /-- The annotation, if there is one. -/
  anno : Option TypeExpr
  /-- The slot for the scheme. -/
  scheme : Slot Scheme
  deriving Repr, Inhabited

/-- What every expression carries. -/
structure Mark where
  /-- Where the expression stands. -/
  span : Span
  /-- The slot for its type. -/
  ty : Slot Ty
  deriving DecidableEq, Repr, Inhabited

/-- The mark of a new expression. -/
def Mark.new (s : Span) : Mark := ⟨s, .empty⟩

/-- An expression. -/
inductive Expr where
  | lit (mark : Mark) (value : Literal)
  | name (mark : Mark) (x : String)
  | lam (mark : Mark) (param : Binder) (body : Expr)
  | app (mark : Mark) (fn arg : Expr)
  /-- A local definition. -/
  | letIn (mark : Mark) (binder : Binder) (bound body : Expr)
  /-- A conditional. -/
  | cond (mark : Mark) (test yes no : Expr)
  /-- An expression with an annotation. -/
  | anno (mark : Mark) (inner : Expr) (ty : TypeExpr)
  | tuple (mark : Mark) (elems : List Expr)
  /-- No expression at all. -/
  | invalid (mark : Mark)
  deriving Repr, Inhabited

namespace Expr

/-- The mark of an expression. -/
def mark : Expr → Mark
  | lit m _ => m
  | name m _ => m
  | lam m _ _ => m
  | app m _ _ => m
  | letIn m _ _ _ => m
  | cond m _ _ _ => m
  | anno m _ _ => m
  | tuple m _ => m
  | invalid m => m

/-- Where an expression stands. -/
def span (e : Expr) : Span := e.mark.span

/-- The type of an expression, if it is known. -/
def ty? (e : Expr) : Option Ty := e.mark.ty.get?

/-- The immediate subexpressions, left to right. -/
def children : Expr → List Expr
  | lit _ _ => []
  | name _ _ => []
  | lam _ _ body => [body]
  | app _ fn arg => [fn, arg]
  | letIn _ _ bound body => [bound, body]
  | cond _ test yes no => [test, yes, no]
  | anno _ inner _ => [inner]
  | tuple _ elems => elems
  | invalid _ => []

mutual

/-- All subexpressions, an expression before its parts and the parts left to right. -/
def walk : Expr → List Expr
  | lit m l => [lit m l]
  | name m x => [name m x]
  | lam m p b => lam m p b :: walk b
  | app m f a => app m f a :: walk f ++ walk a
  | letIn m b d e => letIn m b d e :: walk d ++ walk e
  | cond m c t e => cond m c t e :: walk c ++ walk t ++ walk e
  | anno m e t => anno m e t :: walk e
  | tuple m es => tuple m es :: walkAll es
  | invalid m => [invalid m]

/-- All subexpressions of the expressions of a list. -/
def walkAll : List Expr → List Expr
  | [] => []
  | e :: es => walk e ++ walkAll es

end

end Expr

/-! ## Changing slots -/

/-- Changes the slot of a mark. -/
def Mark.update (f : Slot Ty → Slot Ty) (m : Mark) : Mark := { m with ty := f m.ty }

/-- Changes the slot of a binder. -/
def Binder.update (g : Slot Scheme → Slot Scheme) (b : Binder) : Binder :=
  { b with scheme := g b.scheme }

namespace Expr

mutual

/-- Changes every slot of an expression. -/
def update (f : Slot Ty → Slot Ty) (g : Slot Scheme → Slot Scheme) : Expr → Expr
  | lit m l => lit (m.update f) l
  | name m x => name (m.update f) x
  | lam m p b => lam (m.update f) (p.update g) (update f g b)
  | app m e a => app (m.update f) (update f g e) (update f g a)
  | letIn m b d e => letIn (m.update f) (b.update g) (update f g d) (update f g e)
  | cond m c t e => cond (m.update f) (update f g c) (update f g t) (update f g e)
  | anno m e t => anno (m.update f) (update f g e) t
  | tuple m es => tuple (m.update f) (updateAll f g es)
  | invalid m => invalid (m.update f)

/-- Changes every slot of the expressions of a list. -/
def updateAll (f : Slot Ty → Slot Ty) (g : Slot Scheme → Slot Scheme) : List Expr → List Expr
  | [] => []
  | e :: es => update f g e :: updateAll f g es

end

end Expr

/-! ## Programs -/

/-- A declaration. -/
structure Decl where
  /-- Where it stands. -/
  span : Span
  /-- The name it introduces. -/
  binder : Binder
  /-- The definition. -/
  bound : Expr
  deriving Repr, Inhabited

/-- Changes every slot of a declaration. -/
def Decl.update (f : Slot Ty → Slot Ty) (g : Slot Scheme → Slot Scheme) (d : Decl) : Decl :=
  { d with binder := d.binder.update g, bound := d.bound.update f g }

/-- A program is a list of declarations. -/
abbrev Program := List Decl

namespace Program

/-- Empties every slot of a program. -/
def clear (p : Program) : Program :=
  p.map (Decl.update (fun _ => .empty) (fun _ => .empty))

/-- All expressions of a program, each before its parts. -/
def walk (p : Program) : List Expr := p.flatMap fun d => d.bound.walk

/-- The scheme of the last declaration of a name. -/
def schemeOf? (p : Program) (x : String) : Option Scheme :=
  (p.reverse.find? fun d => d.binder.name == x).bind fun d => d.binder.scheme.get?

end Program

end LetPoly
