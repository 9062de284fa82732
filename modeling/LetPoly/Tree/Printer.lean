import LetPoly.Layout
import LetPoly.Number.Decimal
import LetPoly.Text.Quoted
import LetPoly.Tree.Expr
import LetPoly.Ty.Printer

/-!
# Printing trees

A tree is printed as nested lists.  A list begins with the kind of the expression and
what belongs to it, goes on with the parts, and ends with the type if it is known.
Type variables keep their names within a declaration, and are named in the order in
which the text shows them, except that the type of an expression comes behind its
parts.
-/

namespace LetPoly

/-- How a literal is shown. -/
def Literal.text : Literal → String
  | int n => "int " ++ toString n
  | float d => "float " ++ d.text
  | bool b => "bool " ++ if b then "true" else "false"
  | string s => "string " ++ Text.quote s
  | unit => "unit"

/-- How a binder is shown: its name, with its scheme if that is known, else with its annotation if
it has one. -/
def Binder.doc (b : Binder) : StateM Naming Doc := do
  match b.scheme.get?, b.anno with
  | some σ, _ =>
    let ty ← σ.print
    return .ofString ("[" ++ b.name ++ " : " ++ ty ++ "]")
  | none, some anno => return .ofString ("[" ++ b.name ++ " : " ++ anno.text ++ "]")
  | none, none => return .ofString b.name

/-- How the type of an expression is shown behind its parts. -/
def Mark.doc (m : Mark) : StateM Naming Doc := do
  match m.ty.get? with
  | some ty =>
    let ty ← ty.print
    return .ofString (" : " ++ ty)
  | none => return .empty

namespace Expr

/-- The list of a head, parts on lines of their own, and what stands behind them. -/
def listDoc (head : Doc) (parts : List Doc) (behind : Doc) : Doc :=
  .group (.ofString "(" ++ head ++ .nest 2 (.concat (parts.map (Doc.line ++ ·))) ++ behind
    ++ .ofString ")")

mutual

/-- How an expression is shown. -/
def doc : Expr → StateM Naming Doc
  | lit m l => return listDoc (.ofString l.text) [] (← m.doc)
  | name m x => return listDoc (.ofString ("name " ++ x)) [] (← m.doc)
  | lam m p b => do
    let p ← p.doc
    let b ← doc b
    return listDoc (.ofString "fn " ++ p) [b] (← m.doc)
  | app m f a => do
    let f ← doc f
    let a ← doc a
    return listDoc (.ofString "app") [f, a] (← m.doc)
  | letIn m b d e => do
    let b ← b.doc
    let d ← doc d
    let e ← doc e
    return listDoc (.ofString "let " ++ b) [d, e] (← m.doc)
  | cond m c t e => do
    let c ← doc c
    let t ← doc t
    let e ← doc e
    return listDoc (.ofString "if") [c, t, e] (← m.doc)
  | anno m e t => do
    let e ← doc e
    return listDoc (.ofString ("the [" ++ t.text ++ "]")) [e] (← m.doc)
  | tuple m es => do
    let es ← docAll es
    return listDoc (.ofString "tuple") es (← m.doc)
  | invalid m => return listDoc (.ofString "invalid") [] (← m.doc)

/-- How the expressions of a list are shown. -/
def docAll : List Expr → StateM Naming (List Doc)
  | [] => return []
  | e :: es => do
    let e ← doc e
    let es ← docAll es
    return e :: es

end

end Expr

/-- How a declaration is shown. -/
def Decl.doc (d : Decl) : Doc :=
  let (binder, names) := d.binder.doc Naming.empty
  let (bound, _) := d.bound.doc names
  .group (.ofString "(let " ++ binder ++ .nest 2 (.line ++ bound) ++ .ofString ")")

namespace Program

/-- How a program is shown: a declaration behind the other, each on a line of its own. -/
def doc (p : Program) : Doc := .intersperse .hardLine (p.map Decl.doc)

/-- The text of a program for a width. -/
def text (p : Program) (width : Nat) : String := p.doc.render width

end Program

end LetPoly
