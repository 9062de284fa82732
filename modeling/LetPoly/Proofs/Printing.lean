import LetPoly.Proofs.Naming
import LetPoly.Proofs.Trees
import LetPoly.Tree.Printer

/-!
# Printing under given names

The document of a declaration depends on the names of its type variables only.  It is the one that
the names in the end make it (`Decl.doc_eq`), so its parts can be looked at one by one without the
naming that goes through them.

Beside the document stands the *line* of an expression, which is its text without line breaks.
-/

namespace LetPoly

/-! ## Folding over expressions -/

namespace Expr

section

variable {α : Type} (node : Expr → List α → α)

mutual

/-- The value of an expression, from the expression and the values of its parts. -/
def fold : Expr → α
  | lit m l => node (lit m l) []
  | name m x => node (name m x) []
  | lam m p b => node (lam m p b) [fold b]
  | app m f a => node (app m f a) [fold f, fold a]
  | letIn m b d e => node (letIn m b d e) [fold d, fold e]
  | cond m c t e => node (cond m c t e) [fold c, fold t, fold e]
  | anno m e t => node (anno m e t) [fold e]
  | tuple m es => node (tuple m es) (foldAll es)
  | invalid m => node (invalid m) []

/-- The values of the expressions of a list. -/
def foldAll : List Expr → List α
  | [] => []
  | e :: es => fold e :: foldAll es

end

/-- The expressions of a list are folded one by one. -/
theorem foldAll_eq_map (es : List Expr) : foldAll node es = es.map (fold node) := by
  induction es with
  | nil => rfl
  | cons e es ih => rw [foldAll, ih, List.map_cons]

theorem fold_eq (e : Expr) : e.fold node = node e (e.children.map (fold node)) := by
  cases e <;> simp [fold, children, foldAll_eq_map]

end

end Expr

/-! ## Documents and lines -/

/-- The variables of a binder in the order in which they are printed. -/
def Binder.occurrences (b : Binder) : List TyVar := b.scheme.get?.toList.flatMap Scheme.occurrences

/-- The text of a binder under the given names. -/
def Binder.textWith (f : TyVar → String) (b : Binder) : String :=
  match b.scheme.get?, b.anno with
  | some σ, _ => "[" ++ b.name ++ " : " ++ σ.textWith f ++ "]"
  | none, some anno => "[" ++ b.name ++ " : " ++ anno.text ++ "]"
  | none, none => b.name

/-- A binder is shown with its scheme. -/
theorem Binder.shows_doc (b : Binder) :
    Naming.Shows b.occurrences (fun f => Doc.ofString (b.textWith f)) b.doc := by
  unfold doc occurrences textWith
  cases b.scheme.get? with
  | some σ =>
    refine (σ.shows_print.map fun ty => Doc.ofString ("[" ++ b.name ++ " : " ++ ty ++ "]")).congr
      ?_ fun _ => rfl
    simp
  | none => cases b.anno <;> exact .pure _

namespace Mark

/-- The variables of a mark in the order in which they are printed. -/
def occurrences (m : Mark) : List TyVar := m.ty.get?.toList.flatMap Ty.occurrences

/-- The text of a mark under the given names. -/
def textWith (f : TyVar → String) (m : Mark) : String :=
  match m.ty.get? with
  | some t => " : " ++ t.textWith f false
  | none => ""

/-- The document of a mark under the given names. -/
def docWith (f : TyVar → String) (m : Mark) : Doc :=
  match m.ty.get? with
  | some t => .ofString (" : " ++ t.textWith f false)
  | none => .empty

/-- A node is shown with its type. -/
theorem shows_doc (m : Mark) : Naming.Shows m.occurrences (fun f => m.docWith f) m.doc := by
  unfold doc occurrences docWith
  cases m.ty.get? with
  | some t =>
    refine ((t.shows_printAt false).map fun ty => Doc.ofString (" : " ++ ty)).congr ?_ fun _ => rfl
    simp
  | none => exact .pure _

end Mark

namespace Expr

/-- What stands before the parts of an expression. -/
def headWith (f : TyVar → String) : Expr → String
  | lit _ l => l.text
  | name _ x => "name " ++ x
  | lam _ p _ => "fn " ++ p.textWith f
  | app _ _ _ => "app"
  | letIn _ b _ _ => "let " ++ b.textWith f
  | cond _ _ _ _ => "if"
  | anno _ _ t => "the [" ++ t.text ++ "]"
  | tuple _ _ => "tuple"
  | invalid _ => "invalid"

/-- The document of what stands before the parts of an expression. -/
def headDocWith (f : TyVar → String) : Expr → Doc
  | lam _ p _ => .ofString "fn " ++ .ofString (p.textWith f)
  | letIn _ b _ _ => .ofString "let " ++ .ofString (b.textWith f)
  | e => .ofString (e.headWith f)

/-- The document of an expression under the given names. -/
def docWith (f : TyVar → String) : Expr → Doc :=
  fold fun e parts => listDoc (e.headDocWith f) parts (e.mark.docWith f)

/-- The text of an expression under the given names, without line breaks. -/
def lineWith (f : TyVar → String) : Expr → String :=
  fold fun e parts =>
    "(" ++ e.headWith f ++ String.join (parts.map (" " ++ ·)) ++ e.mark.textWith f ++ ")"

/-- The variables that an expression introduces a name with. -/
def binderOccurrences (e : Expr) : List TyVar := e.binder?.toList.flatMap Binder.occurrences

/-- The variables of an expression in the order in which they are printed. -/
def occurrences : Expr → List TyVar :=
  fold fun e parts => e.binderOccurrences ++ parts.flatten ++ e.mark.occurrences

/-- An expression is a list of what stands before the parts, the parts and its type. -/
theorem docWith_eq (f : TyVar → String) (e : Expr) :
    e.docWith f = listDoc (e.headDocWith f) (e.children.map (docWith f)) (e.mark.docWith f) :=
  fold_eq ..

/-- In one line, the parts stand behind each other, with blanks between them. -/
theorem lineWith_eq (f : TyVar → String) (e : Expr) :
    e.lineWith f = "(" ++ e.headWith f ++ String.join (e.children.map fun d => " " ++ d.lineWith f)
      ++ e.mark.textWith f ++ ")" := by
  rw [lineWith, fold_eq, List.map_map]
  rfl

/-- The variables are those of the binder, then those of the parts, then those of the type. -/
theorem occurrences_eq (e : Expr) :
    e.occurrences = e.binderOccurrences ++ e.children.flatMap occurrences ++ e.mark.occurrences :=
  (fold_eq ..).trans (by rw [List.flatMap_def]; rfl)

/-! ## Printing -/

/-- The parts of an expression are shown from left to right. -/
theorem shows_docAll {es : List Expr}
    (h : ∀ e ∈ es, Naming.Shows e.occurrences (fun f => e.docWith f) e.doc) :
    Naming.Shows (es.flatMap occurrences) (fun f => es.map (docWith f)) (docAll es) := by
  induction es with
  | nil => exact .pure []
  | cons e es ih =>
    obtain ⟨he, hes⟩ := List.forall_mem_cons.1 h
    rw [docAll]
    exact he.bind fun d => (ih hes).map (d :: ·)

/-- It is enough to print the binder, if there is one, then the parts and then the mark. -/
theorem shows_of_parts {e : Expr} {d : StateM Naming Doc}
    (h : Naming.Shows
      (e.binderOccurrences ++ (e.children.flatMap occurrences ++ e.mark.occurrences))
      (fun f => listDoc (e.headDocWith f) (e.children.map (docWith f)) (e.mark.docWith f)) d) :
    Naming.Shows e.occurrences (fun f => e.docWith f) d :=
  h.congr (by rw [occurrences_eq, List.append_assoc]) fun f => (docWith_eq f e).symm

/-- An expression is printed under the names that its variables have in the end. -/
theorem shows_doc (e : Expr) : Naming.Shows e.occurrences (fun f => e.docWith f) e.doc := by
  induction e using Expr.inductionOn with
  | lit m l => exact shows_of_parts (m.shows_doc.map _)
  | name m x => exact shows_of_parts (m.shows_doc.map _)
  | invalid m => exact shows_of_parts (m.shows_doc.map _)
  | lam m p b ih =>
    have hprints := p.shows_doc.bind fun p => ih.bind fun b =>
      m.shows_doc.map (listDoc (.ofString "fn " ++ p) [b])
    exact shows_of_parts (hprints.congr (by simp [binderOccurrences, binder?, children, mark])
      fun _ => rfl)
  | app m g a ihg iha =>
    have hprints := ihg.bind fun g => iha.bind fun a =>
      m.shows_doc.map (listDoc (.ofString "app") [g, a])
    exact shows_of_parts (hprints.congr (by simp [binderOccurrences, binder?, children, mark])
      fun _ => rfl)
  | letIn m b d e ihd ihe =>
    have hprints := b.shows_doc.bind fun b => ihd.bind fun d => ihe.bind fun e =>
      m.shows_doc.map (listDoc (.ofString "let " ++ b) [d, e])
    exact shows_of_parts (hprints.congr (by simp [binderOccurrences, binder?, children, mark])
      fun _ => rfl)
  | cond m c t e ihc iht ihe =>
    have hprints := ihc.bind fun c => iht.bind fun t => ihe.bind fun e =>
      m.shows_doc.map (listDoc (.ofString "if") [c, t, e])
    exact shows_of_parts (hprints.congr (by simp [binderOccurrences, binder?, children, mark])
      fun _ => rfl)
  | anno m e t ih =>
    have hprints := ih.bind fun e =>
      m.shows_doc.map (listDoc (.ofString ("the [" ++ t.text ++ "]")) [e])
    exact shows_of_parts (hprints.congr (by simp [binderOccurrences, binder?, children, mark])
      fun _ => rfl)
  | tuple m es ih =>
    exact shows_of_parts ((shows_docAll ih).bind fun es =>
      m.shows_doc.map (listDoc (.ofString "tuple") es))

end Expr

/-! ## Declarations -/

namespace Decl

/-- The variables of a declaration in the order in which they are printed. -/
def occurrences (d : Decl) : List TyVar := d.binder.occurrences ++ d.bound.occurrences

/-- The names that the variables of a declaration are printed under. -/
def naming (d : Decl) : Naming := Naming.empty.addAll d.occurrences

/-- The document of a declaration under the given names. -/
def docWith (f : TyVar → String) (d : Decl) : Doc :=
  .group (.ofString "(let " ++ .ofString (d.binder.textWith f)
    ++ .nest 2 (.line ++ d.bound.docWith f) ++ .ofString ")")

/-- The text of a declaration under the given names, without line breaks. -/
def lineWith (f : TyVar → String) (d : Decl) : String :=
  "(let " ++ d.binder.textWith f ++ " " ++ d.bound.lineWith f ++ ")"

/-- The text of a declaration without line breaks. -/
def line (d : Decl) : String := d.lineWith d.naming.label

/-- A declaration is printed under the names that its variables have in the end. -/
theorem doc_eq (d : Decl) : d.doc = d.docWith d.naming.label := by
  have hle : (Naming.empty.addAll d.binder.occurrences).addAll d.bound.occurrences ≤ d.naming := by
    rw [← Naming.addAll_append]
    exact Naming.le_refl _
  have hbinder := d.binder.shows_doc Naming.empty d.naming
    (Naming.le_trans (Naming.le_addAll _ _) hle)
  have hbound := d.bound.shows_doc _ _ hle
  unfold doc docWith
  simp only [hbinder, hbound]

end Decl

/-- The text of a program without line breaks. -/
def Program.line (p : Program) : String := " ".intercalate (p.map Decl.line)

end LetPoly
