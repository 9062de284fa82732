import LetPoly.Proofs.Acts
import LetPoly.Proofs.Grammar
import LetPoly.Proofs.Trees
import LetPoly.Tree.Printer

/-!
# Moving spans

A tree, a diagnostic or an error is moved by a function on spans.  What a tree means and how it is
printed does not depend on where its parts stand, so it stays the same.
-/

namespace LetPoly

variable {g : Span → Span}

/-! ## What has spans -/

/-- A lexeme in another place. -/
def Lexeme.mapSpans (g : Span → Span) (l : Lexeme) : Lexeme := { l with span := g l.span }

/-- A problem with the spans it mentions moved. -/
def Problem.mapSpans (g : Span → Span) : Problem → Problem
  | annotationMismatch anno expected actual => annotationMismatch (g anno) expected actual
  | p => p

/-- A diagnostic in another place. -/
def Diagnostic.mapSpans (g : Span → Span) (d : Diagnostic) : Diagnostic :=
  ⟨g d.span, d.problem.mapSpans g⟩

/-- A type error in another place. -/
def TypeError.mapSpans (g : Span → Span) : TypeError → TypeError
  | unbound s x => unbound (g s) x
  | mismatch s t u => mismatch (g s) t u
  | occurs s v t => occurs (g s) v t
  | branches s t u => branches (g s) t u
  | ascription s anno t u => ascription (g s) (g anno) t u
  | ambiguous s t => ambiguous (g s) t

/-- The diagnostic of a moved error is the moved diagnostic. -/
theorem TypeError.diagnostic_mapSpans (e : TypeError) :
    (e.mapSpans g).diagnostic = e.diagnostic.mapSpans g := by
  cases e <;> rfl

namespace TypeExpr

mutual

/-- A written type in another place. -/
def mapSpans (g : Span → Span) : TypeExpr → TypeExpr
  | prim s c => prim (g s) c
  | fn s t u => fn (g s) (mapSpans g t) (mapSpans g u)
  | tuple s ts => tuple (g s) (mapSpansAll g ts)
  | wildcard s => wildcard (g s)
  | invalid s => invalid (g s)

/-- The written types of a list in other places. -/
def mapSpansAll (g : Span → Span) : List TypeExpr → List TypeExpr
  | [] => []
  | t :: ts => mapSpans g t :: mapSpansAll g ts

end

@[simp] theorem mapSpansAll_eq_map (ts : List TypeExpr) :
    mapSpansAll g ts = ts.map (mapSpans g) := by
  induction ts with
  | nil => rfl
  | cons t ts ih => simp [mapSpansAll, ih]

@[simp] theorem span_mapSpans (t : TypeExpr) : (t.mapSpans g).span = g t.span := by
  cases t <;> simp [mapSpans, span]

/-- A type without places is the type with all spans moved to one. -/
theorem unplaced_eq_mapSpans (t : TypeExpr) : t.unplaced = t.mapSpans fun _ => .nowhere := by
  induction t using TypeExpr.inductionOn with
  | prim | wildcard | invalid => simp [unplaced, mapSpans]
  | fn s t u iht ihu => simp [unplaced, mapSpans, iht, ihu]
  | tuple s ts ih => simpa [unplaced, mapSpans] using ih

end TypeExpr

/-- A mark in another place. -/
def Mark.mapSpans (g : Span → Span) (m : Mark) : Mark := { m with span := g m.span }

/-- A binder in another place. -/
def Binder.mapSpans (g : Span → Span) (b : Binder) : Binder :=
  { b with span := g b.span, anno := b.anno.map (TypeExpr.mapSpans g) }

namespace Expr

mutual

/-- An expression in another place. -/
def mapSpans (g : Span → Span) : Expr → Expr
  | lit m l => lit (m.mapSpans g) l
  | name m x => name (m.mapSpans g) x
  | lam m p b => lam (m.mapSpans g) (p.mapSpans g) (mapSpans g b)
  | app m f a => app (m.mapSpans g) (mapSpans g f) (mapSpans g a)
  | letIn m b d e => letIn (m.mapSpans g) (b.mapSpans g) (mapSpans g d) (mapSpans g e)
  | cond m c t e => cond (m.mapSpans g) (mapSpans g c) (mapSpans g t) (mapSpans g e)
  | anno m e t => anno (m.mapSpans g) (mapSpans g e) (t.mapSpans g)
  | tuple m es => tuple (m.mapSpans g) (mapSpansAll g es)
  | invalid m => invalid (m.mapSpans g)

/-- The expressions of a list in other places. -/
def mapSpansAll (g : Span → Span) : List Expr → List Expr
  | [] => []
  | e :: es => mapSpans g e :: mapSpansAll g es

end

@[simp] theorem mapSpansAll_eq_map (es : List Expr) :
    mapSpansAll g es = es.map (mapSpans g) := by
  induction es with
  | nil => rfl
  | cons e es ih => simp [mapSpansAll, ih]

@[simp] theorem span_mapSpans (e : Expr) : (e.mapSpans g).span = g e.span := by
  cases e <;> simp [mapSpans, span, mark, Mark.mapSpans]

end Expr

/-- A declaration in another place. -/
def Decl.mapSpans (g : Span → Span) (d : Decl) : Decl :=
  ⟨g d.span, d.binder.mapSpans g, d.bound.mapSpans g⟩

/-- A program in another place. -/
def Program.mapSpans (g : Span → Span) (p : Program) : Program := p.map (Decl.mapSpans g)

/-! ## Types and texts -/

namespace TypeExpr

/-- The type that is meant does not depend on places. -/
@[simp] theorem lower_mapSpans (t : TypeExpr) : (t.mapSpans g).lower = t.lower := by
  induction t using TypeExpr.inductionOn with
  | prim | wildcard | invalid => simp [mapSpans, lower]
  | fn s t u iht ihu => simp [mapSpans, lower, iht, ihu]
  | tuple s ts ih =>
    have hts : lowerAll (ts.map (mapSpans g)) = lowerAll ts := by
      induction ts with
      | nil => rfl
      | cons t ts ihts =>
        obtain ⟨ht, hts⟩ := List.forall_mem_cons.1 ih
        simp [lowerAll, ht, ihts hts]
    simp [mapSpans, lower, hts]

@[simp] theorem textAll_eq_map (ts : List TypeExpr) : textAll ts = ts.map text := by
  induction ts with
  | nil => rfl
  | cons t ts ih => simp [textAll, ih]

/-- The text does not depend on places. -/
@[simp] theorem text_mapSpans (t : TypeExpr) : (t.mapSpans g).text = t.text := by
  induction t using TypeExpr.inductionOn with
  | prim | wildcard | invalid => simp [mapSpans, text]
  | fn s t u iht ihu =>
    have hfn : (t.mapSpans g).isFn = t.isFn := by cases t <;> simp [mapSpans, isFn]
    simp [mapSpans, text, hfn, iht, ihu]
  | tuple s ts ih =>
    have hts : ts.map (text ∘ mapSpans g) = ts.map text := List.map_congr_left ih
    simp [mapSpans, text, hts]

end TypeExpr

@[simp] theorem Mark.doc_mapSpans (m : Mark) : (m.mapSpans g).doc = m.doc := rfl

@[simp] theorem Binder.doc_mapSpans (b : Binder) : (b.mapSpans g).doc = b.doc := by
  unfold Binder.doc Binder.mapSpans
  cases b.scheme.get? <;> cases b.anno <;> simp

@[simp] theorem Expr.doc_mapSpans (e : Expr) : (e.mapSpans g).doc = e.doc := by
  induction e using Expr.inductionOn with
  | lit | name | invalid => simp [mapSpans, doc]
  | lam m p b ih => simp [mapSpans, doc, ih]
  | app m f a ihf iha => simp [mapSpans, doc, ihf, iha]
  | letIn m b d e ihd ihe => simp [mapSpans, doc, ihd, ihe]
  | cond m c t e ihc iht ihe => simp [mapSpans, doc, ihc, iht, ihe]
  | anno m e a ih => simp [mapSpans, doc, ih]
  | tuple m es ih =>
    have hes : docAll (es.map (mapSpans g)) = docAll es := by
      induction es with
      | nil => rfl
      | cons e es ihes =>
        obtain ⟨he, hes⟩ := List.forall_mem_cons.1 ih
        simp [docAll, he, ihes hes]
    simp [mapSpans, doc, hes]

/-- A program is printed without its places. -/
theorem Program.text_mapSpans (p : Program) (width : Nat) :
    Program.text (p.mapSpans g) width = p.text width := by
  have hdoc : Decl.doc ∘ Decl.mapSpans g = Decl.doc := by
    funext d
    simp [Decl.doc, Decl.mapSpans]
  simp [Program.text, Program.doc, Program.mapSpans, hdoc]

end LetPoly
