import LetPoly.Proofs.Trees
import LetPoly.Typing.Env
import LetPoly.Typing.Assemble

/-!
# Typing derivations

The rules of Hindley and Milner, stated on trees with filled slots.  A tree with its types
is its own derivation: the type of every expression is the one in its slot, and the scheme
of every binder is the one in its slot.  `Typed` says that the slots obey the rules.

The rules leave open which variables the scheme of a definition quantifies over.  A *closing
rule* decides it.  `Env.Closes` allows any variables that are not free in the
environment, which gives the most derivations.  `Env.Generalizes` asks for all such variables of
the type, in the order in which they occur first.
-/

namespace LetPoly

/-! ## Instances, free variables and annotations -/

/-- A type that a scheme has for some choice of types for its quantified variables. -/
def Scheme.Instance (σ : Scheme) (t : Ty) : Prop :=
  ∃ ρ : TyVar → Ty, (∀ v, v ∉ σ.vars → ρ v = .var v) ∧ t = σ.ty.replace ρ

/-- A variable is free in some scheme of an environment. -/
def Env.Free (Γ : Env) (v : TyVar) : Prop := ∃ x σ, Γ.lookup? x = some σ ∧ v ∈ σ.freeVars

/-- A type that an annotation becomes when the parts it leaves open are filled. -/
inductive TypeExpr.Admits : TypeExpr → Ty → Prop where
  | prim {s : Span} {c : Con} : Admits (.prim s c) (.con c [])
  | fn {s : Span} {a b : TypeExpr} {t u : Ty} (ht : Admits a t) (hu : Admits b u) :
      Admits (.fn s a b) (.fn t u)
  | tuple {s : Span} {as : List TypeExpr} {ts : List Ty} (hlen : as.length = ts.length)
      (hts : ∀ p ∈ as.zip ts, Admits p.1 p.2) : Admits (.tuple s as) (.tuple ts)
  | wildcard {s : Span} (t : Ty) : Admits (.wildcard s) t
  | invalid {s : Span} (t : Ty) : Admits (.invalid s) t

/-! ## Closing rules -/

/-- Which schemes a definition of a type may get in an environment. -/
abbrev Closing := Env → Ty → Scheme → Prop

/-- The scheme quantifies over some variables that are not free in the environment. -/
structure Env.Closes (Γ : Env) (t : Ty) (σ : Scheme) : Prop where
  /-- The type of the scheme is the type of the definition. -/
  ty : σ.ty = t
  /-- Quantified variables are not free in the environment. -/
  vars : ∀ v ∈ σ.vars, ¬ Γ.Free v

/-- The scheme quantifies over all variables of the type that are not free in the environment, in
the order in which they occur first. -/
structure Env.Generalizes (Γ : Env) (t : Ty) (σ : Scheme) : Prop where
  /-- The type of the scheme is the type of the definition. -/
  ty : σ.ty = t
  /-- Quantified variables come in the order of the type. -/
  sublist : σ.vars.Sublist t.vars
  /-- The quantified variables are the variables of the type that are not free. -/
  vars : ∀ v, v ∈ σ.vars ↔ v ∈ t.occurrences ∧ ¬ Γ.Free v

/-- To quantify over all variables that are not free in the environment is one of the ways to close.
-/
theorem Env.Generalizes.closes {Γ : Env} {t : Ty} {σ : Scheme} (h : Γ.Generalizes t σ) :
    Γ.Closes t σ :=
  ⟨h.ty, fun v hv => ((h.vars v).1 hv).2⟩

/-! ## Derivations -/

/-- A tree whose slots are a derivation that the expression has a type in an environment. -/
inductive Typed (C : Closing) : Env → Expr → Ty → Prop where
  | lit {Γ : Env} {m : Mark} {l : Literal} (hm : m.ty = .filled l.ty) : Typed C Γ (.lit m l) l.ty
  | name {Γ : Env} {m : Mark} {x : String} {σ : Scheme} {t : Ty} (hm : m.ty = .filled t)
      (hx : Γ.lookup? x = some σ) (ht : σ.Instance t) : Typed C Γ (.name m x) t
  | lam {Γ : Env} {m : Mark} {p : Binder} {b : Expr} {t u : Ty} (hm : m.ty = .filled (.fn t u))
      (hp : p.scheme = .filled (.mono t)) (ha : ∀ a ∈ p.anno, a.Admits t)
      (hb : Typed C (Γ.extend p.name (.mono t)) b u) : Typed C Γ (.lam m p b) (.fn t u)
  | app {Γ : Env} {m : Mark} {f a : Expr} {t u : Ty} (hm : m.ty = .filled u)
      (hf : Typed C Γ f (.fn t u)) (ha : Typed C Γ a t) : Typed C Γ (.app m f a) u
  | letIn {Γ : Env} {m : Mark} {b : Binder} {d e : Expr} {t u : Ty} {σ : Scheme}
      (hm : m.ty = .filled u) (hd : Typed C Γ d t) (ha : ∀ a ∈ b.anno, a.Admits t)
      (hb : b.scheme = .filled σ) (hσ : C Γ t σ) (he : Typed C (Γ.extend b.name σ) e u) :
      Typed C Γ (.letIn m b d e) u
  | cond {Γ : Env} {m : Mark} {c t e : Expr} {u : Ty} (hm : m.ty = .filled u)
      (hc : Typed C Γ c .bool) (ht : Typed C Γ t u) (he : Typed C Γ e u) :
      Typed C Γ (.cond m c t e) u
  | anno {Γ : Env} {m : Mark} {e : Expr} {a : TypeExpr} {t : Ty} (hm : m.ty = .filled t)
      (ha : a.Admits t) (he : Typed C Γ e t) : Typed C Γ (.anno m e a) t
  | tuple {Γ : Env} {m : Mark} {es : List Expr} {ts : List Ty} (hm : m.ty = .filled (.tuple ts))
      (hlen : es.length = ts.length) (hes : ∀ p ∈ es.zip ts, Typed C Γ p.1 p.2) :
      Typed C Γ (.tuple m es) (.tuple ts)
  | invalid {Γ : Env} {m : Mark} {t : Ty} (hm : m.ty = .filled t) : Typed C Γ (.invalid m) t

/-- A program whose slots are a derivation, each declaration in the scope of those before it. -/
inductive Program.Typed (C : Closing) : Env → Program → Prop where
  | nil {Γ : Env} : Program.Typed C Γ []
  | cons {Γ : Env} {d : Decl} {ds : Program} {t : Ty} {σ : Scheme}
      (hd : LetPoly.Typed C Γ d.bound t) (ha : ∀ a ∈ d.binder.anno, a.Admits t)
      (hb : d.binder.scheme = .filled σ) (hσ : C Γ t σ)
      (hds : Program.Typed C (Γ.extend d.binder.name σ) ds) : Program.Typed C Γ (d :: ds)

/-- A derivation with a closing rule is one with any laxer rule. -/
theorem Typed.mono {C C' : Closing} (h : ∀ Γ t σ, C Γ t σ → C' Γ t σ) {Γ : Env} {e : Expr} {t : Ty}
    (he : Typed C Γ e t) : Typed C' Γ e t := by
  induction he with
  | lit hm => exact .lit hm
  | name hm hx ht => exact .name hm hx ht
  | lam hm hp ha _ ih => exact .lam hm hp ha ih
  | app hm _ _ ihf iha => exact .app hm ihf iha
  | letIn hm _ ha hb hσ _ ihd ihe => exact .letIn hm ihd ha hb (h _ _ _ hσ) ihe
  | cond hm _ _ _ ihc iht ihe => exact .cond hm ihc iht ihe
  | anno hm ha _ ih => exact .anno hm ha ih
  | tuple hm hlen _ ih => exact .tuple hm hlen ih
  | invalid hm => exact .invalid hm

/-- A derivation by one closing rule is a derivation by a more liberal one. -/
theorem Program.Typed.mono {C C' : Closing} (h : ∀ Γ t σ, C Γ t σ → C' Γ t σ) {Γ : Env}
    {p : Program} (hp : p.Typed C Γ) : p.Typed C' Γ := by
  induction hp with
  | nil => exact .nil
  | cons hd ha hb hσ _ ih => exact .cons (hd.mono h) ha hb (h _ _ _ hσ) ih

/-! ## Resolved trees and environments -/

/-- Resolves every slot of an expression. -/
def Expr.resolve (e : Expr) (s : Subst) : Expr := e.retype s.apply s.applyScheme

/-- Resolves every scheme of an environment. -/
def Env.resolve (Γ : Env) (s : Subst) : Env := ⟨Γ.schemes.map fun _ σ => s.applyScheme σ⟩

theorem Env.lookup?_resolve (Γ : Env) (s : Subst) (x : String) :
    (Γ.resolve s).lookup? x = (Γ.lookup? x).map s.applyScheme := by
  simp [lookup?, resolve]

theorem Env.ext {Γ Δ : Env} (h : ∀ x, Γ.lookup? x = Δ.lookup? x) : Γ = Δ := by
  cases Γ
  cases Δ
  exact congrArg mk (Std.ExtTreeMap.ext_getElem? fun {x} => h x)

/-- Extending and resolving an environment can be done in either order. -/
theorem Env.resolve_extend (Γ : Env) (s : Subst) (x : String) (σ : Scheme) :
    (Γ.extend x σ).resolve s = (Γ.resolve s).extend x (s.applyScheme σ) := by
  refine ext fun y => ?_
  rw [lookup?_resolve, lookup?_extend, lookup?_extend, lookup?_resolve]
  split <;> rfl

/-- The free variables of a resolved environment are those under the substitution. -/
theorem Env.free_resolve {Γ : Env} {s : Subst} {v : TyVar} :
    (Γ.resolve s).Free v ↔ v ∈ Γ.freeVars s := by
  simp only [Free, lookup?_resolve, Option.map_eq_some_iff, mem_freeVars]
  constructor
  · rintro ⟨x, _, ⟨σ, hx, rfl⟩, hv⟩
    exact ⟨x, σ, hx, hv⟩
  · rintro ⟨x, σ, hx, hv⟩
    exact ⟨x, _, ⟨σ, hx, rfl⟩, hv⟩

@[simp] theorem Subst.applyScheme_mono (s : Subst) (t : Ty) :
    s.applyScheme (.mono t) = .mono (s.apply t) :=
  rfl

end LetPoly
