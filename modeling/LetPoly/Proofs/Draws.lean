import Mathlib.Logic.Function.Basic
import LetPoly.Proofs.Confluence
import LetPoly.Proofs.Independence

/-!
# How many variables a run draws

A walk draws a variable for each open part of an annotation, for each parameter without one, for
each call, and for each quantifier of a name that it comes to.  All of this can be read off the tree
that it leaves behind, where the schemes of binders say how many quantifiers a name has
(`Expr.draws`).

Bottom-up nothing is saved, and the walk draws just that number.  Top-down a parameter may take its
type from the demand, and a call from the type of its function, so the number is a bound.  Since
the trees of two walks are the same up to renaming, their schemes have as many quantifiers, and the
numbers of both trees are the same.
-/

namespace LetPoly

/-! ## What a tree takes -/

namespace TypeExpr

mutual

/-- The number of parts of a written type that are left open. -/
def holes : TypeExpr → Nat
  | prim _ _ => 0
  | fn _ t u => holes t + holes u
  | tuple _ ts => holesAll ts
  | wildcard _ => 1
  | invalid _ => 1

/-- The number of open parts in a list of written types. -/
def holesAll : List TypeExpr → Nat
  | [] => 0
  | t :: ts => holes t + holesAll ts

end

end TypeExpr

/-- The number of open parts of the annotation of a binder, or the given number if it has none. -/
def Binder.holes (b : Binder) (default : Nat) : Nat := (b.anno.map TypeExpr.holes).getD default

/-- The number of quantifiers of a binder. -/
def Binder.arity (b : Binder) : Nat := b.quantified.length

/-- The number of quantifiers of each name in scope. -/
abbrev Arities := String → Nat

namespace Expr

mutual

/-- The number of variables that a walk draws that saves none, by the tree it leaves behind. -/
def draws (ρ : Arities) : Expr → Nat
  | lit _ _ => 0
  | name _ x => ρ x
  | lam _ p b => p.holes 1 + draws (Function.update ρ p.name 0) b
  | app _ f a => draws ρ f + draws ρ a + 1
  | letIn _ b d e => b.holes 0 + draws ρ d + draws (Function.update ρ b.name b.arity) e
  | cond _ c t e => draws ρ c + draws ρ t + draws ρ e
  | anno _ e a => a.holes + draws ρ e
  | tuple _ es => drawsAll ρ es
  | invalid _ => 1

/-- The same for the expressions of a list. -/
def drawsAll (ρ : Arities) : List Expr → Nat
  | [] => 0
  | e :: es => draws ρ e + drawsAll ρ es

end

end Expr

/-- The number of variables that a walk over a program draws that saves none. -/
def Program.draws (ρ : Arities) : Program → Nat
  | [] => 0
  | d :: ds => d.binder.holes 0 + d.bound.draws ρ +
      draws (Function.update ρ d.binder.name d.binder.arity) ds

section

variable {f : Ty → Ty} {g : Scheme → Scheme}

theorem Binder.arity_update (hg : ∀ σ, (g σ).vars.length = σ.vars.length) (b : Binder) :
    (b.update (·.resolve g)).arity = b.arity := by
  cases hb : b.scheme with
  | mk σ? => cases σ? <;> simp [arity, quantified, update, Slot.resolve, hb, hg]

/-- What a tree takes depends on its schemes only by the number of their quantifiers. -/
theorem Expr.draws_retype (hg : ∀ σ, (g σ).vars.length = σ.vars.length) (ρ : Arities) (e : Expr) :
    (e.retype f g).draws ρ = e.draws ρ := by
  induction e using Expr.inductionOn generalizing ρ with
  | lit | name | invalid => rfl
  | lam m p b ih => exact congrArg (p.holes 1 + ·) (ih _)
  | app m e a ihe iha => exact congrArg (· + 1) (congrArg₂ (· + ·) (ihe ρ) (iha ρ))
  | letIn m b d e ihd ihe =>
    refine congrArg₂ (· + ·) (congrArg (b.holes 0 + ·) (ihd ρ)) ?_
    rw [← ihe, ← b.arity_update hg]
    rfl
  | cond m c t e ihc iht ihe =>
    exact congrArg₂ (· + ·) (congrArg₂ (· + ·) (ihc ρ) (iht ρ)) (ihe ρ)
  | anno m e a ih => exact congrArg (a.holes + ·) (ih ρ)
  | tuple m es ih =>
    rw [retype_tuple, draws, draws]
    induction es with
    | nil => rfl
    | cons e es ihes =>
      rw [List.map_cons, drawsAll, drawsAll, ih e (List.mem_cons_self ..),
        ihes fun d hd => ih d (List.mem_cons_of_mem e hd)]

/-- What a program draws depends on the numbers of quantified variables, not on its types. -/
theorem Program.draws_retype (hg : ∀ σ, (g σ).vars.length = σ.vars.length) (ρ : Arities)
    (p : Program) : (p.retype f g).draws ρ = p.draws ρ := by
  induction p generalizing ρ with
  | nil => rfl
  | cons d ds ih =>
    refine congrArg₂ (· + ·) (congrArg (d.binder.holes 0 + ·) (d.bound.draws_retype hg ρ)) ?_
    rw [← ih, ← d.binder.arity_update hg]
    rfl

end

/-! ## Sessions -/

/-- At most the given number of variables is drawn between two sessions, and bottom-up just that
number. -/
structure Session.Spends (mode : Mode) (n : Nat) (s s' : Session) : Prop where
  /-- The bound. -/
  le : s'.drawn ≤ s.drawn + n
  /-- Bottom-up nothing is saved. -/
  eq : mode = .bottomUp → s'.drawn = s.drawn + n

namespace Session.Spends

variable {mode : Mode} {n k : Nat} {s s₁ s₂ : Session}

theorem refl (s : Session) : s.Spends mode 0 s := ⟨Nat.le_refl _, fun _ => rfl⟩

/-- A number of variables is drawn in every mode. -/
theorem of_eq (h : s₁.drawn = s.drawn + n) : s.Spends mode n s₁ := ⟨h.le, fun _ => h⟩

/-- What is spent on two stretches adds up. -/
theorem trans (h : s.Spends mode n s₁) (h' : s₁.Spends mode k s₂) :
    s.Spends mode (n + k) s₂ where
  le := by
    rw [← Nat.add_assoc]
    exact h'.le.trans (Nat.add_le_add_right h.le k)
  eq hmode := by rw [h'.eq hmode, h.eq hmode, Nat.add_assoc]

/-- Top-down something may be saved. -/
theorem save (h : s.Spends mode n s₁) (hmode : mode ≠ .bottomUp) (k : Nat) :
    s.Spends mode (n + k) s₁ :=
  ⟨h.le.trans (Nat.add_le_add_left (Nat.le_add_right n k) _), fun heq => absurd heq hmode⟩

end Session.Spends

/-! ## Acts -/

/-- An act that does not stop draws a number of variables. -/
def Act.Spends {α : Type} (mode : Mode) (n : Nat) (a : Act α) : Prop :=
  ∀ s, a.Meets s (fun _ s' => s.Spends mode n s') fun _ _ => True

namespace Act

variable {α β : Type} {mode : Mode} {a : Act α} {n k : Nat}

theorem spends_pure {x : α} : Act.Spends mode 0 (pure x : Act α) := fun s => .refl s

theorem Spends.bind {f : α → Act β} (h : a.Spends mode n) (hf : ∀ x, (f x).Spends mode k) :
    Act.Spends mode (n + k) (a >>= f) :=
  fun s => (h s).bind fun x s₁ hn => (hf x s₁).mono (fun _ _ hk => hn.trans hk) fun _ _ h => h

theorem Spends.map {f : α → β} (h : a.Spends mode n) : Act.Spends mode n (f <$> a) := by
  intro s
  exact Act.Meets.map (h s)

theorem spends_draw {f : StateM Supply α} (h : ∀ s, (f s).2 = s + n) : (draw f).Spends mode n :=
  fun s => .of_eq (h s.drawn)

theorem spends_fresh : Act.fresh.Spends mode 1 := (spends_draw fun _ => rfl).map

/-- Unification draws no variables. -/
theorem spends_unify {because : Because} {span : Span} {t u : Ty} :
    (Act.unify because span t u).Spends mode 0 := by
  intro s
  unfold Act.Meets Act.unify
  rcases LetPoly.unify t u s.subst with ⟨f | ⟨⟩, x⟩
  · trivial
  · exact .of_eq rfl

end Act

/-- Lowering an annotation draws a variable for each of its open parts. -/
theorem TypeExpr.lower_supply (a : TypeExpr) (n : Supply) : (a.lower n).2 = n + a.holes := by
  induction a using TypeExpr.inductionOn generalizing n with
  | prim | wildcard | invalid => rfl
  | fn s t u iht ihu =>
    rw [holes, ← Nat.add_assoc, ← iht, ← ihu]
    rfl
  | tuple s ts ih =>
    have hall : ∀ ts : List TypeExpr, (∀ t ∈ ts, ∀ n, (t.lower n).2 = n + t.holes) →
        ∀ n, (lowerAll ts n).2 = n + holesAll ts := by
      intro ts
      induction ts with
      | nil => exact fun _ _ => rfl
      | cons t ts ihts =>
        intro h n
        rw [holesAll, ← Nat.add_assoc, ← h t (List.mem_cons_self ..),
          ← ihts fun u hu => h u (List.mem_cons_of_mem t hu)]
        rfl
    exact hall ts ih n

/-- An instance draws a variable for each quantifier, unless a contract is broken. -/
theorem Scheme.refresh_supply (vs : List TyVar) {r r' : Subst} {n n' : Supply}
    (h : refresh vs r n = (.ok r', n')) : n' = n + vs.length := by
  induction vs generalizing r n with
  | nil =>
    cases h
    rfl
  | cons v vs ih =>
    change ExceptT.bindCont (refresh vs) (r.bind v (.var n)) (n + 1) = _ at h
    cases hbind : r.bind v (.var n) with
    | error d =>
      rw [hbind] at h
      cases h
    | ok r₁ =>
      rw [hbind] at h
      rw [ih h, List.length_cons, Nat.add_assoc, Nat.add_comm 1]

/-- An instance draws a variable for each quantified one. -/
theorem Act.spends_instantiate {mode : Mode} (σ : Scheme) :
    (Act.instantiate σ).Spends mode σ.vars.length := by
  intro s
  unfold Act.Meets Act.instantiate Scheme.instantiate Scheme.isMono
  cases hvars : σ.vars with
  | nil => exact .refl s
  | cons v vs =>
    simp only [List.isEmpty_cons, Bool.false_eq_true, if_false, bind, ExceptT.bind, ExceptT.mk,
      StateT.bind, ExceptT.bindCont]
    cases hrun : Scheme.refresh (v :: vs) .empty s.drawn with
    | mk r n =>
      cases r with
      | error d => trivial
      | ok r => exact .of_eq (Scheme.refresh_supply (v :: vs) hrun)

/-! ## Walks -/

/-- A walk that does not stop draws as many variables as its tree takes, `base` of which were drawn
before it. -/
def Walk.Spends {τ α : Type} (mode : Mode) (base : Nat) (cost : τ → Nat) (w : Walk τ α) : Prop :=
  ∀ s₀ s : Session, s₀.Spends mode base s →
    w.Meets s (fun t _ s' => s₀.Spends mode (cost t) s') fun _ _ _ => True

namespace Walk

variable {τ υ α β : Type} {mode : Mode} {base n : Nat} {cost : τ → Nat} {total : υ → Nat}
  {w : Walk τ α}

theorem spends_done {t : τ} {a : α} (h : cost t = base) : (done t a).Spends mode base cost := by
  intro s₀ s hs
  subst h
  exact hs

theorem spends_annotate {cost : Expr → Nat} {expr : Mark → Expr} {m : Mark} {t : Ty}
    (h : ∀ m, cost (expr m) = base) : (annotate expr m t).Spends mode base cost := by
  intro s₀ s hs
  unfold Meets annotate Slot.fill
  cases m.ty.isFilled with
  | true => trivial
  | false =>
    show s₀.Spends mode (cost (expr _)) s
    rw [h]
    exact hs

/-- A walk and the next one spend what the tree in the end takes. -/
theorem Spends.andThen {stopped : τ → υ} {next : τ → α → Walk υ β} (h : w.Spends mode base cost)
    (hnext : ∀ t a, (next t a).Spends mode (cost t) total) :
    (w.andThen stopped next).Spends mode base total := fun s₀ s hs =>
  (h s₀ s hs).andThen (fun t a s₁ hs₁ => hnext t a s₀ s₁ hs₁) fun _ _ _ _ => trivial

/-- What an act spends is added to what a walk spends. -/
theorem spends_act {a : Act α} {stopped : υ} {next : α → Walk υ β} (h : a.Spends mode n)
    (hnext : ∀ x, (next x).Spends mode (base + n) total) :
    (Walk.act a stopped next).Spends mode base total := fun s₀ s hs =>
  .act (h s) (fun x s₁ hn => hnext x s₀ s₁ (hs.trans hn)) fun _ _ _ => trivial

theorem spends_fillBinder {b : Binder} {σ : Scheme} {stopped : Binder → υ}
    {next : Binder → Walk υ β}
    (h : (next { b with scheme := .filled σ }).Spends mode base total) :
    (fillBinder b σ stopped next).Spends mode base total := by
  intro s₀ s hs
  unfold fillBinder Slot.fill
  cases b.scheme.isFilled with
  | true => trivial
  | false => exact h s₀ s hs

/-- A walk that was given more than it takes, which happens top-down only. -/
theorem Spends.save (h : w.Spends mode (base + n) cost) (hmode : mode ≠ .bottomUp) :
    w.Spends mode base cost := fun s₀ s hs => h s₀ s (hs.save hmode n)

end Walk

/-! ## Rules -/

/-- The arities are those of the schemes of an environment. -/
def Env.HasArities (Γ : Env) (ρ : Arities) : Prop :=
  ∀ x σ, Γ.lookup? x = some σ → σ.vars.length = ρ x

/-- A bound name has the number of variables of its scheme. -/
theorem Env.HasArities.extend {Γ : Env} {ρ : Arities} (h : Γ.HasArities ρ) (x : String)
    (σ : Scheme) : (Γ.extend x σ).HasArities (Function.update ρ x σ.vars.length) := by
  intro y τ hy
  obtain ⟨rfl, rfl⟩ | ⟨hx, hy⟩ := Env.lookup?_extend_eq_some.1 hy
  · rw [Function.update_self]
  · rw [Function.update_of_ne (Ne.symm hx)]
    exact h y τ hy

/-- A walk of an expression draws as many variables as the tree takes that it leaves behind. -/
def ExprWalk.Spends (mode : Mode) (w : ExprWalk) : Prop :=
  ∀ {Γ ρ} goal base, Env.HasArities Γ ρ →
    (w Γ goal).Spends mode base fun e => base + e.draws ρ

/-- Settling a goal draws nothing. -/
theorem Goal.spends_settle {mode : Mode} {base : Nat} {cost : Expr → Nat} (goal : Goal)
    (span : Span) {w : Walk Expr Ty} (h : w.Spends mode base cost) :
    (goal.settle span w).Spends mode base cost := by
  cases goal with
  | none => exact h
  | some d => exact h.andThen fun _ _ => Walk.spends_act Act.spends_unify fun _ =>
      Walk.spends_done rfl

/-- Bottom-up no demand is pushed. -/
theorem Mode.ne_bottomUp_of_pushed? {mode : Mode} {goal : Goal} {s : Session} {d : Demand}
    (h : mode.pushed? goal s = some d) : mode ≠ .bottomUp := by
  rintro rfl
  cases goal <;> cases h

namespace Infer

variable {mode : Mode} {base : Nat} {m : Mark} {p : Binder} {b d e a y n : Expr}
  {body bound callee arg test yes no : ExprWalk} {Γ : Env} {ρ : Arities} {demand : Demand}

/-- A name takes as many variables as its scheme quantifies over. -/
theorem spends_name {x : String} (hΓ : Γ.HasArities ρ) :
    (name m x Γ).Spends mode base fun e => base + e.draws ρ := by
  unfold name
  cases hx : Γ.lookup? x with
  | none => exact fun _ _ _ => trivial
  | some σ =>
    refine Walk.spends_act (Act.spends_instantiate σ) fun t => Walk.spends_annotate fun m => ?_
    rw [hΓ x σ hx, Expr.draws]

/-- A parameter takes a variable for each hole of its annotation, or one. -/
theorem spends_paramTy (p : Binder) : (paramTy p).Spends mode (p.holes 1) := by
  unfold paramTy Binder.holes
  cases p.anno with
  | none => exact Act.spends_fresh
  | some a => exact Act.spends_draw a.lower_supply

/-- A parameter without an annotation takes its type from the demand. -/
theorem spends_paramTyAgainst (hmode : mode ≠ .bottomUp) (p : Binder) (t : Ty) :
    (paramTyAgainst p t).Spends mode (p.holes 1) := by
  unfold paramTyAgainst Binder.holes
  cases p.anno with
  | none => exact fun s => (Session.Spends.refl s).save hmode 1
  | some a =>
    exact (Act.spends_draw a.lower_supply).bind fun _ => Act.spends_unify.bind fun _ =>
      Act.spends_pure

theorem spends_annotated (a : TypeExpr) : (annotated a).Spends mode a.holes :=
  (Act.spends_draw a.lower_supply).bind fun _ => Act.spends_pure

/-- A definition takes a variable for each hole of its annotation. -/
theorem spends_boundGoal (b : Binder) : (boundGoal b).Spends mode (b.holes 0) := by
  unfold boundGoal Binder.holes
  cases b.anno with
  | none => exact Act.spends_pure
  | some a => exact (spends_annotated a).map

/-- The definition of a binder is walked in the scope outside, and the binder gets its scheme. -/
theorem meets_bind_spends (hbound : bound.Spends mode) (hΓ : Γ.HasArities ρ) {s₀ s : Session}
    (hs : s₀.Spends mode base s) :
    (bind p d bound Γ).Meets s
      (fun t σ s' => t.1 = { p with scheme := .filled σ } ∧
        s₀.Spends mode (base + p.holes 0 + t.2.draws ρ) s')
      fun _ _ _ => True := by
  have hgoal : (boundGoal p).Spends mode (p.holes 0) := spends_boundGoal p
  refine .act (hgoal s) (fun goal s₁ hgoal => ?_) fun _ _ _ => trivial
  refine (hbound goal _ hΓ s₀ s₁ (hs.trans hgoal)).andThen (fun e t s₂ hs₂ => ?_)
    fun _ _ _ _ => trivial
  unfold Walk.Meets Walk.log Walk.fillBinder Slot.fill
  cases p.scheme.isFilled with
  | true => trivial
  | false => exact ⟨rfl, hs₂.le, hs₂.eq⟩

/-- The rules for a function, which differ in where the type of the parameter comes from and in the
goal of the body. -/
theorem spends_lam_of {param : Act Ty} (hparam : param.Spends mode (p.holes 1))
    (hbody : body.Spends mode) (hΓ : Γ.HasArities ρ) (goal : Goal) (found : Ty → Ty → Ty) :
    (Walk.act param (.lam m p b) fun t =>
      .fillBinder p (.mono t) (.lam m · b) fun p =>
      (body (Γ.extend p.name (.mono t)) goal).andThen (.lam m p) fun b u =>
      .annotate (.lam · p b) m (found t u)).Spends mode base fun e => base + e.draws ρ := by
  refine Walk.spends_act hparam fun t => Walk.spends_fillBinder ?_
  refine (hbody goal _ (hΓ.extend p.name (.mono t))).andThen fun b u => ?_
  refine Walk.spends_annotate fun m => ?_
  rw [Expr.draws, ← Nat.add_assoc]
  rfl

/-- A call takes a variable for its result, unless its argument gets a demand. -/
theorem spends_app (hcallee : callee.Spends mode) (harg : arg.Spends mode)
    (hΓ : Γ.HasArities ρ) :
    (app mode m a callee arg Γ).Spends mode base fun e => base + e.draws ρ := by
  have htotal (f a : Expr) (m : Mark) :
      base + (Expr.app m f a).draws ρ = base + f.draws ρ + a.draws ρ + 1 := by
    rw [Expr.draws, Nat.add_assoc base, ← Nat.add_assoc base]
  refine (hcallee none base hΓ).andThen fun f t s₀ s hs => ?_
  unfold Walk.Meets
  dsimp only
  cases hfn : calleeTy? mode t s with
  | some r =>
    -- the type of the call is known, so no variable is drawn for it
    have hmode : mode ≠ .bottomUp := by
      rintro rfl
      cases hfn
    refine (harg _ _ hΓ).andThen (fun a _ => Walk.Spends.save (n := 1) ?_ hmode) s₀ s hs
    exact Walk.spends_annotate fun m => htotal f a m
  | none =>
    refine (harg none _ hΓ).andThen (fun a u => ?_) s₀ s hs
    exact Walk.spends_act Act.spends_fresh fun r => Walk.spends_act Act.spends_unify fun _ =>
      Walk.spends_annotate fun m => htotal f a m

/-- The rules for a local definition, which differ in the goal of the body. -/
theorem spends_letIn_of (hbound : bound.Spends mode) (hbody : body.Spends mode)
    (hΓ : Γ.HasArities ρ) (goal : Goal) (found : Ty → Ty) :
    ((bind p d bound Γ).andThen (fun (b, d) => .letIn m b d e) fun (b, d) σ =>
      (body (Γ.extend b.name σ) goal).andThen (.letIn m b d) fun e t =>
      .annotate (.letIn · b d e) m (found t)).Spends mode base fun e => base + e.draws ρ := by
  intro s₀ s hs
  refine (meets_bind_spends hbound hΓ hs).andThen (fun t σ s₁ hbind => ?_) fun _ _ _ _ => trivial
  obtain ⟨b, d⟩ := t
  obtain ⟨rfl, hs₁⟩ := hbind
  refine (hbody goal _ (hΓ.extend p.name σ)).andThen (fun e t => ?_) s₀ s₁ hs₁
  refine Walk.spends_annotate fun m => ?_
  rw [Expr.draws, ← Nat.add_assoc, ← Nat.add_assoc]
  rfl

/-- Two branches and a test that are walked one after the other. -/
theorem spends_cond_of (htest : test.Spends mode) (hyes : yes.Spends mode)
    (hΓ : Γ.HasArities ρ) (goal : Goal) {next : Expr → Expr → Ty → Walk Expr Ty}
    (hnext : ∀ c t u, (next c t u).Spends mode (base + c.draws ρ + t.draws ρ)
      fun e => base + e.draws ρ) :
    ((test Γ (some truthValue)).andThen (.cond m · y n) fun c _ =>
      (yes Γ goal).andThen (.cond m c · n) fun t u => next c t u).Spends mode base
        fun e => base + e.draws ρ :=
  (htest _ base hΓ).andThen fun c _ => (hyes goal _ hΓ).andThen fun t u => hnext c t u

theorem draws_cond (base : Nat) (m : Mark) (c t e : Expr) :
    base + (Expr.cond m c t e).draws ρ = base + c.draws ρ + t.draws ρ + e.draws ρ := by
  rw [Expr.draws]
  omega

/-- A conditional takes what its parts take. -/
theorem spends_cond (htest : test.Spends mode) (hyes : yes.Spends mode) (hno : no.Spends mode)
    (hΓ : Γ.HasArities ρ) :
    (cond mode m y n test yes no Γ).Spends mode base fun e => base + e.draws ρ := by
  refine spends_cond_of htest hyes hΓ none fun c t u => ?_
  cases mode with
  | bottomUp =>
    exact (hno none _ hΓ).andThen fun e _ => Walk.spends_act Act.spends_unify fun _ =>
      Walk.spends_annotate fun m => draws_cond base m c t e
  | topDown =>
    exact (hno _ _ hΓ).andThen fun e _ => Walk.spends_annotate fun m => draws_cond base m c t e

theorem spends_condAgainst (htest : test.Spends mode) (hyes : yes.Spends mode)
    (hno : no.Spends mode) (hΓ : Γ.HasArities ρ) :
    (condAgainst m y n test yes no Γ demand).Spends mode base fun e => base + e.draws ρ := by
  refine spends_cond_of htest hyes hΓ (some demand) fun c t _ => ?_
  exact (hno _ _ hΓ).andThen fun e _ => Walk.spends_annotate fun m => draws_cond base m c t e

theorem spends_anno (hinner : body.Spends mode) (t : TypeExpr) (hΓ : Γ.HasArities ρ) :
    (anno m e t body Γ).Spends mode base fun e => base + e.draws ρ :=
  Walk.spends_act (spends_annotated t) fun _ => (hinner _ _ hΓ).andThen fun e _ =>
    Walk.spends_annotate fun m => by rw [Expr.draws, ← Nat.add_assoc]

end Infer

/-! ## Whole walks -/

namespace Expr

/-- Elements take what each of them takes. -/
theorem spends_inferAll {mode : Mode} {es : List Expr} (h : ∀ e ∈ es, (infer mode e).Spends mode)
    {Γ : Env} {ρ : Arities} (hΓ : Γ.HasArities ρ) (goals : List Goal) (base : Nat) :
    (inferAll mode es Γ goals).Spends mode base fun es => base + drawsAll ρ es := by
  induction es generalizing goals base with
  | nil =>
    rw [inferAll]
    exact Walk.spends_done rfl
  | cons e es ih =>
    rw [inferAll]
    refine (h e (List.mem_cons_self ..) _ base hΓ).andThen fun e _ => ?_
    refine (ih (fun d hd => h d (List.mem_cons_of_mem _ hd)) _ _).andThen fun es _ => ?_
    exact Walk.spends_done (by rw [drawsAll, ← Nat.add_assoc])

/-- The variables that inference draws for an expression are bounded by its tree, and bottom-up
they are determined by it. -/
theorem spends_infer (mode : Mode) (e : Expr) : (infer mode e).Spends mode := by
  induction e using Expr.inductionOn with
  | lit m l =>
    intro Γ ρ goal base hΓ
    rw [infer]
    exact goal.spends_settle _ (Walk.spends_annotate fun _ => rfl)
  | name m x =>
    intro Γ ρ goal base hΓ
    rw [infer]
    exact goal.spends_settle _ (Infer.spends_name hΓ)
  | lam m p b ih =>
    intro Γ ρ goal base hΓ s₀ s hs
    obtain ⟨d, t, u, hpushed, -, hrun⟩ | ⟨-, hrun⟩ := infer_lam mode m Γ goal s p b
    · have hparam := Infer.spends_paramTyAgainst (Mode.ne_bottomUp_of_pushed? hpushed) p t
      exact .congr hrun (Infer.spends_lam_of hparam ih hΓ _ (fun _ _ => d.expected) s₀ s hs)
    · refine .congr hrun (goal.spends_settle _ ?_ s₀ s hs)
      exact Infer.spends_lam_of (Infer.spends_paramTy p) ih hΓ none .fn
  | app m f a ihf iha =>
    intro Γ ρ goal base hΓ
    rw [infer]
    exact goal.spends_settle _ (Infer.spends_app ihf iha hΓ)
  | letIn m b d e ihd ihe =>
    intro Γ ρ goal base hΓ s₀ s hs
    obtain ⟨c, -, hrun⟩ | ⟨-, hrun⟩ := infer_letIn mode m Γ goal s b d e
    · exact .congr hrun (Infer.spends_letIn_of ihd ihe hΓ _ (fun _ => c.expected) s₀ s hs)
    · refine .congr hrun (goal.spends_settle _ ?_ s₀ s hs)
      exact Infer.spends_letIn_of ihd ihe hΓ none id
  | cond m c y n ihc ihy ihn =>
    intro Γ ρ goal base hΓ s₀ s hs
    obtain ⟨d, -, hrun⟩ | ⟨-, hrun⟩ := infer_cond mode m Γ goal s c y n
    · exact .congr hrun (Infer.spends_condAgainst ihc ihy ihn hΓ s₀ s hs)
    · exact .congr hrun (goal.spends_settle _ (Infer.spends_cond ihc ihy ihn hΓ) s₀ s hs)
  | anno m e a ih =>
    intro Γ ρ goal base hΓ
    rw [infer]
    exact goal.spends_settle _ (Infer.spends_anno ih a hΓ)
  | tuple m es ih =>
    intro Γ ρ goal base hΓ s₀ s hs
    have helems (goals : List Goal) (t : List Ty → Ty) :
        ((inferAll mode es Γ goals).andThen (.tuple m) fun es ts =>
          .annotate (.tuple · es) m (t ts)).Spends mode base fun e => base + e.draws ρ :=
      (spends_inferAll ih hΓ goals base).andThen fun es _ => Walk.spends_annotate fun _ => rfl
    obtain ⟨d, ts, -, -, -, -, hrun⟩ | ⟨-, hrun⟩ := infer_tuple mode m Γ goal s es
    · exact .congr hrun (helems _ (fun _ => d.expected) s₀ s hs)
    · exact .congr hrun (goal.spends_settle _ (helems _ .tuple) s₀ s hs)
  | invalid m =>
    intro Γ ρ goal base hΓ
    rw [infer]
    exact goal.spends_settle _
      (Walk.spends_act Act.spends_fresh fun _ => Walk.spends_annotate fun _ => rfl)

end Expr

namespace Program

/-- A program takes what its definitions take. -/
theorem spends_infer (mode : Mode) (p : Program) {Γ : Env} {ρ : Arities} (hΓ : Γ.HasArities ρ)
    (base : Nat) : (Program.infer mode p Γ).Spends mode base fun q => base + q.draws ρ := by
  induction p generalizing Γ ρ base with
  | nil => exact Walk.spends_done rfl
  | cons d ds ih =>
    intro s₀ s hs
    rw [Program.infer]
    refine (Infer.meets_bind_spends (d.bound.spends_infer mode) hΓ hs).andThen
      (fun t σ s₁ hbind => ?_) fun _ _ _ _ => trivial
    obtain ⟨b, e⟩ := t
    obtain ⟨rfl, hs₁⟩ := hbind
    refine ((ih (hΓ.extend d.binder.name σ) _).andThen fun ds _ => ?_) s₀
      { s₁ with log := _ :: s₁.log } ⟨hs₁.le, hs₁.eq⟩
    refine Walk.spends_done ?_
    rw [Program.draws, ← Nat.add_assoc, ← Nat.add_assoc]
    rfl

/-- The number of quantifiers of each name of the prelude. -/
def preludeArities : Arities := fun x => ((Prelude.env.lookup? x).map (·.vars.length)).getD 0

/-- The names of the prelude have the numbers of variables of their schemes. -/
theorem hasArities_prelude : Prelude.env.HasArities preludeArities := by
  intro x σ hx
  rw [preludeArities, hx]
  rfl

/-- What the tree of a walk takes says how many variables were drawn. -/
theorem Walked.spends {mode : Mode} {p q : Program} {s : Session} (h : p.Walked mode q s) :
    Session.start.Spends mode ((q.resolve s.subst).draws preludeArities) s := by
  have hspends := (spends_infer mode p.clear hasArities_prelude 0 _ _
    (Session.Spends.refl Session.start)).of_ok h.walk
  have hvars (σ : Scheme) : (s.subst.applyScheme σ).vars.length = σ.vars.length := rfl
  rw [resolve_eq, draws_retype hvars]
  simpa using hspends

/-- The trees of two walks take the same number of variables. -/
theorem Walked.draws_eq {m₁ m₂ : Mode} {p q₁ q₂ : Program} {s₁ s₂ : Session}
    (h₁ : p.Walked m₁ q₁ s₁) (h₂ : p.Walked m₂ q₂ s₂) :
    (q₂.resolve s₂.subst).draws preludeArities = (q₁.resolve s₁.subst).draws preludeArities := by
  obtain ⟨π, hπ⟩ := h₁.eq_rename h₂
  have hvars (σ : Scheme) : (σ.rename π).vars.length = σ.vars.length := List.length_map π
  rw [hπ, rename, draws_retype hvars]

end Program

/-- Top-down inference never draws more variables.  If the walk of a program ends in some mode
then it ends in all of them, and whatever the contexts push, no more variables are drawn top-down
than bottom-up. -/
theorem topDown_draws_no_more (p : Program) (mode : Mode) (c : Propagation)
    (hends : (Program.infer mode p.clear Prelude.env Session.start).1.2 = .ok ()) :
    ∃ q q' s s', Program.infer .bottomUp p.clear Prelude.env Session.start = ((q, .ok ()), s) ∧
      Program.infer (.topDown c) p.clear Prelude.env Session.start = ((q', .ok ()), s') ∧
      s'.drawn ≤ s.drawn := by
  obtain ⟨q, e, s, hfailed⟩ | ⟨q, s, hwalked⟩ := p.failed_or_walked mode
  · rw [hfailed.walk] at hends
    cases hends
  · obtain ⟨q₁, s₁, -, h₁, -⟩ := hwalked.specialize .bottomUp
    obtain ⟨q₂, s₂, -, h₂, -⟩ := hwalked.specialize (.topDown c)
    refine ⟨q₁, q₂, s₁, s₂, h₁.walk, h₂.walk, ?_⟩
    calc
      s₂.drawn ≤ Session.start.drawn + (q₂.resolve s₂.subst).draws Program.preludeArities :=
        h₂.spends.le
      _ = Session.start.drawn + (q₁.resolve s₁.subst).draws Program.preludeArities := by
        rw [h₁.draws_eq h₂]
      _ = s₁.drawn := (h₁.spends.eq rfl).symm

/-- `let f = (fn (x) -> not(x) : Bool -> Bool)`.  Bottom-up the parameter and the call draw a
variable each, and top-down neither does. -/
def Program.annotatedNot : Program :=
  let bool : TypeExpr := .prim .nowhere .bool
  [.sample "f" (.anno .nowhere
    (.lam .nowhere ⟨"x", .nowhere, none, .empty⟩
      (.app .nowhere (.name .nowhere "not") (.name .nowhere "x")))
    (.fn .nowhere bool bool))]

/-- An annotated function is typed in both modes, and draws no more from the top down. -/
theorem topDown_draws_no_more_annotatedNot :
    let p := Program.annotatedNot
    (Program.infer .bottomUp p.clear Prelude.env Session.start).1.2 = .ok () ∧
      ∃ q q' s s', Program.infer .bottomUp p.clear Prelude.env Session.start = ((q, .ok ()), s) ∧
        Program.infer (.topDown .all) p.clear Prelude.env Session.start = ((q', .ok ()), s') ∧
        s'.drawn ≤ s.drawn := by
  intro p
  have hends : (Program.infer .bottomUp p.clear Prelude.env Session.start).1.2 = .ok () := by
    decide +kernel
  exact ⟨hends, topDown_draws_no_more p .bottomUp .all hends⟩

-- Two variables are saved.
example :
    (Program.infer .bottomUp Program.annotatedNot Prelude.env Session.start).2.drawn = 7 ∧
      (Program.infer (.topDown .all) Program.annotatedNot Prelude.env Session.start).2.drawn =
        5 := by
  decide +kernel

end LetPoly
