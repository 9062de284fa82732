import LetPoly.Proofs.Coverage
import LetPoly.Proofs.Programs

/-!
# Top-down inference without propagation

With all propagation off, top-down inference finds what bottom-up inference finds, by the same
steps: the two draw the same variables and solve them in the same order.  At conditionals they may
report one failure at different places, in two ways.

There is one demand that no setting turns off.  The test of a conditional is expected to be a truth
value, and local definitions pass this on to their bodies.  So the slots on the way are filled later
and with another type, which is the same once it is resolved, and a test that is no truth value is
reported where the body stands that it ends with.

The branches of a conditional are compared where the conditional stands, or where the second branch
stands if it is checked against the type of the first one.  A mismatch of the two is reported at the
conditional in either case.  If a variable would have to contain itself, that is reported where the
branches are compared.

The walks of the two modes are run side by side.  As long as both go on they are in the same
session, and their trees are alike: they will be the same when they are resolved.
-/

namespace LetPoly

/-- No context pushes. -/
def Propagation.off : Propagation := ⟨false, false, false⟩

/-- The expression that stands below the local definitions at the head of an expression. -/
def Expr.result : Expr → Expr
  | letIn _ _ _ e => e.result
  | e => e

/-! ## Errors -/

/-- Two errors for one failure, in a tree with the given subexpressions.  The first is that of
bottom-up inference, the second that of top-down inference without propagation. -/
inductive TypeError.Counterpart (es : List Expr) : TypeError → TypeError → Prop where
  | same (err : TypeError) : Counterpart es err err
  /-- A test that is no truth value. -/
  | test {m : Mark} {c y n : Expr} (h : .cond m c y n ∈ es) (t : Ty) :
      Counterpart es (.mismatch c.span .bool t) (.mismatch c.result.span .bool t)
  /-- Branches that no solution makes equal, since a variable would have to contain itself. -/
  | branches {m : Mark} {c y n : Expr} (h : .cond m c y n ∈ es) (span : Span) (v : TyVar) (t : Ty) :
      Counterpart es (.occurs m.span v t) (.occurs span v t)

/-- The same for stops. -/
inductive Fault.Counterpart (es : List Expr) : Fault TypeError → Fault TypeError → Prop where
  | same (f : Fault TypeError) : Counterpart es f f
  | error {err err' : TypeError} (h : err.Counterpart es err') :
      Counterpart es (.error err) (.error err')

/-! ## Walks side by side -/

/-- Two walks have ended in the same session, with trees and values in a relation, or both have
stopped with errors for one failure. -/
inductive Tandem {τ τ' α α' : Type} (es : List Expr) (Q : τ → α → τ' → α' → Session → Prop) :
    (τ × Except (Fault TypeError) α) × Session → (τ' × Except (Fault TypeError) α') × Session →
    Prop where
  | ended {t : τ} {a : α} {t' : τ'} {a' : α'} {s : Session} (h : Q t a t' a' s) :
      Tandem es Q ((t, .ok a), s) ((t', .ok a'), s)
  | stopped {t : τ} {f : Fault TypeError} {s : Session} {t' : τ'} {f' : Fault TypeError}
      {s' : Session} (h : f.Counterpart es f') :
      Tandem es Q ((t, .error f), s) ((t', .error f'), s')

namespace Tandem

variable {τ τ' υ υ' α α' β β' : Type} {es : List Expr} {s : Session}
  {Q : τ → α → τ' → α' → Session → Prop} {R : υ → β → υ' → β' → Session → Prop}

/-- What holds of two results can be weakened. -/
theorem mono {Q' : τ → α → τ' → α' → Session → Prop}
    {r : (τ × Except (Fault TypeError) α) × Session}
    {r' : (τ' × Except (Fault TypeError) α') × Session} (h : Tandem es Q r r')
    (hQ : ∀ t a t' a' s, Q t a t' a' s → Q' t a t' a' s) : Tandem es Q' r r' := by
  cases h with
  | ended h => exact .ended (hQ _ _ _ _ _ h)
  | stopped h => exact .stopped h

/-- A walk runs alongside itself. -/
theorem refl {Q : τ → α → τ → α → Session → Prop} (hQ : ∀ t a s, Q t a t a s)
    (r : (τ × Except (Fault TypeError) α) × Session) : Tandem es Q r r := by
  obtain ⟨⟨t, f | a⟩, s⟩ := r
  · exact .stopped (.same f)
  · exact .ended (hQ t a s)

/-- Walks of parts are continued.  The session of the parts has only grown. -/
theorem andThen {w : Walk τ α} {w' : Walk τ' α'} {stopped : τ → υ} {stopped' : τ' → υ'}
    {next : τ → α → Walk υ β} {next' : τ' → α' → Walk υ' β'} (h : Tandem es Q (w s) (w' s))
    (hw : w.Extends) (hnext : ∀ t a t' a' s₁, Q t a t' a' s₁ → s.subst ≤ s₁.subst →
      Tandem es R (next t a s₁) (next' t' a' s₁)) :
    Tandem es R (w.andThen stopped next s) (w'.andThen stopped' next' s) := by
  have hle := (hw s).le
  unfold Walk.andThen
  generalize w s = r at h hle
  generalize w' s = r' at h
  cases h with
  | ended h => exact hnext _ _ _ _ _ h hle
  | stopped h => exact .stopped h

/-- An act that both walks make. -/
theorem act {a : Act α} {stopped : υ} {stopped' : υ'} {next : α → Walk υ β}
    {next' : α → Walk υ' β'} (ha : a.Extends)
    (hnext : ∀ x s₁, a s = (.ok x, s₁) → s.subst ≤ s₁.subst →
      Tandem es R (next x s₁) (next' x s₁)) :
    Tandem es R (Walk.act a stopped next s) (Walk.act a stopped' next' s) := by
  have hle := (ha s).le
  unfold Walk.act
  cases hs : a s with
  | mk r s₁ =>
    rw [hs] at hle
    cases r with
    | error f => exact .stopped (.same f)
    | ok x => exact hnext x s₁ hs hle

/-- Both walks fill the slot of a binder in the same way. -/
theorem fillBinder {b : Binder} {σ : Scheme} {stopped : Binder → υ} {stopped' : Binder → υ'}
    {next : Binder → Walk υ β} {next' : Binder → Walk υ' β'}
    (hnext : ∀ b, Tandem es R (next b s) (next' b s)) :
    Tandem es R (Walk.fillBinder b σ stopped next s) (Walk.fillBinder b σ stopped' next' s) := by
  unfold Walk.fillBinder
  generalize b.scheme.fill σ = r
  obtain ⟨d | u, slot⟩ := r
  · exact .stopped (.same _)
  · exact hnext _

/-- Both walks fill the slot of a node with the same type. -/
theorem annotate {expr expr' : Mark → Expr} {m : Mark} {t : Ty}
    {R : Expr → Ty → Expr → Ty → Session → Prop} (h : ∀ m, R (expr m) t (expr' m) t s) :
    Tandem es R (Walk.annotate expr m t s) (Walk.annotate expr' m t s) := by
  unfold Walk.annotate
  generalize m.ty.fill (s.subst.apply t) = r
  obtain ⟨d | u, slot⟩ := r
  · exact .stopped (.same _)
  · exact .ended (h _)

end Tandem

/-! ## Trees that are alike -/

/-- The trees are the same once they are resolved, whatever is solved from now on. -/
def Expr.Alike (s : Session) (e e' : Expr) : Prop :=
  ∀ r : Subst, r.Acyclic → s.subst ≤ r → e.resolve r = e'.resolve r

namespace Expr.Alike

variable {s s' : Session} {m : Mark} {b : Binder} {e e' d d' c c' : Expr}

theorem refl (e : Expr) : e.Alike s e := fun _ _ _ => rfl

theorem later (h : e.Alike s e') (hle : s.subst ≤ s'.subst) : e.Alike s' e' :=
  fun r hr hr' => h r hr (Subst.le_trans hle hr')

theorem lam (h : e.Alike s e') : (lam m b e).Alike s (.lam m b e') :=
  fun r hr hr' => congrArg (Expr.lam _ _) (h r hr hr')

theorem app (h : d.Alike s d') (h' : e.Alike s e') : (app m d e).Alike s (.app m d' e') :=
  fun r hr hr' => congrArg₂ (Expr.app _) (h r hr hr') (h' r hr hr')

theorem letIn (h : d.Alike s d') (h' : e.Alike s e') :
    (letIn m b d e).Alike s (.letIn m b d' e') :=
  fun r hr hr' => congrArg₂ (Expr.letIn _ _) (h r hr hr') (h' r hr hr')

/-- The slots of local definitions may differ if they will be resolved to the same type. -/
theorem filledLetIn {t t' : Ty} (ht : ∀ r : Subst, r.Acyclic → s.subst ≤ r → r.apply t = r.apply t')
    (h : d.Alike s d') (h' : e.Alike s e') :
    (Expr.letIn { m with ty := .filled t } b d e).Alike s
      (.letIn { m with ty := .filled t' } b d' e') :=
  fun r hr hr' => by
    change Expr.letIn ⟨m.span, .filled (r.apply t)⟩ _ (d.resolve r) (e.resolve r) =
      .letIn ⟨m.span, .filled (r.apply t')⟩ _ (d'.resolve r) (e'.resolve r)
    rw [ht r hr hr', h r hr hr', h' r hr hr']

theorem cond (hc : c.Alike s c') (h : d.Alike s d') (h' : e.Alike s e') :
    (cond m c d e).Alike s (.cond m c' d' e') :=
  fun r hr hr' => by
    change Expr.cond _ (c.resolve r) (d.resolve r) (e.resolve r) = .cond _ (c'.resolve r) _ _
    rw [hc r hr hr', h r hr hr', h' r hr hr']
    rfl

theorem anno {a : TypeExpr} (h : e.Alike s e') : (anno m e a).Alike s (.anno m e' a) :=
  fun r hr hr' => congrArg (Expr.anno _ · a) (h r hr hr')

theorem tuple {es es' : List Expr} (h : List.Forall₂ (Expr.Alike s) es es') :
    (tuple m es).Alike s (.tuple m es') := by
  intro r hr hr'
  have hes : es.map (Expr.resolve · r) = es'.map (Expr.resolve · r) := by
    induction h with
    | nil => rfl
    | cons he _ ih => exact congrArg₂ List.cons (he r hr hr') ih
  simpa [Expr.resolve, retype_tuple] using hes

end Expr.Alike

/-! ## Rules side by side -/

/-- Two walks that end with the same type and with trees that are alike. -/
def SameTy (e : Expr) (t : Ty) (e' : Expr) (t' : Ty) (s : Session) : Prop :=
  t = t' ∧ e.Alike s e'

/-- A demand is not that of a test. -/
def Goal.Ordinary (goal : Goal) : Prop := ∀ d ∈ goal, d.because ≠ .condition

theorem Goal.ordinary_none : Goal.Ordinary none := by
  rintro d ⟨⟩

/-- The walks of an expression find the same type, or meet a demand that is not that of a test. -/
structure ExprWalk.Parallel (es : List Expr) (w w' : ExprWalk) : Prop where
  /-- What has been solved stays solved. -/
  grows : w.Extends
  /-- The walks run side by side. -/
  runs : ∀ (Γ : Env) (goal : Goal) (s : Session), goal.Ordinary →
    Tandem es SameTy (w Γ goal s) (w' Γ goal s)

namespace Infer

variable {es : List Expr} {m : Mark} {b : Binder} {Γ : Env} {s : Session} {d d' e e' : Expr}
  {w w' body body' bound bound' : ExprWalk}

/-- Types that are compared for the same reason at two spans. -/
theorem tandem_settle {d : Demand} {span span' : Span} {w w' : Walk Expr Ty} (hw : w.Extends)
    (h : Tandem es SameTy (w s) (w' s))
    (herr : ∀ t (r : Subst) err, (unify d.expected t r).1 = .error (.error err) →
      (TypeError.ofUnify d.because span err).Counterpart es (.ofUnify d.because span' err)) :
    Tandem es SameTy (Goal.settle (some d) span w s) (Goal.settle (some d) span' w' s) := by
  refine h.andThen hw ?_
  rintro e t e' - s₁ ⟨rfl, he⟩ -
  have hle : s₁.subst ≤ (Act.unify d.because span d.expected t s₁).2.subst :=
    (Act.extends_unify s₁).le
  simp only [Walk.act, Act.unify] at hle ⊢
  cases hr : (unify d.expected t s₁.subst).1 with
  | ok => exact .ended ⟨rfl, he.later hle⟩
  | error f =>
    cases f with
    | error err => exact .stopped (.error (herr t _ err hr))
    | defect d => exact .stopped (.same _)

/-- Functions run side by side if their bodies do. -/
theorem tandem_lam (h : body.Parallel es body') :
    Tandem es SameTy (lam m b e body Γ s) (lam m b e body' Γ s) := by
  refine .act (extends_paramTy b) fun t s₁ _ _ => .fillBinder fun b => ?_
  refine (h.runs _ none s₁ Goal.ordinary_none).andThen (h.grows _ _) ?_
  rintro e u e' - s₂ ⟨rfl, he⟩ -
  exact .annotate fun m => ⟨rfl, he.lam⟩

/-- Calls run side by side if callees and arguments do, since no demand is pushed into an
argument. -/
theorem tandem_app {a : Expr} {callee callee' arg arg' : ExprWalk} (hf : callee.Parallel es callee')
    (ha : arg.Parallel es arg') : Tandem es SameTy (app .bottomUp m a callee arg Γ s)
      (app (.topDown .off) m a callee' arg' Γ s) := by
  refine (hf.runs _ none s Goal.ordinary_none).andThen (hf.grows _ _) ?_
  rintro f t f' - s₁ ⟨rfl, hf'⟩ -
  refine (ha.runs _ none s₁ Goal.ordinary_none).andThen (ha.grows _ _) ?_
  rintro a u a' - s₂ ⟨rfl, ha'⟩ hle
  refine .act Act.extends_fresh fun r s₃ _ hle' => .act Act.extends_unify fun _ s₄ _ hle'' => ?_
  have hle₄ := Subst.le_trans hle' hle''
  exact .annotate fun m => ⟨rfl, (hf'.later (Subst.le_trans hle hle₄)).app (ha'.later hle₄)⟩

/-- The demand of an annotation is an ordinary one. -/
theorem ordinary_of_annotated {a : TypeExpr} {c : Demand} {s₁ : Session}
    (h : annotated a s = (.ok c, s₁)) : Goal.Ordinary (some c) := by
  obtain ⟨hc, -⟩ := Prod.mk.inj h
  cases hc
  rintro d ⟨⟩
  nofun

theorem ordinary_of_boundGoal {goal : Goal} {s₁ : Session} (h : boundGoal b s = (.ok goal, s₁)) :
    goal.Ordinary := by
  cases hb : b.anno with
  | none =>
    rw [boundGoal, hb] at h
    cases h
    nofun
  | some a =>
    rw [boundGoal, hb] at h
    obtain ⟨hc, -⟩ := Prod.mk.inj h
    cases hc
    rintro d ⟨⟩
    nofun

/-- Annotated expressions run side by side if the expressions do. -/
theorem tandem_anno {a : TypeExpr} (h : w.Parallel es w') :
    Tandem es SameTy (anno m e a w Γ s) (anno m e a w' Γ s) := by
  refine .act (extends_annotated a) fun d s₁ hd _ => ?_
  refine (h.runs Γ _ s₁ (ordinary_of_annotated hd)).andThen (h.grows _ _) ?_
  rintro e t e' - s₂ ⟨rfl, he⟩ -
  exact .annotate fun m => ⟨rfl, he.anno⟩

/-- The definitions of a binder get the same scheme. -/
theorem tandem_bind (h : bound.Parallel es bound') :
    Tandem es (fun r σ r' σ' s => r.1 = r'.1 ∧ σ = σ' ∧ r.2.Alike s r'.2)
      (bind b d bound Γ s) (bind b d bound' Γ s) := by
  refine .act (extends_boundGoal b) fun goal s₁ hgoal _ => ?_
  refine (h.runs Γ goal s₁ (ordinary_of_boundGoal hgoal)).andThen (h.grows _ _) ?_
  rintro e t e' - s₂ ⟨rfl, he⟩ -
  exact Tandem.fillBinder fun b => .ended ⟨rfl, rfl, he⟩

/-- Local definitions run side by side if definitions and bodies do. -/
theorem tandem_letIn (hd : bound.Parallel es bound') (he : body.Parallel es body') :
    Tandem es SameTy (letIn m b d e bound body Γ s) (letIn m b d e bound' body' Γ s) := by
  refine (tandem_bind hd).andThen (extends_bind hd.grows) ?_
  rintro ⟨b, d⟩ σ ⟨-, d'⟩ - s₁ ⟨rfl, rfl, hd'⟩ -
  refine (he.runs _ none s₁ Goal.ordinary_none).andThen (he.grows _ _) ?_
  rintro e t e' - s₂ ⟨rfl, he'⟩ hle
  exact .annotate fun m => ⟨rfl, (hd'.later hle).letIn he'⟩

/-- The elements of tuples. -/
theorem tandem_inferAll {mode mode' : Mode} {xs : List Expr}
    (h : ∀ x ∈ xs, ExprWalk.Parallel es (x.infer mode) (x.infer mode')) :
    Tandem es (fun xs ts xs' ts' s => ts = ts' ∧ List.Forall₂ (Expr.Alike s) xs xs')
      (Expr.inferAll mode xs Γ (xs.map fun _ => none) s)
      (Expr.inferAll mode' xs Γ (xs.map fun _ => none) s) := by
  induction xs generalizing s with
  | nil =>
    rw [Expr.inferAll, Expr.inferAll]
    exact .ended ⟨rfl, .nil⟩
  | cons x xs ih =>
    have hx := h x (List.mem_cons_self ..)
    have hxs : ∀ y ∈ xs, ExprWalk.Parallel es (y.infer mode) (y.infer mode') :=
      fun y hy => h y (List.mem_cons_of_mem x hy)
    rw [Expr.inferAll, Expr.inferAll]
    refine (hx.runs Γ none s Goal.ordinary_none).andThen (hx.grows _ _) ?_
    rintro x t x' - s₁ ⟨rfl, hx'⟩ -
    refine (ih hxs).andThen (Expr.extends_inferAll mode (fun y hy => (hxs y hy).grows) _ _) ?_
    rintro xs ts xs' - s₂ ⟨rfl, hxs'⟩ hle
    exact .ended ⟨rfl, .cons (hx'.later hle) hxs'⟩

/-- Tuples run side by side if their elements do. -/
theorem tandem_tuple {mode mode' : Mode} {xs : List Expr}
    (h : ∀ x ∈ xs, ExprWalk.Parallel es (x.infer mode) (x.infer mode')) :
    Tandem es SameTy (tuple m xs (Expr.inferAll mode xs) Γ s)
      (tuple m xs (Expr.inferAll mode' xs) Γ s) := by
  refine (tandem_inferAll h).andThen
    (Expr.extends_inferAll mode (fun x hx => (h x hx).grows) _ _) ?_
  rintro xs ts xs' - s₁ ⟨rfl, hxs⟩ -
  exact .annotate fun m => ⟨rfl, .tuple hxs⟩

end Infer

/-! ## Conditionals -/

/-- The walks of a test.  Bottom-up, the type of the test is compared at the given span. -/
def ExprWalk.Tests (es : List Expr) (span : Span) (w w' : ExprWalk) : Prop :=
  ∀ (Γ : Env) (s : Session), Tandem es (fun e _ e' _ s => e.Alike s e')
    (Goal.settle (some Infer.truthValue) span (w Γ none) s) (w' Γ (some Infer.truthValue) s)

/-- A demand that is settled after two walks is settled after the second. -/
theorem Goal.settle_andThen {τ α : Type} (d : Demand) (span : Span) (w : Walk τ α)
    (stopped : τ → Expr) (next : τ → α → Walk Expr Ty) :
    Goal.settle (some d) span (w.andThen stopped next) =
      w.andThen stopped fun t a => Goal.settle (some d) span (next t a) := by
  funext s
  simp only [settle, Walk.andThen]
  obtain ⟨⟨t, f | a⟩, s₁⟩ := w s <;> rfl

/-- To compare a type and go on is to go on after the comparison. -/
theorem Goal.andThen_settle {υ β : Type} (d : Demand) (span : Span) (w : Walk Expr Ty)
    (stopped : Expr → υ) (next : Expr → Walk υ β) :
    (Goal.settle (some d) span w).andThen stopped (fun e _ => next e) =
      w.andThen stopped fun e t =>
        .act (Act.unify d.because span d.expected t) (stopped e) fun _ => next e := by
  funext s
  simp only [settle, Walk.andThen, Walk.act]
  obtain ⟨⟨e, f | t⟩, s₁⟩ := w s
  · rfl
  · dsimp only
    obtain ⟨f | u, s₂⟩ := Act.unify d.because span d.expected t s₁ <;> rfl

open Unify in
/-- The only error of comparing with the type of truth values is a mismatch. -/
theorem unify_bool {t : Ty} {r : Subst} {err : UnifyError}
    (h : (unify .bool t r).1 = .error (.error err)) : ∃ u, err = .mismatch .bool u := by
  unfold unify at h
  generalize (r.apply .bool).occurrences.length + (r.apply t).occurrences.length = n at h
  unfold solve at h
  have hbool : r.apply .bool = .con .bool [] := rfl
  cases ht : r.apply t with
  | var w =>
    -- the variable becomes a truth value
    have hfirst : firstDifference? r [(.bool, t)] = some ⟨.bool, .var w, []⟩ := by
      rw [firstDifference?, hbool, ht]
      rfl
    have hremedy : remedy .bool (.var w) = .ok (w, .bool) := rfl
    simp only [Extension.start, hfirst, hremedy] at h
    split at h
    · cases h
    · cases n with
      | zero => cases h
      | succ n => cases n <;> cases h
  | con c us =>
    by_cases hc : Con.bool = c ∧ 0 = us.length
    · have hfirst : firstDifference? r [(.bool, t)] = none := by
        rw [firstDifference?, hbool, ht]
        simp [Ty.difference?, hc.1, ← hc.2, Ty.differenceAll?, firstDifference?]
      simp only [Extension.start, hfirst] at h
      cases h
    · have hfirst : firstDifference? r [(.bool, t)] = some ⟨.bool, .con c us, []⟩ := by
        rw [firstDifference?, hbool, ht]
        simp [Ty.difference?, hc, Ty.bool]
      simp only [Extension.start, hfirst] at h
      cases h
      exact ⟨_, rfl⟩

namespace Infer

variable {es : List Expr} {m : Mark} {b : Binder} {Γ : Env} {s : Session} {d d' e y n : Expr}
  {test test' yes yes' no no' body body' bound bound' : ExprWalk}

/-- Conditionals run side by side: what the second branch is checked for makes no difference except
to its errors. -/
theorem tandem_cond (htest : Tandem es (fun e _ e' _ s => e.Alike s e')
      (test Γ (some truthValue) s) (test' Γ (some truthValue) s)) (htest' : test.Extends)
    (hyes : yes.Parallel es yes') (hno' : no.Extends)
    (hno : ∀ t s, Tandem es SameTy
      (Goal.settle (some ⟨.branch m.span, t⟩) m.span (no Γ none) s)
      (no' Γ (some ⟨.branch m.span, t⟩) s)) :
    Tandem es SameTy (cond .bottomUp m y n test yes no Γ s)
      (cond (.topDown .off) m y n test' yes' no' Γ s) := by
  refine htest.andThen (htest' _ _) ?_
  intro c _ c' _ s₁ hc _
  refine (hyes.runs Γ none s₁ Goal.ordinary_none).andThen (hyes.grows _ _) ?_
  rintro y t y' - s₂ ⟨rfl, hy⟩ hle
  -- the comparison of the branches becomes a part of the walk of the second
  rw [← Goal.andThen_settle ⟨.branch m.span, t⟩ m.span (no Γ none) (.cond m c y)
    fun e => .annotate (.cond · c y e) m t]
  refine (hno t s₂).andThen (Goal.extends_settle _ _ (hno' _ _)) ?_
  rintro n u n' - s₃ ⟨rfl, hn⟩ hle'
  have hc' := hc.later (Subst.le_trans hle hle')
  exact .annotate fun m => ⟨rfl, hc'.cond (hy.later hle') hn⟩

/-- Unification keeps what is solved. -/
theorem le_of_unify {because : Because} {span : Span} {t u : Ty} {s₁ : Session}
    (h : Act.unify because span t u s = (.ok (), s₁)) : s.subst ≤ s₁.subst := by
  have hle : s.subst ≤ (Act.unify because span t u s).2.subst := (Act.extends_unify s).le
  rwa [h] at hle

/-- Types that were made equal stay equal. -/
theorem apply_eq_of_unify {because : Because} {span : Span} {t u : Ty} {s₁ : Session} {r : Subst}
    (h : Act.unify because span t u s = (.ok (), s₁)) (hr : r.Acyclic) (hle : s₁.subst ≤ r) :
    r.apply t = r.apply u := by
  have hacyclic : s.subst.Acyclic := hr.of_le (Subst.le_trans (le_of_unify h) hle)
  have hsound := unify_sound hacyclic t u
  unfold Act.unify at h
  cases hu : unify t u s.subst with
  | mk o x =>
    rw [hu] at h hsound
    cases o with
    | error f => cases h
    | ok =>
      cases h
      have heq := congrArg r.apply (hsound rfl)
      rwa [hr.apply_apply_of_le hle, hr.apply_apply_of_le hle] at heq

/-- The body of a local definition that is a test.  Bottom-up the slot of the definition is filled
before the types are compared, and top-down afterwards. -/
theorem tandem_testBody {span : Span} {w w' : Walk Expr Ty} (hm : m.ty = .empty) (hw : w.Extends)
    (hd : d.Alike s d') (h : Tandem es (fun e _ e' _ s => e.Alike s e')
      (Goal.settle (some truthValue) span w s) (w' s)) :
    Tandem es (fun e _ e' _ s => e.Alike s e')
      (Goal.settle (some truthValue) span
        (w.andThen (.letIn m b d) fun e t => .annotate (.letIn · b d e) m t) s)
      (w'.andThen (.letIn m b d') (fun e _ => .annotate (.letIn · b d' e) m .bool) s) := by
  have hfill (t : Ty) : m.ty.fill t = (.ok (), .filled t) := by rw [hm, Slot.fill_empty]
  have hle := (hw s).le
  rw [Goal.settle_andThen]
  unfold Walk.andThen Goal.settle Walk.annotate at *
  generalize w' s = r' at h
  cases hws : w s with
  | mk r s₁ =>
    obtain ⟨e, f | t⟩ := r
    · simp only [Walk.andThen, hws] at h ⊢
      cases h with
      | stopped h => exact .stopped h
    · simp only [Walk.andThen, Walk.act, hws, hfill] at h hle ⊢
      cases hu : Act.unify truthValue.because span truthValue.expected t s₁ with
      | mk r s₂ =>
        simp only [Except.mapError, Except.map, hu] at h ⊢
        cases r with
        | error f =>
          cases h with
          | stopped h => exact .stopped h
        | ok =>
          cases h with
          | @ended _ _ e' _ _ h =>
            have hle' := le_of_unify hu
            refine .ended (.filledLetIn (fun r hr hr' => ?_) (hd.later (Subst.le_trans hle hle')) h)
            rw [hr.apply_apply_of_le (Subst.le_trans hle' hr'), hr.apply_apply_of_le hr']
            exact (apply_eq_of_unify hu hr hr').symm

/-- A local definition in a test runs side by side if its body does as a test. -/
theorem tandem_letInAgainst {span : Span} (hm : m.ty = .empty) (hbound : bound.Parallel es bound')
    (hbody' : body.Extends) (hbody : body.Tests es span body') :
    Tandem es (fun e _ e' _ s => e.Alike s e')
      (Goal.settle (some truthValue) span (letIn m b d e bound body Γ) s)
      (letInAgainst m b d e bound' body' Γ truthValue s) := by
  rw [letIn, Goal.settle_andThen]
  refine (tandem_bind hbound).andThen (extends_bind hbound.grows) ?_
  rintro ⟨b, d⟩ σ ⟨-, d'⟩ - s₁ ⟨rfl, rfl, hd⟩ -
  exact tandem_testBody hm (hbody' _ _) hd (hbody _ s₁)

end Infer

/-! ## Expressions -/

namespace Mode

theorem pushed?_bottomUp (goal : Goal) (s : Session) : Mode.bottomUp.pushed? goal s = none := by
  cases goal <;> rfl

/-- Without propagation an ordinary demand is not pushed. -/
theorem pushed?_off {goal : Goal} (h : goal.Ordinary) (s : Session) :
    (Mode.topDown .off).pushed? goal s = none := by
  rcases goal with _ | ⟨_ | _ | _ | _, t⟩
  · rfl
  · rfl
  · rfl
  · exact absurd rfl (h _ rfl)
  · rfl

end Mode

namespace Expr

variable {es : List Expr} {e : Expr}

/-- A demand that is not pushed is compared with the type that the expression has without it. -/
theorem infer_eq_settle {mode : Mode} {goal : Goal} {s : Session} (h : mode.pushed? goal s = none)
    (e : Expr) (Γ : Env) :
    infer mode e Γ goal s = goal.settle e.span (infer mode e Γ none) s := by
  cases e with
  | lit | name | app | anno | invalid =>
    rw [infer, infer]
    rfl
  | lam m p b =>
    obtain ⟨d, t, u, hd, -⟩ | ⟨-, hrun⟩ := infer_lam mode m Γ goal s p b
    · cases h.symm.trans hd
    · exact hrun
  | letIn m b d e =>
    obtain ⟨c, hc, -⟩ | ⟨-, hrun⟩ := infer_letIn mode m Γ goal s b d e
    · cases h.symm.trans hc
    · exact hrun
  | cond m c y n =>
    obtain ⟨d, hd, -⟩ | ⟨-, hrun⟩ := infer_cond mode m Γ goal s c y n
    · cases h.symm.trans (Mode.pushed?_of_yesGoal hd)
    · exact hrun
  | tuple m es =>
    obtain ⟨d, ts, hd, -⟩ | ⟨-, hrun⟩ := infer_tuple mode m Γ goal s es
    · cases h.symm.trans hd
    · exact hrun

/-- Only local definitions pass on the demand for a truth value. -/
theorem infer_truthValue (h : ∀ m b d e', e ≠ .letIn m b d e') (Γ : Env) (s : Session) :
    infer (.topDown .off) e Γ (some Infer.truthValue) s =
      Goal.settle (some Infer.truthValue) e.span (infer (.topDown .off) e Γ none) s := by
  cases e with
  | lit | name | app | anno | invalid =>
    rw [infer, infer]
    rfl
  | lam m p b =>
    obtain ⟨d, t, u, hd, hfn, -⟩ | ⟨-, hrun⟩ :=
      infer_lam (.topDown .off) m Γ (some Infer.truthValue) s p b
    · cases hd
      cases hfn
    · exact hrun
  | letIn m b d e => exact absurd rfl (h m b d e)
  | cond m c y n =>
    obtain ⟨d, hd, -⟩ | ⟨-, hrun⟩ :=
      infer_cond (.topDown .off) m Γ (some Infer.truthValue) s c y n
    · cases hd
    · exact hrun
  | tuple m es =>
    obtain ⟨d, ts, hd, htuple, -⟩ | ⟨-, hrun⟩ :=
      infer_tuple (.topDown .off) m Γ (some Infer.truthValue) s es
    · cases hd
      cases htuple
    · exact hrun

/-- The result of an expression other than a local definition is the expression itself. -/
theorem result_eq_self (h : ∀ m b d e', e ≠ .letIn m b d e') : e.result = e := by
  cases e with
  | letIn m b d e => exact absurd rfl (h m b d e)
  | lit | name | lam | app | cond | anno | tuple | invalid => rfl

/-- Bottom-up inference and top-down inference without propagation run side by side. -/
structure Sides (es : List Expr) (e : Expr) : Prop where
  /-- The expression is not a test. -/
  parallel : ExprWalk.Parallel es (infer .bottomUp e) (infer (.topDown .off) e)
  /-- The expression is a test, which is compared at a span. -/
  tests : ∀ span, (∀ t, TypeError.Counterpart es (.mismatch span .bool t)
    (.mismatch e.result.span .bool t)) →
    ExprWalk.Tests es span (infer .bottomUp e) (infer (.topDown .off) e)

/-- An expression to which no ordinary demand is pushed runs side by side if it does without a
goal. -/
theorem parallel_of_synthesis (h : ∀ Γ s, Tandem es SameTy (infer .bottomUp e Γ none s)
    (infer (.topDown .off) e Γ none s)) :
    ExprWalk.Parallel es (infer .bottomUp e) (infer (.topDown .off) e) := by
  refine ⟨extends_infer .bottomUp e, fun Γ goal s hgoal => ?_⟩
  rw [infer_eq_settle (Mode.pushed?_bottomUp goal s), infer_eq_settle (Mode.pushed?_off hgoal s)]
  cases goal with
  | none => exact h Γ s
  | some d =>
    exact Infer.tandem_settle (extends_infer _ e Γ none) (h Γ s) fun _ _ _ _ => .same _

theorem sides_of_synthesis (hlet : ∀ m b d e', e ≠ .letIn m b d e')
    (h : ∀ Γ s, Tandem es SameTy (infer .bottomUp e Γ none s)
      (infer (.topDown .off) e Γ none s)) : Sides es e := by
  refine ⟨parallel_of_synthesis h, fun span hspan Γ s => ?_⟩
  rw [infer_truthValue hlet]
  refine (Infer.tandem_settle (extends_infer _ e Γ none) (h Γ s) ?_).mono fun _ _ _ _ _ h => h.2
  intro t r err herr
  obtain ⟨u, rfl⟩ := unify_bool herr
  rw [result_eq_self hlet] at hspan
  exact hspan u

/-- Every expression runs side by side, by induction on the expression. -/
theorem sides (e : Expr) (hblank : e.clear = e) (hes : ∀ c ∈ e.walk, c ∈ es) : Sides es e := by
  induction e using inductionOnParts with
  | step e ih =>
  have hpart (d : Expr) (hd : d ∈ e.children) : Sides es d :=
    ih d hd (blank_of_mem_children hblank hd) (forall_walk_of_mem_children hes hd)
  cases e with
  | lit m l =>
    refine sides_of_synthesis (by simp) fun Γ s => ?_
    rw [infer, infer]
    exact .refl (fun _ _ _ => ⟨rfl, .refl _⟩) _
  | name m x =>
    refine sides_of_synthesis (by simp) fun Γ s => ?_
    rw [infer, infer]
    exact .refl (fun _ _ _ => ⟨rfl, .refl _⟩) _
  | invalid m =>
    refine sides_of_synthesis (by simp) fun Γ s => ?_
    rw [infer, infer]
    exact .refl (fun _ _ _ => ⟨rfl, .refl _⟩) _
  | lam m p b =>
    refine sides_of_synthesis (by simp) fun Γ s => ?_
    rw [infer, infer]
    exact Infer.tandem_lam (hpart b (by simp [children])).parallel
  | app m f a =>
    refine sides_of_synthesis (by simp) fun Γ s => ?_
    rw [infer, infer]
    exact Infer.tandem_app (hpart f (by simp [children])).parallel
      (hpart a (by simp [children])).parallel
  | letIn m b d e =>
    have hd := hpart d (by simp [children])
    have he := hpart e (by simp [children])
    have hm : m.ty = .empty := Mark.ty_of_blank (letIn.inj hblank).1
    refine ⟨parallel_of_synthesis fun Γ s => ?_, fun span hspan Γ s => ?_⟩
    · rw [infer, infer]
      exact Infer.tandem_letIn hd.parallel he.parallel
    · rw [infer, infer]
      exact Infer.tandem_letInAgainst hm hd.parallel he.parallel.grows (he.tests span hspan)
  | cond m c y n =>
    have hc := hpart c (by simp [children])
    have hy := hpart y (by simp [children])
    have hn := hpart n (by simp [children])
    have hmem := hes _ (mem_walk_self _)
    refine sides_of_synthesis (by simp) fun Γ s => ?_
    rw [infer, infer]
    refine Infer.tandem_cond ?_ hc.parallel.grows hy.parallel hn.parallel.grows fun t s => ?_
    · rw [infer_eq_settle (Mode.pushed?_bottomUp _ s)]
      exact hc.tests c.span (fun t => .test hmem t) Γ s
    · rw [infer_eq_settle (Mode.pushed?_off _ s)]
      · refine Infer.tandem_settle (hn.parallel.grows Γ none)
          (hn.parallel.runs Γ none s Goal.ordinary_none) ?_
        rintro u r (_ | _) -
        · exact .same _
        · exact .branches hmem _ _ _
      · rintro _ ⟨⟩
        simp
  | anno m e a =>
    refine sides_of_synthesis (by simp) fun Γ s => ?_
    rw [infer, infer]
    exact Infer.tandem_anno (hpart e (by simp [children])).parallel
  | tuple m xs =>
    refine sides_of_synthesis (by simp) fun Γ s => ?_
    rw [infer, infer]
    exact Infer.tandem_tuple fun x hx => (hpart x hx).parallel

end Expr

/-! ## Programs -/

namespace Program

/-- The declarations of a program get the same schemes. -/
theorem tandem_infer {es : List Expr} {p : Program} (hblank : ∀ d ∈ p, d.clear = d)
    (hes : ∀ e ∈ p.walk, e ∈ es) (Γ : Env) (s : Session) :
    Tandem es (fun q _ q' _ s => ∀ r : Subst, r.Acyclic → s.subst ≤ r → q.resolve r = q'.resolve r)
      (Program.infer .bottomUp p Γ s) (Program.infer (.topDown .off) p Γ s) := by
  induction p generalizing Γ s with
  | nil => exact .ended fun _ _ _ => rfl
  | cons d ds ih =>
    have hd : d.clear = d := hblank d (List.mem_cons_self ..)
    have hbound := (Expr.sides d.bound (congrArg Decl.bound hd) fun e he =>
      hes e (List.mem_append_left _ he)).parallel
    rw [Program.infer, Program.infer]
    refine (Infer.tandem_bind hbound).andThen (Infer.extends_bind hbound.grows) ?_
    rintro ⟨b, e⟩ σ ⟨-, e'⟩ - s₁ ⟨rfl, rfl, he⟩ -
    refine (ih (fun c hc => hblank c (List.mem_cons_of_mem d hc))
      (fun e he => hes e (List.mem_append_right _ he)) _ _).andThen
      (s := { s₁ with log := _ :: s₁.log }) (Program.extends_infer _ _ _) ?_
    intro q _ q' _ s₂ hq hle
    refine .ended fun r hr hr' => ?_
    have he' := he r hr (Subst.le_trans hle hr')
    exact congrArg₂ List.cons (congrArg (Decl.mk d.span _) he') (hq r hr hr')

end Program

/-! ## Whole runs -/

theorem Expr.span_clear (e : Expr) : e.clear.span = e.span := by
  rw [span, clear, mark_update]
  rfl

theorem Expr.result_clear (e : Expr) : e.clear.result = e.result.clear := by
  induction e using inductionOn with
  | letIn m b d e _ ih => exact ih
  | lit | name | lam | app | cond | anno | tuple | invalid => rfl

/-- A subexpression of a cleared program is a cleared subexpression. -/
theorem Program.exists_of_mem_walk_clear {p : Program} {e : Expr} (h : e ∈ p.clear.walk) :
    ∃ d ∈ p.walk, d.clear = e := by
  obtain ⟨c, hc, he⟩ := List.mem_flatMap.1 h
  obtain ⟨c', hc', rfl⟩ := List.mem_map.1 hc
  change e ∈ (c'.bound.update _ _).walk at he
  rw [Expr.walk_update] at he
  obtain ⟨d, hd, rfl⟩ := List.mem_map.1 he
  exact ⟨d, List.mem_flatMap.2 ⟨c', hc', hd⟩, rfl⟩

theorem Expr.eq_cond_of_clear {m : Mark} {c y n e : Expr} (h : e.clear = cond m c y n) :
    ∃ m' c' y' n', e = cond m' c' y' n' ∧ m.span = m'.span ∧ c = c'.clear := by
  cases e with
  | cond m' c' y' n' =>
    cases h
    exact ⟨m', c', y', n', rfl, rfl, rfl⟩
  | lit | name | lam | app | letIn | anno | tuple | invalid => cases h

/-- What the slots hold does not matter for where errors are. -/
theorem TypeError.Counterpart.of_clear {p : Program} {err err' : TypeError}
    (h : err.Counterpart p.clear.walk err') : err.Counterpart p.walk err' := by
  cases h with
  | same => exact .same err
  | test hmem t =>
    obtain ⟨e, he, hclear⟩ := Program.exists_of_mem_walk_clear hmem
    obtain ⟨m, c, y, n, rfl, -, rfl⟩ := Expr.eq_cond_of_clear hclear
    rw [Expr.result_clear, Expr.span_clear, Expr.span_clear]
    exact .test he t
  | branches hmem span v t =>
    obtain ⟨e, he, hclear⟩ := Program.exists_of_mem_walk_clear hmem
    obtain ⟨m, c, y, n, rfl, hm, -⟩ := Expr.eq_cond_of_clear hclear
    rw [hm]
    exact .branches he span v t

theorem Fault.Counterpart.of_error {es : List Expr} {err err' : TypeError}
    (h : (Fault.error err).Counterpart es (.error err')) : err.Counterpart es err' := by
  cases h with
  | same => exact .same err
  | error h => exact h

/-- With all propagation off, top-down inference finds what bottom-up inference finds.  Both find
the same types, or the same errors but for where they stand.  A test that is no truth value may be
reported below its local definitions, and branches may be reported elsewhere if a variable would
have to contain itself to make them equal. -/
theorem unpropagated_matches_bottomUp (p : Program) :
    ((p.inferTypes .bottomUp).verdict = .typed ∧
      (p.inferTypes (.topDown .off)).verdict = .typed ∧
      (p.inferTypes (.topDown .off)).program = (p.inferTypes .bottomUp).program) ∨
    ∃ es es', (p.inferTypes .bottomUp).verdict = .illTyped es ∧
      (p.inferTypes (.topDown .off)).verdict = .illTyped es' ∧
      List.Forall₂ (TypeError.Counterpart p.walk) es es' := by
  have htandem := Program.tandem_infer p.clear_blank (fun _ => id) Prelude.env Session.start
  obtain ⟨q, err, s, h⟩ | ⟨q, s, h⟩ := p.failed_or_walked .bottomUp <;>
    obtain ⟨q', err', s', h'⟩ | ⟨q', s', h'⟩ := p.failed_or_walked (.topDown .off) <;>
    rw [h.walk, h'.walk] at htandem
  · cases htandem with
    | stopped hfault =>
      exact .inr ⟨_, _, h.verdict, h'.verdict, .cons hfault.of_error.of_clear .nil⟩
  · cases htandem
  · cases htandem
  · cases htandem with
    | ended hq =>
      have hsame := hq s.subst h.found.left.sound.acyclic (Subst.le_refl _)
      cases hes : (q.resolve s.subst).ambiguities with
      | nil =>
        refine .inl ⟨h.typed.2 hes, h'.typed.2 (hsame ▸ hes), ?_⟩
        rw [h.program, h'.program, hsame]
      | cons err errs =>
        refine .inr ⟨err :: errs, err :: errs, (h.illTyped _).2 ⟨hes, nofun⟩,
          (h'.illTyped _).2 ⟨hsame ▸ hes, nofun⟩, ?_⟩
        exact List.forall₂_same.2 fun e _ => .same e

/-- The program `let x = if let b = 1 in b then 1 else 2`. -/
def Program.letTest : Program :=
  let binder (x : String) (span : Span) : Binder := ⟨x, span, none, .empty⟩
  [⟨⟨0, 39, 0⟩, binder "x" ⟨4, 5, 0⟩,
    .cond (.new ⟨8, 39, 0⟩)
      (.letIn (.new ⟨11, 25, 0⟩) (binder "b" ⟨15, 16, 0⟩) (.lit (.new ⟨19, 20, 0⟩) (.int 1))
        (.name (.new ⟨24, 25, 0⟩) "b"))
      (.lit (.new ⟨31, 32, 0⟩) (.int 1)) (.lit (.new ⟨38, 39, 0⟩) (.int 2))⟩]

/-- The program `let g = fn(f) -> if true then f else f(1)`. -/
def Program.branchTest : Program :=
  let binder (x : String) (span : Span) : Binder := ⟨x, span, none, .empty⟩
  [⟨⟨0, 41, 0⟩, binder "g" ⟨4, 5, 0⟩,
    .lam (.new ⟨8, 41, 0⟩) (binder "f" ⟨11, 12, 0⟩)
      (.cond (.new ⟨17, 41, 0⟩) (.lit (.new ⟨20, 24, 0⟩) (.bool true))
        (.name (.new ⟨30, 31, 0⟩) "f")
        (.app (.new ⟨37, 41, 0⟩) (.name (.new ⟨37, 38, 0⟩) "f")
          (.lit (.new ⟨39, 40, 0⟩) (.int 1))))⟩]

/-- Without propagation a test is still expected to be a truth value, and a second branch to have
the type of the first one.  The two modes report such failures at different places. -/
theorem unpropagated_reports_elsewhere :
    ((Program.letTest.inferTypes .bottomUp).verdict =
        .illTyped [.mismatch ⟨11, 25, 0⟩ .bool .int] ∧
      (Program.letTest.inferTypes (.topDown .off)).verdict =
        .illTyped [.mismatch ⟨24, 25, 0⟩ .bool .int] ∧
      (Program.letTest.inferTypes (.topDown .off)).verdict ≠
        (Program.letTest.inferTypes .bottomUp).verdict) ∧
    (Program.branchTest.inferTypes .bottomUp).verdict =
        .illTyped [.occurs ⟨17, 41, 0⟩ 6 (.fn .int (.var 6))] ∧
      (Program.branchTest.inferTypes (.topDown .off)).verdict =
        .illTyped [.occurs ⟨37, 41, 0⟩ 6 (.fn .int (.var 6))] ∧
      (Program.branchTest.inferTypes (.topDown .off)).verdict ≠
        (Program.branchTest.inferTypes .bottomUp).verdict := by
  have hbottomUp : (Program.letTest.inferTypes .bottomUp).verdict =
      .illTyped [.mismatch ⟨11, 25, 0⟩ .bool .int] := by
    decide +kernel
  have htopDown : (Program.letTest.inferTypes (.topDown .off)).verdict =
      .illTyped [.mismatch ⟨24, 25, 0⟩ .bool .int] := by
    decide +kernel
  have hbottomUp' : (Program.branchTest.inferTypes .bottomUp).verdict =
      .illTyped [.occurs ⟨17, 41, 0⟩ 6 (.fn .int (.var 6))] := by
    decide +kernel
  have htopDown' : (Program.branchTest.inferTypes (.topDown .off)).verdict =
      .illTyped [.occurs ⟨37, 41, 0⟩ 6 (.fn .int (.var 6))] := by
    decide +kernel
  refine ⟨⟨hbottomUp, htopDown, ?_⟩, hbottomUp', htopDown', ?_⟩
  · rw [hbottomUp, htopDown]
    decide
  · rw [hbottomUp', htopDown']
    decide

end LetPoly
