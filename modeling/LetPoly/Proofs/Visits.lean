import LetPoly.Proofs.Growth
import LetPoly.Proofs.Places

/-!
# The visits of a run

A run comes to the expressions of a program one after another, to each in an environment and with a
session.  `Expr.Visits` follows the rules of inference down to an expression.  A visit is a moment
of the run, and the environment of the visit is the one in use while the expression is walked.

The environment of a visit is made of what stands in the tree that the run leaves behind: each of
its schemes is from the environment of the whole, or is in the slot of a binder on the way to the
expression (`Program.Visits.leaves`).  What is solved at the visit stays solved.
-/

namespace LetPoly

/-! ## Walks that keep what is solved -/

/-- A walk leaves a tree with a property behind, and keeps what is solved in a session. -/
abbrev Walk.Leaves {τ α : Type} (w : Walk τ α) (s : Session) (P : τ → Prop) (s₀ : Session) : Prop :=
  w.Yields s fun t s' => P t ∧ s₀.subst ≤ s'.subst

namespace Walk.Yields

variable {τ υ α β : Type} {w : Walk τ α} {s s₀ : Session} {P : υ → Prop}

/-- A part is walked at the beginning, and what follows keeps the tree it has left. -/
theorem part {P₀ : τ → Prop} {stopped : τ → υ} {next : τ → α → Walk υ β} (h : w.Leaves s P₀ s₀)
    (hstop : ∀ t, P₀ t → P (stopped t))
    (hnext : ∀ t a s', P₀ t → s₀.subst ≤ s'.subst → (next t a).Leaves s' P s₀) :
    (w.andThen stopped next).Leaves s P s₀ := by
  refine andThen (fun t f s' hw => ?_) fun t a s' hw => ?_
  · obtain ⟨ht, hs⟩ := h.of_run hw
    exact ⟨hstop t ht, hs⟩
  · obtain ⟨ht, hs⟩ := h.of_run hw
    exact hnext t a s' ht hs

/-- The tree of the part that is walked first stays in the tree of the whole. -/
theorem first {stopped : τ → υ} {next : τ → α → Walk υ β} (hstop : P (stopped (w s).1.1))
    (hnext : ∀ a s', (w s).2.subst ≤ s'.subst → (next (w s).1.1 a).Leaves s' P (w s).2) :
    (w.andThen stopped next).Leaves s P (w s).2 := by
  have hw : w.Leaves s (· = (w s).1.1) (w s).2 := ⟨rfl, Subst.le_refl _⟩
  refine hw.part (fun t ht => ht ▸ hstop) fun t a s' ht hs => ?_
  exact ht ▸ hnext a s' hs

/-- What is walked later leaves the tree of an earlier part as it is. -/
theorem later {stopped : τ → υ} {next : τ → α → Walk υ β} (hw : w.Extends)
    (hs : s₀.subst ≤ s.subst) (hstop : ∀ t, P (stopped t))
    (hnext : ∀ t a s', s₀.subst ≤ s'.subst → (next t a).Leaves s' P s₀) :
    (w.andThen stopped next).Leaves s P s₀ := by
  have hleaves : w.Leaves s (fun _ => True) s₀ := ⟨trivial, Subst.le_trans hs (hw s).le⟩
  exact hleaves.part (fun t _ => hstop t) fun t a s' _ hs => hnext t a s' hs

/-- A later act keeps what is solved, and the tree stays as it is. -/
theorem laterAct {a : Act α} {stopped : υ} {next : α → Walk υ β} (ha : a.Extends)
    (hs : s₀.subst ≤ s.subst) (hstop : P stopped)
    (hnext : ∀ x s', s₀.subst ≤ s'.subst → (next x).Leaves s' P s₀) :
    (Walk.act a stopped next).Leaves s P s₀ := by
  have hle := Subst.le_trans hs (ha s).le
  refine act (fun f s' hrun => ?_) fun x s' hrun => ?_
  · rw [hrun] at hle
    exact ⟨hstop, hle⟩
  · rw [hrun] at hle
    exact hnext x s' hle

/-- A binder that is filled later keeps what is solved. -/
theorem fillLater {b : Binder} {σ : Scheme} {stopped : Binder → υ} {next : Binder → Walk υ β}
    (hs : s₀.subst ≤ s.subst) (hstop : ∀ b, P (stopped b)) (hnext : ∀ b, (next b).Leaves s P s₀) :
    (Walk.fillBinder b σ stopped next).Leaves s P s₀ := by
  unfold Walk.fillBinder
  dsimp only
  split
  · exact hnext _
  · exact ⟨hstop _, hs⟩

/-- Comparing with a demand leaves the tree as it is. -/
theorem settleLater {goal : Goal} {span : Span} {w : Walk Expr Ty} {P : Expr → Prop}
    (h : w.Leaves s P s₀) : (goal.settle span w).Leaves s P s₀ := by
  cases goal with
  | none => exact h
  | some d =>
    refine h.part (fun e he => he) fun e t s' he hs => ?_
    exact .laterAct Act.extends_unify hs he fun _ s'' hs => ⟨he, hs⟩

end Walk.Yields

/-! ## Visits -/

namespace Expr

/-- An element of a list is walked for a goal from a session. -/
inductive VisitsElem (mode : Mode) (Γ : Env) :
    List Expr → List Goal → Session → Nat → Expr → Goal → Session → Prop where
  | head {e : Expr} {es : List Expr} {goals : List Goal} {s : Session} :
      VisitsElem mode Γ (e :: es) goals s 0 e (goals.headD none) s
  | tail {e e' c : Expr} {es : List Expr} {goals : List Goal} {s s₁ s₂ : Session} {t : Ty} {i : Nat}
      {g : Goal} (he : infer mode e Γ (goals.headD none) s = ((e', .ok t), s₁))
      (h : VisitsElem mode Γ es goals.tail s₁ i c g s₂) :
      VisitsElem mode Γ (e :: es) goals s (i + 1) c g s₂

/-- The walk of an expression in an environment for a goal, from a session, comes to the part at the
end of a way in an environment and with a session. -/
inductive Visits (mode : Mode) :
    Expr → Env → Goal → Session → List Nat → Env → Session → Prop where
  | here {e : Expr} {Γ : Env} {goal : Goal} {s : Session} : Visits mode e Γ goal s [] Γ s
  | lam {m : Mark} {p : Binder} {b : Expr} {Γ Γ' : Env} {goal : Goal} {s s₁ s' : Session} {t : Ty}
      {π : List Nat} (hgoal : ∀ d ∈ mode.pushed? goal s, d.expected.fn? = none)
      (ht : Infer.paramTy p s = (.ok t, s₁)) (hp : p.scheme = .empty)
      (hb : Visits mode b (Γ.extend p.name (.mono t)) none s₁ π Γ' s') :
      Visits mode (lam m p b) Γ goal s (0 :: π) Γ' s'
  | lamAgainst {m : Mark} {p : Binder} {b : Expr} {Γ Γ' : Env} {goal : Goal} {s s₁ s' : Session}
      {d : Demand} {t u r : Ty} {π : List Nat} (hgoal : mode.pushed? goal s = some d)
      (hfn : d.expected = .fn t u) (ht : Infer.paramTyAgainst p t s = (.ok r, s₁))
      (hp : p.scheme = .empty)
      (hb : Visits mode b (Γ.extend p.name (.mono r)) (some ⟨d.because, u⟩) s₁ π Γ' s') :
      Visits mode (lam m p b) Γ goal s (0 :: π) Γ' s'
  | callee {m : Mark} {f a : Expr} {Γ Γ' : Env} {goal : Goal} {s s' : Session} {π : List Nat}
      (hf : Visits mode f Γ none s π Γ' s') : Visits mode (app m f a) Γ goal s (0 :: π) Γ' s'
  | argument {m : Mark} {f f' a : Expr} {Γ Γ' : Env} {goal : Goal} {s s₁ s' : Session} {t : Ty}
      {π : List Nat} (hf : infer mode f Γ none s = ((f', .ok t), s₁))
      (ha : Visits mode a Γ ((Infer.calleeTy? mode t s₁).map fun r => ⟨.argument, r.1⟩) s₁
        π Γ' s') :
      Visits mode (app m f a) Γ goal s (1 :: π) Γ' s'
  | bound {m : Mark} {b : Binder} {d e : Expr} {Γ Γ' : Env} {goal g : Goal} {s s₁ s' : Session}
      {π : List Nat} (hg : Infer.boundGoal b s = (.ok g, s₁)) (hd : Visits mode d Γ g s₁ π Γ' s') :
      Visits mode (letIn m b d e) Γ goal s (0 :: π) Γ' s'
  | body {m : Mark} {b b' : Binder} {d d' e : Expr} {Γ Γ' : Env} {goal : Goal} {s s₁ s' : Session}
      {σ : Scheme} {π : List Nat}
      (hd : Infer.bind b d (infer mode d) Γ s = (((b', d'), .ok σ), s₁))
      (he : Visits mode e (Γ.extend b'.name σ) (mode.pushed? goal s) s₁ π Γ' s') :
      Visits mode (letIn m b d e) Γ goal s (1 :: π) Γ' s'
  | test {m : Mark} {c y n : Expr} {Γ Γ' : Env} {goal : Goal} {s s' : Session} {π : List Nat}
      (hc : Visits mode c Γ (some Infer.truthValue) s π Γ' s') :
      Visits mode (cond m c y n) Γ goal s (0 :: π) Γ' s'
  | yes {m : Mark} {c c' y n : Expr} {Γ Γ' : Env} {goal : Goal} {s s₁ s' : Session} {t : Ty}
      {π : List Nat} (hc : infer mode c Γ (some Infer.truthValue) s = ((c', .ok t), s₁))
      (hy : Visits mode y Γ (mode.yesGoal goal m s) s₁ π Γ' s') :
      Visits mode (cond m c y n) Γ goal s (1 :: π) Γ' s'
  | no {m : Mark} {c c' y y' n : Expr} {Γ Γ' : Env} {goal : Goal} {s s₁ s₂ s' : Session} {t u : Ty}
      {π : List Nat} (hc : infer mode c Γ (some Infer.truthValue) s = ((c', .ok t), s₁))
      (hy : infer mode y Γ (mode.yesGoal goal m s) s₁ = ((y', .ok u), s₂))
      (hn : Visits mode n Γ (mode.noGoal goal m s u) s₂ π Γ' s') :
      Visits mode (cond m c y n) Γ goal s (2 :: π) Γ' s'
  | inner {m : Mark} {e : Expr} {a : TypeExpr} {Γ Γ' : Env} {goal : Goal} {s s₁ s' : Session}
      {d : Demand} {π : List Nat} (ha : Infer.annotated a s = (.ok d, s₁))
      (he : Visits mode e Γ (some d) s₁ π Γ' s') :
      Visits mode (anno m e a) Γ goal s (0 :: π) Γ' s'
  | elem {m : Mark} {es : List Expr} {c : Expr} {Γ Γ' : Env} {goal g : Goal} {s s₁ s' : Session}
      {i : Nat} {π : List Nat} (hes : VisitsElem mode Γ es (mode.elemGoals goal es s) s i c g s₁)
      (hc : Visits mode c Γ g s₁ π Γ' s') :
      Visits mode (tuple m es) Γ goal s (i :: π) Γ' s'

/-! ## Parts of the tree that is left -/

section

variable {mode : Mode} {m : Mark} {p b b' : Binder} {a c c' d d' e f f' n y y' : Expr} {Γ : Env}
  {goal g : Goal} {s s₁ s₂ : Session} {t u r : Ty} {σ : Scheme} {demand : Demand}

/-- The walk of a call leaves the tree of the callee as its first part. -/
theorem leaves_callee :
    (infer mode (app m f a) Γ goal).Leaves s
      (fun e => e.children[0]? = some (infer mode f Γ none s).1.1) (infer mode f Γ none s).2 := by
  rw [infer]
  refine .settleLater (.first rfl fun t s₁ hs => ?_)
  have harg (g : Goal) := extends_infer mode a Γ g
  cases hcallee : Infer.calleeTy? mode t s₁ with
  | some r =>
    refine .congr (by simp only [hcallee]; rfl) ?_
    exact .later (harg _) hs (fun _ => rfl) fun _ _ s₂ hs => .annotate fun _ => ⟨rfl, hs⟩
  | none =>
    refine .congr (by simp only [hcallee]; rfl) ?_
    exact .later (harg _) hs (fun _ => rfl) fun _ _ s₂ hs => .laterAct Act.extends_fresh hs rfl
      fun _ s₃ hs => .laterAct Act.extends_unify hs rfl fun _ s₄ hs => .annotate fun _ => ⟨rfl, hs⟩

/-- The walk of a call leaves the tree of the argument as its second part. -/
theorem leaves_argument (hf : infer mode f Γ none s = ((f', .ok t), s₁))
    (hg : (Infer.calleeTy? mode t s₁).map (fun r => ⟨.argument, r.1⟩) = g) :
    (infer mode (app m f a) Γ goal).Leaves s
      (fun e => e.children[1]? = some (infer mode a Γ g s₁).1.1) (infer mode a Γ g s₁).2 := by
  subst hg
  rw [infer]
  refine .settleLater (.after hf ?_)
  cases hcallee : Infer.calleeTy? mode t s₁ with
  | some r =>
    refine .congr (by simp only [hcallee]; rfl) ?_
    exact .first rfl fun _ s₂ hs => .annotate fun _ => ⟨rfl, hs⟩
  | none =>
    refine .congr (by simp only [hcallee]; rfl) ?_
    exact .first rfl fun _ s₂ hs => .laterAct Act.extends_fresh hs rfl
      fun _ s₃ hs => .laterAct Act.extends_unify hs rfl fun _ s₄ hs => .annotate fun _ => ⟨rfl, hs⟩

/-- The part of a node with a number, and the scheme of its binder. -/
def HasBody (i : Nat) (c : Expr) (σ : Scheme) (e : Expr) : Prop :=
  e.children[i]? = some c ∧ ∃ b, e.binder? = some b ∧ b.scheme = .filled σ

/-- The walk of a function leaves the tree of the body, and the type of the parameter in its
binder. -/
theorem leaves_lam (hgoal : ∀ d ∈ mode.pushed? goal s, d.expected.fn? = none)
    (ht : Infer.paramTy p s = (.ok t, s₁)) (hp : p.scheme = .empty) :
    (infer mode (lam m p e) Γ goal).Leaves s
      (HasBody 0 (infer mode e (Γ.extend p.name (.mono t)) none s₁).1.1 (.mono t))
      (infer mode e (Γ.extend p.name (.mono t)) none s₁).2 := by
  obtain ⟨d, t, u, hpush, hfn, -⟩ | ⟨-, hrun⟩ := infer_lam mode m Γ goal s p e
  · have hnone := hgoal d hpush
    rw [Ty.fn?_eq_some.2 hfn] at hnone
    cases hnone
  · refine .congr hrun (.settleLater (.afterAct ht (.fillEmpty hp ?_)))
    exact .first ⟨rfl, _, rfl, rfl⟩ fun _ s₂ hs => .annotate fun _ => ⟨⟨rfl, _, rfl, rfl⟩, hs⟩

theorem leaves_lamAgainst (hgoal : mode.pushed? goal s = some demand)
    (hfn : demand.expected = .fn t u) (ht : Infer.paramTyAgainst p t s = (.ok r, s₁))
    (hp : p.scheme = .empty) :
    (infer mode (lam m p e) Γ goal).Leaves s
      (HasBody 0 (infer mode e (Γ.extend p.name (.mono r)) (some ⟨demand.because, u⟩) s₁).1.1
        (.mono r))
      (infer mode e (Γ.extend p.name (.mono r)) (some ⟨demand.because, u⟩) s₁).2 := by
  obtain ⟨d, t', u', hpush, hfn', hrun⟩ | ⟨hnone, -⟩ := infer_lam mode m Γ goal s p e
  · cases hgoal.symm.trans hpush
    obtain ⟨rfl, rfl⟩ := Ty.fn_inj.1 (hfn.symm.trans hfn')
    refine .congr hrun (.afterAct ht (.fillEmpty hp ?_))
    exact .first ⟨rfl, _, rfl, rfl⟩ fun _ s₂ hs => .annotate fun _ => ⟨⟨rfl, _, rfl, rfl⟩, hs⟩
  · cases (Ty.fn?_eq_some.2 hfn).symm.trans (hnone demand hgoal)

/-- The tree of a definition stays in what the rule for definitions leaves behind. -/
theorem leaves_bind {bound : ExprWalk} (hg : Infer.boundGoal b s = (.ok g, s₁)) :
    (Infer.bind b d bound Γ).Leaves s (fun q => q.2 = (bound Γ g s₁).1.1) (bound Γ g s₁).2 := by
  refine .afterAct hg (.first rfl fun t s₂ hs => ?_)
  have hend (σ : Scheme) : (Walk.log (.generalized b.name σ) <|
      Walk.fillBinder b σ (·, (bound Γ g s₁).1.1) fun b => .done (b, (bound Γ g s₁).1.1) σ).Leaves
        s₂ (fun q => q.2 = (bound Γ g s₁).1.1) (bound Γ g s₁).2 :=
    .log (.fillLater hs (fun _ => rfl) fun _ => ⟨rfl, hs⟩)
  exact .congr rfl (hend _)

/-- The walk of a local definition leaves the tree of the definition as its first part. -/
theorem leaves_bound (hg : Infer.boundGoal b s = (.ok g, s₁)) :
    (infer mode (letIn m b d e) Γ goal).Leaves s
      (fun e => e.children[0]? = some (infer mode d Γ g s₁).1.1) (infer mode d Γ g s₁).2 := by
  have hbind := @leaves_bind b d Γ g s s₁ (infer mode d) hg
  have hbody (Γ : Env) (g : Goal) := extends_infer mode e Γ g
  obtain ⟨c, -, hrun⟩ | ⟨-, hrun⟩ := infer_letIn mode m Γ goal s b d e
  · refine .congr hrun (hbind.part (fun q => congrArg some) fun q σ s₂ hq hs => ?_)
    exact .later (hbody _ _) hs (fun _ => congrArg some hq) fun _ _ s₃ hs =>
      .annotate fun _ => ⟨congrArg some hq, hs⟩
  · refine .congr hrun (.settleLater (hbind.part (fun q => congrArg some) fun q σ s₂ hq hs => ?_))
    exact .later (hbody _ _) hs (fun _ => congrArg some hq) fun _ _ s₃ hs =>
      .annotate fun _ => ⟨congrArg some hq, hs⟩

/-- The scheme of a definition is in the slot of its binder. -/
theorem scheme_of_bind {bound : ExprWalk}
    (h : Infer.bind b d bound Γ s = (((b', d'), .ok σ), s₁)) : b'.scheme = .filled σ := by
  rcases hg : Infer.boundGoal b s with ⟨f | g, s₂⟩
  · simp only [Infer.bind, Walk.act, hg] at h
    cases h
  rcases hd : bound Γ g s₂ with ⟨⟨e, f | t⟩, s₃⟩
  · simp only [Infer.bind, Walk.act, hg, Walk.andThen, hd] at h
    cases h
  · simp only [Infer.bind, Walk.act, hg, Walk.andThen, hd, Walk.log, Walk.fillBinder,
      Slot.fill] at h
    cases hb : b.scheme.isFilled with
    | true =>
      rw [hb] at h
      cases h
    | false =>
      rw [hb] at h
      cases h
      rfl

/-- The walk of a local definition leaves the tree of the body as its second part, and the scheme of
the definition in its binder. -/
theorem leaves_body (hd : Infer.bind b d (infer mode d) Γ s = (((b', d'), .ok σ), s₁))
    (hb : b'.scheme = .filled σ) :
    (infer mode (letIn m b d e) Γ goal).Leaves s
      (HasBody 1 (infer mode e (Γ.extend b'.name σ) (mode.pushed? goal s) s₁).1.1 σ)
      (infer mode e (Γ.extend b'.name σ) (mode.pushed? goal s) s₁).2 := by
  obtain ⟨c, hpush, hrun⟩ | ⟨hpush, hrun⟩ := infer_letIn mode m Γ goal s b d e
  · rw [hpush]
    refine .congr hrun (.after hd ?_)
    exact .first ⟨rfl, _, rfl, hb⟩ fun _ s₂ hs => .annotate fun _ => ⟨⟨rfl, _, rfl, hb⟩, hs⟩
  · rw [hpush]
    refine .congr hrun (.settleLater (.after hd ?_))
    exact .first ⟨rfl, _, rfl, hb⟩ fun _ s₂ hs => .annotate fun _ => ⟨⟨rfl, _, rfl, hb⟩, hs⟩

/-- The walk of a conditional leaves the tree of the test as its first part. -/
theorem leaves_test :
    (infer mode (cond m c y n) Γ goal).Leaves s
      (fun e => e.children[0]? = some (infer mode c Γ (some Infer.truthValue) s).1.1)
      (infer mode c Γ (some Infer.truthValue) s).2 := by
  have hyes (g : Goal) := extends_infer mode y Γ g
  have hno (g : Goal) := extends_infer mode n Γ g
  obtain ⟨d, -, hrun⟩ | ⟨-, hrun⟩ := infer_cond mode m Γ goal s c y n
  · refine .congr hrun (.first rfl fun _ s₁ hs => .later (hyes _) hs (fun _ => rfl) ?_)
    exact fun _ _ s₂ hs => .later (hno _) hs (fun _ => rfl) fun _ _ s₃ hs =>
      .annotate fun _ => ⟨rfl, hs⟩
  · refine .congr hrun (.settleLater (.first rfl fun _ s₁ hs =>
      .later (hyes _) hs (fun _ => rfl) ?_))
    intro _ _ s₂ hs
    cases mode with
    | bottomUp =>
      exact .later (hno _) hs (fun _ => rfl) fun _ _ s₃ hs => .laterAct Act.extends_unify hs rfl
        fun _ s₄ hs => .annotate fun _ => ⟨rfl, hs⟩
    | topDown =>
      exact .later (hno _) hs (fun _ => rfl) fun _ _ s₃ hs => .annotate fun _ => ⟨rfl, hs⟩

/-- The walk of a conditional leaves the tree of the first branch as its second part. -/
theorem leaves_yes (hc : infer mode c Γ (some Infer.truthValue) s = ((c', .ok t), s₁)) :
    (infer mode (cond m c y n) Γ goal).Leaves s
      (fun e => e.children[1]? = some (infer mode y Γ (mode.yesGoal goal m s) s₁).1.1)
      (infer mode y Γ (mode.yesGoal goal m s) s₁).2 := by
  have hno (g : Goal) := extends_infer mode n Γ g
  obtain ⟨d, hgoal, hrun⟩ | ⟨hgoal, hrun⟩ := infer_cond mode m Γ goal s c y n
  · rw [hgoal]
    refine .congr hrun (.after hc (.first rfl fun _ s₂ hs => ?_))
    exact .later (hno _) hs (fun _ => rfl) fun _ _ s₃ hs => .annotate fun _ => ⟨rfl, hs⟩
  · rw [hgoal]
    refine .congr hrun (.settleLater (.after hc (.first rfl fun _ s₂ hs => ?_)))
    cases mode with
    | bottomUp =>
      exact .later (hno _) hs (fun _ => rfl) fun _ _ s₃ hs => .laterAct Act.extends_unify hs rfl
        fun _ s₄ hs => .annotate fun _ => ⟨rfl, hs⟩
    | topDown =>
      exact .later (hno _) hs (fun _ => rfl) fun _ _ s₃ hs => .annotate fun _ => ⟨rfl, hs⟩

/-- The walk of a conditional leaves the tree of the second branch as its third part. -/
theorem leaves_no (hc : infer mode c Γ (some Infer.truthValue) s = ((c', .ok t), s₁))
    (hy : infer mode y Γ (mode.yesGoal goal m s) s₁ = ((y', .ok u), s₂)) :
    (infer mode (cond m c y n) Γ goal).Leaves s
      (fun e => e.children[2]? = some (infer mode n Γ (mode.noGoal goal m s u) s₂).1.1)
      (infer mode n Γ (mode.noGoal goal m s u) s₂).2 := by
  unfold Mode.noGoal
  obtain ⟨d, hgoal, hrun⟩ | ⟨hgoal, hrun⟩ := infer_cond mode m Γ goal s c y n
  · rw [hgoal] at hy ⊢
    refine .congr hrun (.after hc (.after hy (.first rfl fun _ s₃ hs => ?_)))
    exact .annotate fun _ => ⟨rfl, hs⟩
  · rw [hgoal] at hy ⊢
    refine .congr hrun (.settleLater (.after hc (.after hy ?_)))
    cases mode with
    | bottomUp =>
      exact .first rfl fun _ s₃ hs => .laterAct Act.extends_unify hs rfl fun _ s₄ hs =>
        .annotate fun _ => ⟨rfl, hs⟩
    | topDown => exact .first rfl fun _ s₃ hs => .annotate fun _ => ⟨rfl, hs⟩

/-- The walk of an annotated expression leaves the tree of the expression as its part. -/
theorem leaves_inner {t : TypeExpr} (ha : Infer.annotated t s = (.ok demand, s₁)) :
    (infer mode (anno m e t) Γ goal).Leaves s
      (fun e' => e'.children[0]? = some (infer mode e Γ (some demand) s₁).1.1)
      (infer mode e Γ (some demand) s₁).2 := by
  rw [infer]
  refine .settleLater (.afterAct ha ?_)
  exact .first rfl fun _ s₂ hs => .annotate fun _ => ⟨rfl, hs⟩

/-- The trees of the elements of a list stay in the list of trees. -/
theorem VisitsElem.leaves {es : List Expr} {goals : List Goal} {i : Nat}
    (h : VisitsElem mode Γ es goals s i c g s₁) :
    (inferAll mode es Γ goals).Leaves s (fun es => es[i]? = some (infer mode c Γ g s₁).1.1)
      (infer mode c Γ g s₁).2 := by
  induction h with
  | @head e es goals s =>
    have hes : ∀ e ∈ es, (infer mode e).Extends := fun e _ => extends_infer mode e
    rw [inferAll]
    exact .first rfl fun _ s₂ hs => .later (extends_inferAll mode hes Γ _) hs (fun _ => rfl)
      fun _ _ s₃ hs => ⟨rfl, hs⟩
  | @tail e e' c es goals s s₁ s₂ t i g he _ ih =>
    rw [inferAll]
    exact .after he (ih.part (fun _ hes => hes) fun _ _ s₃ hes hs => ⟨hes, hs⟩)

/-- The walk of a tuple leaves the tree of each element in its place. -/
theorem leaves_elem {es : List Expr} {i : Nat}
    (h : VisitsElem mode Γ es (mode.elemGoals goal es s) s i c g s₁) :
    (infer mode (tuple m es) Γ goal).Leaves s
      (fun e => e.children[i]? = some (infer mode c Γ g s₁).1.1) (infer mode c Γ g s₁).2 := by
  obtain ⟨d, ts, -, -, -, hgoals, hrun⟩ | ⟨hgoals, hrun⟩ := infer_tuple mode m Γ goal s es
  · rw [hgoals] at h
    refine .congr hrun (h.leaves.part (fun _ hes => hes) fun _ _ s₂ hes hs => ?_)
    exact .annotate fun _ => ⟨hes, hs⟩
  · rw [hgoals] at h
    refine .congr hrun (.settleLater (h.leaves.part (fun _ hes => hes) fun _ _ s₂ hes hs => ?_))
    exact .annotate fun _ => ⟨hes, hs⟩

end

/-! ## What is in scope at a visit -/

/-- A scheme is in the slot of a binder that is passed on the way to a part. -/
def Passes (e : Expr) (π : List Nat) (σ : Scheme) : Prop :=
  ∃ κ i c b, κ ++ [i] <+: π ∧ e.at? κ = some c ∧ c.binder? = some b ∧ b.scheme = .filled σ

/-- The schemes of an environment are from another one, or are passed on the way to a part. -/
def Scope (Γ : Env) (π : List Nat) (Γ' : Env) (e : Expr) : Prop :=
  ∀ x σ, Γ'.lookup? x = some σ → Γ.lookup? x = some σ ∨ e.Passes π σ

section

variable {Γ Γ' : Env} {π : List Nat} {e c : Expr} {i : Nat} {σ : Scheme}

theorem at?_cons_of_part (hc : e.children[i]? = some c) : e.at? (i :: π) = c.at? π := by
  rw [at?, hc]

/-- A binder that is passed in a part is passed on the way through the part. -/
theorem Passes.part (h : c.Passes π σ) (hc : e.children[i]? = some c) : e.Passes (i :: π) σ := by
  obtain ⟨κ, j, c', b, hκ, hat, hb, hσ⟩ := h
  have hat' : e.at? (i :: κ) = some c' := (at?_cons_of_part hc).trans hat
  exact ⟨i :: κ, j, c', b, List.cons_prefix_cons.2 ⟨rfl, hκ⟩, hat', hb, hσ⟩

/-- What is in scope in a part is in scope on the way through the part, if the node binds nothing
there. -/
theorem Scope.part (h : Scope Γ π Γ' c) (hc : e.children[i]? = some c) :
    Scope Γ (i :: π) Γ' e :=
  fun x σ hx => (h x σ hx).imp_right fun hpass => hpass.part hc

/-- In a body the scheme of the binder is in scope as well. -/
theorem Scope.body {x : String} (h : Scope (Γ.extend x σ) π Γ' c) (hc : HasBody i c σ e) :
    Scope Γ (i :: π) Γ' e := by
  obtain ⟨hc, b, hb, hσ⟩ := hc
  intro y τ hy
  rcases h y τ hy with hy | hpass
  · obtain ⟨-, rfl⟩ | ⟨-, hy⟩ := Env.lookup?_extend_eq_some.1 hy
    · exact .inr ⟨[], i, e, b, ⟨π, rfl⟩, rfl, hb, hσ⟩
    · exact .inl hy
  · exact .inr (hpass.part hc)

variable {w w' : Walk Expr Ty} {s s₁ s' : Session}

/-- If the walk of a node leaves the tree of a part, then what is in scope at the part is in scope
below the node. -/
theorem leaves_part (hc : w'.Leaves s₁ (Scope Γ π Γ') s')
    (h : w.Leaves s (fun e => e.children[i]? = some (w' s₁).1.1) (w' s₁).2) :
    w.Leaves s (Scope Γ (i :: π) Γ') s' :=
  ⟨hc.1.part h.1, Subst.le_trans hc.2 h.2⟩

theorem leaves_hasBody {x : String} (hc : w'.Leaves s₁ (Scope (Γ.extend x σ) π Γ') s')
    (h : w.Leaves s (HasBody i (w' s₁).1.1 σ) (w' s₁).2) : w.Leaves s (Scope Γ (i :: π) Γ') s' :=
  ⟨hc.1.body h.1, Subst.le_trans hc.2 h.2⟩

end

/-- At a visit the schemes in scope are in the tree that is left, and what is solved stays so. -/
theorem Visits.leaves {mode : Mode} {e : Expr} {Γ Γ' : Env} {goal : Goal} {s s' : Session}
    {π : List Nat} (h : e.Visits mode Γ goal s π Γ' s') :
    (infer mode e Γ goal).Leaves s (Scope Γ π Γ') s' := by
  induction h with
  | @here e Γ goal s => exact ⟨fun _ _ hx => .inl hx, (extends_infer mode e Γ goal s).le⟩
  | lam hgoal ht hp _ ih => exact leaves_hasBody ih (leaves_lam hgoal ht hp)
  | lamAgainst hgoal hfn ht hp _ ih => exact leaves_hasBody ih (leaves_lamAgainst hgoal hfn ht hp)
  | callee _ ih => exact leaves_part ih leaves_callee
  | argument hf _ ih => exact leaves_part ih (leaves_argument hf rfl)
  | bound hg _ ih => exact leaves_part ih (leaves_bound hg)
  | body hd _ ih => exact leaves_hasBody ih (leaves_body hd (scheme_of_bind hd))
  | test _ ih => exact leaves_part ih leaves_test
  | yes hc _ ih => exact leaves_part ih (leaves_yes hc)
  | no hc hy _ ih => exact leaves_part ih (leaves_no hc hy)
  | inner ha _ ih => exact leaves_part ih (leaves_inner ha)
  | elem hes _ ih => exact leaves_part ih (leaves_elem hes)

end Expr

/-! ## Visits of a program -/

namespace Program

/-- The run of a program in an environment, from a session, comes to the expression at a place in an
environment and with a session. -/
inductive Visits (mode : Mode) : Program → Env → Session → Place → Env → Session → Prop where
  | head {d : Decl} {ds : Program} {Γ Γ' : Env} {g : Goal} {s s₁ s' : Session} {π : List Nat}
      (hg : Infer.boundGoal d.binder s = (.ok g, s₁)) (hd : d.bound.Visits mode Γ g s₁ π Γ' s') :
      Visits mode (d :: ds) Γ s (0 :: π) Γ' s'
  | tail {d : Decl} {ds : Program} {b : Binder} {e : Expr} {Γ Γ' : Env} {s s₁ s' : Session}
      {σ : Scheme} {i : Nat} {π : List Nat}
      (hd : Infer.bind d.binder d.bound (d.bound.infer mode) Γ s = (((b, e), .ok σ), s₁))
      (h : Visits mode ds (Γ.extend d.binder.name σ)
        { s₁ with log := .inferred d.binder.name σ :: s₁.log } (i :: π) Γ' s') :
      Visits mode (d :: ds) Γ s ((i + 1) :: π) Γ' s'

/-- A scheme belongs to an earlier declaration, or is passed on the way to a place. -/
inductive Passes (p : Program) : Place → Scheme → Prop where
  | decl {i j : Nat} {π : List Nat} {d : Decl} {σ : Scheme} (hj : j < i) (hd : p[j]? = some d)
      (hσ : d.binder.scheme = .filled σ) : Passes p (i :: π) σ
  | part {i : Nat} {π : List Nat} {d : Decl} {σ : Scheme} (hd : p[i]? = some d)
      (h : d.bound.Passes π σ) : Passes p (i :: π) σ

/-- The schemes of an environment are from another one, or are passed on the way to a place. -/
def Scope (Γ : Env) (κ : Place) (Γ' : Env) (p : Program) : Prop :=
  ∀ x σ, Γ'.lookup? x = some σ → Γ.lookup? x = some σ ∨ p.Passes κ σ

variable {Γ Γ' : Env} {i : Nat} {π : List Nat} {σ : Scheme} {d : Decl} {p : Program}

/-- What is passed in the rest of a program is passed in the program. -/
theorem Passes.cons (h : p.Passes (i :: π) σ) : Passes (d :: p) ((i + 1) :: π) σ := by
  cases h with
  | decl hj hd hσ => exact .decl (Nat.succ_lt_succ hj) hd hσ
  | part hd h => exact .part hd h

theorem Scope.head (h : Expr.Scope Γ π Γ' d.bound) : Scope Γ (0 :: π) Γ' (d :: p) :=
  fun x σ hx => (h x σ hx).imp_right fun hpass => .part rfl hpass

/-- Behind a declaration its scheme is in scope. -/
theorem Scope.tail {x : String} (h : Scope (Γ.extend x σ) (i :: π) Γ' p)
    (hσ : d.binder.scheme = .filled σ) : Scope Γ ((i + 1) :: π) Γ' (d :: p) := by
  intro y τ hy
  rcases h y τ hy with hy | hpass
  · obtain ⟨-, rfl⟩ | ⟨-, hy⟩ := Env.lookup?_extend_eq_some.1 hy
    · exact .inr (.decl (Nat.succ_pos i) rfl hσ)
    · exact .inl hy
  · exact .inr hpass.cons

/-- At a visit the schemes in scope are in the program that is left, and what is solved stays
solved. -/
theorem Visits.leaves {mode : Mode} {κ : Place} {s s' : Session}
    (h : p.Visits mode Γ s κ Γ' s') : (Program.infer mode p Γ).Leaves s (Scope Γ κ Γ') s' := by
  induction h with
  | @head d ds Γ Γ' g s s₁ s' π hg hd =>
    have hbind : (Infer.bind d.binder d.bound (d.bound.infer mode) Γ).Leaves s
        (fun q => Expr.Scope Γ π Γ' q.2) s' := by
      obtain ⟨htree, hle⟩ := @Expr.leaves_bind d.binder d.bound Γ g s s₁ (d.bound.infer mode) hg
      exact ⟨Eq.subst htree.symm hd.leaves.1, Subst.le_trans hd.leaves.2 hle⟩
    rw [Program.infer]
    refine hbind.part (fun q hq => .head hq) fun q σ s₂ hq hs => .log ?_
    exact .later (Program.extends_infer mode ds _) hs (fun _ => .head hq) fun _ _ s₃ hs =>
      ⟨.head hq, hs⟩
  | @tail d ds b e Γ Γ' s s₁ s' σ i π hd _ ih =>
    have hb : b.scheme = .filled σ := Expr.scheme_of_bind hd
    rw [Program.infer]
    refine .after hd (.log ?_)
    exact ih.part (fun _ hds => .tail hds hb) fun _ _ s₂ hds hs => ⟨.tail hds hb, hs⟩

end Program

end LetPoly
