import LetPoly.Proofs.Sessions
import LetPoly.Proofs.Trees
import LetPoly.Proofs.Walks

/-!
# Growth of sessions

Whatever a walk does, what has been solved stays solved, and only what is solved is logged as
solved.  The log only grows, and nothing in it reports a diagnostic.  This needs no assumption on
the session or the tree, so it is shown by going through the rules once.
-/

namespace LetPoly

/-! ## Sessions -/

/-- What was solved stays solved, and what is newly logged as solved is solved. -/
structure Session.Extends (s s' : Session) : Prop where
  /-- Solved variables stay solved. -/
  le : s.subst ≤ s'.subst
  /-- Variables that are logged as solved are solved. -/
  logged : ∀ v t, .solved v t ∈ s'.log → .solved v t ∈ s.log ∨ s'.subst.get? v = some t
  /-- The log grows, and what is new in it are no diagnostics. -/
  quiet : ∃ es : List Event, s'.log = es ++ s.log ∧ ∀ e ∈ es, e.diagnostics? = none

namespace Session.Extends

variable {s s' s'' : Session}

/-- Drawing variables changes neither what is solved nor the log. -/
theorem of_draw (s : Session) (n : Supply) : s.Extends { s with drawn := n } :=
  ⟨Subst.le_refl _, fun _ _ => .inl, [], rfl, nofun⟩

theorem refl (s : Session) : s.Extends s := of_draw s s.drawn

/-- Extensions of extensions are extensions. -/
theorem trans (h : s.Extends s') (h' : s'.Extends s'') : s.Extends s'' where
  le := Subst.le_trans h.le h'.le
  logged v t ht := by
    rcases h'.logged v t ht with ht | ht
    · exact (h.logged v t ht).imp_right (h'.le v t)
    · exact .inr ht
  quiet := by
    obtain ⟨es, heq, hes⟩ := h.quiet
    obtain ⟨es', heq', hes'⟩ := h'.quiet
    refine ⟨es' ++ es, by rw [heq', heq, List.append_assoc], fun e he => ?_⟩
    exact (List.mem_append.1 he).elim (hes' e) (hes e)

end Session.Extends

namespace Unify

/-- What was added to a substitution is in it. -/
def Tracked (x : Extension) : Prop := ∀ b ∈ x.added, x.subst.get? b.1 = some b.2

/-- A new solution is for a variable without one, so that no solution is lost. -/
theorem Tracked.bind {x x' : Extension} {v : TyVar} {t : Ty} (h : Tracked x)
    (hb : x.bind v t = .ok x') : x.subst ≤ x'.subst ∧ Tracked x' := by
  unfold Extension.bind at hb
  cases hs : x.subst.bind v t with
  | error e =>
    rw [hs] at hb
    cases hb
  | ok s =>
    rw [hs] at hb
    cases hb
    have hle := Subst.le_of_bind hs
    refine ⟨hle, fun b hmem => ?_⟩
    rcases List.mem_cons.1 hmem with rfl | hmem
    · exact (Subst.get?_of_bind_eq_ok hs v).trans (if_pos rfl)
    · exact hle _ _ (h b hmem)

/-- Solving equations never undoes a binding. -/
theorem solve_tracked (n : Nat) (pairs : List (Ty × Ty)) {x : Extension} (hx : Tracked x) :
    x.subst ≤ (solve n pairs x).2.subst ∧ Tracked (solve n pairs x).2 := by
  induction n generalizing pairs x with
  | zero =>
    unfold solve
    split
    · exact ⟨Subst.le_refl _, hx⟩
    · split
      · exact ⟨Subst.le_refl _, hx⟩
      · split
        · exact ⟨Subst.le_refl _, hx⟩
        · exact hx.bind ‹_›
  | succ n ih =>
    unfold solve
    split
    · exact ⟨Subst.le_refl _, hx⟩
    · split
      · exact ⟨Subst.le_refl _, hx⟩
      · split
        · exact ⟨Subst.le_refl _, hx⟩
        · obtain ⟨hle, hx'⟩ := hx.bind ‹_›
          obtain ⟨hle', hsolved⟩ := ih _ hx'
          exact ⟨Subst.le_trans hle hle', hsolved⟩

end Unify

/-! ## Acts -/

/-- An act only extends sessions. -/
def Act.Extends {α : Type} (a : Act α) : Prop := ∀ s : Session, s.Extends (a s).2

namespace Act

variable {α β : Type} {a : Act α}

theorem extends_draw {f : StateM Supply α} : (draw f).Extends := fun s => .of_draw s _

theorem extends_pure {x : α} : Act.Extends (pure x : Act α) := Session.Extends.refl

/-- Acts in sequence only add to a session, if each of them does. -/
theorem Extends.bind {f : α → Act β} (h : a.Extends) (hf : ∀ x, (f x).Extends) :
    Act.Extends (a >>= f) := by
  intro s
  have hs := h s
  simp only [Bind.bind, ExceptT.bind, ExceptT.mk, StateT.bind, ExceptT.bindCont]
  cases hr : a s with
  | mk r s₁ =>
    rw [hr] at hs
    cases r with
    | ok x => exact hs.trans (hf x s₁)
    | error f => exact hs

theorem Extends.map {f : α → β} (h : a.Extends) : Act.Extends (f <$> a) := by
  rw [← bind_pure_comp]
  exact h.bind fun _ => extends_pure

theorem extends_fresh : Act.fresh.Extends := extends_draw.map

theorem extends_instantiate {σ : Scheme} : (instantiate σ).Extends := fun s => .of_draw s _

/-- Unification only adds solutions, and logs each of them. -/
theorem extends_unify {because : Because} {span : Span} {t u : Ty} :
    (Act.unify because span t u).Extends := by
  intro s
  obtain ⟨hle, htracked⟩ := Unify.solve_tracked
    ((s.subst.apply t).occurrences.length + (s.subst.apply u).occurrences.length) [(t, u)]
    (x := .start s.subst) nofun
  refine ⟨hle, fun v r hmem => ?_, _, rfl, fun e he => ?_⟩
  · rcases List.mem_append.1 hmem with hmem | hmem
    · obtain ⟨b, hb, heq⟩ := List.mem_map.1 hmem
      cases heq
      exact .inr (htracked b hb)
    · exact .inl hmem
  · obtain ⟨b, -, rfl⟩ := List.mem_map.1 he
    rfl

end Act

/-! ## Walks -/

/-- A walk only extends sessions. -/
def Walk.Extends {τ α : Type} (w : Walk τ α) : Prop :=
  ∀ s : Session, s.Extends (w s).2

namespace Walk

variable {τ υ α β : Type} {w : Walk τ α}

theorem extends_done {t : τ} {a : α} : (done t a).Extends := Session.Extends.refl

theorem extends_annotate {expr : Mark → Expr} {m : Mark} {t : Ty} : (annotate expr m t).Extends :=
  Session.Extends.refl

/-- A walk that goes on with a second one only adds to a session, also if it stops in between. -/
theorem Extends.andThen {stopped : τ → υ} {next : τ → α → Walk υ β} (h : w.Extends)
    (hnext : ∀ t a, (next t a).Extends) : (w.andThen stopped next).Extends := by
  intro s
  have hs := h s
  unfold Walk.andThen
  split
  · rename_i heq
    rw [heq] at hs
    exact hs.trans (hnext _ _ _)
  · rename_i heq
    rw [heq] at hs
    exact hs

/-- An act at the beginning of a walk adds first, and then the walk. -/
theorem extends_act {a : Act α} {stopped : υ} {next : α → Walk υ β} (h : a.Extends)
    (hnext : ∀ x, (next x).Extends) : (Walk.act a stopped next).Extends := by
  intro s
  have hs := h s
  unfold Walk.act
  split
  · rename_i heq
    rw [heq] at hs
    exact hs.trans (hnext _ _)
  · rename_i heq
    rw [heq] at hs
    exact hs

/-- Events other than solutions and reports can be logged at any time. -/
theorem extends_log {e : Event} {next : Walk υ β} (he : ∀ v t, e ≠ .solved v t)
    (hquiet : e.diagnostics? = none) (h : next.Extends) : (Walk.log e next).Extends := by
  intro s
  have hlog : s.Extends { s with log := e :: s.log } := by
    refine ⟨Subst.le_refl _, fun v t hmem => ?_, [e], rfl, List.forall_mem_singleton.2 hquiet⟩
    rcases List.mem_cons.1 hmem with heq | hmem
    · exact absurd heq.symm (he v t)
    · exact .inl hmem
  exact hlog.trans (h _)

/-- A scheme is filled in without a change of the session. -/
theorem extends_fillBinder {b : Binder} {σ : Scheme} {stopped : Binder → υ}
    {next : Binder → Walk υ β}
    (h : ∀ b, (next b).Extends) : (Walk.fillBinder b σ stopped next).Extends := by
  unfold Walk.fillBinder
  dsimp only
  split
  · exact h _
  · exact Session.Extends.refl

end Walk

/-! ## Rules -/

/-- A goal is settled by a unification after the walk. -/
theorem Goal.extends_settle (goal : Goal) (span : Span) {w : Walk Expr Ty} (h : w.Extends) :
    (goal.settle span w).Extends := by
  cases goal with
  | none => exact h
  | some d =>
    exact h.andThen fun _ _ => Walk.extends_act Act.extends_unify fun _ => Walk.extends_done

/-- A walk of an expression only extends sessions. -/
def ExprWalk.Extends (w : ExprWalk) : Prop := ∀ Γ goal, (w Γ goal).Extends

namespace Infer

/-- A name draws variables for an instance of its scheme, if it is in scope. -/
theorem extends_name {m : Mark} {x : String} {Γ : Env} : (name m x Γ).Extends := by
  unfold name
  split
  · exact Walk.extends_act Act.extends_instantiate fun _ => Walk.extends_annotate
  · exact Session.Extends.refl

theorem extends_paramTy (p : Binder) : (paramTy p).Extends := by
  unfold paramTy
  split
  · exact Act.extends_draw
  · exact Act.extends_fresh

theorem extends_paramTyAgainst (p : Binder) (t : Ty) : (paramTyAgainst p t).Extends := by
  unfold paramTyAgainst
  split
  · exact Act.extends_draw.bind fun _ => Act.extends_unify.bind fun _ => Act.extends_pure
  · exact Act.extends_pure

theorem extends_annotated (a : TypeExpr) : (annotated a).Extends :=
  Act.extends_draw.bind fun _ => Act.extends_pure

/-- The annotation of a bound name is lowered, which draws variables only. -/
theorem extends_boundGoal (b : Binder) : (boundGoal b).Extends := by
  unfold boundGoal
  split
  · exact (extends_annotated _).map
  · exact Act.extends_pure

section

variable {m : Mark} {p : Binder} {b d e a y n : Expr} {body bound callee arg test yes no : ExprWalk}
  {Γ : Env} {c : Demand}

/-- A definition adds what its walk adds, and generalizing adds nothing. -/
theorem extends_bind (hbound : bound.Extends) : (bind p d bound Γ).Extends := by
  refine Walk.extends_act (extends_boundGoal p) fun goal => ?_
  refine (hbound Γ goal).andThen fun e t s => ?_
  exact Walk.extends_log (by nofun) rfl (Walk.extends_fillBinder fun b => Walk.extends_done) s

theorem extends_lam (hbody : body.Extends) : (lam m p b body Γ).Extends :=
  Walk.extends_act (extends_paramTy p) fun _ => Walk.extends_fillBinder fun _ =>
    (hbody _ _).andThen fun _ _ => Walk.extends_annotate

theorem extends_lamAgainst (hbody : body.Extends) (t u : Ty) :
    (lamAgainst m p b body Γ c t u).Extends :=
  Walk.extends_act (extends_paramTyAgainst p t) fun _ => Walk.extends_fillBinder fun _ =>
    (hbody _ _).andThen fun _ _ => Walk.extends_annotate

/-- A call adds what callee and argument add, and possibly a variable and solutions. -/
theorem extends_app (mode : Mode) (hcallee : callee.Extends) (harg : arg.Extends) :
    (app mode m a callee arg Γ).Extends := by
  refine (hcallee Γ none).andThen fun f t s => ?_
  cases calleeTy? mode t s with
  | some pr => exact ((harg Γ _).andThen fun _ _ => Walk.extends_annotate) s
  | none =>
    refine ((harg Γ none).andThen fun _ _ => ?_) s
    exact Walk.extends_act Act.extends_fresh fun _ => Walk.extends_act Act.extends_unify
      fun _ => Walk.extends_annotate

theorem extends_letIn (hbound : bound.Extends) (hbody : body.Extends) :
    (letIn m p d e bound body Γ).Extends :=
  (extends_bind hbound).andThen fun _ _ => (hbody _ _).andThen fun _ _ => Walk.extends_annotate

theorem extends_letInAgainst (hbound : bound.Extends) (hbody : body.Extends) :
    (letInAgainst m p d e bound body Γ c).Extends :=
  (extends_bind hbound).andThen fun _ _ => (hbody _ _).andThen fun _ _ => Walk.extends_annotate

/-- A conditional adds what its parts add, in both modes. -/
theorem extends_cond (mode : Mode) (htest : test.Extends) (hyes : yes.Extends) (hno : no.Extends) :
    (cond mode m y n test yes no Γ).Extends := by
  refine (htest Γ _).andThen fun _ _ => (hyes Γ none).andThen fun _ _ => ?_
  cases mode with
  | bottomUp =>
    exact (hno Γ none).andThen fun _ _ => Walk.extends_act Act.extends_unify
      fun _ => Walk.extends_annotate
  | topDown => exact (hno Γ _).andThen fun _ _ => Walk.extends_annotate

theorem extends_condAgainst (htest : test.Extends) (hyes : yes.Extends) (hno : no.Extends) :
    (condAgainst m y n test yes no Γ c).Extends :=
  (htest Γ _).andThen fun _ _ => (hyes Γ _).andThen fun _ _ => (hno Γ _).andThen fun _ _ =>
    Walk.extends_annotate

theorem extends_anno (hinner : body.Extends) (t : TypeExpr) : (anno m e t body Γ).Extends :=
  Walk.extends_act (extends_annotated t) fun _ => (hinner Γ _).andThen fun _ _ =>
    Walk.extends_annotate

end

end Infer

namespace Expr

/-- Elements add one after the other. -/
theorem extends_inferAll (mode : Mode) {es : List Expr} (h : ∀ e ∈ es, (infer mode e).Extends)
    (Γ : Env) (goals : List Goal) : (inferAll mode es Γ goals).Extends := by
  induction es generalizing goals with
  | nil =>
    rw [inferAll]
    exact Walk.extends_done
  | cons e es ih =>
    rw [inferAll]
    exact (h e (List.mem_cons_self ..) Γ _).andThen fun _ _ =>
      (ih (fun d hd => h d (List.mem_cons_of_mem e hd)) _).andThen fun _ _ => Walk.extends_done

/-- Inference only extends sessions. -/
theorem extends_infer (mode : Mode) (e : Expr) : (infer mode e).Extends := by
  induction e using Expr.inductionOn with
  | lit m l =>
    intro Γ goal
    rw [infer]
    exact goal.extends_settle _ (Walk.extends_annotate)
  | name m x =>
    intro Γ goal
    rw [infer]
    exact goal.extends_settle _ Infer.extends_name
  | lam m p b ih =>
    intro Γ goal s
    obtain ⟨d, t, u, -, -, hrun⟩ | ⟨-, hrun⟩ := infer_lam mode m Γ goal s p b
    · rw [hrun]
      exact Infer.extends_lamAgainst ih t u s
    · rw [hrun]
      exact goal.extends_settle _ (Infer.extends_lam ih) s
  | app m f a ihf iha =>
    intro Γ goal
    rw [infer]
    exact goal.extends_settle _ (Infer.extends_app mode ihf iha)
  | letIn m b d e ihd ihe =>
    intro Γ goal s
    obtain ⟨c, -, hrun⟩ | ⟨-, hrun⟩ := infer_letIn mode m Γ goal s b d e
    · rw [hrun]
      exact Infer.extends_letInAgainst ihd ihe s
    · rw [hrun]
      exact goal.extends_settle _ (Infer.extends_letIn ihd ihe) s
  | cond m c y n ihc ihy ihn =>
    intro Γ goal s
    obtain ⟨d, -, hrun⟩ | ⟨-, hrun⟩ := infer_cond mode m Γ goal s c y n
    · rw [hrun]
      exact Infer.extends_condAgainst ihc ihy ihn s
    · rw [hrun]
      exact goal.extends_settle _ (Infer.extends_cond mode ihc ihy ihn) s
  | anno m e a ih =>
    intro Γ goal
    rw [infer]
    exact goal.extends_settle _ (Infer.extends_anno ih a)
  | tuple m es ih =>
    intro Γ goal s
    have helems (goals : List Goal) := extends_inferAll mode ih Γ goals
    obtain ⟨d, ts, -, -, -, -, hrun⟩ | ⟨-, hrun⟩ := infer_tuple mode m Γ goal s es
    · rw [hrun]
      exact (helems _).andThen (fun _ _ => Walk.extends_annotate) s
    · rw [hrun]
      exact goal.extends_settle _ ((helems _).andThen fun _ _ => Walk.extends_annotate) s
  | invalid m =>
    intro Γ goal
    rw [infer]
    exact goal.extends_settle _ (Walk.extends_act Act.extends_fresh fun _ => Walk.extends_annotate)

end Expr

/-- Inferring the declarations of a program only adds to a session. -/
theorem Program.extends_infer (mode : Mode) (p : Program) (Γ : Env) :
    (Program.infer mode p Γ).Extends := by
  induction p generalizing Γ with
  | nil => exact Walk.extends_done
  | cons d ds ih =>
    rw [Program.infer]
    exact (Infer.extends_bind (d.bound.extends_infer mode)).andThen fun _ _ =>
      Walk.extends_log (by nofun) rfl ((ih _).andThen fun _ _ => Walk.extends_done)

end LetPoly
