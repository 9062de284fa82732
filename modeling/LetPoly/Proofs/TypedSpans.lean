import LetPoly.Proofs.ParsedSpans
import LetPoly.Proofs.Phases
import LetPoly.Proofs.Renaming

/-!
# Typing trees in other files

Inference looks at the places of a tree only to say where an error is.  So if all files get other
numbers then inference finds the same types in the same way, and its errors are the same with these
numbers.

A walk and its counterpart are run side by side, from a session and from the session with the files
of its log renumbered.  There is one lemma for each rule.
-/

namespace LetPoly

/-! ## Events and demands -/

/-- An event with other numbers for files. -/
def Event.renumber (φ : FileId → FileId) : Event → Event
  | checking name file => checking name (φ file)
  | lexing file => lexing (φ file)
  | lexed file => lexed (φ file)
  | parsing file => parsing (φ file)
  | parsed file => parsed (φ file)
  | failed e => failed (e.mapSpans (.renumber φ))
  | reported ds => reported (ds.map (Diagnostic.mapSpans (.renumber φ)))
  | e => e

/-- A session whose log has other numbers for files. -/
def Session.renumber (φ : FileId → FileId) (s : Session) : Session :=
  { s with log := s.log.map (Event.renumber φ) }

/-- A reason with the spans it mentions moved. -/
def Because.mapSpans (g : Span → Span) : Because → Because
  | ascription anno => ascription (g anno)
  | branch cond => branch (g cond)
  | condition => condition
  | argument => argument

/-- A demand with the spans of its reason moved. -/
def Demand.mapSpans (g : Span → Span) (d : Demand) : Demand :=
  { d with because := d.because.mapSpans g }

/-- The result of a computation with other numbers for files. -/
def renumberResult {α : Type} (φ : FileId → FileId) (k : α → α) :
    Except (Fault TypeError) α → Except (Fault TypeError) α
  | .ok a => .ok (k a)
  | .error f => .error (f.mapError (TypeError.mapSpans (.renumber φ)))

variable {φ : FileId → FileId}

/-! ## Acts -/

/-- From a session and the renumbered session both acts do the same. -/
def Act.Moves {α : Type} (φ : FileId → FileId) (k : α → α) (a a' : Act α) : Prop :=
  ∀ s, a' (s.renumber φ) = Prod.map (renumberResult φ k) (Session.renumber φ) (a s)

namespace Act

variable {α β : Type} {k : α → α}

/-- Acts in sequence move if each of them does, the second one from related values. -/
protected theorem Moves.bind {k' : β → β} {a a' : Act α} {next next' : α → Act β}
    (ha : Moves φ k a a') (hnext : ∀ x, Moves φ k' (next x) (next' (k x))) :
    Moves φ k' (a >>= next) (a' >>= next') := by
  intro s
  simp only [bind, ExceptT.bind, ExceptT.mk, StateT.bind, ExceptT.bindCont, ha s]
  obtain ⟨f | x, s₁⟩ := a s
  · rfl
  · exact hnext x s₁

/-- The supply does not mention files, so drawing from it does the same in both sessions. -/
theorem moves_draw (f : StateM Supply α) : Moves φ id (draw f) (draw f) := by
  intro s
  rfl

theorem moves_fresh : Moves φ id fresh fresh := by
  intro s
  rfl

theorem moves_instantiate (σ : Scheme) : Moves φ id (instantiate σ) (instantiate σ) := by
  intro s
  simp only [instantiate, Session.renumber]
  generalize σ.instantiate s.drawn = r
  obtain ⟨d | t, n⟩ := r <;> rfl

/-- Unification depends on a place and a reason only in the error it reports, which has the new
numbers. -/
theorem moves_unify (because : Because) (span : Span) (t u : Ty) :
    Moves φ id (unify because span t u)
      (unify (because.mapSpans (.renumber φ)) (span.renumber φ) t u) := by
  intro s
  have hlog (xs : List (TyVar × Ty)) : (xs.map fun b => Event.solved b.1 b.2).map (.renumber φ) =
      xs.map fun b => Event.solved b.1 b.2 := by
    simp [Event.renumber]
  simp only [unify, Session.renumber, Prod.map, List.map_append, hlog]
  generalize LetPoly.unify t u s.subst = r
  obtain ⟨f | a, x⟩ := r
  · obtain e | d := f
    · cases e <;> cases because <;> rfl
    · rfl
  · rfl

end Act

/-! ## Walks -/

/-- From a session and the renumbered session both walks do the same, and the trees they leave
behind are related. -/
def Walk.Moves {τ α : Type} (φ : FileId → FileId) (h : τ → τ) (w w' : Walk τ α) : Prop :=
  ∀ s, w' (s.renumber φ) =
    Prod.map (Prod.map h (renumberResult φ id)) (Session.renumber φ) (w s)

namespace Walk.Moves

variable {τ υ α β : Type} {h : τ → τ} {h' : υ → υ}

protected theorem done (t : τ) (a : α) : Moves φ h (done t a) (done (h t) a) := by
  intro s
  rfl

/-- A walk that goes on with a second one moves if both do, and also if it stops in between. -/
protected theorem andThen {w w' : Walk τ α} {stopped stopped' : τ → υ}
    {next next' : τ → α → Walk υ β} (hw : Moves φ h w w')
    (hstopped : ∀ t, stopped' (h t) = h' (stopped t))
    (hnext : ∀ t a, Moves φ h' (next t a) (next' (h t) a)) :
    Moves φ h' (w.andThen stopped next) (w'.andThen stopped' next') := by
  intro s
  simp only [andThen, hw s]
  obtain ⟨⟨t, f | a⟩, s₁⟩ := w s
  · simp [renumberResult, hstopped]
  · exact hnext t a s₁

/-- An act at the beginning of a walk moves with what follows it. -/
protected theorem act {k : α → α} {a a' : Act α} {stopped stopped' : υ}
    {next next' : α → Walk υ β} (ha : Act.Moves φ k a a') (hstopped : stopped' = h' stopped)
    (hnext : ∀ x, Moves φ h' (next x) (next' (k x))) :
    Moves φ h' (act a stopped next) (act a' stopped' next') := by
  intro s
  simp only [act, ha s]
  obtain ⟨f | x, s₁⟩ := a s
  · simp [renumberResult, hstopped]
  · exact hnext x s₁

/-- An event that mentions no file is logged in both sessions. -/
protected theorem log {e : Event} {next next' : Walk υ β} (he : e.renumber φ = e)
    (hnext : Moves φ h' next next') : Moves φ h' (log e next) (log e next') := by
  intro s
  have := hnext { s with log := e :: s.log }
  simpa [log, Session.renumber, he] using this

/-- Filling the scheme of a binder keeps its place, whether the slot was empty or not. -/
protected theorem fillBinder {b : Binder} {σ : Scheme} {stopped stopped' : Binder → υ}
    {next next' : Binder → Walk υ β}
    (hstopped : ∀ b, stopped' (b.mapSpans (.renumber φ)) = h' (stopped b))
    (hnext : ∀ b, Moves φ h' (next b) (next' (b.mapSpans (.renumber φ)))) :
    Moves φ h' (fillBinder b σ stopped next)
      (fillBinder (b.mapSpans (.renumber φ)) σ stopped' next') := by
  intro s
  simp only [fillBinder, Binder.mapSpans]
  generalize b.scheme.fill σ = r
  obtain ⟨d | u, slot⟩ := r
  · have hbinder := hstopped { b with scheme := slot }
    simp only [Binder.mapSpans] at hbinder
    simp [hbinder, renumberResult, Fault.mapError]
  · exact hnext { b with scheme := slot } s

/-- Filling the type of a node keeps its place, whether the slot was empty or not. -/
protected theorem annotate {expr expr' : Mark → Expr} {m : Mark} {t : Ty}
    (h : ∀ m, expr' (m.mapSpans (.renumber φ)) = (expr m).mapSpans (.renumber φ)) :
    Moves φ (Expr.mapSpans (.renumber φ)) (annotate expr m t)
      (annotate expr' (m.mapSpans (.renumber φ)) t) := by
  intro s
  have hsubst : (s.renumber φ).subst = s.subst := rfl
  simp only [annotate, hsubst, Mark.mapSpans]
  generalize m.ty.fill (s.subst.apply t) = r
  have hexpr := h { m with ty := r.2 }
  simp only [Mark.mapSpans] at hexpr
  obtain ⟨d | u, slot⟩ := r <;> simp [hexpr, renumberResult, Except.mapError, Except.map,
    Fault.mapError]

end Walk.Moves

/-! ## Rules -/

/-- The walks of an expression and of the expression in other files, for every goal. -/
def ExprWalk.Moves (φ : FileId → FileId) (w w' : ExprWalk) : Prop :=
  ∀ env goal, Walk.Moves φ (Expr.mapSpans (.renumber φ)) (w env goal)
    (w' env (goal.map (Demand.mapSpans (.renumber φ))))

/-- A goal is checked at the new place, for the reason with the new numbers. -/
theorem Goal.moves_settle (goal : Goal) {span span' : Span} {w w' : Walk Expr Ty}
    (hspan : span' = span.renumber φ) (hw : Walk.Moves φ (Expr.mapSpans (.renumber φ)) w w') :
    Walk.Moves φ (Expr.mapSpans (.renumber φ)) (goal.settle span w)
      (Goal.settle (goal.map (Demand.mapSpans (.renumber φ))) span' w') := by
  subst hspan
  cases goal with
  | none => exact hw
  | some d =>
    refine hw.andThen (fun _ => rfl) fun e t => ?_
    exact .act (Act.moves_unify d.because span d.expected t) rfl fun _ => .done e t

namespace Infer

/-- A name that is not in scope is reported at the new place. -/
theorem moves_name (m : Mark) (x : String) (env : Env) :
    Walk.Moves φ (Expr.mapSpans (.renumber φ)) (name m x env)
      (name (m.mapSpans (.renumber φ)) x env) := by
  unfold name
  cases env.lookup? x with
  | none =>
    intro s
    rfl
  | some σ => exact .act (Act.moves_instantiate σ) rfl fun t => .annotate fun _ => rfl

/-- The type of a parameter is that of its annotation, wherever it stands, or a fresh variable. -/
theorem moves_paramTy (p : Binder) :
    Act.Moves φ id (paramTy p) (paramTy (p.mapSpans (.renumber φ))) := by
  unfold paramTy Binder.mapSpans
  cases p.anno with
  | none => exact Act.moves_fresh
  | some anno =>
    simp only [Option.map_some, TypeExpr.lower_mapSpans]
    exact Act.moves_draw _

/-- An annotation demands the same type, and the reason is its new place. -/
theorem moves_annotated (anno : TypeExpr) :
    Act.Moves φ (Demand.mapSpans (.renumber φ)) (annotated anno)
      (annotated (anno.mapSpans (.renumber φ))) := by
  intro s
  simp only [annotated, TypeExpr.lower_mapSpans, TypeExpr.span_mapSpans]
  rfl

theorem moves_boundGoal (b : Binder) :
    Act.Moves φ (Option.map (Demand.mapSpans (.renumber φ))) (boundGoal b)
      (boundGoal (b.mapSpans (.renumber φ))) := by
  unfold boundGoal Binder.mapSpans
  cases b.anno with
  | none =>
    intro s
    rfl
  | some anno =>
    intro s
    simp only [Option.map_some, annotated, TypeExpr.lower_mapSpans, TypeExpr.span_mapSpans]
    rfl

/-- Where the type of a parameter is known, its annotation is checked at the new place. -/
theorem moves_paramTyAgainst (p : Binder) (t : Ty) :
    Act.Moves φ id (paramTyAgainst p t) (paramTyAgainst (p.mapSpans (.renumber φ)) t) := by
  unfold paramTyAgainst Binder.mapSpans
  cases p.anno with
  | none =>
    intro s
    rfl
  | some anno =>
    simp only [Option.map_some, TypeExpr.lower_mapSpans, TypeExpr.span_mapSpans]
    refine (Act.moves_draw anno.lower).bind fun a => ?_
    refine (Act.moves_unify (.ascription anno.span) p.span a t).bind fun _ => ?_
    intro s
    rfl

/-- What a name is bound to moves if its definition does, and the scheme is the same. -/
theorem moves_bind {bound bound' : ExprWalk} (b : Binder) (e : Expr)
    (hbound : bound.Moves φ bound') (env : Env) :
    Walk.Moves φ (Prod.map (Binder.mapSpans (.renumber φ)) (Expr.mapSpans (.renumber φ)))
      (bind b e bound env)
      (bind (b.mapSpans (.renumber φ)) (e.mapSpans (.renumber φ)) bound' env) := by
  refine .act (moves_boundGoal b) rfl fun goal => ?_
  refine (hbound env goal).andThen (fun _ => rfl) fun e t s => ?_
  cases goal <;> refine Walk.Moves.log ?_ ?_ s
  all_goals first | rfl | exact .fillBinder (fun _ => rfl) fun _ => .done _ _

variable {body body' callee callee' arg arg' bound bound' test test' yes yes' no no' : ExprWalk}

/-- A function moves if its body does. -/
theorem moves_lam (m : Mark) (p : Binder) (b : Expr) (hbody : body.Moves φ body') (env : Env) :
    Walk.Moves φ (Expr.mapSpans (.renumber φ)) (lam m p b body env)
      (lam (m.mapSpans (.renumber φ)) (p.mapSpans (.renumber φ)) (b.mapSpans (.renumber φ))
        body' env) := by
  refine .act (moves_paramTy p) rfl fun t => ?_
  refine .fillBinder (fun _ => rfl) fun p => ?_
  refine (hbody _ none).andThen (fun _ => rfl) fun b u => ?_
  exact .annotate fun _ => rfl

/-- A function of which the type is known moves if its body does. -/
theorem moves_lamAgainst (m : Mark) (p : Binder) (b : Expr) (hbody : body.Moves φ body')
    (env : Env) (d : Demand) (t u : Ty) :
    Walk.Moves φ (Expr.mapSpans (.renumber φ)) (lamAgainst m p b body env d t u)
      (lamAgainst (m.mapSpans (.renumber φ)) (p.mapSpans (.renumber φ))
        (b.mapSpans (.renumber φ)) body' env (d.mapSpans (.renumber φ)) t u) := by
  refine .act (moves_paramTyAgainst p t) rfl fun t => ?_
  refine .fillBinder (fun _ => rfl) fun p => ?_
  refine (hbody _ (some ⟨d.because, u⟩)).andThen (fun _ => rfl) fun b u => ?_
  exact .annotate fun _ => rfl

/-- A call moves if callee and argument do, whether the argument gets a demand or not. -/
theorem moves_app (mode : Mode) (m : Mark) (a : Expr) (hcallee : callee.Moves φ callee')
    (harg : arg.Moves φ arg') (env : Env) :
    Walk.Moves φ (Expr.mapSpans (.renumber φ)) (app mode m a callee arg env)
      (app mode (m.mapSpans (.renumber φ)) (a.mapSpans (.renumber φ)) callee' arg' env) := by
  refine (hcallee env none).andThen (fun _ => rfl) fun f t s => ?_
  have hcalleeTy : calleeTy? mode t (s.renumber φ) = calleeTy? mode t s := rfl
  simp only [hcalleeTy]
  cases calleeTy? mode t s with
  | none =>
    refine Walk.Moves.andThen (harg env none) ?_ ?_ s
    · intro a
      rfl
    · intro a u
      refine .act Act.moves_fresh rfl fun r => ?_
      exact .act (Act.moves_unify .argument m.span t (.fn u r)) rfl fun _ => .annotate fun _ => rfl
  | some r =>
    refine Walk.Moves.andThen (harg env (some ⟨.argument, r.1⟩)) ?_ ?_ s
    · intro a
      rfl
    · intro a u
      exact .annotate fun _ => rfl

/-- A local definition moves if the definition and the body do. -/
theorem moves_letIn (m : Mark) (b : Binder) (d e : Expr) (hbound : bound.Moves φ bound')
    (hbody : body.Moves φ body') (env : Env) :
    Walk.Moves φ (Expr.mapSpans (.renumber φ)) (letIn m b d e bound body env)
      (letIn (m.mapSpans (.renumber φ)) (b.mapSpans (.renumber φ)) (d.mapSpans (.renumber φ))
        (e.mapSpans (.renumber φ)) bound' body' env) := by
  refine (moves_bind b d hbound env).andThen (fun _ => rfl) fun bd σ => ?_
  refine (hbody _ none).andThen (fun _ => rfl) fun e t => ?_
  exact .annotate fun _ => rfl

theorem moves_letInAgainst (m : Mark) (b : Binder) (d e : Expr) (hbound : bound.Moves φ bound')
    (hbody : body.Moves φ body') (env : Env) (demand : Demand) :
    Walk.Moves φ (Expr.mapSpans (.renumber φ)) (letInAgainst m b d e bound body env demand)
      (letInAgainst (m.mapSpans (.renumber φ)) (b.mapSpans (.renumber φ))
        (d.mapSpans (.renumber φ)) (e.mapSpans (.renumber φ)) bound' body' env
        (demand.mapSpans (.renumber φ))) := by
  refine (moves_bind b d hbound env).andThen (fun _ => rfl) fun bd σ => ?_
  refine (hbody _ (some demand)).andThen (fun _ => rfl) fun e t => ?_
  exact .annotate fun _ => rfl

/-- A conditional moves if the test and the branches do.  The branches are compared in both modes
for the place of the conditional, which has its new number. -/
theorem moves_cond (mode : Mode) (m : Mark) (t e : Expr) (htest : test.Moves φ test')
    (hyes : yes.Moves φ yes') (hno : no.Moves φ no') (env : Env) :
    Walk.Moves φ (Expr.mapSpans (.renumber φ)) (cond mode m t e test yes no env)
      (cond mode (m.mapSpans (.renumber φ)) (t.mapSpans (.renumber φ)) (e.mapSpans (.renumber φ))
        test' yes' no' env) := by
  refine (htest env (some truthValue)).andThen (fun _ => rfl) fun c _ => ?_
  refine (hyes env none).andThen (fun _ => rfl) fun t a => ?_
  cases mode with
  | bottomUp =>
    refine (hno env none).andThen (fun _ => rfl) fun e b => ?_
    exact .act (Act.moves_unify (.branch m.span) m.span a b) rfl fun _ => .annotate fun _ => rfl
  | topDown p =>
    refine (hno env (some ⟨.branch m.span, a⟩)).andThen (fun _ => rfl) fun e b => ?_
    exact .annotate fun _ => rfl

/-- Against a demand the first branch gets the demand with its new numbers, the second one the same
type for the place of the conditional. -/
theorem moves_condAgainst (m : Mark) (t e : Expr) (htest : test.Moves φ test')
    (hyes : yes.Moves φ yes') (hno : no.Moves φ no') (env : Env) (d : Demand) :
    Walk.Moves φ (Expr.mapSpans (.renumber φ)) (condAgainst m t e test yes no env d)
      (condAgainst (m.mapSpans (.renumber φ)) (t.mapSpans (.renumber φ))
        (e.mapSpans (.renumber φ)) test' yes' no' env (d.mapSpans (.renumber φ))) := by
  refine (htest env (some truthValue)).andThen (fun _ => rfl) fun c _ => ?_
  refine (hyes env (some d)).andThen (fun _ => rfl) fun t _ => ?_
  refine (hno env (some ⟨.branch m.span, d.expected⟩)).andThen (fun _ => rfl) fun e _ => ?_
  exact .annotate fun _ => rfl

/-- An annotated expression moves if the expression does. -/
theorem moves_anno (m : Mark) (e : Expr) (a : TypeExpr) (hbody : body.Moves φ body')
    (env : Env) :
    Walk.Moves φ (Expr.mapSpans (.renumber φ)) (anno m e a body env)
      (anno (m.mapSpans (.renumber φ)) (e.mapSpans (.renumber φ)) (a.mapSpans (.renumber φ))
        body' env) := by
  refine .act (moves_annotated a) rfl fun d => ?_
  refine (hbody env (some d)).andThen (fun _ => rfl) fun e _ => ?_
  exact .annotate fun _ => rfl

/-- The walks of the elements of a tuple, for all goals. -/
def ElemsWalk.Moves (φ : FileId → FileId) (w w' : ElemsWalk) : Prop :=
  ∀ env goals, Walk.Moves φ (List.map (Expr.mapSpans (.renumber φ))) (w env goals)
    (w' env (goals.map (Option.map (Demand.mapSpans (.renumber φ)))))

variable {elems elems' : ElemsWalk}

/-- A tuple moves if its elements do. -/
theorem moves_tuple (m : Mark) (es : List Expr) (helems : elems.Moves φ elems') (env : Env) :
    Walk.Moves φ (Expr.mapSpans (.renumber φ)) (tuple m es elems env)
      (tuple (m.mapSpans (.renumber φ)) (es.map (Expr.mapSpans (.renumber φ))) elems' env) := by
  have hwalk := helems env (es.map fun _ => none)
  simp only [List.map_map, Function.comp_def, Option.map_none] at hwalk
  unfold tuple
  rw [List.map_map]
  refine hwalk.andThen (fun es => ?_) fun es ts => .annotate fun _ => ?_ <;> simp [Expr.mapSpans]

/-- A tuple moves against a demand if its elements do, each against a part of the demand. -/
theorem moves_tupleAgainst (m : Mark) (helems : elems.Moves φ elems') (env : Env) (d : Demand)
    (ts : List Ty) :
    Walk.Moves φ (Expr.mapSpans (.renumber φ)) (tupleAgainst m elems env d ts)
      (tupleAgainst (m.mapSpans (.renumber φ)) elems' env (d.mapSpans (.renumber φ)) ts) := by
  have hwalk := helems env (ts.map fun t => some ⟨d.because, t⟩)
  simp only [List.map_map, Function.comp_def, Option.map_some] at hwalk
  unfold tupleAgainst
  refine hwalk.andThen (fun es => ?_) fun es ts => .annotate fun _ => ?_ <;> simp [Expr.mapSpans]

theorem moves_invalid (m : Mark) :
    Walk.Moves φ (Expr.mapSpans (.renumber φ)) (invalid m)
      (invalid (m.mapSpans (.renumber φ))) :=
  .act Act.moves_fresh rfl fun _ => .annotate fun _ => rfl

end Infer

/-! ## Expressions -/

/-- Whether a demand is propagated depends on the kind of its reason, not on the places in it. -/
theorem Mode.propagates_mapSpans (mode : Mode) (b : Because) (g : Span → Span) :
    mode.propagates (b.mapSpans g) = mode.propagates b := by
  cases mode <;> cases b <;> rfl

/-- The demand that is pushed into an expression is the same with new numbers. -/
theorem Mode.pushed?_renumber (mode : Mode) (goal : Goal) (s : Session) :
    mode.pushed? (goal.map (Demand.mapSpans (.renumber φ))) (s.renumber φ) =
      (mode.pushed? goal s).map (Demand.mapSpans (.renumber φ)) := by
  cases goal with
  | none => rfl
  | some d =>
    simp only [pushed?, Option.map_some, Demand.mapSpans, propagates_mapSpans]
    split <;> rfl

namespace Expr

/-- Elements move one after the other, if each of them does. -/
theorem moves_inferAll {mode : Mode} {es : List Expr}
    (hes : ∀ e ∈ es, ExprWalk.Moves φ (infer mode e) (infer mode (e.mapSpans (.renumber φ)))) :
    Infer.ElemsWalk.Moves φ (inferAll mode es)
      (inferAll mode (es.map (mapSpans (.renumber φ)))) := by
  induction es with
  | nil =>
    intro env goals
    exact .done [] []
  | cons e es ih =>
    obtain ⟨he, hes⟩ := List.forall_mem_cons.1 hes
    intro env goals
    have hhead : (goals.map (Option.map (Demand.mapSpans (.renumber φ)))).headD none =
        (goals.headD none).map (Demand.mapSpans (.renumber φ)) := by
      cases goals <;> rfl
    simp only [inferAll, List.map_cons, hhead, ← List.map_tail]
    refine (he env _).andThen (fun _ => rfl) fun e t => ?_
    refine (ih hes env _).andThen (fun _ => rfl) fun es ts => ?_
    exact .done (e :: es) (t :: ts)

/-- Inference does not depend on the numbers of files. -/
theorem moves_infer (mode : Mode) (e : Expr) :
    ExprWalk.Moves φ (infer mode e) (infer mode (e.mapSpans (.renumber φ))) := by
  induction e using Expr.inductionOn with
  | lit m l => exact fun env goal => goal.moves_settle rfl (.annotate fun _ => rfl)
  | name m x => exact fun env goal => goal.moves_settle rfl (Infer.moves_name m x env)
  | lam m p b ih =>
    intro env goal s
    simp only [mapSpans, infer, mode.pushed?_renumber]
    cases mode.pushed? goal s with
    | none => exact goal.moves_settle rfl (Infer.moves_lam m p b ih env) s
    | some d =>
      cases hty : d.expected.fn? with
      | none =>
        simp only [Option.bind_some, Option.map_some, Demand.mapSpans, hty, Option.map_none]
        exact goal.moves_settle rfl (Infer.moves_lam m p b ih env) s
      | some r =>
        simp only [Option.bind_some, Option.map_some, Demand.mapSpans, hty]
        exact Infer.moves_lamAgainst m p b ih env d r.1 r.2 s
  | app m f a ihf iha =>
    exact fun env goal => goal.moves_settle rfl (Infer.moves_app mode m a ihf iha env)
  | letIn m b d e ihd ihe =>
    intro env goal s
    simp only [mapSpans, infer, mode.pushed?_renumber]
    cases mode.pushed? goal s with
    | none => exact goal.moves_settle rfl (Infer.moves_letIn m b d e ihd ihe env) s
    | some demand => exact Infer.moves_letInAgainst m b d e ihd ihe env demand s
  | cond m c t e ihc iht ihe =>
    intro env goal s
    have hbranch : mode.propagates (.branch (m.mapSpans (.renumber φ)).span) =
        mode.propagates (.branch m.span) := 
      mode.propagates_mapSpans (.branch m.span) (.renumber φ)
    simp only [mapSpans, infer, mode.pushed?_renumber, hbranch, Option.filter_map,
      Function.comp_def]
    cases (mode.pushed? goal s).filter fun _ => mode.propagates (.branch m.span) with
    | none => exact goal.moves_settle rfl (Infer.moves_cond mode m t e ihc iht ihe env) s
    | some d => exact Infer.moves_condAgainst m t e ihc iht ihe env d s
  | anno m e a ih =>
    exact fun env goal => goal.moves_settle rfl (Infer.moves_anno m e a ih env)
  | tuple m es ih =>
    intro env goal s
    have hall := moves_inferAll ih
    simp only [mapSpans, infer, mode.pushed?_renumber, mapSpansAll_eq_map, List.length_map]
    cases mode.pushed? goal s with
    | none => exact goal.moves_settle rfl (Infer.moves_tuple m es hall env) s
    | some d =>
      cases hty : d.expected.tuple?.filter fun ts => ts.length = es.length with
      | none =>
        simp only [Option.bind_some, Option.map_some, Demand.mapSpans, hty, Option.map_none]
        exact goal.moves_settle rfl (Infer.moves_tuple m es hall env) s
      | some ts =>
        simp only [Option.bind_some, Option.map_some, Demand.mapSpans, hty]
        exact Infer.moves_tupleAgainst m hall env d ts s
  | invalid m => exact fun env goal => goal.moves_settle rfl (Infer.moves_invalid m)

end Expr

/-! ## Programs -/

/-- Declarations are inferred one after the other, in the same environments. -/
theorem Program.moves_infer (mode : Mode) (p : Program) (env : Env) :
    Walk.Moves φ (Program.mapSpans (.renumber φ)) (infer mode p env)
      (infer mode (p.mapSpans (.renumber φ)) env) := by
  induction p generalizing env with
  | nil => exact .done [] ()
  | cons d p ih =>
    refine (Infer.moves_bind d.binder d.bound (d.bound.moves_infer mode) env).andThen
      (fun _ => rfl) fun be σ => ?_
    refine .log rfl ((ih _).andThen (fun _ => rfl) fun p _ => ?_)
    exact .done ({ d with binder := be.1, bound := be.2 } :: p) ()

/-- Slots and places are changed independently of each other. -/
theorem Expr.update_mapSpans (g : Span → Span) (f : Slot Ty → Slot Ty)
    (f' : Slot Scheme → Slot Scheme) (e : Expr) :
    (e.mapSpans g).update f f' = (e.update f f').mapSpans g := by
  induction e using Expr.inductionOn with
  | lit | name | invalid => rfl
  | lam m p b ih => simp only [mapSpans, update, ih]; rfl
  | app m f a ihf iha => simp only [mapSpans, update, ihf, iha]; rfl
  | letIn m b d e ihd ihe => simp only [mapSpans, update, ihd, ihe]; rfl
  | cond m c t e ihc iht ihe => simp only [mapSpans, update, ihc, iht, ihe]; rfl
  | anno m e a ih => simp only [mapSpans, update, ih]; rfl
  | tuple m es ih =>
    simp only [mapSpans, update, mapSpansAll_eq_map, updateAll_eq_map, List.map_map]
    exact congrArg (tuple _) (List.map_congr_left fun e he => ih e he)

theorem Program.map_update_mapSpans (g : Span → Span) (f : Slot Ty → Slot Ty)
    (f' : Slot Scheme → Slot Scheme) (p : Program) :
    (p.mapSpans g).map (Decl.update f f') = Program.mapSpans g (p.map (Decl.update f f')) := by
  have hdecl (d : Decl) : (d.mapSpans g).update f f' = (d.update f f').mapSpans g := by
    simp only [Decl.update, Decl.mapSpans, d.bound.update_mapSpans]
    rfl
  simp [Program.mapSpans, hdecl]

/-- A node is ambiguous by its type, and is reported where it stands. -/
theorem Expr.ambiguousAt?_mapSpans (g : Span → Span) (bound : VarSet) (m : Mark) :
    ambiguousAt? bound (m.mapSpans g) = (ambiguousAt? bound m).map (TypeError.mapSpans g) := by
  simp only [ambiguousAt?, Mark.mapSpans]
  cases m.ty.get? with
  | none => rfl
  | some t =>
    simp only
    split <;> rfl

/-- Which variables are quantified in a tree does not depend on places. -/
theorem Expr.quantifiedIn_mapSpans (g : Span → Span) (e : Expr) (i : Nat) :
    (e.mapSpans g).quantifiedIn i = e.quantifiedIn i := by
  cases e with
  | lit | name | lam | app | cond | anno | tuple | invalid => rfl
  | letIn => cases i <;> rfl

/-- The first ambiguity of an expression is found at the same node. -/
theorem Expr.ambiguous?_mapSpans (g : Span → Span) (bound : VarSet) (e : Expr) :
    (e.mapSpans g).ambiguous? bound = (e.ambiguous? bound).map (TypeError.mapSpans g) := by
  induction e using Expr.inductionOnParts generalizing bound with
  | step e ih =>
    have hmark : (e.mapSpans g).mark = e.mark.mapSpans g := by cases e <;> rfl
    have hchildren : (e.mapSpans g).children = e.children.map (mapSpans g) := by
      cases e <;> simp [mapSpans, children]
    rw [ambiguous?_eq, ambiguous?_eq, hmark, hchildren, ambiguousAt?_mapSpans, Option.map_or]
    refine congrArg _ (findSome?_zipIdx_map fun c hc i => ?_)
    rw [quantifiedIn_mapSpans]
    exact ih c hc _

/-- The ambiguities of a program are the same, each where its node stands. -/
theorem Program.ambiguities_mapSpans (g : Span → Span) (p : Program) :
    Program.ambiguities (p.mapSpans g) = p.ambiguities.map (TypeError.mapSpans g) := by
  have hdecl (d : Decl) : (d.mapSpans g).ambiguous? = d.ambiguous?.map (TypeError.mapSpans g) :=
    d.bound.ambiguous?_mapSpans g _
  simp [Program.ambiguities, Program.mapSpans, List.filterMap_map, List.map_filterMap, hdecl]

/-! ## Runs -/

/-- A verdict with other numbers for files. -/
def Verdict.mapSpans (g : Span → Span) : Verdict → Verdict
  | typed => typed
  | illTyped errors => illTyped (errors.map (TypeError.mapSpans g))
  | broken d => broken d

/-- A run of inference with other numbers for files. -/
def TypingRun.renumber (φ : FileId → FileId) (r : TypingRun) : TypingRun where
  program := r.program.mapSpans (.renumber φ)
  verdict := r.verdict.mapSpans (.renumber φ)
  events := r.events.map (Event.renumber φ)

/-- Inference leaves the same types behind, and its tree, its verdict and its events have the new
numbers. -/
theorem Program.inferTypes_renumber (φ : FileId → FileId) (mode : Mode) (p : Program) :
    Program.inferTypes mode (p.mapSpans (.renumber φ)) = (p.inferTypes mode).renumber φ := by
  have hclear : Program.clear (p.mapSpans (.renumber φ)) = p.clear.mapSpans (.renumber φ) :=
    p.map_update_mapSpans _ _ _
  have hstart : Session.start.renumber φ = Session.start := rfl
  have hrun := p.clear.moves_infer (φ := φ) mode Prelude.env Session.start
  rw [hstart, ← hclear] at hrun
  simp only [Program.inferTypes, hrun]
  obtain ⟨⟨q, f | u⟩, s⟩ := Program.infer mode p.clear Prelude.env Session.start
  · obtain e | d := f
    · simp [TypingRun.renumber, Verdict.mapSpans, renumberResult, Fault.mapError, Session.renumber,
        Event.renumber]
    · simp [TypingRun.renumber, Verdict.mapSpans, renumberResult, Fault.mapError, Session.renumber]
  · have hresolve : Program.resolve (q.mapSpans (.renumber φ)) s.subst =
        (q.resolve s.subst).mapSpans (.renumber φ) := q.map_update_mapSpans _ _ _
    have hambiguities := (q.resolve s.subst).ambiguities_mapSpans (.renumber φ)
    cases hes : (q.resolve s.subst).ambiguities with
    | nil =>
      rw [hes] at hambiguities
      simp [renumberResult, Session.renumber, hresolve, hambiguities, hes, TypingRun.renumber,
        Verdict.mapSpans, Event.renumber]
    | cons e es =>
      rw [hes] at hambiguities
      simp [renumberResult, Session.renumber, hresolve, hambiguities, hes, TypingRun.renumber,
        Verdict.mapSpans, Event.renumber]

/-! ## Checks -/

/-- What checking a source leaves behind, with other numbers for files. -/
def Checked.renumber (φ : FileId → FileId) (c : Checked) : Checked where
  program? := c.program?.map (Program.mapSpans (.renumber φ))
  events := c.events.map (Event.renumber φ)

/-- A source that is checked as another file gives the same, with the number of that file. -/
theorem checkSource_renumber {φ : FileId → FileId} (hφ : Function.Injective φ)
    (mode : Option Mode) (file : FileId) (source : String) :
    checkSource mode (φ file) source = (checkSource mode file source).map (Checked.renumber φ) := by
  obtain ⟨p, structural, hparse, -⟩ := parse_whole file source
  have hlex := lex_renumber φ file source
  have hlexical : (lex (φ file) source).2 =
      (lex file source).2.map (Diagnostic.mapSpans (.renumber φ)) := by
    rw [hlex]
    rfl
  have hparse' : parse (φ file) (lex (φ file) source).1 = .ok (p.mapSpans (.renumber φ),
      structural.map (Diagnostic.mapSpans (.renumber φ))) := by
    have hmoved := parse_renumber hφ file (lex file source).1
    rw [hparse] at hmoved
    rw [hlex]
    exact hmoved
  by_cases hfound : (lex file source).2 ≠ [] ∨ structural ≠ []
  · rw [checkSource_of_found mode hparse hfound,
      checkSource_of_found mode hparse' (by simpa [hlexical] using hfound), hlexical]
    simp [Except.map, Checked.renumber, parsedEvents, Event.renumber]
  obtain ⟨hclean, rfl⟩ : (lex file source).2 = [] ∧ structural = [] := by
    simpa [not_or] using hfound
  rw [hclean, List.map_nil] at hlexical
  cases mode with
  | none =>
    rw [checkSource_none hparse hclean, checkSource_none hparse' hlexical]
    simp [Except.map, Checked.renumber, parsedEvents, Event.renumber]
  | some m =>
    have hrun := p.inferTypes_renumber φ m
    obtain hverdict | ⟨errors, hverdict, -⟩ := p.typed_or_illTyped m
    · have hverdict' : (Program.inferTypes m (p.mapSpans (.renumber φ))).verdict = .typed := by
        rw [hrun, TypingRun.renumber, hverdict]
        rfl
      rw [checkSource_typed hparse hclean hverdict, checkSource_typed hparse' hlexical hverdict',
        hrun]
      simp [Except.map, Checked.renumber, parsedEvents, Event.renumber, TypingRun.renumber]
    · have hverdict' : (Program.inferTypes m (p.mapSpans (.renumber φ))).verdict =
          .illTyped (errors.map (TypeError.mapSpans (.renumber φ))) := by
        rw [hrun, TypingRun.renumber, hverdict]
        rfl
      rw [checkSource_illTyped hparse hclean hverdict,
        checkSource_illTyped hparse' hlexical hverdict', hrun]
      simp [Except.map, Checked.renumber, parsedEvents, Event.renumber, TypingRun.renumber,
        TypeError.diagnostic_mapSpans]

end LetPoly
