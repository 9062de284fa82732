import LetPoly.Proofs.Types
import LetPoly.Typing.Infer

/-!
# Reasoning about walks

An act or a walk *meets* a pair of conditions in a session if it ends in the first or stops
in the second.  Both conditions speak of the session at the end, and for a walk also of the tree
that is left behind.  There is one rule for each way to put walks together, and each
rule deals with the two outcomes at once.

The rule that inference takes for an expression depends on the demand that the mode pushes.  The
last section says which rules there are, for the expressions with more than one.
-/

namespace LetPoly

/-- An error that says that a type is not determined. -/
def TypeError.IsAmbiguous (e : TypeError) : Prop := ∃ span t, e = .ambiguous span t

/-- A stop that a program can cause while it is walked: an error other than an ambiguity. -/
def Fault.Ordinary (f : Fault TypeError) : Prop := ∃ e, f = .error e ∧ ¬ e.IsAmbiguous

/-! ## Acts -/

/-- The act ends in `Q` or stops in `E`. -/
def Act.Meets {α : Type} (a : Act α) (s : Session) (Q : α → Session → Prop)
    (E : Fault TypeError → Session → Prop) : Prop :=
  match a s with
  | (.ok x, s') => Q x s'
  | (.error f, s') => E f s'

namespace Act.Meets

variable {α β : Type} {a : Act α} {s : Session} {Q Q' : α → Session → Prop}
  {R : β → Session → Prop} {E E' : Fault TypeError → Session → Prop}

/-- An act that ends meets a condition if the result does. -/
theorem of_eq_ok {x : α} {s' : Session} (h : a s = (.ok x, s')) (hQ : Q x s') : a.Meets s Q E := by
  unfold Act.Meets
  rw [h]
  exact hQ

/-- Both conditions of an act can be weakened. -/
theorem mono (h : a.Meets s Q E) (hQ : ∀ x s', Q x s' → Q' x s')
    (hE : ∀ f s', E f s' → E' f s') : a.Meets s Q' E' := by
  unfold Act.Meets at h ⊢
  split at h
  · exact hQ _ _ h
  · exact hE _ _ h

/-- Conditions that an act meets are met at once. -/
protected theorem and (h : a.Meets s Q E) (h' : a.Meets s Q' E') :
    a.Meets s (fun x s' => Q x s' ∧ Q' x s') (fun f s' => E f s' ∧ E' f s') := by
  unfold Act.Meets at h h' ⊢
  split at h <;> simp_all

protected theorem pure {x : α} (h : Q x s) : Act.Meets (pure x : Act α) s Q E := h

/-- Acts in sequence meet a condition if the second one does from each result of the first. -/
protected theorem bind {f : α → Act β} (h : a.Meets s Q E)
    (hf : ∀ x s', Q x s' → (f x).Meets s' R E) : Act.Meets (a >>= f) s R E := by
  have hrun : (a >>= f) s = match a s with
      | (.ok x, s') => f x s'
      | (.error e, s') => (.error e, s') := by
    simp only [bind, ExceptT.bind, ExceptT.mk, StateT.bind, ExceptT.bindCont]
    cases a s with
    | mk r s' => cases r <;> rfl
  unfold Act.Meets at h ⊢
  rw [hrun]
  cases hs : a s with
  | mk r s' =>
    rw [hs] at h
    cases r with
    | ok x => exact hf x s' h
    | error e => exact h

protected theorem map {f : α → β} (h : a.Meets s (fun x => R (f x)) E) :
    Act.Meets (f <$> a) s R E := by
  rw [← bind_pure_comp]
  exact h.bind fun _ _ hx => Act.Meets.pure hx

end Act.Meets

/-! ## Walks -/

/-- The walk ends in `Q` or stops in `E`. -/
def Walk.Meets {τ α : Type} (w : Walk τ α) (s : Session) (Q : τ → α → Session → Prop)
    (E : τ → Fault TypeError → Session → Prop) : Prop :=
  match w s with
  | ((t, .ok a), s') => Q t a s'
  | ((t, .error f), s') => E t f s'

namespace Walk.Meets

variable {τ υ α β : Type} {w : Walk τ α} {s : Session} {Q Q' : τ → α → Session → Prop}
  {R : υ → β → Session → Prop} {E E' : τ → Fault TypeError → Session → Prop}
  {F : υ → Fault TypeError → Session → Prop}

/-- Walks that end alike meet the same conditions. -/
theorem congr {w' : Walk τ α} {s' : Session} (h : w s = w' s') (hw : w'.Meets s' Q E) :
    w.Meets s Q E := by
  unfold Walk.Meets
  rw [h]
  exact hw

/-- Both conditions of a walk can be weakened. -/
theorem mono (h : w.Meets s Q E) (hQ : ∀ t a s', Q t a s' → Q' t a s')
    (hE : ∀ t f s', E t f s' → E' t f s') : w.Meets s Q' E' := by
  unfold Walk.Meets at h ⊢
  split at h
  · exact hQ _ _ _ h
  · exact hE _ _ _ h

protected theorem and (h : w.Meets s Q E) (h' : w.Meets s Q' E') :
    w.Meets s (fun t a s' => Q t a s' ∧ Q' t a s') (fun t f s' => E t f s' ∧ E' t f s') := by
  unfold Walk.Meets at h h' ⊢
  split at h <;> simp_all

/-- A walk that ends has met the first condition. -/
theorem of_ok (h : w.Meets s Q E) {t : τ} {a : α} {s' : Session} (hw : w s = ((t, .ok a), s')) :
    Q t a s' := by
  unfold Walk.Meets at h
  rw [hw] at h
  exact h

/-- A walk that stops has met the second one. -/
theorem of_error (h : w.Meets s Q E) {t : τ} {f : Fault TypeError} {s' : Session}
    (hw : w s = ((t, .error f), s')) : E t f s' := by
  unfold Walk.Meets at h
  rw [hw] at h
  exact h

theorem done {t : τ} {a : α} (h : Q t a s) : (Walk.done t a).Meets s Q E := h

/-- A walk and the next one meet a condition if the next one does from each result, and stops carry
over. -/
theorem andThen {stopped : τ → υ} {next : τ → α → Walk υ β} (h : w.Meets s Q E)
    (hnext : ∀ t a s', Q t a s' → (next t a).Meets s' R F)
    (hstop : ∀ t f s', E t f s' → F (stopped t) f s') :
    (w.andThen stopped next).Meets s R F := by
  unfold Walk.Meets at h
  cases hs : w s with
  | mk r s' =>
    obtain ⟨t, r⟩ := r
    rw [hs] at h
    cases r with
    | ok a => exact congr (by rw [Walk.andThen, hs]) (hnext t a s' h)
    | error f =>
      unfold Walk.Meets
      rw [Walk.andThen, hs]
      exact hstop t f s' h

/-- An act at the beginning of a walk meets its own conditions first. -/
theorem act {a : Act α} {stopped : υ} {next : α → Walk υ β} {P : α → Session → Prop}
    {G : Fault TypeError → Session → Prop} (h : a.Meets s P G)
    (hnext : ∀ x s', P x s' → (next x).Meets s' R F) (hstop : ∀ f s', G f s' → F stopped f s') :
    (Walk.act a stopped next).Meets s R F := by
  unfold Act.Meets at h
  cases hs : a s with
  | mk r s' =>
    rw [hs] at h
    cases r with
    | ok x => exact congr (by rw [Walk.act, hs]) (hnext x s' h)
    | error f =>
      unfold Walk.Meets
      rw [Walk.act, hs]
      exact hstop f s' h

/-- Filling the empty slot of a binder does not stop. -/
theorem fillBinder {b : Binder} {σ : Scheme} {stopped : Binder → υ} {next : Binder → Walk υ β}
    (hb : b.scheme = .empty) (h : (next { b with scheme := .filled σ }).Meets s R F) :
    (Walk.fillBinder b σ stopped next).Meets s R F := by
  refine congr ?_ h
  rw [Walk.fillBinder, hb]
  rfl

/-- Filling the empty slot of an expression does not stop. -/
theorem annotate {expr : Mark → Expr} {m : Mark} {t : Ty} {Q : Expr → Ty → Session → Prop}
    {E : Expr → Fault TypeError → Session → Prop} (hm : m.ty = .empty)
    (h : Q (expr { m with ty := .filled (s.subst.apply t) }) t s) :
    (Walk.annotate expr m t).Meets s Q E := by
  unfold Walk.Meets
  rw [Walk.annotate, hm]
  exact h

end Walk.Meets

/-! ## What walks leave behind -/

/-- The tree that a walk leaves behind and the session at its end have a property. -/
def Walk.Yields {τ α : Type} (w : Walk τ α) (s : Session) (P : τ → Session → Prop) : Prop :=
  P (w s).1.1 (w s).2

namespace Walk.Yields

variable {τ υ α β : Type} {w : Walk τ α} {s s₁ : Session} {P : υ → Session → Prop}

/-- Walks that run alike leave the same behind. -/
theorem congr {w w' : Walk υ β} (h : w s = w' s₁) (hw : w'.Yields s₁ P) : w.Yields s P := by
  unfold Yields
  rw [h]
  exact hw

/-- What a walk leaves behind can be read off a run. -/
theorem of_run {w : Walk υ β} {t : υ} {r : Except (Fault TypeError) β} (h : w.Yields s P)
    (hrun : w s = ((t, r), s₁)) : P t s₁ := by
  unfold Yields at h
  rw [hrun] at h
  exact h

theorem annotate {expr : Mark → Expr} {m : Mark} {t : Ty} {P : Expr → Session → Prop}
    (h : ∀ m, P (expr m) s) : (Walk.annotate expr m t).Yields s P :=
  h _

theorem log {w : Walk υ β} {ev : Event} (h : w.Yields { s with log := ev :: s.log } P) :
    (Walk.log ev w).Yields s P := h

/-- An empty slot of a binder is filled. -/
theorem fillEmpty {b : Binder} {σ : Scheme} {stopped : Binder → υ} {next : Binder → Walk υ β}
    (hb : b.scheme = .empty) (hnext : (next { b with scheme := .filled σ }).Yields s P) :
    (Walk.fillBinder b σ stopped next).Yields s P := by
  refine congr ?_ hnext
  rw [Walk.fillBinder, hb]
  rfl

/-- A walk and the next one leave a property behind, if the walk does when it stops and the next one
does otherwise. -/
theorem andThen {stopped : τ → υ} {next : τ → α → Walk υ β}
    (hstop : ∀ t f s', w s = ((t, .error f), s') → P (stopped t) s')
    (hnext : ∀ t a s', w s = ((t, .ok a), s') → (next t a).Yields s' P) :
    (w.andThen stopped next).Yields s P := by
  unfold Yields Walk.andThen
  cases hw : w s with
  | mk r s' =>
    obtain ⟨t, r⟩ := r
    cases r with
    | error f => exact hstop t f s' hw
    | ok a => exact hnext t a s' hw

theorem act {a : Act α} {stopped : υ} {next : α → Walk υ β}
    (hstop : ∀ f s', a s = (.error f, s') → P stopped s')
    (hnext : ∀ x s', a s = (.ok x, s') → (next x).Yields s' P) :
    (Walk.act a stopped next).Yields s P := by
  unfold Yields Walk.act
  cases ha : a s with
  | mk r s' =>
    cases r with
    | error f => exact hstop f s' ha
    | ok x => exact hnext x s' ha

/-- A walk of a part that ended is followed by the rest. -/
theorem after {stopped : τ → υ} {next : τ → α → Walk υ β} {t : τ} {a : α}
    (h : w s = ((t, .ok a), s₁))
    (hnext : (next t a).Yields s₁ P) : (w.andThen stopped next).Yields s P :=
  congr (by rw [Walk.andThen, h]) hnext

/-- An act that ended is followed by the rest. -/
theorem afterAct {a : Act α} {stopped : υ} {next : α → Walk υ β} {x : α} (h : a s = (.ok x, s₁))
    (hnext : (next x).Yields s₁ P) : (Walk.act a stopped next).Yields s P :=
  congr (by rw [Walk.act, h]) hnext

end Walk.Yields

/-! ## Which rule is taken -/

/-- The demand that is pushed is that of the goal, as far as it is solved. -/
theorem Mode.pushed?_eq_some {mode : Mode} {goal : Goal} {s : Session} {d : Demand}
    (h : mode.pushed? goal s = some d) :
    ∃ c, goal = some c ∧ d = { c with expected := s.subst.apply c.expected } := by
  unfold pushed? at h
  split at h
  · cases h
  · rename_i c
    split at h
    · cases h
      exact ⟨c, rfl, rfl⟩
    · cases h

/-- The parts of a callee's type are those of the function type it stands for. -/
theorem Infer.calleeTy?_eq_some {mode : Mode} {t : Ty} {s : Session} {r : Ty × Ty}
    (h : calleeTy? mode t s = some r) : s.subst.apply t = .fn r.1 r.2 := by
  unfold calleeTy? at h
  split at h
  · exact Ty.fn?_eq_some.1 h
  · cases h

/-- The goals of the elements of a tuple. -/
def Mode.elemGoals (mode : Mode) (goal : Goal) (es : List Expr) (s : Session) : List Goal :=
  match (mode.pushed? goal s).bind fun d =>
      (d.expected.tuple?.filter fun ts => ts.length = es.length).map (d, ·) with
  | some (d, ts) => ts.map fun t => some ⟨d.because, t⟩
  | none => es.map fun _ => none

/-- The goal of the first branch of a conditional. -/
def Mode.yesGoal (mode : Mode) (goal : Goal) (m : Mark) (s : Session) : Goal :=
  (mode.pushed? goal s).filter fun _ => mode.propagates (.branch m.span)

/-- The goal of the second branch of a conditional whose first branch has a type. -/
def Mode.noGoal (mode : Mode) (goal : Goal) (m : Mark) (s : Session) (t : Ty) : Goal :=
  match mode.yesGoal goal m s with
  | some d => some ⟨.branch m.span, d.expected⟩
  | none =>
    match mode with
    | .bottomUp => none
    | .topDown _ => some ⟨.branch m.span, t⟩

/-- The first branch gets the demand that is pushed, if any. -/
theorem Mode.pushed?_of_yesGoal {mode : Mode} {goal : Goal} {m : Mark} {s : Session} {d : Demand}
    (h : mode.yesGoal goal m s = some d) : mode.pushed? goal s = some d :=
  (Option.filter_eq_some_iff.1 h).1

namespace Expr

variable (mode : Mode) (m : Mark) (env : Env) (goal : Goal) (s : Session)

/-- The demand for a function is taken apart, or its type is synthesized. -/
theorem infer_lam (p : Binder) (b : Expr) :
    (∃ d t u, mode.pushed? goal s = some d ∧ d.expected = .fn t u ∧
      infer mode (lam m p b) env goal s = Infer.lamAgainst m p b (infer mode b) env d t u s) ∨
    (∀ d ∈ mode.pushed? goal s, d.expected.fn? = none) ∧
      infer mode (lam m p b) env goal s =
        goal.settle m.span (Infer.lam m p b (infer mode b) env) s := by
  rw [infer]
  dsimp only
  split
  · rename_i d t u h
    obtain ⟨c, hc, h⟩ := Option.bind_eq_some_iff.1 h
    obtain ⟨r, hr, h⟩ := Option.map_eq_some_iff.1 h
    cases h
    exact .inl ⟨d, t, u, hc, Ty.fn?_eq_some.1 hr, rfl⟩
  · rename_i h
    exact .inr ⟨fun d hd => by simpa using Option.bind_eq_none_iff.1 h d hd, rfl⟩

/-- The demand for a local definition is passed on, or its type is synthesized. -/
theorem infer_letIn (b : Binder) (d e : Expr) :
    (∃ c, mode.pushed? goal s = some c ∧ infer mode (letIn m b d e) env goal s =
      Infer.letInAgainst m b d e (infer mode d) (infer mode e) env c s) ∨
    mode.pushed? goal s = none ∧ infer mode (letIn m b d e) env goal s =
      goal.settle m.span (Infer.letIn m b d e (infer mode d) (infer mode e) env) s := by
  rw [infer]
  dsimp only
  split
  · rename_i c h
    exact .inl ⟨c, h, rfl⟩
  · rename_i h
    exact .inr ⟨h, rfl⟩

/-- The demand for a conditional is passed on, or its type is synthesized. -/
theorem infer_cond (c t e : Expr) :
    (∃ d, mode.yesGoal goal m s = some d ∧ infer mode (cond m c t e) env goal s =
      Infer.condAgainst m t e (infer mode c) (infer mode t) (infer mode e) env d s) ∨
    mode.yesGoal goal m s = none ∧ infer mode (cond m c t e) env goal s =
      goal.settle m.span
        (Infer.cond mode m t e (infer mode c) (infer mode t) (infer mode e) env) s := by
  rw [infer]
  dsimp only
  split
  · rename_i d h
    exact .inl ⟨d, h, rfl⟩
  · rename_i h
    exact .inr ⟨h, rfl⟩

/-- The demand for a tuple is taken apart, or its type is synthesized. -/
theorem infer_tuple (es : List Expr) :
    (∃ d ts, mode.pushed? goal s = some d ∧ d.expected = .tuple ts ∧ ts.length = es.length ∧
      mode.elemGoals goal es s = ts.map (fun t => some ⟨d.because, t⟩) ∧
      infer mode (tuple m es) env goal s =
        Infer.tupleAgainst m (inferAll mode es) env d ts s) ∨
    mode.elemGoals goal es s = es.map (fun _ => none) ∧
      infer mode (tuple m es) env goal s =
        goal.settle m.span (Infer.tuple m es (inferAll mode es) env) s := by
  rw [infer]
  unfold Mode.elemGoals
  dsimp only
  cases h : (mode.pushed? goal s).bind fun d =>
      (d.expected.tuple?.filter fun ts => ts.length = es.length).map (d, ·) with
  | some r =>
    obtain ⟨d, ts⟩ := r
    obtain ⟨c, hc, h⟩ := Option.bind_eq_some_iff.1 h
    obtain ⟨r, hr, h⟩ := Option.map_eq_some_iff.1 h
    cases h
    obtain ⟨hty, hlen⟩ := Option.filter_eq_some_iff.1 hr
    exact .inl ⟨d, ts, hc, Ty.tuple?_eq_some.1 hty, by simpa using hlen, rfl, rfl⟩
  | none => exact .inr ⟨rfl, rfl⟩

end Expr

end LetPoly
