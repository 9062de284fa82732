import LetPoly.Proofs.Trees
import LetPoly.Typing.Run

/-!
# Observed runs

A run of inference is a function on sessions, so it shows where it begins and where it ends, and
nothing in between.  Here is the same run with a record of its *moments*.  A moment has the
environment in use, the whole tree with the slots that are filled by then, and the session.

A moment is recorded whenever the run comes to an expression, and before each thing that changes the
state: before a variable is drawn, before one is solved, before a slot is filled, and before a slot
is resolved in the end.  A moment at which a scheme is about to be instantiated says so.  A record
leaves out no state of the supply and the substitution if it is a `Reached.Path`.

The rules are those of inference, put together with combinators that record.  Without the record
they are the rules of inference (`Expr.walk_observe`, `Program.walk_observe`).
-/

namespace LetPoly

/-! ## Moments -/

/-- A moment of a run over a tree. -/
structure Moment (τ : Type) where
  /-- The environment in use. -/
  env : Env
  /-- The tree, with the slots that are filled by now. -/
  tree : τ
  /-- The session. -/
  session : Session
  /-- The scheme that is instantiated now, if this is what happens next. -/
  instantiates? : Option Scheme

/-- The moment of a run over a larger tree, given by the part that is walked. -/
def Moment.within {τ υ : Type} (whole : τ → υ) (m : Moment τ) : Moment υ :=
  ⟨m.env, whole m.tree, m.session, m.instantiates?⟩

/-- A moment at which no scheme is instantiated. -/
def Moment.plain {τ : Type} (Γ : Env) (t : τ) (s : Session) : Moment τ := ⟨Γ, t, s, none⟩

/-- How far a run has come: what it has drawn and what it has solved. -/
abbrev Reached := Supply × Subst

namespace Reached

/-- At most one change: a variable is drawn, or a variable is solved. -/
inductive Step : Reached → Reached → Prop where
  | idle {x : Reached} : Step x x
  | draw {n : Supply} {s : Subst} : Step (n, s) (n + 1, s)
  | solve {n : Supply} {s r : Subst} {v : TyVar} {t : Ty} (h : s.bind v t = .ok r) :
    Step (n, s) (n, r)

/-- The list is a way from a beginning to an end that leaves out nothing: each change is made from
what was listed last. -/
inductive Path : Reached → List Reached → Reached → Prop where
  | nil {x : Reached} : Path x [] x
  | cons {x y z : Reached} {xs : List Reached} (h : Step x y) (hs : Path y xs z) :
    Path x (x :: xs) z

/-- Two ways, of which the second begins where the first ends, are one way. -/
theorem Path.append {x y z : Reached} {xs ys : List Reached} (h : Path x xs y)
    (h' : Path y ys z) : Path x (xs ++ ys) z := by
  induction h with
  | nil => exact h'
  | cons hstep _ ih => exact .cons hstep (ih h')

/-- Variables are drawn one after the other. -/
theorem path_draw (n k : Nat) (s : Subst) :
    Path (n, s) ((List.range' n k).map (·, s)) (n + k, s) := by
  induction k generalizing n with
  | zero => exact .nil
  | succ k ih =>
    rw [List.range'_succ, List.map_cons, Nat.add_comm k, ← Nat.add_assoc]
    exact .cons .draw (ih (n + 1))

/-- Moments at which nothing has changed are no steps of a way. -/
theorem path_idle {x : Reached} {xs : List Reached} (h : ∀ y ∈ xs, y = x) : Path x xs x := by
  induction xs with
  | nil => exact .nil
  | cons y xs ih =>
    obtain ⟨rfl, hxs⟩ := List.forall_mem_cons.1 h
    exact .cons .idle (ih hxs)

end Reached

/-- How far a session has come. -/
def Session.reached (s : Session) : Reached := (s.drawn, s.subst)

/-! ## Acts -/

/-- The extensions of a substitution right before each binding that `Unify.solve` adds. -/
def Unify.stages : Nat → List (Ty × Ty) → Extension → List Extension
  | n, pairs, x =>
    match firstDifference? x.subst pairs with
    | none => []
    | some d =>
      match remedy d.expected d.actual with
      | .error _ => []
      | .ok (v, t) =>
        match x.bind v t with
        | .error _ => []
        | .ok x' =>
          match n with
          | 0 => [x]
          | n + 1 => x :: stages n d.right x'

/-- What unification does: it adds the bindings that remedy one difference after the other. -/
inductive Unify.Trail : List (Ty × Ty) → Extension → List Extension → Extension → Prop where
  | stop {pairs : List (Ty × Ty)} {x : Extension} : Trail pairs x [] x
  | step {pairs : List (Ty × Ty)} {d : Difference} {v : TyVar} {t : Ty} {x x' y : Extension}
    {xs : List Extension} (hd : firstDifference? x.subst pairs = some d)
    (hr : remedy d.expected d.actual = .ok (v, t)) (hb : x.bind v t = .ok x')
    (h : Trail d.right x' xs y) : Trail pairs x (x :: xs) y

/-- Unification goes through its stages, adding a binding at each of them. -/
theorem Unify.trail_solve (k : Nat) (pairs : List (Ty × Ty)) (x : Extension) :
    Trail pairs x (stages k pairs x) (solve k pairs x).2 := by
  induction k using Nat.strongRecOn generalizing pairs x with
  | ind k ih =>
    unfold stages solve
    cases hd : firstDifference? x.subst pairs with
    | none => exact .stop
    | some d =>
      dsimp only
      cases hr : remedy d.expected d.actual with
      | error e => exact .stop
      | ok b =>
        dsimp only
        cases hb : x.bind b.1 b.2 with
        | error e => exact .stop
        | ok x' =>
          cases k with
          | zero => exact .step hd hr hb .stop
          | succ k => exact .step hd hr hb (ih k (Nat.lt_succ_self k) d.right x')

/-- The sessions right before each variable that is drawn up to a number. -/
def Session.drawing (s : Session) (n : Supply) : List Session :=
  (List.range' s.drawn (n - s.drawn)).map fun k => { s with drawn := k }

/-- The session in which a substitution has been extended. -/
def Session.extend (s : Session) (x : Extension) : Session :=
  { s with subst := x.subst, log := x.added.map (fun b => .solved b.1 b.2) ++ s.log }

/-- An act with the sessions that it goes through. -/
abbrev ObservedAct (α : Type) := Session → List Session × Except (Fault TypeError) α × Session

namespace ObservedAct

variable {α β : Type}

/-- The act without its record. -/
def act (a : ObservedAct α) : Act α := fun s => (a s).2

/-- The act that does nothing. -/
def pure (x : α) : ObservedAct α := fun s => ([], .ok x, s)

/-- Continues an act. -/
def bind (a : ObservedAct α) (f : α → ObservedAct β) : ObservedAct β := fun s =>
  match a s with
  | (ss, .ok x, s') => (ss ++ (f x s').1, (f x s').2)
  | (ss, .error e, s') => (ss, .error e, s')

/-- Draws from the supply, one variable after the other. -/
def draw (f : StateM Supply α) : ObservedAct α := fun s =>
  (s.drawing (f s.drawn).2, Act.draw f s)

/-- Draws a variable. -/
def fresh : ObservedAct Ty := draw (Ty.var <$> Supply.fresh)

/-- Makes two types equal for a reason, one binding after the other. -/
def unify (because : Because) (span : Span) (expected actual : Ty) : ObservedAct Unit := fun s =>
  let occurrences :=
    (s.subst.apply expected).occurrences.length + (s.subst.apply actual).occurrences.length
  ((Unify.stages occurrences [(expected, actual)] (.start s.subst)).map s.extend,
    Act.unify because span expected actual s)

@[simp] theorem act_pure (x : α) : (pure x).act = (Pure.pure x : Act α) := rfl

@[simp] theorem act_bind (a : ObservedAct α) (f : α → ObservedAct β) :
    (a.bind f).act = a.act >>= fun x => (f x).act := by
  funext s
  simp only [act, bind, Bind.bind, ExceptT.bind, ExceptT.mk, StateT.bind, ExceptT.bindCont]
  rcases a s with ⟨ss, _ | x, s'⟩ <;> rfl

@[simp] theorem act_draw (f : StateM Supply α) : (draw f).act = Act.draw f := rfl

@[simp] theorem act_unify (because : Because) (span : Span) (t u : Ty) :
    (unify because span t u).act = Act.unify because span t u := rfl

@[simp] theorem act_fresh : fresh.act = Act.fresh := rfl

end ObservedAct

/-! ## Walks -/

/-- A walk with the moments that it goes through. -/
abbrev ObservedWalk (τ α : Type) :=
  Session → List (Moment τ) × (τ × Except (Fault TypeError) α) × Session

namespace ObservedWalk

variable {τ υ α β : Type}

/-- The walk without its record. -/
def walk (w : ObservedWalk τ α) : Walk τ α := fun s => (w s).2

/-- The walk that ends with a tree and a value. -/
def done (t : τ) (a : α) : ObservedWalk τ α := fun s => ([], (t, .ok a), s)

/-- Records the moment at which a walk begins. -/
def since (Γ : Env) (t : τ) (w : ObservedWalk τ α) : ObservedWalk τ α := fun s =>
  (.plain Γ t s :: (w s).1, (w s).2)

/-- A walk that depends on the session it begins with. -/
def reading (w : Session → ObservedWalk τ α) : ObservedWalk τ α := fun s => w s s

/-- Continues a walk of a part.  While the part is walked, `stopped` gives the whole. -/
def andThen (w : ObservedWalk τ α) (stopped : τ → υ) (next : τ → α → ObservedWalk υ β) :
    ObservedWalk υ β := fun s =>
  match w s with
  | (ms, (t, .ok a), s') => (ms.map (·.within stopped) ++ (next t a s').1, (next t a s').2)
  | (ms, (t, .error e), s') => (ms.map (·.within stopped), (stopped t, .error e), s')

/-- Continues an act.  During the act the whole is `stopped`. -/
def act (Γ : Env) (a : ObservedAct α) (stopped : υ) (next : α → ObservedWalk υ β) :
    ObservedWalk υ β := fun s =>
  match a s with
  | (ss, .ok x, s') => (ss.map (.plain Γ stopped) ++ (next x s').1, (next x s').2)
  | (ss, .error e, s') => (ss.map (.plain Γ stopped), (stopped, .error e), s')

/-- Continues an instance of a scheme.  Meanwhile the whole is `stopped`. -/
def instantiate (Γ : Env) (σ : Scheme) (stopped : υ) (next : Ty → ObservedWalk υ β) :
    ObservedWalk υ β := fun s =>
  let ms := ⟨Γ, stopped, s, some σ⟩ ::
    (s.drawing (σ.instantiate s.drawn).2).map (.plain Γ stopped)
  match Act.instantiate σ s with
  | (.ok t, s') => (ms ++ (next t s').1, (next t s').2)
  | (.error e, s') => (ms, (stopped, .error e), s')

/-- Logs an event. -/
def log (e : Event) (next : ObservedWalk υ β) : ObservedWalk υ β := fun s =>
  next { s with log := e :: s.log }

/-- Fills the slot of a binder. -/
def fillBinder (Γ : Env) (b : Binder) (σ : Scheme) (stopped : Binder → υ)
    (next : Binder → ObservedWalk υ β) : ObservedWalk υ β :=
  let (r, slot) := b.scheme.fill σ
  let b' := { b with scheme := slot }
  match r with
  | .ok () => since Γ (stopped b) (next b')
  | .error d => since Γ (stopped b) fun s => ([], (stopped b', .error (.defect d)), s)

/-- Fills the slot of an expression with its type as far as it is known, and ends the walk with that
type. -/
def annotate (Γ : Env) (expr : Mark → Expr) (m : Mark) (t : Ty) : ObservedWalk Expr Ty :=
  since Γ (expr m) fun s => ([], Walk.annotate expr m t s)

@[simp] theorem walk_done (t : τ) (a : α) : (done t a).walk = Walk.done t a := rfl

@[simp] theorem walk_since (Γ : Env) (t : τ) (w : ObservedWalk τ α) : (since Γ t w).walk = w.walk :=
  rfl

@[simp] theorem walk_reading (w : Session → ObservedWalk τ α) :
    (reading w).walk = fun s => (w s).walk s :=
  rfl

@[simp] theorem walk_andThen (w : ObservedWalk τ α) (stopped : τ → υ)
    (next : τ → α → ObservedWalk υ β) :
    (w.andThen stopped next).walk = w.walk.andThen stopped fun t a => (next t a).walk := by
  funext s
  simp only [walk, andThen, Walk.andThen]
  rcases w s with ⟨ms, ⟨t, _ | a⟩, s'⟩ <;> rfl

@[simp] theorem walk_act (Γ : Env) (a : ObservedAct α) (stopped : υ)
    (next : α → ObservedWalk υ β) :
    (act Γ a stopped next).walk = Walk.act a.act stopped fun x => (next x).walk := by
  funext s
  simp only [walk, act, Walk.act, ObservedAct.act]
  rcases a s with ⟨ss, _ | x, s'⟩ <;> rfl

@[simp] theorem walk_instantiate (Γ : Env) (σ : Scheme) (stopped : υ)
    (next : Ty → ObservedWalk υ β) :
    (instantiate Γ σ stopped next).walk =
      Walk.act (Act.instantiate σ) stopped fun t => (next t).walk := by
  funext s
  simp only [walk, instantiate, Walk.act]
  rcases Act.instantiate σ s with ⟨_ | t, s'⟩ <;> rfl

@[simp] theorem walk_log (e : Event) (next : ObservedWalk υ β) :
    (log e next).walk = Walk.log e next.walk :=
  rfl

@[simp] theorem walk_fillBinder (Γ : Env) (b : Binder) (σ : Scheme) (stopped : Binder → υ)
    (next : Binder → ObservedWalk υ β) :
    (fillBinder Γ b σ stopped next).walk =
      Walk.fillBinder b σ stopped fun b => (next b).walk := by
  simp only [fillBinder, Walk.fillBinder]
  rcases b.scheme.fill σ with ⟨_ | _, slot⟩ <;> rfl

@[simp] theorem walk_annotate (Γ : Env) (expr : Mark → Expr) (m : Mark) (t : Ty) :
    (annotate Γ expr m t).walk = Walk.annotate expr m t :=
  rfl

end ObservedWalk

/-! ## Rules -/

/-- The walk of an expression in an environment, for a goal, with its moments. -/
abbrev ObservedExprWalk := Env → Goal → ObservedWalk Expr Ty

/-- The walk of an expression without its record. -/
def ObservedExprWalk.walk (w : ObservedExprWalk) : ExprWalk := fun Γ goal => (w Γ goal).walk

namespace Observe

/-- Compares a synthesized type with the demand, if there is one. -/
def settle (goal : Goal) (Γ : Env) (span : Span) (w : ObservedWalk Expr Ty) :
    ObservedWalk Expr Ty :=
  match goal with
  | none => w
  | some d =>
    w.andThen id fun e t =>
      .act Γ (.unify d.because span d.expected t) e fun _ => .done e t

/-- The rule for a name: an instance of its scheme. -/
def name (m : Mark) (x : String) (Γ : Env) : ObservedWalk Expr Ty :=
  match Γ.lookup? x with
  | some σ => .instantiate Γ σ (.name m x) fun t => .annotate Γ (.name · x) m t
  | none => fun s => ([], (.name m x, .error (.error (.unbound m.span x))), s)

/-- The type of a parameter: its annotation, or a fresh variable. -/
def paramTy (p : Binder) : ObservedAct Ty :=
  match p.anno with
  | some anno => .draw anno.lower
  | none => .fresh

/-- The type of a parameter for which a type is expected.  An annotation has to agree with it. -/
def paramTyAgainst (p : Binder) (t : Ty) : ObservedAct Ty :=
  match p.anno with
  | some anno =>
    (ObservedAct.draw anno.lower).bind fun a =>
    (ObservedAct.unify (.ascription anno.span) p.span a t).bind fun _ =>
    .pure a
  | none => .pure t

/-- The demand that an annotation makes. -/
def annotated (anno : TypeExpr) : ObservedAct Demand :=
  (ObservedAct.draw anno.lower).bind fun t => .pure ⟨.ascription anno.span, t⟩

/-- The goal for the definition of a binder. -/
def boundGoal (b : Binder) : ObservedAct Goal :=
  match b.anno with
  | some anno => (annotated anno).bind fun d => .pure (some d)
  | none => .pure none

/-- Types the definition of a binder and generalizes it. -/
def bind (b : Binder) (e : Expr) (bound : ObservedExprWalk) (Γ : Env) :
    ObservedWalk (Binder × Expr) Scheme :=
  .act Γ (boundGoal b) (b, e) fun goal =>
  (bound Γ goal).andThen (b, ·) fun e t => .reading fun s =>
    let t := match goal with
      | some d => d.expected
      | none => t
    let σ := Γ.generalize s.subst t
    .log (.generalized b.name σ) <| .fillBinder Γ b σ (·, e) fun b => .done (b, e) σ

/-- Synthesizes the type of a function. -/
def lam (m : Mark) (p : Binder) (b : Expr) (body : ObservedExprWalk) (Γ : Env) :
    ObservedWalk Expr Ty :=
  .act Γ (paramTy p) (.lam m p b) fun t =>
  .fillBinder Γ p (.mono t) (.lam m · b) fun p =>
  (body (Γ.extend p.name (.mono t)) none).andThen (.lam m p) fun b u =>
  .annotate Γ (.lam · p b) m (.fn t u)

/-- Takes a demand for a function from `t` to `u` apart. -/
def lamAgainst (m : Mark) (p : Binder) (b : Expr) (body : ObservedExprWalk) (Γ : Env) (d : Demand)
    (t u : Ty) : ObservedWalk Expr Ty :=
  .act Γ (paramTyAgainst p t) (.lam m p b) fun t =>
  .fillBinder Γ p (.mono t) (.lam m · b) fun p =>
  (body (Γ.extend p.name (.mono t)) (some ⟨d.because, u⟩)).andThen (.lam m p) fun b _ =>
  .annotate Γ (.lam · p b) m d.expected

/-- Synthesizes the type of a call. -/
def app (mode : Mode) (m : Mark) (a : Expr) (callee arg : ObservedExprWalk) (Γ : Env) :
    ObservedWalk Expr Ty :=
  (callee Γ none).andThen (.app m · a) fun f t => .reading fun s =>
    match Infer.calleeTy? mode t s with
    | some (param, result) =>
      (arg Γ (some ⟨.argument, param⟩)).andThen (.app m f) fun a _ =>
      .annotate Γ (.app · f a) m result
    | none =>
      (arg Γ none).andThen (.app m f) fun a u =>
      .act Γ .fresh (.app m f a) fun r =>
      .act Γ (.unify .argument m.span t (.fn u r)) (.app m f a) fun _ =>
      .annotate Γ (.app · f a) m r

/-- Synthesizes the type of a local definition. -/
def letIn (m : Mark) (b : Binder) (d e : Expr) (bound body : ObservedExprWalk) (Γ : Env) :
    ObservedWalk Expr Ty :=
  (bind b d bound Γ).andThen (fun (b, d) => .letIn m b d e) fun (b, d) σ =>
  (body (Γ.extend b.name σ) none).andThen (.letIn m b d) fun e t =>
  .annotate Γ (.letIn · b d e) m t

/-- Passes a demand on to the body of a local definition. -/
def letInAgainst (m : Mark) (b : Binder) (d e : Expr) (bound body : ObservedExprWalk) (Γ : Env)
    (demand : Demand) : ObservedWalk Expr Ty :=
  (bind b d bound Γ).andThen (fun (b, d) => .letIn m b d e) fun (b, d) σ =>
  (body (Γ.extend b.name σ) (some demand)).andThen (.letIn m b d) fun e _ =>
  .annotate Γ (.letIn · b d e) m demand.expected

/-- Synthesizes the type of a conditional. -/
def cond (mode : Mode) (m : Mark) (t e : Expr) (test yes no : ObservedExprWalk) (Γ : Env) :
    ObservedWalk Expr Ty :=
  (test Γ (some Infer.truthValue)).andThen (.cond m · t e) fun c _ =>
  (yes Γ none).andThen (.cond m c · e) fun t a =>
    match mode with
    | .bottomUp =>
      (no Γ none).andThen (.cond m c t) fun e b =>
      .act Γ (.unify (.branch m.span) m.span a b) (.cond m c t e) fun _ =>
      .annotate Γ (.cond · c t e) m a
    | .topDown _ =>
      (no Γ (some ⟨.branch m.span, a⟩)).andThen (.cond m c t) fun e _ =>
      .annotate Γ (.cond · c t e) m a

/-- Passes a demand on to both branches of a conditional. -/
def condAgainst (m : Mark) (t e : Expr) (test yes no : ObservedExprWalk) (Γ : Env) (d : Demand) :
    ObservedWalk Expr Ty :=
  (test Γ (some Infer.truthValue)).andThen (.cond m · t e) fun c _ =>
  (yes Γ (some d)).andThen (.cond m c · e) fun t _ =>
  (no Γ (some ⟨.branch m.span, d.expected⟩)).andThen (.cond m c t) fun e _ =>
  .annotate Γ (.cond · c t e) m d.expected

/-- The rule for an annotation: it is the type, and a demand on what it annotates. -/
def anno (m : Mark) (e : Expr) (a : TypeExpr) (inner : ObservedExprWalk) (Γ : Env) :
    ObservedWalk Expr Ty :=
  .act Γ (annotated a) (.anno m e a) fun d =>
  (inner Γ (some d)).andThen (.anno m · a) fun e _ =>
  .annotate Γ (.anno · e a) m d.expected

/-- The walks of the elements of a tuple. -/
abbrev ElemsWalk := Env → List Goal → ObservedWalk (List Expr) (List Ty)

/-- Synthesizes the type of a tuple. -/
def tuple (m : Mark) (es : List Expr) (elems : ElemsWalk) (Γ : Env) : ObservedWalk Expr Ty :=
  (elems Γ (es.map fun _ => none)).andThen (.tuple m) fun es ts =>
  .annotate Γ (.tuple · es) m (.tuple ts)

/-- Takes a demand for a tuple of the given types apart. -/
def tupleAgainst (m : Mark) (elems : ElemsWalk) (Γ : Env) (d : Demand) (ts : List Ty) :
    ObservedWalk Expr Ty :=
  (elems Γ (ts.map fun t => some ⟨d.because, t⟩)).andThen (.tuple m) fun es _ =>
  .annotate Γ (.tuple · es) m d.expected

/-- The rule for an invalid expression: it can have any type. -/
def invalid (m : Mark) (Γ : Env) : ObservedWalk Expr Ty :=
  .act Γ .fresh (.invalid m) fun t => .annotate Γ .invalid m t

end Observe

namespace Expr

mutual

/-- Finds the type of an expression, or makes it meet a demand, with all moments. -/
def observe (mode : Mode) : Expr → ObservedExprWalk
  | lit m l, Γ, goal =>
    .since Γ (lit m l) <| Observe.settle goal Γ m.span (.annotate Γ (.lit · l) m l.ty)
  | name m x, Γ, goal =>
    .since Γ (name m x) <| Observe.settle goal Γ m.span (Observe.name m x Γ)
  | lam m p b, Γ, goal =>
    .since Γ (lam m p b) <| .reading fun s =>
      match (mode.pushed? goal s).bind fun d => d.expected.fn?.map (d, ·) with
      | some (d, t, u) => Observe.lamAgainst m p b (observe mode b) Γ d t u
      | none => Observe.settle goal Γ m.span (Observe.lam m p b (observe mode b) Γ)
  | app m f a, Γ, goal =>
    .since Γ (app m f a) <|
      Observe.settle goal Γ m.span (Observe.app mode m a (observe mode f) (observe mode a) Γ)
  | letIn m b d e, Γ, goal =>
    .since Γ (letIn m b d e) <| .reading fun s =>
      match mode.pushed? goal s with
      | some demand => Observe.letInAgainst m b d e (observe mode d) (observe mode e) Γ demand
      | none =>
        Observe.settle goal Γ m.span (Observe.letIn m b d e (observe mode d) (observe mode e) Γ)
  | cond m c t e, Γ, goal =>
    .since Γ (cond m c t e) <| .reading fun s =>
      match (mode.pushed? goal s).filter fun _ => mode.propagates (.branch m.span) with
      | some d => Observe.condAgainst m t e (observe mode c) (observe mode t) (observe mode e) Γ d
      | none =>
        Observe.settle goal Γ m.span
          (Observe.cond mode m t e (observe mode c) (observe mode t) (observe mode e) Γ)
  | anno m e a, Γ, goal =>
    .since Γ (anno m e a) <|
      Observe.settle goal Γ m.span (Observe.anno m e a (observe mode e) Γ)
  | tuple m es, Γ, goal =>
    .since Γ (tuple m es) <| .reading fun s =>
      match (mode.pushed? goal s).bind fun d =>
          (d.expected.tuple?.filter fun ts => ts.length = es.length).map (d, ·) with
      | some (d, ts) => Observe.tupleAgainst m (observeAll mode es) Γ d ts
      | none => Observe.settle goal Γ m.span (Observe.tuple m es (observeAll mode es) Γ)
  | invalid m, Γ, goal =>
    .since Γ (invalid m) <| Observe.settle goal Γ m.span (Observe.invalid m Γ)

/-- The same for the expressions of a list. -/
def observeAll (mode : Mode) : List Expr → Observe.ElemsWalk
  | [], _, _ => .done [] []
  | e :: es, Γ, goals =>
    (observe mode e Γ (goals.headD none)).andThen (· :: es) fun e t =>
    (observeAll mode es Γ goals.tail).andThen (e :: ·) fun es ts =>
    .done (e :: es) (t :: ts)

end

end Expr

/-- Types declarations one after another, with all moments. -/
def Program.observe (mode : Mode) : Program → Env → ObservedWalk Program Unit
  | [], Γ => .since Γ [] (.done [] ())
  | d :: ds, Γ =>
    .since Γ (d :: ds) <|
    (Observe.bind d.binder d.bound (d.bound.observe mode) Γ).andThen
      (fun (b, e) => { d with binder := b, bound := e } :: ds) fun (b, e) σ =>
    .log (.inferred d.binder.name σ) <|
    (Program.observe mode ds (Γ.extend d.binder.name σ)).andThen
      ({ d with binder := b, bound := e } :: ·) fun ds _ =>
    .done ({ d with binder := b, bound := e } :: ds) ()

/-! ## The record left out -/

namespace Observe

/-- The record of a settled goal left out, what is left is the goal settled without a record. -/
theorem walk_settle (goal : Goal) (Γ : Env) (span : Span) (w : ObservedWalk Expr Ty) :
    (settle goal Γ span w).walk = goal.settle span w.walk := by
  cases goal with
  | none => rfl
  | some d => simp [settle, Goal.settle]

/-- A rule without its record is the rule of inference.  So it is for each of the following. -/
theorem walk_name (m : Mark) (x : String) (Γ : Env) : (name m x Γ).walk = Infer.name m x Γ := by
  unfold name Infer.name
  cases Γ.lookup? x with
  | none => rfl
  | some σ => simp

theorem act_paramTy (p : Binder) : (paramTy p).act = Infer.paramTy p := by
  unfold paramTy Infer.paramTy
  cases p.anno <;> simp

theorem act_paramTyAgainst (p : Binder) (t : Ty) :
    (paramTyAgainst p t).act = Infer.paramTyAgainst p t := by
  unfold paramTyAgainst Infer.paramTyAgainst
  cases p.anno <;> simp

theorem act_annotated (a : TypeExpr) : (annotated a).act = Infer.annotated a := by
  simp [annotated, Infer.annotated]

theorem act_boundGoal (b : Binder) : (boundGoal b).act = Infer.boundGoal b := by
  unfold boundGoal Infer.boundGoal
  cases b.anno <;> simp [act_annotated]

section

variable (mode : Mode) (m : Mark) (p : Binder) (b d e a y n : Expr) (Γ : Env) (c : Demand)
  (body bound callee arg test yes no : ObservedExprWalk) (t u : Ty)

theorem walk_bind : (bind p d bound Γ).walk = Infer.bind p d bound.walk Γ := by
  simp only [bind, ObservedWalk.walk_act, act_boundGoal, ObservedWalk.walk_andThen,
    ObservedWalk.walk_reading, ObservedWalk.walk_log, ObservedWalk.walk_fillBinder,
    ObservedWalk.walk_done]
  rfl

theorem walk_lam : (lam m p b body Γ).walk = Infer.lam m p b body.walk Γ := by
  simp [lam, Infer.lam, act_paramTy, ObservedExprWalk.walk]

theorem walk_lamAgainst :
    (lamAgainst m p b body Γ c t u).walk = Infer.lamAgainst m p b body.walk Γ c t u := by
  simp [lamAgainst, Infer.lamAgainst, act_paramTyAgainst, ObservedExprWalk.walk]

/-- The demand for an argument is looked up in the same session, with a record or without. -/
theorem walk_app :
    (app mode m a callee arg Γ).walk = Infer.app mode m a callee.walk arg.walk Γ := by
  unfold app Infer.app
  simp only [ObservedWalk.walk_andThen, ObservedWalk.walk_reading]
  refine congrArg _ (funext fun f => funext fun t => funext fun s => ?_)
  cases Infer.calleeTy? mode t s with
  | none => simp [ObservedExprWalk.walk]
  | some r => simp [ObservedExprWalk.walk]

theorem walk_letIn :
    (letIn m p d e bound body Γ).walk = Infer.letIn m p d e bound.walk body.walk Γ := by
  simp [letIn, Infer.letIn, walk_bind, ObservedExprWalk.walk]

theorem walk_letInAgainst : (letInAgainst m p d e bound body Γ c).walk =
    Infer.letInAgainst m p d e bound.walk body.walk Γ c := by
  simp [letInAgainst, Infer.letInAgainst, walk_bind, ObservedExprWalk.walk]

theorem walk_cond : (cond mode m y n test yes no Γ).walk =
    Infer.cond mode m y n test.walk yes.walk no.walk Γ := by
  cases mode <;> simp [cond, Infer.cond, ObservedExprWalk.walk]

theorem walk_condAgainst : (condAgainst m y n test yes no Γ c).walk =
    Infer.condAgainst m y n test.walk yes.walk no.walk Γ c := by
  simp [condAgainst, Infer.condAgainst, ObservedExprWalk.walk]

theorem walk_anno (t : TypeExpr) : (anno m e t body Γ).walk = Infer.anno m e t body.walk Γ := by
  simp [anno, Infer.anno, act_annotated, ObservedExprWalk.walk]

theorem walk_invalid : (invalid m Γ).walk = Infer.invalid m := by
  simp [invalid, Infer.invalid]

end

section

variable (m : Mark) (es : List Expr) (elems : ElemsWalk) (Γ : Env)

theorem walk_tuple :
    (tuple m es elems Γ).walk = Infer.tuple m es (fun Γ goals => (elems Γ goals).walk) Γ := by
  simp [tuple, Infer.tuple]

theorem walk_tupleAgainst (d : Demand) (ts : List Ty) : (tupleAgainst m elems Γ d ts).walk =
    Infer.tupleAgainst m (fun Γ goals => (elems Γ goals).walk) Γ d ts := by
  simp [tupleAgainst, Infer.tupleAgainst]

end

end Observe

namespace Expr

/-- The record of elements is left out of each of them. -/
theorem walk_observeAll {mode : Mode} {es : List Expr}
    (h : ∀ e ∈ es, (observe mode e).walk = infer mode e) (Γ : Env) (goals : List Goal) :
    (observeAll mode es Γ goals).walk = inferAll mode es Γ goals := by
  induction es generalizing goals with
  | nil => rw [observeAll, inferAll, ObservedWalk.walk_done]
  | cons e es ih =>
    have he := congrFun (congrFun (h e (List.mem_cons_self ..)) Γ) (goals.headD none)
    have hes := ih (fun d hd => h d (List.mem_cons_of_mem e hd)) goals.tail
    rw [observeAll, inferAll, ← he, ← hes]
    simp [ObservedExprWalk.walk]

/-- An observed walk without its record is the walk of the expression. -/
theorem walk_observe (mode : Mode) (e : Expr) : (observe mode e).walk = infer mode e := by
  induction e using Expr.inductionOn with
  | lit m l =>
    funext Γ goal
    rw [ObservedExprWalk.walk, observe, infer, ObservedWalk.walk_since, Observe.walk_settle]
    rfl
  | name m x =>
    funext Γ goal
    rw [ObservedExprWalk.walk, observe, infer, ObservedWalk.walk_since, Observe.walk_settle,
      Observe.walk_name]
  | lam m p b ih =>
    funext Γ goal s
    rw [ObservedExprWalk.walk, observe, infer, ObservedWalk.walk_since, ObservedWalk.walk_reading,
      ← ih]
    dsimp only
    cases (mode.pushed? goal s).bind fun d => d.expected.fn?.map (d, ·) with
    | some r => exact congrFun (Observe.walk_lamAgainst ..) s
    | none => rw [Observe.walk_settle, Observe.walk_lam]
  | app m f a ihf iha =>
    funext Γ goal
    rw [ObservedExprWalk.walk, observe, infer, ObservedWalk.walk_since, Observe.walk_settle,
      Observe.walk_app, ihf, iha]
  | letIn m b d e ihd ihe =>
    funext Γ goal s
    rw [ObservedExprWalk.walk, observe, infer, ObservedWalk.walk_since, ObservedWalk.walk_reading,
      ← ihd, ← ihe]
    dsimp only
    cases mode.pushed? goal s with
    | some c => exact congrFun (Observe.walk_letInAgainst ..) s
    | none => rw [Observe.walk_settle, Observe.walk_letIn]
  | cond m c y n ihc ihy ihn =>
    funext Γ goal s
    rw [ObservedExprWalk.walk, observe, infer, ObservedWalk.walk_since, ObservedWalk.walk_reading,
      ← ihc, ← ihy, ← ihn]
    dsimp only
    cases (mode.pushed? goal s).filter fun _ => mode.propagates (.branch m.span) with
    | some d => exact congrFun (Observe.walk_condAgainst ..) s
    | none => rw [Observe.walk_settle, Observe.walk_cond]
  | anno m e a ih =>
    funext Γ goal
    rw [ObservedExprWalk.walk, observe, infer, ObservedWalk.walk_since, Observe.walk_settle,
      Observe.walk_anno, ih]
  | tuple m es ih =>
    funext Γ goal s
    have helems : (fun Γ goals => (observeAll mode es Γ goals).walk) = inferAll mode es :=
      funext fun Γ => funext fun goals => walk_observeAll ih Γ goals
    rw [ObservedExprWalk.walk, observe, infer, ObservedWalk.walk_since, ObservedWalk.walk_reading,
      ← helems]
    dsimp only
    cases (mode.pushed? goal s).bind fun d =>
        (d.expected.tuple?.filter fun ts => ts.length = es.length).map (d, ·) with
    | some r => exact congrFun (Observe.walk_tupleAgainst ..) s
    | none => rw [Observe.walk_settle, Observe.walk_tuple]
  | invalid m =>
    funext Γ goal
    rw [ObservedExprWalk.walk, observe, infer, ObservedWalk.walk_since, Observe.walk_settle,
      Observe.walk_invalid]

end Expr

/-- An observed run without its record is the run over the program. -/
theorem Program.walk_observe (mode : Mode) (p : Program) (Γ : Env) :
    (Program.observe mode p Γ).walk = Program.infer mode p Γ := by
  induction p generalizing Γ with
  | nil => rfl
  | cons d ds ih =>
    simp only [Program.observe, Program.infer, ObservedWalk.walk_since, ObservedWalk.walk_andThen,
      Observe.walk_bind, Expr.walk_observe, ObservedWalk.walk_log, ObservedWalk.walk_done, ih]

/-! ## Whole runs -/

namespace Prelude

/-- The number of variables that are drawn for a scheme: those that no scheme before it has. -/
def fresh (σ : Scheme) (n : Supply) : Nat := (σ.vars.filter (n ≤ ·)).length

/-- The environment and the supply while names get schemes, right before each variable that is drawn
for a scheme, and right before each name is added. -/
def stages : List (String × Scheme) → Env → Supply → List (Env × Supply)
  | [], _, _ => []
  | (x, σ) :: es, Γ, n =>
    (List.range' n (fresh σ n + 1)).map (Γ, ·) ++ stages es (Γ.extend x σ) (n + fresh σ n)

/-- The moments of a run before the first declaration. -/
def moments (p : Program) : List (Moment Program) :=
  (stages entries .empty 0).map fun e => .plain e.1 p { Session.start with drawn := e.2 }

end Prelude

namespace Expr

variable (f : Slot Ty → Slot Ty) (g : Slot Scheme → Slot Scheme)

mutual

/-- The trees right before each change of a slot when all slots are changed, those of an expression
before those of its parts. -/
def updating : Expr → List Expr
  | lit m l => [lit m l]
  | name m x => [name m x]
  | lam m p b =>
    [lam m p b, lam (m.update f) p b] ++ (updating b).map (lam (m.update f) (p.update g))
  | app m e a =>
    [app m e a] ++ (updating e).map (app (m.update f) · a) ++
      (updating a).map (app (m.update f) (e.update f g))
  | letIn m b d e =>
    [letIn m b d e, letIn (m.update f) b d e] ++
      (updating d).map (letIn (m.update f) (b.update g) · e) ++
      (updating e).map (letIn (m.update f) (b.update g) (d.update f g))
  | cond m c t e =>
    [cond m c t e] ++ (updating c).map (cond (m.update f) · t e) ++
      (updating t).map (cond (m.update f) (c.update f g) · e) ++
      (updating e).map (cond (m.update f) (c.update f g) (t.update f g))
  | anno m e t => [anno m e t] ++ (updating e).map (anno (m.update f) · t)
  | tuple m es => [tuple m es] ++ (updatingAll es).map (tuple (m.update f))
  | invalid m => [invalid m]

/-- The same for the expressions of a list. -/
def updatingAll : List Expr → List (List Expr)
  | [] => []
  | e :: es => (updating e).map (· :: es) ++ (updatingAll es).map (e.update f g :: ·)

end

end Expr

/-- The declarations right before each change of a slot when all slots are changed. -/
def Decl.updating (f : Slot Ty → Slot Ty) (g : Slot Scheme → Slot Scheme) (d : Decl) : List Decl :=
  d :: (d.bound.updating f g).map fun e => { d with binder := d.binder.update g, bound := e }

namespace Program

/-- The programs right before each change of a slot when all slots are changed. -/
def updating (f : Slot Ty → Slot Ty) (g : Slot Scheme → Slot Scheme) : Program → List Program
  | [] => []
  | d :: ds => (d.updating f g).map (· :: ds) ++ (updating f g ds).map (d.update f g :: ·)

/-- All moments of a run of inference.  In the end no environment is in use any more. -/
def moments (mode : Mode) (p : Program) : List (Moment Program) :=
  let (ms, (q, r), s) := Program.observe mode p.clear Prelude.env Session.start
  let resolving :=
    match r with
    | .ok () => q.updating (·.resolve s.subst.apply) (·.resolve s.subst.applyScheme)
    | .error _ => []
  Prelude.moments p.clear ++ ms ++ resolving.map (.plain .empty · s) ++
    [.plain .empty (p.inferTypes mode).program s]

end Program

end LetPoly
