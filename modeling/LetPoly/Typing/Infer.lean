import LetPoly.Typing.Mode
import LetPoly.Typing.Session

/-!
# Inference

The type of an expression is found by a walk over it, which fills every slot on its
way.  A *demand* is a type that the context expects, with the reason for it.  Without a
demand the type of an expression is *synthesized* from its parts.  With one there are
two ways.  A demand that the mode pushes is taken apart along the expression, if the
expression and the expected type have the shapes for it.  Any other demand is compared
with the synthesized type.

Each kind of expression has its rules, which get the walks of the parts as arguments.
`Expr.infer` ties them together by recursion on the expression.
-/

namespace LetPoly

/-- A type that the context expects, and why. -/
structure Demand where
  /-- The reason. -/
  because : Because
  /-- The type. -/
  expected : Ty
  deriving DecidableEq, Repr

/-- What a walk has to do: to find a type, or to meet a demand. -/
abbrev Goal := Option Demand

/-- The walk of an expression in an environment, for a goal. -/
abbrev ExprWalk := Env → Goal → Walk Expr Ty

/-- The demand that a mode pushes into an expression, resolved as of now. -/
def Mode.pushed? (mode : Mode) (goal : Goal) (s : Session) : Option Demand :=
  match goal with
  | none => none
  | some d =>
    if mode.propagates d.because then some { d with expected := s.subst.apply d.expected }
    else none

/-- Compares a synthesized type with the demand, if there is one. -/
def Goal.settle (goal : Goal) (span : Span) (w : Walk Expr Ty) : Walk Expr Ty :=
  match goal with
  | none => w
  | some d =>
    w.andThen id fun e t =>
      .act (Act.unify d.because span d.expected t) e fun _ => .done e t

namespace Infer

/-! ## Names and binders -/

/-- The rule for a name: an instance of its scheme. -/
def name (m : Mark) (x : String) (env : Env) : Walk Expr Ty :=
  match env.lookup? x with
  | some σ => .act (Act.instantiate σ) (.name m x) fun t => .annotate (.name · x) m t
  | none => fun s => ((.name m x, .error (.error (.unbound m.span x))), s)

/-- The type of a parameter: its annotation, or a fresh variable. -/
def paramTy (p : Binder) : Act Ty :=
  match p.anno with
  | some anno => Act.draw anno.lower
  | none => Act.fresh

/-- The type of a parameter for which a type is expected.  An annotation has to agree with it. -/
def paramTyAgainst (p : Binder) (t : Ty) : Act Ty :=
  match p.anno with
  | some anno => do
    let a ← Act.draw anno.lower
    Act.unify (.ascription anno.span) p.span a t
    return a
  | none => return t

/-- The demand that an annotation makes. -/
def annotated (anno : TypeExpr) : Act Demand := do
  return ⟨.ascription anno.span, ← Act.draw anno.lower⟩

/-- The goal for the definition of a binder. -/
def boundGoal (b : Binder) : Act Goal :=
  match b.anno with
  | some anno => some <$> annotated anno
  | none => return none

/-- Types the definition of a binder and generalizes it. -/
def bind (b : Binder) (e : Expr) (bound : ExprWalk) (env : Env) : Walk (Binder × Expr) Scheme :=
  .act (boundGoal b) (b, e) fun goal =>
  (bound env goal).andThen (b, ·) fun e t s =>
    let t := match goal with
      | some d => d.expected
      | none => t
    let σ := env.generalize s.subst t
    (Walk.log (.generalized b.name σ) <|
      Walk.fillBinder b σ (·, e) fun b => .done (b, e) σ) s

/-! ## Functions and calls -/

/-- Synthesizes the type of a function. -/
def lam (m : Mark) (p : Binder) (b : Expr) (body : ExprWalk) (env : Env) : Walk Expr Ty :=
  .act (paramTy p) (.lam m p b) fun t =>
  .fillBinder p (.mono t) (.lam m · b) fun p =>
  (body (env.extend p.name (.mono t)) none).andThen (.lam m p) fun b u =>
  .annotate (.lam · p b) m (.fn t u)

/-- Takes a demand for a function from `t` to `u` apart. -/
def lamAgainst (m : Mark) (p : Binder) (b : Expr) (body : ExprWalk) (env : Env) (d : Demand)
    (t u : Ty) : Walk Expr Ty :=
  .act (paramTyAgainst p t) (.lam m p b) fun t =>
  .fillBinder p (.mono t) (.lam m · b) fun p =>
  (body (env.extend p.name (.mono t)) (some ⟨d.because, u⟩)).andThen (.lam m p) fun b _ =>
  .annotate (.lam · p b) m d.expected

/-- The parameter and the result of a function whose argument gets a demand. -/
def calleeTy? (mode : Mode) (t : Ty) (s : Session) : Option (Ty × Ty) :=
  if mode.propagates .argument then (s.subst.apply t).fn? else none

/-- Synthesizes the type of a call. -/
def app (mode : Mode) (m : Mark) (a : Expr) (callee arg : ExprWalk) (env : Env) : Walk Expr Ty :=
  (callee env none).andThen (.app m · a) fun f t s =>
    match calleeTy? mode t s with
    | some (param, result) =>
      (arg env (some ⟨.argument, param⟩)).andThen (.app m f)
        (fun a _ => .annotate (.app · f a) m result) s
    | none =>
      (arg env none).andThen (.app m f)
        (fun a u =>
          .act Act.fresh (.app m f a) fun r =>
          .act (Act.unify .argument m.span t (.fn u r)) (.app m f a) fun _ =>
          .annotate (.app · f a) m r) s

/-! ## Definitions -/

/-- Synthesizes the type of a local definition. -/
def letIn (m : Mark) (b : Binder) (d e : Expr) (bound body : ExprWalk) (env : Env) :
    Walk Expr Ty :=
  (bind b d bound env).andThen (fun (b, d) => .letIn m b d e) fun (b, d) σ =>
  (body (env.extend b.name σ) none).andThen (.letIn m b d) fun e t =>
  .annotate (.letIn · b d e) m t

/-- Passes a demand on to the body of a local definition. -/
def letInAgainst (m : Mark) (b : Binder) (d e : Expr) (bound body : ExprWalk) (env : Env)
    (demand : Demand) : Walk Expr Ty :=
  (bind b d bound env).andThen (fun (b, d) => .letIn m b d e) fun (b, d) σ =>
  (body (env.extend b.name σ) (some demand)).andThen (.letIn m b d) fun e _ =>
  .annotate (.letIn · b d e) m demand.expected

/-! ## Conditionals -/

/-- The demand for the test of a conditional. -/
def truthValue : Demand := ⟨.condition, .bool⟩

/-- Synthesizes the type of a conditional.  Bottom-up the branches are compared afterwards, top-down
the type of the first is expected of the second. -/
def cond (mode : Mode) (m : Mark) (t e : Expr) (test yes no : ExprWalk) (env : Env) :
    Walk Expr Ty :=
  (test env (some truthValue)).andThen (.cond m · t e) fun c _ =>
  (yes env none).andThen (.cond m c · e) fun t a =>
    match mode with
    | .bottomUp =>
      (no env none).andThen (.cond m c t) fun e b =>
      .act (Act.unify (.branch m.span) m.span a b) (.cond m c t e) fun _ =>
      .annotate (.cond · c t e) m a
    | .topDown _ =>
      (no env (some ⟨.branch m.span, a⟩)).andThen (.cond m c t) fun e _ =>
      .annotate (.cond · c t e) m a

/-- Passes a demand on to both branches of a conditional. -/
def condAgainst (m : Mark) (t e : Expr) (test yes no : ExprWalk) (env : Env) (d : Demand) :
    Walk Expr Ty :=
  (test env (some truthValue)).andThen (.cond m · t e) fun c _ =>
  (yes env (some d)).andThen (.cond m c · e) fun t _ =>
  (no env (some ⟨.branch m.span, d.expected⟩)).andThen (.cond m c t) fun e _ =>
  .annotate (.cond · c t e) m d.expected

/-! ## Annotations and tuples -/

/-- The rule for an annotation: it is the type, and a demand on what it annotates. -/
def anno (m : Mark) (e : Expr) (a : TypeExpr) (inner : ExprWalk) (env : Env) : Walk Expr Ty :=
  .act (annotated a) (.anno m e a) fun d =>
  (inner env (some d)).andThen (.anno m · a) fun e _ =>
  .annotate (.anno · e a) m d.expected

/-- The walks of the elements of a tuple. -/
abbrev ElemsWalk := Env → List Goal → Walk (List Expr) (List Ty)

/-- Synthesizes the type of a tuple. -/
def tuple (m : Mark) (es : List Expr) (elems : ElemsWalk) (env : Env) : Walk Expr Ty :=
  (elems env (es.map fun _ => none)).andThen (.tuple m) fun es ts =>
  .annotate (.tuple · es) m (.tuple ts)

/-- Takes a demand for a tuple of the given types apart. -/
def tupleAgainst (m : Mark) (elems : ElemsWalk) (env : Env) (d : Demand) (ts : List Ty) :
    Walk Expr Ty :=
  (elems env (ts.map fun t => some ⟨d.because, t⟩)).andThen (.tuple m) fun es _ =>
  .annotate (.tuple · es) m d.expected

/-- The rule for an invalid expression: it can have any type. -/
def invalid (m : Mark) : Walk Expr Ty :=
  .act Act.fresh (.invalid m) fun t => .annotate .invalid m t

end Infer

/-! ## Expressions -/

namespace Expr

mutual

/-- Finds the type of an expression, or makes it meet a demand. -/
def infer (mode : Mode) : Expr → ExprWalk
  | lit m l, _, goal => goal.settle m.span (.annotate (.lit · l) m l.ty)
  | name m x, env, goal => goal.settle m.span (Infer.name m x env)
  | lam m p b, env, goal => fun s =>
    match (mode.pushed? goal s).bind fun d => d.expected.fn?.map (d, ·) with
    | some (d, t, u) => Infer.lamAgainst m p b (infer mode b) env d t u s
    | none => goal.settle m.span (Infer.lam m p b (infer mode b) env) s
  | app m f a, env, goal =>
    goal.settle m.span (Infer.app mode m a (infer mode f) (infer mode a) env)
  | letIn m b d e, env, goal => fun s =>
    match mode.pushed? goal s with
    | some demand => Infer.letInAgainst m b d e (infer mode d) (infer mode e) env demand s
    | none => goal.settle m.span (Infer.letIn m b d e (infer mode d) (infer mode e) env) s
  | cond m c t e, env, goal => fun s =>
    match (mode.pushed? goal s).filter fun _ => mode.propagates (.branch m.span) with
    | some d => Infer.condAgainst m t e (infer mode c) (infer mode t) (infer mode e) env d s
    | none =>
      goal.settle m.span
        (Infer.cond mode m t e (infer mode c) (infer mode t) (infer mode e) env) s
  | anno m e a, env, goal => goal.settle m.span (Infer.anno m e a (infer mode e) env)
  | tuple m es, env, goal => fun s =>
    match (mode.pushed? goal s).bind fun d =>
        (d.expected.tuple?.filter fun ts => ts.length = es.length).map (d, ·) with
    | some (d, ts) => Infer.tupleAgainst m (inferAll mode es) env d ts s
    | none => goal.settle m.span (Infer.tuple m es (inferAll mode es) env) s
  | invalid m, _, goal => goal.settle m.span (Infer.invalid m)

/-- Finds the types of the expressions of a list, or makes each meet its demand. -/
def inferAll (mode : Mode) : List Expr → Infer.ElemsWalk
  | [], _, _ => .done [] []
  | e :: es, env, goals =>
    (infer mode e env (goals.headD none)).andThen (· :: es) fun e t =>
    (inferAll mode es env goals.tail).andThen (e :: ·) fun es ts =>
    .done (e :: es) (t :: ts)

end

end Expr

/-- Types declarations one after another, each in the scope of those before it. -/
def Program.infer (mode : Mode) : Program → Env → Walk Program Unit
  | [], _ => .done [] ()
  | d :: ds, env =>
    (Infer.bind d.binder d.bound (d.bound.infer mode) env).andThen
      (fun (b, e) => { d with binder := b, bound := e } :: ds) fun (b, e) σ =>
    .log (.inferred d.binder.name σ) <|
    (Program.infer mode ds (env.extend d.binder.name σ)).andThen
      ({ d with binder := b, bound := e } :: ·) fun ds _ =>
    .done ({ d with binder := b, bound := e } :: ds) ()

end LetPoly
