import LetPoly.Event
import LetPoly.Tree.Expr
import LetPoly.Typing.Env

/-!
# Sessions

A session is the state of one run of inference: the variables drawn, what has been
solved, and the log.  An *act* works on a session and may stop.

A *walk* works on a tree as well.  It leaves a tree behind whether or not it stops,
with the slots that were filled up to then.  Walks are put together with `andThen`
and `act`, which say at each step what the whole tree is if the walk stops there.
-/

namespace LetPoly

/-- The state of a run of inference. -/
structure Session where
  /-- The variables drawn so far. -/
  drawn : Supply
  /-- What has been solved so far. -/
  subst : Subst
  /-- The log, the last event first. -/
  log : List Event

/-- A computation on a session that may stop with a type error or a defect. -/
abbrev Act := ExceptT (Fault TypeError) (StateM Session)

namespace Act

/-- Draws from the supply of the session. -/
def draw {α : Type} (f : StateM Supply α) : Act α := fun s =>
  let (a, n) := f s.drawn
  (.ok a, { s with drawn := n })

/-- Draws a variable. -/
def fresh : Act Ty := Ty.var <$> draw Supply.fresh

/-- The type of a scheme with fresh variables for the quantified ones. -/
def instantiate (σ : Scheme) : Act Ty := fun s =>
  let (r, n) := σ.instantiate s.drawn
  (r.mapError .defect, { s with drawn := n })

/-- Makes two types equal for a reason.  Each variable that is solved is logged. -/
def unify (because : Because) (span : Span) (expected actual : Ty) : Act Unit := fun s =>
  let (r, x) := LetPoly.unify expected actual s.subst
  (r.mapError (Fault.mapError (TypeError.ofUnify because span)),
    { s with subst := x.subst, log := x.added.map (fun b => .solved b.1 b.2) ++ s.log })

end Act

namespace TypeExpr

mutual

/-- The type that an annotation stands for.  Each part that is left open becomes a fresh
variable. -/
def lower : TypeExpr → StateM Supply Ty
  | prim _ c => return .con c []
  | fn _ t u => do
    let t ← lower t
    let u ← lower u
    return .fn t u
  | tuple _ ts => return .tuple (← lowerAll ts)
  | wildcard _ => return .var (← Supply.fresh)
  | invalid _ => return .var (← Supply.fresh)

/-- The types that the annotations of a list stand for. -/
def lowerAll : List TypeExpr → StateM Supply (List Ty)
  | [] => return []
  | t :: ts => do
    let t ← lower t
    let ts ← lowerAll ts
    return t :: ts

end

end TypeExpr

/-! ## Walks -/

/-- A computation on a session that leaves a tree behind, whether it stops or not. -/
abbrev Walk (τ α : Type) := Session → (τ × Except (Fault TypeError) α) × Session

namespace Walk

/-- The walk that ends with a tree and a value. -/
def done {τ α : Type} (t : τ) (a : α) : Walk τ α := fun s => ((t, .ok a), s)

/-- Continues a walk of a part.  If the walk stops, `stopped` gives the whole from the part it left
behind. -/
def andThen {τ υ α β : Type} (w : Walk τ α) (stopped : τ → υ) (next : τ → α → Walk υ β) :
    Walk υ β := fun s =>
  match w s with
  | ((t, .ok a), s) => next t a s
  | ((t, .error e), s) => ((stopped t, .error e), s)

/-- Continues an act.  If the act stops, the whole is `stopped`. -/
def act {υ α β : Type} (a : Act α) (stopped : υ) (next : α → Walk υ β) : Walk υ β := fun s =>
  match a s with
  | (.ok a, s) => next a s
  | (.error e, s) => ((stopped, .error e), s)

/-- Logs an event. -/
def log {υ β : Type} (e : Event) (next : Walk υ β) : Walk υ β := fun s =>
  next { s with log := e :: s.log }

/-- Fills the slot of a binder. -/
def fillBinder {υ β : Type} (b : Binder) (σ : Scheme) (stopped : Binder → υ)
    (next : Binder → Walk υ β) : Walk υ β :=
  let (r, slot) := b.scheme.fill σ
  let b := { b with scheme := slot }
  match r with
  | .ok () => next b
  | .error d => fun s => ((stopped b, .error (.defect d)), s)

/-- Fills the slot of an expression with its type as far as it is known, and ends the walk with that
type. -/
def annotate (expr : Mark → Expr) (m : Mark) (t : Ty) : Walk Expr Ty := fun s =>
  let (r, slot) := m.ty.fill (s.subst.apply t)
  ((expr { m with ty := slot }, (r.mapError .defect).map fun _ => t), s)

end Walk

end LetPoly
