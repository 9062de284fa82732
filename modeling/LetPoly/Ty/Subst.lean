import LetPoly.Defect
import LetPoly.Ty
import Std.Data.ExtTreeMap

/-!
# Substitutions

A substitution is a finite map from variables to the types they were solved to.  A
bound type may mention bound variables, so applying a substitution follows chains of
bindings until no bound variable is left.

Following a chain passes each bound variable at most once when no variable is
reachable from itself.  So the number of bindings bounds the length of every chain,
and `solution` counts down from it.

Two substitutions are equal exactly when they bind the same variables to the same types.
-/

namespace LetPoly

/-- A finite map from variables to types. -/
structure Subst where
  /-- The bound variables and their types. -/
  bindings : Std.ExtTreeMap TyVar Ty
  deriving DecidableEq, Repr, Inhabited

namespace Subst

/-- The substitution without bindings. -/
def empty : Subst := ⟨∅⟩

/-- The type a variable is bound to. -/
def get? (s : Subst) (v : TyVar) : Option Ty := s.bindings[v]?

/-- The number of bindings. -/
def size (s : Subst) : Nat := s.bindings.size

/-- Whether there is no binding. -/
def isEmpty (s : Subst) : Bool := s.bindings.isEmpty

/-- Binds a variable that is not bound yet. -/
def bind (s : Subst) (v : TyVar) (t : Ty) : Except Defect Subst :=
  match s.get? v with
  | none => .ok ⟨s.bindings.insert v t⟩
  | some _ => .error .variableBoundTwice

/-- Binds the variables of a list one after another, starting from nothing. -/
def ofList (bindings : List (TyVar × Ty)) : Except Defect Subst :=
  bindings.foldlM (fun s b => s.bind b.1 b.2) empty

/-- The substitution without its bindings for the given variables. -/
def without (s : Subst) (vs : List TyVar) : Subst := ⟨vs.foldl (·.erase ·) s.bindings⟩

/-- The bindings by increasing variable. -/
def toSortedList (s : Subst) : List (TyVar × Ty) := s.bindings.toList

theorem ext {s r : Subst} (h : ∀ v, s.get? v = r.get? v) : s = r := by
  cases s
  cases r
  exact congrArg mk (Std.ExtTreeMap.ext_getElem? fun {v} => h v)

@[simp] theorem get?_empty (v : TyVar) : empty.get? v = none := by
  simp [get?, empty]

/-- Binding changes what one variable is bound to. -/
theorem get?_of_bind_eq_ok {s r : Subst} {v : TyVar} {t : Ty} (h : s.bind v t = .ok r) (w : TyVar) :
    r.get? w = if v = w then some t else s.get? w := by
  unfold bind at h
  split at h
  · cases h
    simp [get?, Std.ExtTreeMap.getElem?_insert]
  · cases h

theorem get?_without (s : Subst) (vs : List TyVar) (v : TyVar) :
    (s.without vs).get? v = if v ∈ vs then none else s.get? v := by
  unfold without get?
  induction vs generalizing s with
  | nil => simp
  | cons w vs ih =>
    have := ih ⟨s.bindings.erase w⟩
    simp only [List.foldl_cons, this, Std.ExtTreeMap.getElem?_erase]
    grind

/-! ## Applying a substitution -/

/-- What a variable stands for after at most `n` bindings were followed. -/
def solution (s : Subst) : Nat → TyVar → Ty
  | 0, v => .var v
  | n + 1, v =>
    match s.get? v with
    | some (.var w) => s.solution n w
    | some t => t.replace (s.solution n)
    | none => .var v

/-- Replaces every bound variable of a type, following chains of bindings. -/
def apply (s : Subst) (t : Ty) : Ty := t.replace (s.solution s.size)

/-- Replaces the bound variables of a scheme and leaves its quantified variables alone. -/
def applyScheme (s : Subst) (σ : Scheme) : Scheme := ⟨σ.vars, (s.without σ.vars).apply σ.ty⟩

/-- A bound variable stands for what its type becomes with one binding less to follow. -/
theorem solution_succ (s : Subst) (n : Nat) (v : TyVar) :
    s.solution (n + 1) v = ((s.get? v).map (Ty.replace (s.solution n))).getD (.var v) := by
  rw [solution]
  split <;> rename_i h <;> simp [h, Ty.replace]

/-- An unbound variable stands for itself. -/
theorem solution_of_get?_eq_none {s : Subst} {v : TyVar} (h : s.get? v = none) (n : Nat) :
    s.solution n v = .var v := by
  cases n <;> simp [solution, h]

/-- A closed scheme stays what it is. -/
theorem applyScheme_of_isClosed (s : Subst) {σ : Scheme} (h : σ.isClosed) :
    s.applyScheme σ = σ := by
  have hty : (s.without σ.vars).apply σ.ty = σ.ty := Ty.replace_eq_self fun v hv =>
    solution_of_get?_eq_none (by simp [get?_without, Scheme.isClosed_iff.1 h v hv]) _
  simp [applyScheme, hty]

/-- Follows at most `n` bindings at the head of a type. -/
def headWithin (s : Subst) : Nat → Ty → Ty
  | 0, t => t
  | _ + 1, .con c args => .con c args
  | n + 1, .var v =>
    match s.get? v with
    | some t => s.headWithin n t
    | none => .var v

/-- Resolves the head of a type: what is left is a constructor or an unbound variable. -/
def head (s : Subst) (t : Ty) : Ty := s.headWithin s.size t

/-- Applies the second substitution to all that the first binds, then adds the bindings of the
second, which win where both bind a variable. -/
def compose (s r : Subst) : Subst := ⟨s.bindings.map (fun _ t => r.apply t) ∪ r.bindings⟩

theorem get?_compose (s r : Subst) (v : TyVar) :
    (s.compose r).get? v = (r.get? v).or ((s.get? v).map r.apply) := by
  simp [compose, get?, Std.ExtTreeMap.getElem?_union]

end Subst

end LetPoly
