import LetPoly.Ty.Subst
import Std.Data.ExtTreeMap

/-!
# Environments

An environment gives the schemes of the names in scope.  A name has one scheme: to
extend an environment by a name that it already has is to replace its scheme, so a
shadowed scheme is gone.

Type variables are drawn from a supply, which is the number of variables drawn so far.
The next variable is that number.
-/

namespace LetPoly

/-- The number of variables drawn so far. -/
abbrev Supply := Nat

/-- Draws a variable. -/
def Supply.fresh : StateM Supply TyVar := fun n => (n, n + 1)

/-! ## Environments -/

/-- The schemes of the names in scope. -/
structure Env where
  /-- The names and their schemes. -/
  schemes : Std.ExtTreeMap String Scheme
  deriving DecidableEq, Repr, Inhabited

namespace Env

/-- The environment without names. -/
def empty : Env := ⟨∅⟩

/-- The scheme of a name. -/
def lookup? (env : Env) (x : String) : Option Scheme := env.schemes[x]?

/-- The environment in which a name has the given scheme. -/
def extend (env : Env) (x : String) (σ : Scheme) : Env := ⟨env.schemes.insert x σ⟩

/-- A name has the scheme it was given last. -/
theorem lookup?_extend (env : Env) (x y : String) (σ : Scheme) :
    (env.extend x σ).lookup? y = if x = y then some σ else env.lookup? y := by
  simp [lookup?, extend, Std.ExtTreeMap.getElem?_insert]

theorem lookup?_extend_eq_some {env : Env} {x y : String} {σ τ : Scheme} :
    (env.extend x σ).lookup? y = some τ ↔
      x = y ∧ σ = τ ∨ x ≠ y ∧ env.lookup? y = some τ := by
  rw [lookup?_extend]
  split <;> simp [*]

/-- The variables that are free in some scheme of the environment under a substitution.  A closed
scheme has none whatever is solved, so it is passed over. -/
def freeVars (env : Env) (s : Subst) : VarSet :=
  .ofList (env.schemes.toList.flatMap fun e =>
    if e.2.isClosed then [] else (s.applyScheme e.2).freeVars)

/-- The free variables of an environment are those of its schemes, as far as they are solved. -/
theorem mem_freeVars {env : Env} {s : Subst} {v : TyVar} :
    v ∈ env.freeVars s ↔ ∃ x σ, env.lookup? x = some σ ∧ v ∈ (s.applyScheme σ).freeVars := by
  have hclosed (σ : Scheme) : v ∈ (if σ.isClosed then [] else (s.applyScheme σ).freeVars) ↔
      v ∈ (s.applyScheme σ).freeVars := by
    split
    · rename_i h
      have hv := Scheme.isClosed_iff.1 h v
      rw [Subst.applyScheme_of_isClosed s h, Scheme.mem_freeVars]
      simp only [List.not_mem_nil, false_iff]
      exact fun ⟨hin, hout⟩ => hout (hv hin)
    · rfl
  simp only [freeVars, lookup?, Std.ExtTreeSet.mem_ofList, List.contains_iff_mem, List.mem_flatMap,
    Prod.exists, Std.ExtTreeMap.mem_toList_iff_getElem?_eq_some, hclosed]

/-- The free variables by increasing number. -/
def sortedFreeVars (env : Env) (s : Subst) : List TyVar := (env.freeVars s).toList

/-- The scheme of a type that quantifies over its variables that are not free in the environment,
in the order in which they occur. -/
def generalize (env : Env) (s : Subst) (t : Ty) : Scheme :=
  let t := s.apply t
  let fixed := env.freeVars s
  ⟨t.vars.filter fun v => !fixed.contains v, t⟩

end Env

/-! ## Instances -/

namespace Scheme

/-- Extends a substitution by fresh variables for the given ones. -/
def refresh : List TyVar → Subst → ExceptT Defect (StateM Supply) Subst
  | [], s => return s
  | v :: vs, s => do
    let w ← Supply.fresh
    let s ← ExceptT.mk (pure (s.bind v (.var w)))
    refresh vs s

/-- The type of a scheme with fresh variables for the quantified ones. -/
def instantiate (σ : Scheme) : ExceptT Defect (StateM Supply) Ty :=
  if σ.isMono then return σ.ty
  else do
    let s ← refresh σ.vars .empty
    return s.apply σ.ty

end Scheme

end LetPoly
