import Std.Data.ExtTreeSet

/-!
# Types and schemes

A type is a variable, or a constructor applied to a list of types.  The primitive
types are constructors without arguments.  A function type is the constructor `fn`
on its parameter and its result, and a tuple type is `tuple` on its elements.
Nothing ties a constructor to a number of arguments, so each reader of a type looks
at the arguments it finds (`fn?`, `tuple?`).

A scheme is a type with a list of variables it is polymorphic over.

Recursion on a type goes through lists of types.  Each such function comes as a pair,
one for a type and one for a list of types, and is structural, so closed instances
compute.  `Ty.inductionOn` is the matching induction principle, with one hypothesis
per argument.
-/

namespace LetPoly

/-- A type variable.  Two variables are the same exactly when their numbers are. -/
abbrev TyVar := Nat

/-- A set of type variables. -/
abbrev VarSet := Std.ExtTreeSet TyVar

/-- The variables of a list that are not in a set, each at the place where it occurs first. -/
def firstOccurrences (seen : VarSet) : List TyVar → List TyVar
  | [] => []
  | v :: vs =>
    if seen.contains v then firstOccurrences seen vs
    else v :: firstOccurrences (seen.insert v) vs

/-- The first occurrences of a list are its members that have not been seen. -/
theorem mem_firstOccurrences {seen : VarSet} {vs : List TyVar} {v : TyVar} :
    v ∈ firstOccurrences seen vs ↔ v ∈ vs ∧ v ∉ seen := by
  induction vs generalizing seen with
  | nil => simp [firstOccurrences]
  | cons w vs ih => grind [firstOccurrences]

theorem nodup_firstOccurrences (seen : VarSet) (vs : List TyVar) :
    (firstOccurrences seen vs).Nodup := by
  induction vs generalizing seen with
  | nil => simp [firstOccurrences]
  | cons w vs ih => grind [firstOccurrences, mem_firstOccurrences]

/-- The type constructors. -/
inductive Con where
  | int
  | float
  | bool
  | string
  | unit
  | fn
  | tuple
  deriving DecidableEq, Repr

namespace Con

/-- The name a constructor is printed with. -/
def name : Con → String
  | int => "Int"
  | float => "Float"
  | bool => "Bool"
  | string => "String"
  | unit => "Unit"
  | fn => "->"
  | tuple => "(,)"

/-- The primitive type that is written with the given name. -/
def primitive? : String → Option Con
  | "Int" => some int
  | "Float" => some float
  | "Bool" => some bool
  | "String" => some string
  | "Unit" => some unit
  | _ => none

end Con

/-- A type. -/
inductive Ty where
  /-- A variable. -/
  | var (v : TyVar)
  /-- A constructor applied to arguments. -/
  | con (c : Con) (args : List Ty)
  deriving Repr, Inhabited

namespace Ty

/-- Induction on types, with a hypothesis for every argument of a constructor. -/
theorem inductionOn {motive : Ty → Prop} (t : Ty) (var : ∀ v, motive (.var v))
    (con : ∀ c args, (∀ a ∈ args, motive a) → motive (.con c args)) : motive t :=
  @Ty.rec motive (fun ts => ∀ a ∈ ts, motive a) var con
    (by simp) (fun _ _ h hs => by simpa using ⟨h, hs⟩) t

/-! ## Equality -/

mutual

/-- Equality of types is decidable. -/
def decEq : (t u : Ty) → Decidable (t = u)
  | var v, var w =>
    if h : v = w then isTrue (congrArg var h) else isFalse fun e => h (Ty.var.inj e)
  | con c ts, con d us =>
    if h : c = d then
      match decEqAll ts us with
      | isTrue hs => isTrue (by rw [h, hs])
      | isFalse hs => isFalse fun e => hs (Ty.con.inj e).2
    else isFalse fun e => h (Ty.con.inj e).1
  | var _, con _ _ => isFalse nofun
  | con _ _, var _ => isFalse nofun

/-- Equality of lists of types is decidable. -/
def decEqAll : (ts us : List Ty) → Decidable (ts = us)
  | [], [] => isTrue rfl
  | t :: ts, u :: us =>
    match decEq t u with
    | isTrue h =>
      match decEqAll ts us with
      | isTrue hs => isTrue (by rw [h, hs])
      | isFalse hs => isFalse fun e => hs (List.cons.inj e).2
    | isFalse h => isFalse fun e => h (List.cons.inj e).1
  | [], _ :: _ => isFalse nofun
  | _ :: _, [] => isFalse nofun

end

instance : DecidableEq Ty := decEq

/-! ## Building and reading types -/

/-- The type of integers. -/
def int : Ty := con .int []

/-- The type of floating-point numbers. -/
def float : Ty := con .float []

/-- The type of truth values. -/
def bool : Ty := con .bool []

/-- The type of strings. -/
def string : Ty := con .string []

/-- The type with one value. -/
def unit : Ty := con .unit []

/-- The type of functions from one type to another. -/
def fn (t u : Ty) : Ty := con .fn [t, u]

/-- The type of tuples with the given elements. -/
def tuple (ts : List Ty) : Ty := con .tuple ts

/-- The parameter and the result of a function type. -/
def fn? : Ty → Option (Ty × Ty)
  | con .fn [t, u] => some (t, u)
  | _ => none

/-- The elements of a tuple type. -/
def tuple? : Ty → Option (List Ty)
  | con .tuple ts => some ts
  | _ => none

/-! ## Variables -/

mutual

/-- Whether a variable occurs in a type. -/
def occurs (v : TyVar) : Ty → Bool
  | var w => v == w
  | con _ args => occursAny v args

/-- Whether a variable occurs in some type of a list. -/
def occursAny (v : TyVar) : List Ty → Bool
  | [] => false
  | t :: ts => occurs v t || occursAny v ts

end

mutual

/-- The variables of a type as they stand in it, left to right, with repetitions. -/
def occurrences : Ty → List TyVar
  | var v => [v]
  | con _ args => occurrencesAll args

/-- The variables of a list of types, left to right, with repetitions. -/
def occurrencesAll : List Ty → List TyVar
  | [] => []
  | t :: ts => occurrences t ++ occurrencesAll ts

end

/-- The variables of a type, each at the place where it occurs first. -/
def vars (t : Ty) : List TyVar := firstOccurrences ∅ t.occurrences

/-- The variables of a type by increasing number. -/
def sortedVars (t : Ty) : List TyVar := (Std.ExtTreeSet.ofList t.occurrences : VarSet).toList

mutual

/-- Puts a type in the place of every variable. -/
def replace (f : TyVar → Ty) : Ty → Ty
  | var v => f v
  | con c args => con c (replaceAll f args)

/-- Puts a type in the place of every variable of a list of types. -/
def replaceAll (f : TyVar → Ty) : List Ty → List Ty
  | [] => []
  | t :: ts => replace f t :: replaceAll f ts

end

@[simp] theorem replaceAll_eq_map (f : TyVar → Ty) (ts : List Ty) :
    replaceAll f ts = ts.map (replace f) := by
  induction ts with
  | nil => rfl
  | cons t ts ih => simp [replaceAll, ih]

@[simp] theorem occursAny_eq_any (v : TyVar) (ts : List Ty) :
    occursAny v ts = ts.any (occurs v) := by
  induction ts with
  | nil => rfl
  | cons t ts ih => simp [occursAny, ih]

@[simp] theorem occurrencesAll_eq_flatMap (ts : List Ty) :
    occurrencesAll ts = ts.flatMap occurrences := by
  induction ts with
  | nil => rfl
  | cons t ts ih => simp [occurrencesAll, ih]

/-- Replacing changes nothing if every variable of the type stays. -/
theorem replace_eq_self {f : TyVar → Ty} {t : Ty} (h : ∀ v ∈ t.occurrences, f v = var v) :
    t.replace f = t := by
  induction t using Ty.inductionOn with
  | var v => exact h v (by simp [occurrences])
  | con c args ih =>
    simp only [occurrences, occurrencesAll_eq_flatMap, List.mem_flatMap] at h
    simp only [replace, replaceAll_eq_map, con.injEq, true_and]
    exact (List.map_congr_left fun a ha => ih a ha fun v hv => h v ⟨a, ha, hv⟩).trans
      (List.map_id' args)

end Ty

/-! ## Schemes -/

/-- A type with the variables it is polymorphic over. -/
structure Scheme where
  /-- The quantified variables. -/
  vars : List TyVar
  /-- The type they are quantified in. -/
  ty : Ty
  deriving DecidableEq, Repr, Inhabited

namespace Scheme

/-- The scheme of a type that is polymorphic over nothing. -/
def mono (t : Ty) : Scheme := ⟨[], t⟩

/-- Whether a scheme quantifies over nothing. -/
def isMono (σ : Scheme) : Bool := σ.vars.isEmpty

/-- The quantified variables as a set. -/
def bound (σ : Scheme) : VarSet := .ofList σ.vars

/-- Whether a scheme quantifies over every variable of its type. -/
def isClosed (σ : Scheme) : Bool :=
  let bound := σ.bound
  σ.ty.occurrences.all bound.contains

/-- The variables of the type that the scheme does not quantify over, by increasing number. -/
def freeVars (σ : Scheme) : List TyVar :=
  let bound := σ.bound
  σ.ty.sortedVars.filter fun v => !bound.contains v

theorem isClosed_iff {σ : Scheme} : σ.isClosed ↔ ∀ v ∈ σ.ty.occurrences, v ∈ σ.vars := by
  simp [isClosed, bound]

/-- The free variables of a scheme are those of its type that it does not quantify over. -/
theorem mem_freeVars {σ : Scheme} {v : TyVar} :
    v ∈ σ.freeVars ↔ v ∈ σ.ty.occurrences ∧ v ∉ σ.vars := by
  simp [freeVars, bound, Ty.sortedVars]

end Scheme

end LetPoly
