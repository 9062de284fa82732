import LetPoly.Ty
import Std.Data.ExtTreeMap

/-!
# Printing types

Variables are printed under names, `'a`, `'b` and so on, in the order in which they
are first printed.  A *naming* gives their positions in that order.  Printing several types under one
naming keeps the names of shared variables, and printing a type by itself starts with
the empty naming.

The arrow is right associative and stands under no other constructor without
parentheses.  A tuple is always in parentheses.  Any other constructor with arguments
is followed by them, separated by blanks.
-/

namespace LetPoly

/-- The variables printed so far. -/
structure Naming where
  /-- The position of each variable, counted from zero. -/
  positions : Std.ExtTreeMap TyVar Nat
  deriving DecidableEq, Repr, Inhabited

namespace Naming

/-- The naming that names nothing. -/
def empty : Naming := ⟨∅⟩

/-- The letters of names. -/
def alphabet : List Char := "abcdefghijklmnopqrstuvwxyz".toList

/-- The name at a position: a letter, and the number of times the alphabet was used up if it was. -/
def nth (i : Nat) : String :=
  let letter := "'".push (alphabet.getD (i % alphabet.length) 'a')
  if i < alphabet.length then letter else letter ++ toString (i / alphabet.length)

/-- The name of a variable.  A variable without a name takes the next one. -/
def name (v : TyVar) : StateM Naming String := fun names =>
  match names.positions[v]? with
  | some i => (nth i, names)
  | none =>
    let i := names.positions.size
    (nth i, ⟨names.positions.insert v i⟩)

end Naming

namespace Ty

mutual

/-- Prints a type under a naming.  An atomic position puts a function type in parentheses. -/
def printAt (atomic : Bool) : Ty → StateM Naming String
  | var v => Naming.name v
  | con .fn [t, u] => do
    let t ← printAt true t
    let u ← printAt false u
    let arrow := t ++ " -> " ++ u
    return if atomic then "(" ++ arrow ++ ")" else arrow
  | con .tuple elems => do
    let elems ← printAll false elems
    return "(" ++ ", ".intercalate elems ++ ")"
  | con c [] => return c.name
  | con c args => do
    let args ← printAll true args
    return c.name ++ " " ++ " ".intercalate args

/-- Prints the types of a list one after another. -/
def printAll (atomic : Bool) : List Ty → StateM Naming (List String)
  | [] => return []
  | t :: ts => do
    let t ← printAt atomic t
    let ts ← printAll atomic ts
    return t :: ts

end

/-- Prints a type under a naming. -/
def print (t : Ty) : StateM Naming String := t.printAt false

/-- A type printed by itself. -/
def text (t : Ty) : String := (t.print Naming.empty).1

end Ty

namespace Scheme

/-- Prints a scheme under a naming.  Its quantified variables are named first. -/
def print (σ : Scheme) : StateM Naming String :=
  if σ.vars.isEmpty then σ.ty.print
  else do
    let vars ← σ.vars.mapM Naming.name
    let ty ← σ.ty.print
    return "forall " ++ " ".intercalate vars ++ ". " ++ ty

/-- A scheme printed by itself. -/
def text (σ : Scheme) : String := (σ.print Naming.empty).1

end Scheme

end LetPoly
