import LetPoly.Proofs.Renaming

/-!
# An assembler with a stack

Resolving the slots of a program and looking for ambiguous types are two ways through the tree, and
on the second one each node hands a set of quantified variables down to its parts.  Here is the
assembler that does both at once.  It keeps the quantified variables on one stack for the whole
declaration.  It pushes those of a binder before it goes into the part where they are quantified,
and takes as many off again behind it.  Of the ambiguous types it notes the first.

Behind an expression the stack is what it was before it (`Assembler.notes_expr`).  So the assembler
does the same as resolving the slots first and looking for ambiguities then
(`Program.assemble_eq`).
-/

namespace LetPoly

/-- The state of an assembler. -/
structure Assembler where
  /-- The stack of the variables that are quantified now, with the last ones at the end. -/
  bound : List TyVar
  /-- The first ambiguity so far. -/
  ambiguous? : Option TypeError

namespace Assembler

/-- The state before a declaration. -/
def start : Assembler := ⟨[], none⟩

/-- Notes that the type of an expression is ambiguous, if it is the first that is. -/
def check (m : Mark) (a : Assembler) : Assembler :=
  if a.ambiguous?.isSome then a
  else
    match m.ty.get? with
    | none => a
    | some t =>
      if t.vars.any fun v => !a.bound.contains v then
        { a with ambiguous? := some (.ambiguous m.span t) }
      else a

/-- Resolves the slot of an expression, and checks its type. -/
def mark (s : Subst) (m : Mark) : StateM Assembler Mark := do
  let m := m.update (·.resolve s.apply)
  modify (check m)
  return m

/-- Resolves the slot of a binder, and pushes the variables it quantifies over.  Returns how many
these are. -/
def binder (s : Subst) (b : Binder) : StateM Assembler (Binder × Nat) := do
  let b := b.update (·.resolve s.applyScheme)
  modify fun a => { a with bound := a.bound ++ b.quantified }
  return (b, b.quantified.length)

/-- Takes variables off the stack. -/
def unbind (n : Nat) : StateM Assembler Unit :=
  modify fun a => { a with bound := a.bound.take (a.bound.length - n) }

/-- Assembles a part in which a binder quantifies. -/
def inScope {α : Type} (s : Subst) (b : Binder) (part : StateM Assembler α) :
    StateM Assembler (Binder × α) := do
  let (b, n) ← binder s b
  let x ← part
  unbind n
  return (b, x)

mutual

/-- Assembles an expression. -/
def expr (s : Subst) : Expr → StateM Assembler Expr
  | .lit m l => do return .lit (← mark s m) l
  | .name m x => do return .name (← mark s m) x
  | .lam m p b => do
    let m ← mark s m
    let (p, b) ← inScope s p (expr s b)
    return .lam m p b
  | .app m f a => do return .app (← mark s m) (← expr s f) (← expr s a)
  | .letIn m b d e => do
    let m ← mark s m
    let (b, d) ← inScope s b (expr s d)
    return .letIn m b d (← expr s e)
  | .cond m c t e => do return .cond (← mark s m) (← expr s c) (← expr s t) (← expr s e)
  | .anno m e a => do return .anno (← mark s m) (← expr s e) a
  | .tuple m es => do return .tuple (← mark s m) (← exprs s es)
  | .invalid m => do return .invalid (← mark s m)

/-- Assembles the expressions of a list. -/
def exprs (s : Subst) : List Expr → StateM Assembler (List Expr)
  | [] => return []
  | e :: es => do return (← expr s e) :: (← exprs s es)

end

/-- Assembles a declaration, whose variables are quantified in all of its definition. -/
def decl (s : Subst) (d : Decl) : StateM Assembler Decl := do
  let (b, _) ← binder s d.binder
  return { d with binder := b, bound := ← expr s d.bound }

end Assembler

/-- Assembles the declarations of a program, each with a stack of its own, and returns what was
noted. -/
def Program.assemble (s : Subst) : Program → Program × List TypeError
  | [] => ([], [])
  | d :: ds =>
    let (d, a) := Assembler.decl s d .start
    let (ds, es) := Program.assemble s ds
    (d :: ds, a.ambiguous?.toList ++ es)

/-! ## Steps -/

namespace Assembler

variable {α β : Type} {s : Subst} {a a' : Assembler}

/-- The variables that are on the stack. -/
def scope (a : Assembler) : VarSet := .ofList a.bound

/-- The state after a search has come to an error, or to none. -/
def find (a : Assembler) (e? : Option TypeError) : Assembler :=
  { a with ambiguous? := a.ambiguous?.or e? }

/-- The state after variables were pushed. -/
def push (a : Assembler) (vs : List TyVar) : Assembler := { a with bound := a.bound ++ vs }

@[simp] theorem scope_find (a : Assembler) (e? : Option TypeError) : (a.find e?).scope = a.scope :=
  rfl

/-- The first of two errors is noted. -/
theorem find_find (x y : Option TypeError) : (a.find x).find y = a.find (x.or y) := by
  simp only [find, Option.or_assoc]

/-- To push variables is to insert them into the set of those that are on the stack. -/
theorem scope_push (a : Assembler) (vs : List TyVar) :
    (a.push vs).scope = a.scope.insertMany vs := by
  refine Std.ExtTreeSet.ext_mem fun v => ?_
  simp [scope, push, Std.ExtTreeSet.mem_insertMany_list, Std.ExtTreeSet.mem_ofList]

/-- What follows a step goes on from the state that the step has come to. -/
theorem bind_of_eq {q : StateM Assembler α} {r : α → StateM Assembler β} {x : α}
    (h : q a = (x, a')) : (q >>= r) a = r x a' := by
  change (let (x, a') := q a; r x a') = r x a'
  rw [h]

/-- A check notes what the search for ambiguous types finds. -/
theorem check_eq (m : Mark) (a : Assembler) :
    a.check m = a.find (Expr.ambiguousAt? a.scope m) := by
  obtain ⟨bound, _ | err⟩ := a
  · cases hm : m.ty.get? with
    | none => simp [check, find, Expr.ambiguousAt?, hm]
    | some t =>
      have hany : (t.vars.any fun v => !bound.contains v) =
          !t.occurrences.all (scope ⟨bound, none⟩).contains := by
        rw [Bool.eq_iff_iff]
        simp [scope, Ty.mem_vars, Std.ExtTreeSet.contains_ofList]
      simp only [check, find, Expr.ambiguousAt?, hm, hany]
      cases t.occurrences.all (scope ⟨bound, none⟩).contains <;> rfl
  · simp [check, find]

/-- A computation comes to a value, notes what a search finds with the variables on the stack, and
leaves the stack as it was. -/
def Notes (q : StateM Assembler α) (x : α) (search : VarSet → Option TypeError) : Prop :=
  ∀ a, q a = (x, a.find (search a.scope))

section

variable {q : StateM Assembler α} {r : α → StateM Assembler β} {x : α} {y : β}
  {search search' : VarSet → Option TypeError}

theorem notes_pure (x : α) : Notes (pure x) x fun _ => none := by
  intro a
  rw [find, Option.or_none]
  rfl

theorem notes_mark (s : Subst) (m : Mark) :
    Notes (mark s m) (m.update (·.resolve s.apply))
      (Expr.ambiguousAt? · (m.update (·.resolve s.apply))) :=
  fun _ => congrArg (Prod.mk _) (check_eq ..)

theorem Notes.congr (h : Notes q x search) (hsearch : ∀ bound, search bound = search' bound) :
    Notes q x search' := by
  rwa [← funext hsearch]

/-- One search after the other. -/
theorem Notes.bind (hq : Notes q x search) (hr : Notes (r x) y search') :
    Notes (q >>= r) y fun bound => (search bound).or (search' bound) := by
  intro a
  rw [bind_of_eq (hq a), hr, scope_find, find_find]

/-- A search with the variables of a binder, which are on the stack only so long. -/
theorem Notes.inScope (h : Notes q x search) (s : Subst) (b : Binder) :
    Notes (inScope s b q) (b.update (·.resolve s.applyScheme), x) fun bound =>
      search (bound.insertMany (b.update (·.resolve s.applyScheme)).quantified) := by
  intro a
  generalize hvs : (b.update (·.resolve s.applyScheme)).quantified = vs
  have hbinder : binder s b a = ((b.update (·.resolve s.applyScheme), vs.length), a.push vs) := by
    subst hvs
    rfl
  have hunbind : ((a.push vs).bound.take ((a.push vs).bound.length - vs.length)) = a.bound := by
    simp [push]
  rw [Assembler.inScope, bind_of_eq hbinder]
  refine (bind_of_eq (h (a.push vs))).trans ?_
  rw [scope_push]
  exact congrArg (fun bound => (_, Assembler.mk bound _)) hunbind

end

/-! ## The same as resolving and searching -/

/-- The expressions of a list are resolved, and the first ambiguity among them is noted. -/
theorem notes_exprs {es : List Expr}
    (h : ∀ e ∈ es, Notes (expr s e) (e.retype s.apply s.applyScheme)
      (e.retype s.apply s.applyScheme).ambiguous?) :
    Notes (exprs s es) (es.map (Expr.retype s.apply s.applyScheme)) fun bound =>
      (es.map (Expr.retype s.apply s.applyScheme)).findSome? (Expr.ambiguous? bound) := by
  induction es with
  | nil => exact notes_pure []
  | cons e es ih =>
    obtain ⟨he, hes⟩ := List.forall_mem_cons.1 h
    rw [exprs]
    refine .congr (.bind he (.bind (ih hes) (notes_pure _))) fun _ => ?_
    simp [findSome?_cons_eq_or]

/-- An expression is resolved, and its first ambiguity is noted. -/
theorem notes_expr (s : Subst) (e : Expr) :
    Notes (expr s e) (e.retype s.apply s.applyScheme)
      (e.retype s.apply s.applyScheme).ambiguous? := by
  induction e using Expr.inductionOn with
  | lit m | name m | invalid m =>
    rw [expr]
    exact .congr (.bind (notes_mark s m) (notes_pure _)) fun _ => Option.or_none
  | lam m p b ih =>
    rw [expr]
    refine .congr (.bind (notes_mark s m) (.bind (.inScope ih s p) (notes_pure _))) fun _ => ?_
    simp [Expr.retype, Expr.update, Expr.ambiguous?]
  | app m f a ihf iha =>
    rw [expr]
    refine .congr (.bind (notes_mark s m) (.bind ihf (.bind iha (notes_pure _)))) fun _ => ?_
    simp [Expr.retype, Expr.update, Expr.ambiguous?]
  | letIn m b d e ihd ihe =>
    rw [expr]
    refine .congr (.bind (notes_mark s m)
      (.bind (.inScope ihd s b) (.bind ihe (notes_pure _)))) fun _ => ?_
    simp [Expr.retype, Expr.update, Expr.ambiguous?]
  | cond m c t e ihc iht ihe =>
    rw [expr]
    refine .congr (.bind (notes_mark s m)
      (.bind ihc (.bind iht (.bind ihe (notes_pure _))))) fun _ => ?_
    simp [Expr.retype, Expr.update, Expr.ambiguous?]
  | anno m e a ih =>
    rw [expr]
    refine .congr (.bind (notes_mark s m) (.bind ih (notes_pure _))) fun _ => ?_
    simp [Expr.retype, Expr.update, Expr.ambiguous?]
  | tuple m es ih =>
    rw [expr, Expr.retype_tuple]
    refine .congr (.bind (notes_mark s m) (.bind (notes_exprs ih) (notes_pure _))) fun _ => ?_
    simp [Expr.ambiguous?, Expr.ambiguousAll?_eq_findSome?]

/-- A declaration is resolved, and its first ambiguity is noted. -/
theorem decl_eq (s : Subst) (d : Decl) :
    decl s d .start = (d.retype s.apply s.applyScheme,
      ⟨(d.retype s.apply s.applyScheme).binder.quantified,
        (d.retype s.apply s.applyScheme).ambiguous?⟩) := by
  have hbinder : binder s d.binder .start = ((d.binder.update (·.resolve s.applyScheme), _),
      ⟨(d.binder.update (·.resolve s.applyScheme)).quantified, none⟩) := rfl
  exact (bind_of_eq hbinder).trans (bind_of_eq (notes_expr s d.bound _))

end Assembler

theorem Program.ambiguities_cons (d : Decl) (ds : Program) :
    Program.ambiguities (d :: ds) = d.ambiguous?.toList ++ ds.ambiguities := by
  rw [ambiguities, List.filterMap_cons]
  cases d.ambiguous? <;> rfl

/-- Assembling a program resolves its slots and finds its ambiguities. -/
theorem Program.assemble_eq (s : Subst) (p : Program) :
    p.assemble s = (p.resolve s, (p.resolve s).ambiguities) := by
  induction p with
  | nil => rfl
  | cons d ds ih =>
    have hresolve : resolve (d :: ds) s = d.retype s.apply s.applyScheme :: resolve ds s := rfl
    rw [assemble, Assembler.decl_eq, ih, hresolve, ambiguities_cons]

end LetPoly
