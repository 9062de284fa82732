import LetPoly.Proofs.Trees
import LetPoly.Proofs.Walks
import LetPoly.Typing.Assemble

/-!
# Renaming variables

Nothing in a tree of types depends on the numbers of variables.  A one-to-one renaming of the
variables commutes with the list of variables of a type, in the order in which they occur first, and
with the search for ambiguous types.
-/

namespace LetPoly

/-- Renames the variables of a type. -/
def Ty.rename (π : TyVar → TyVar) (t : Ty) : Ty := t.replace fun v => .var (π v)

/-- Renames the variables of a scheme, those it quantifies over included. -/
def Scheme.rename (π : TyVar → TyVar) (σ : Scheme) : Scheme := ⟨σ.vars.map π, σ.ty.rename π⟩

/-- Renames the variables in every slot of an expression. -/
def Expr.rename (π : TyVar → TyVar) (e : Expr) : Expr := e.retype (Ty.rename π) (Scheme.rename π)

/-- Renames the variables in every slot of a program. -/
def Program.rename (π : TyVar → TyVar) (p : Program) : Program :=
  p.retype (Ty.rename π) (Scheme.rename π)

/-- Renames the variables in the types of an error. -/
def TypeError.rename (π : TyVar → TyVar) : TypeError → TypeError
  | unbound s x => unbound s x
  | mismatch s t u => mismatch s (t.rename π) (u.rename π)
  | occurs s v t => occurs s (π v) (t.rename π)
  | branches s t u => branches s (t.rename π) (u.rename π)
  | ascription s a t u => ascription s a (t.rename π) (u.rename π)
  | ambiguous s t => ambiguous s (t.rename π)

variable {π : TyVar → TyVar}

/-! ## Types -/

/-- The variables of a renamed type are the renamed variables, in the same order. -/
theorem Ty.occurrences_rename (π : TyVar → TyVar) (t : Ty) :
    (t.rename π).occurrences = t.occurrences.map π := by
  rw [rename, occurrences_replace, List.map_eq_flatMap]
  simp only [occurrences_var]

theorem Ty.rename_rename (π ρ : TyVar → TyVar) (t : Ty) :
    (t.rename π).rename ρ = t.rename (ρ ∘ π) :=
  replace_replace ..

theorem Ty.rename_eq_self {t : Ty} (h : ∀ v ∈ t.occurrences, π v = v) : t.rename π = t :=
  replace_eq_self fun v hv => congrArg var (h v hv)

/-- First occurrences are renamed with the list, if no two variables get the same number. -/
theorem firstOccurrences_map (hπ : π.Injective) {seen seen' : VarSet}
    (hseen : ∀ v, π v ∈ seen' ↔ v ∈ seen) (vs : List TyVar) :
    firstOccurrences seen' (vs.map π) = (firstOccurrences seen vs).map π := by
  induction vs generalizing seen seen' with
  | nil => rfl
  | cons v vs ih =>
    have hinsert : ∀ w, π w ∈ seen'.insert (π v) ↔ w ∈ seen.insert v := by
      intro w
      simp [Std.ExtTreeSet.mem_insert, hseen, hπ.eq_iff]
    have hcontains : seen'.contains (π v) = seen.contains v := by
      rw [Bool.eq_iff_iff]
      exact hseen v
    rw [List.map_cons, firstOccurrences, firstOccurrences, hcontains]
    split
    · exact ih hseen
    · rw [ih hinsert, List.map_cons]

theorem Ty.vars_rename (hπ : π.Injective) (t : Ty) : (t.rename π).vars = t.vars.map π := by
  rw [vars, vars, occurrences_rename]
  exact firstOccurrences_map hπ (by simp) _

/-! ## The first result of a list -/

theorem findSome?_cons_eq_or {α β : Type} (f : α → Option β) (a : α) (l : List α) :
    (a :: l).findSome? f = (f a).or (l.findSome? f) := by
  rw [List.findSome?_cons]
  cases f a <;> rfl

theorem findSome?_zipIdx {α β : Type} (f : α → Option β) (l : List α) :
    (l.zipIdx.findSome? fun c => f c.1) = l.findSome? f := by
  conv_rhs => rw [← List.zipIdx_map_fst 0 l, List.findSome?_map]
  rfl

/-- A search through the numbered elements of a list whose elements and results are changed. -/
theorem findSome?_zipIdx_map {α α' β β' : Type} {f : α × Nat → Option β}
    {f' : α' × Nat → Option β'} {g : α → α'} {k : β → β'} {l : List α}
    (h : ∀ a ∈ l, ∀ i, f' (g a, i) = (f (a, i)).map k) :
    (l.map g).zipIdx.findSome? f' = (l.zipIdx.findSome? f).map k := by
  have hmem : ∀ c ∈ l.zipIdx, f' (Prod.map g id c) = (f c).map k :=
    fun c hc => h c.1 (List.fst_mem_of_mem_zipIdx hc) c.2
  rw [List.zipIdx_map]
  generalize l.zipIdx = cs at hmem ⊢
  induction cs with
  | nil => rfl
  | cons c cs ih =>
    obtain ⟨hc, hcs⟩ := List.forall_mem_cons.1 hmem
    rw [List.map_cons, findSome?_cons_eq_or, findSome?_cons_eq_or, hc, ih hcs, Option.map_or]

/-! ## Ambiguous types -/

/-- The sets have the same variables, up to renaming. -/
def VarSet.Renames (π : TyVar → TyVar) (bound bound' : VarSet) : Prop :=
  ∀ v, bound'.contains (π v) = bound.contains v

/-- Variables that are bound on both sides stay renamed when more are bound. -/
theorem VarSet.Renames.insertMany {bound bound' : VarSet} (h : Renames π bound bound')
    (hπ : π.Injective) (vs : List TyVar) :
    Renames π (bound.insertMany vs) (bound'.insertMany (vs.map π)) := by
  intro v
  rw [Std.ExtTreeSet.contains_insertMany_list, Std.ExtTreeSet.contains_insertMany_list, h v]
  simp [hπ.eq_iff]

theorem Binder.quantified_rename (b : Binder) :
    (b.update (·.resolve (Scheme.rename π))).quantified = b.quantified.map π := by
  cases hb : b.scheme with
  | mk σ? => cases σ? <;> simp [quantified, update, Slot.resolve, hb, Scheme.rename]

namespace Expr

/-- Expressions are searched for an ambiguity from left to right. -/
theorem ambiguousAll?_eq_findSome? (bound : VarSet) (es : List Expr) :
    ambiguousAll? bound es = es.findSome? (ambiguous? bound) := by
  induction es with
  | nil => rfl
  | cons e es ih =>
    rw [ambiguousAll?, ih, List.findSome?_cons]
    cases ambiguous? bound e <;> rfl

/-- The variables that a node quantifies over in one of its parts: those of its binder, in the body
of a function and in the definition of a local definition. -/
def quantifiedIn : Expr → Nat → List TyVar
  | lam _ p _, _ => p.quantified
  | letIn _ b _ _, 0 => b.quantified
  | _, _ => []

/-- The search for ambiguous types looks at an expression and then at its parts, with the variables
that the expression quantifies over. -/
theorem ambiguous?_eq (bound : VarSet) (e : Expr) : e.ambiguous? bound =
    (ambiguousAt? bound e.mark).or (e.children.zipIdx.findSome? fun c =>
      c.1.ambiguous? (bound.insertMany (e.quantifiedIn c.2))) := by
  cases e <;> simp [ambiguous?, children, quantifiedIn, mark, findSome?_cons_eq_or,
    findSome?_zipIdx, ambiguousAll?_eq_findSome?]

theorem isAmbiguous_of_ambiguousAt? {bound : VarSet} {m : Mark} {err : TypeError}
    (h : ambiguousAt? bound m = some err) : err.IsAmbiguous := by
  unfold ambiguousAt? at h
  split at h
  · split at h
    · cases h
    · exact ⟨_, _, (Option.some.inj h).symm⟩
  · cases h

/-- Assembling a tree finds no errors but ambiguous types. -/
theorem isAmbiguous_of_ambiguous? {bound : VarSet} {e : Expr} {err : TypeError}
    (h : e.ambiguous? bound = some err) : err.IsAmbiguous := by
  induction e using inductionOnParts generalizing bound with
  | step e ih =>
    rw [ambiguous?_eq, Option.or_eq_some_iff] at h
    obtain h | ⟨-, h⟩ := h
    · exact isAmbiguous_of_ambiguousAt? h
    · obtain ⟨⟨c, i⟩, hc, h⟩ := List.exists_of_findSome?_eq_some h
      exact ih c (List.fst_mem_of_mem_zipIdx hc) h

/-- A renamed type is ambiguous if the type is, and the error has the renamed type. -/
theorem ambiguousAt?_rename {bound bound' : VarSet} (h : VarSet.Renames π bound bound') (m : Mark) :
    ambiguousAt? bound' (m.update (·.resolve (Ty.rename π))) =
      (ambiguousAt? bound m).map (TypeError.rename π) := by
  cases hm : m.ty with
  | mk t? =>
    cases t? with
    | none => simp [ambiguousAt?, Mark.update, Slot.resolve, hm]
    | some t =>
      have hall : (t.rename π).occurrences.all bound'.contains =
          t.occurrences.all bound.contains := by
        rw [Ty.occurrences_rename, List.all_map]
        exact congrArg _ (funext h)
      simp only [ambiguousAt?, Mark.update, Slot.resolve, hm, Option.map_some, hall]
      split <;> rfl

/-- A renamed node quantifies over the renamed variables. -/
theorem quantifiedIn_rename (e : Expr) (i : Nat) :
    (e.rename π).quantifiedIn i = (e.quantifiedIn i).map π := by
  cases e with
  | lit | name | app | cond | anno | tuple | invalid => rfl
  | lam m p b => exact p.quantified_rename
  | letIn m b d e =>
    cases i with
    | zero => exact b.quantified_rename
    | succ => rfl

/-- The first ambiguous type is the same up to renaming. -/
theorem ambiguous?_rename (hπ : π.Injective) {bound bound' : VarSet}
    (h : VarSet.Renames π bound bound') (e : Expr) :
    (e.rename π).ambiguous? bound' = (e.ambiguous? bound).map (TypeError.rename π) := by
  induction e using inductionOnParts generalizing bound bound' with
  | step e ih =>
    have hmark : (e.rename π).mark = e.mark.update (·.resolve (Ty.rename π)) := mark_update ..
    have hchildren : (e.rename π).children = e.children.map (rename π) := children_update ..
    rw [ambiguous?_eq, ambiguous?_eq, hmark, hchildren, ambiguousAt?_rename h, Option.map_or]
    refine congrArg _ (findSome?_zipIdx_map fun c hc i => ?_)
    rw [quantifiedIn_rename]
    exact ih c hc (h.insertMany hπ _)

end Expr

namespace Program

/-- All that the assembler reports are ambiguities. -/
theorem isAmbiguous_of_mem_ambiguities {p : Program} : ∀ e ∈ p.ambiguities, e.IsAmbiguous := by
  intro e he
  obtain ⟨d, -, hd⟩ := List.mem_filterMap.1 he
  exact Expr.isAmbiguous_of_ambiguous? hd

/-- The ambiguities of a program are the same up to renaming. -/
theorem ambiguities_rename (hπ : π.Injective) (p : Program) :
    (p.rename π).ambiguities = p.ambiguities.map (TypeError.rename π) := by
  rw [ambiguities, ambiguities, rename, retype, List.filterMap_map, List.map_filterMap]
  refine List.filterMap_congr fun d _ => ?_
  refine Expr.ambiguous?_rename hπ (fun v => ?_) d.bound
  rw [show (d.retype (Ty.rename π) (Scheme.rename π)).binder.quantified =
      d.binder.quantified.map π from
    d.binder.quantified_rename]
  simp [Std.ExtTreeSet.contains_ofList, hπ.eq_iff]

end Program

end LetPoly
