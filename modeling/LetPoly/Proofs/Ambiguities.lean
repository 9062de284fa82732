import LetPoly.Proofs.Annotations
import LetPoly.Proofs.Assembler
import LetPoly.Proofs.Descent
import LetPoly.Proofs.Preorder

/-!
# The ambiguities of a program

The type of an expression is *ambiguous* if it mentions a variable that is not quantified where the
expression stands: not by the declaration, not by a local definition in whose definition the
expression is, and not by a parameter in whose body it is.

To assemble a program is to resolve its slots and to look for ambiguous types.  The search carries
the set of quantified variables down into the parts.  At each place this is the set that is
quantified around the place (`Program.covers_iff`), so each declaration reports its first ambiguous
expression, if it has one (`Program.firstAmbiguity_of_ambiguous?`).  An assembler that keeps the
variables on a stack comes to the same (`Program.assemble_eq`).
-/

namespace LetPoly

/-! ## What is ambiguous -/

namespace Program

/-- A variable is quantified around a place: by a declaration or a local definition in whose
definition the place is, or by a parameter in whose body it is. -/
inductive Covers (p : Program) (κ : Place) (v : TyVar) : Prop where
  | definition (h : p.Quantifies κ v)
  | param {δ : Place} {i : Nat} {m : Mark} {b : Binder} {e : Expr}
      (h : p.at? δ = some (.lam m b e)) (hδ : δ ++ [i] <+: κ) (hv : v ∈ b.quantified)

/-- The expression at a place has a type with a variable that is not quantified there. -/
structure AmbiguousAt (p : Program) (κ : Place) (e : Expr) (t : Ty) : Prop where
  /-- The expression is at the place. -/
  at? : p.at? κ = some e
  /-- Its type. -/
  filled : e.mark.ty = .filled t
  /-- The variable. -/
  free : ∃ v ∈ t.occurrences, ¬ p.Covers κ v

/-- An error is about the first ambiguous expression of a declaration. -/
def FirstAmbiguity (p : Program) (i : Nat) (err : TypeError) : Prop :=
  ∃ π e t, p.AmbiguousAt (i :: π) e t ∧ err = .ambiguous e.span t ∧
    Place.IsFirst (fun π => ∃ e t, p.AmbiguousAt (i :: π) e t) π

/-- Errors report the first ambiguity of each declaration that has one, in the order of the
declarations. -/
def Reports (p : Program) (errs : List TypeError) : Prop :=
  ∃ is : List Nat, is.Pairwise (· < ·) ∧ (∀ i, i ∈ is ↔ ∃ π e t, p.AmbiguousAt (i :: π) e t) ∧
    List.Forall₂ p.FirstAmbiguity is errs

end Program

/-! ## The search -/

namespace Expr

theorem ambiguousAt?_eq_some {bound : VarSet} {m : Mark} {err : TypeError} :
    ambiguousAt? bound m = some err ↔ ∃ t, m.ty = .filled t ∧ err = .ambiguous m.span t ∧
      ∃ v ∈ t.occurrences, v ∉ bound := by
  constructor
  · intro h
    unfold ambiguousAt? at h
    split at h
    · rename_i t ht
      split at h
      · cases h
      · rename_i hall
        cases h
        exact ⟨t, congrArg Slot.mk ht, rfl, by simpa using hall⟩
    · cases h
  · rintro ⟨t, ht, rfl, v, hv, hfree⟩
    have hall : ¬ t.occurrences.all bound.contains := by simpa using ⟨v, hv, hfree⟩
    simp only [ambiguousAt?, ht, Slot.filled, hall]
    rfl

/-- The search for ambiguous types. -/
def ambiguitySearch : Search VarSet TyVar TypeError where
  introduced := quantifiedIn
  add bound vs := bound.insertMany vs
  mem_add bound vs v := by rw [Std.ExtTreeSet.mem_insertMany_list, List.contains_iff_mem]
  here bound e := ambiguousAt? bound e.mark
  run := ambiguous?
  run_eq := ambiguous?_eq

end Expr

namespace Program

variable {p : Program} {i : Nat} {d : Decl} {π : List Nat} {v : TyVar}

/-- What is quantified around a place is quantified by the declaration or introduced on the way. -/
theorem covers_iff (hd : p[i]? = some d) :
    p.Covers (i :: π) v ↔ v ∈ d.binder.quantified ∨ d.bound.Introduces Expr.quantifiedIn π v := by
  constructor
  · intro h
    cases h with
    | definition h =>
      obtain ⟨b, δ, hb, hδ, hv⟩ := h
      cases hb with
      | @decl j d' hd' hb =>
        obtain ⟨rfl, -⟩ := List.cons_prefix_cons.1 hδ
        cases hd.symm.trans hd'
        exact .inl (hb ▸ hv)
      | letIn h => exact .inr ((introduces_iff hd).1 ⟨_, 0, _, hδ, h, hv⟩)
    | param h hδ hv => exact .inr ((introduces_iff hd).1 ⟨_, _, _, hδ, h, hv⟩)
  · rintro (hv | h)
    · exact .definition ⟨d.binder, [i], .decl hd rfl, ⟨π, rfl⟩, hv⟩
    · obtain ⟨δ, j, c, hδ, hat, hv⟩ := (introduces_iff hd).2 h
      cases c with
      | lit | name | app | cond | anno | tuple | invalid => cases hv
      | lam m b e => exact .param hat hδ hv
      | letIn m b d' e =>
        cases j with
        | zero => exact .definition ⟨b, δ ++ [0], .letIn hat, hδ, hv⟩
        | succ => cases hv

/-- The search finds an error at a place if the expression there is ambiguous. -/
theorem foundAt_eq_some {err : TypeError} (hd : p[i]? = some d) :
    Expr.ambiguitySearch.foundAt (.ofList d.binder.quantified) d.bound π = some err ↔
      ∃ e t, p.AmbiguousAt (i :: π) e t ∧ err = .ambiguous e.span t := by
  have hscope {e : Expr} (he : d.bound.at? π = some e) (v : TyVar) :
      v ∈ Expr.ambiguitySearch.scopeAt (.ofList d.binder.quantified) d.bound π ↔
        p.Covers (i :: π) v := by
    rw [Search.mem_scopeAt _ he, covers_iff hd, Std.ExtTreeSet.mem_ofList, List.contains_iff_mem]
    rfl
  rw [Search.foundAt, Option.bind_eq_some_iff]
  constructor
  · rintro ⟨e, he, herr⟩
    obtain ⟨t, ht, rfl, v, hv, hfree⟩ := Expr.ambiguousAt?_eq_some.1 herr
    exact ⟨e, t, ⟨(at?_of_getElem? hd).trans he, ht, v, hv, mt (hscope he v).2 hfree⟩, rfl⟩
  · rintro ⟨e, t, h, rfl⟩
    have he := (at?_of_getElem? hd).symm.trans h.at?
    obtain ⟨v, hv, hfree⟩ := h.free
    exact ⟨e, he, Expr.ambiguousAt?_eq_some.2 ⟨t, h.filled, rfl, v, hv, mt (hscope he v).1 hfree⟩⟩

theorem ambiguous?_eq_none_iff (hd : p[i]? = some d) :
    d.ambiguous? = none ↔ ¬ ∃ π e t, p.AmbiguousAt (i :: π) e t := by
  rw [show d.ambiguous? = Expr.ambiguitySearch.run (.ofList d.binder.quantified) d.bound from rfl,
    Search.run_eq_none]
  simp only [Option.eq_none_iff_forall_ne_some, ne_eq, foundAt_eq_some hd]
  constructor
  · rintro h ⟨π, e, t, he⟩
    exact h π _ ⟨e, t, he, rfl⟩
  · rintro h π err ⟨e, t, he, -⟩
    exact h ⟨π, e, t, he⟩

/-- A declaration reports its first ambiguous expression. -/
theorem firstAmbiguity_of_ambiguous? {err : TypeError} (hd : p[i]? = some d)
    (h : d.ambiguous? = some err) : p.FirstAmbiguity i err := by
  obtain ⟨π, hπ, hfirst⟩ := Expr.ambiguitySearch.run_eq_some h
  obtain ⟨e, t, he, rfl⟩ := (foundAt_eq_some hd).1 hπ
  refine ⟨π, e, t, he, rfl, hfirst.congr fun κ => ?_⟩
  constructor
  · rintro ⟨err, herr⟩
    obtain ⟨e, t, he, -⟩ := (foundAt_eq_some hd).1 herr
    exact ⟨e, t, he⟩
  · rintro ⟨e, t, he⟩
    exact ⟨_, (foundAt_eq_some hd).2 ⟨e, t, he, rfl⟩⟩

end Program

/-- The elements of a list that have a result, by their numbers. -/
theorem filterMap_numbered {α β : Type} (f : α → Option β) (l : List α) :
    ∃ is : List Nat, is.Pairwise (· < ·) ∧
      (∀ i, i ∈ is ↔ ∃ a b, l[i]? = some a ∧ f a = some b) ∧
      List.Forall₂ (fun i b => ∃ a, l[i]? = some a ∧ f a = some b) is (l.filterMap f) := by
  induction l with
  | nil => exact ⟨[], .nil, by simp, .nil⟩
  | cons a l ih =>
    obtain ⟨is, hlt, hmem, hresults⟩ := ih
    have hlt' : (is.map (· + 1)).Pairwise (· < ·) := hlt.map _ fun _ _ => Nat.succ_lt_succ
    have hmem' (i : Nat) : i + 1 ∈ is.map (· + 1) ↔ i ∈ is := by simp
    have hresults' : List.Forall₂ (fun i b => ∃ c, (a :: l)[i]? = some c ∧ f c = some b)
        (is.map (· + 1)) (l.filterMap f) := List.forall₂_map_left_iff.2 hresults
    cases ha : f a with
    | none =>
      refine ⟨is.map (· + 1), hlt', fun i => ?_, by rwa [List.filterMap_cons_none ha]⟩
      cases i with
      | zero => simp [ha]
      | succ i => rw [hmem', hmem]; rfl
    | some b =>
      refine ⟨0 :: is.map (· + 1), .cons (by simp) hlt', fun i => ?_, ?_⟩
      · cases i with
        | zero => simp [ha]
        | succ i => rw [List.mem_cons, hmem', hmem]; simp
      · rw [List.filterMap_cons_some ha]
        exact .cons ⟨a, rfl, ha⟩ hresults'

/-- The ambiguities of a program are those that are to be reported. -/
theorem Program.reports_ambiguities (p : Program) : p.Reports p.ambiguities := by
  obtain ⟨is, hlt, hmem, hresults⟩ := filterMap_numbered Decl.ambiguous? p
  have hfirst := hresults.imp fun i err ⟨d, hd, h⟩ =>
    firstAmbiguity_of_ambiguous? hd h
  refine ⟨is, hlt, fun i => ?_, hfirst⟩
  rw [hmem]
  constructor
  · rintro ⟨d, err, hd, h⟩
    obtain ⟨π, e, t, he, -⟩ := firstAmbiguity_of_ambiguous? hd h
    exact ⟨π, e, t, he⟩
  · -- a declaration with an ambiguous expression cannot come out of the search with nothing
    rintro ⟨π, e, t, he⟩
    obtain ⟨d, hd, -⟩ := at?_cons he.at?
    have hne : d.ambiguous? ≠ none := fun h => (ambiguous?_eq_none_iff hd).1 h ⟨π, e, t, he⟩
    obtain ⟨err, herr⟩ := Option.ne_none_iff_exists'.1 hne
    exact ⟨d, err, hd, herr⟩

/-! ## Resolved programs -/

namespace Program

/-- A program has the slots of another one, resolved with a substitution. -/
structure Resolves (s : Subst) (p q : Program) : Prop where
  /-- Nothing but slots is different. -/
  shape : q.clear = p.clear
  /-- The types of expressions are resolved, and no variable is left in them that is solved. -/
  expr : ∀ κ e t, p.at? κ = some e → e.mark.ty = .filled t → ∃ e', q.at? κ = some e' ∧
    e'.mark.ty = .filled (s.apply t) ∧ ∀ v ∈ (s.apply t).occurrences, s.get? v = none
  /-- The schemes of parameters and of local definitions are resolved. -/
  binder : ∀ κ e b σ, p.at? κ = some e → e.binder? = some b → b.scheme = .filled σ →
    ∃ e' b', q.at? κ = some e' ∧ e'.binder? = some b' ∧ b'.scheme = .filled (s.applyScheme σ)
  /-- The schemes of declarations are resolved. -/
  decl : ∀ (i : Nat) (d : Decl) (σ : Scheme), p[i]? = some d → d.binder.scheme = .filled σ →
    ∃ d' : Decl, q[i]? = some d' ∧ d'.binder.scheme = .filled (s.applyScheme σ)

theorem getElem?_resolve {p : Program} {i : Nat} {d : Decl} (s : Subst) (hd : p[i]? = some d) :
    (p.resolve s)[i]? = some (d.retype s.apply s.applyScheme) := by
  rw [resolve_eq, retype, List.getElem?_map, hd]
  rfl

theorem at?_resolve {p : Program} {κ : Place} {e : Expr} (s : Subst) (he : p.at? κ = some e) :
    (p.resolve s).at? κ = some (e.retype s.apply s.applyScheme) := by
  cases κ with
  | nil => cases he
  | cons i π =>
    obtain ⟨d, hd, he⟩ := at?_cons he
    exact (at?_of_getElem? (getElem?_resolve s hd)).trans (Expr.at?_retype _ _ he)

theorem resolves_resolve {s : Subst} (hs : s.Acyclic) (p : Program) :
    p.Resolves s (p.resolve s) where
  shape := p.clear_resolve s
  expr κ e t he ht := by
    refine ⟨_, at?_resolve s he, ?_, fun v => hs.get?_of_mem_apply⟩
    rw [Expr.retype, Expr.mark_update, Mark.update, ht]
    rfl
  binder κ e b σ he hb hσ := by
    refine ⟨_, b.update (·.resolve s.applyScheme), at?_resolve s he, ?_, ?_⟩
    · rw [Expr.retype, Expr.binder?_update, hb]
      rfl
    · rw [Binder.update, hσ]
      rfl
  decl i d σ hd hσ := by
    refine ⟨_, getElem?_resolve s hd, ?_⟩
    rw [Decl.retype, Decl.update, Binder.update, hσ]
    rfl

/-! ## Runs -/

/-- What a verdict says of the program that a run leaves behind. -/
inductive Judged (q : Program) : Verdict → Prop where
  /-- The program has types, and none of them is ambiguous. -/
  | typed (h : q.Reports []) : Judged q .typed
  /-- The run has stopped at an error that is not an ambiguity. -/
  | stopped {e : TypeError} (h : ¬ e.IsAmbiguous) : Judged q (.illTyped [e])
  /-- The run has ended, and the first ambiguities of the declarations are the errors. -/
  | ambiguous {errs : List TypeError} (hne : errs ≠ []) (h : q.Reports errs) :
      Judged q (.illTyped errs)

theorem judged_inferTypes (mode : Mode) (p : Program) :
    (p.inferTypes mode).program.Judged (p.inferTypes mode).verdict := by
  obtain ⟨q, e, s, hfailed⟩ | ⟨q, s, hwalked⟩ := p.failed_or_walked mode
  · rw [hfailed.verdict]
    exact .stopped hfailed.ordinary
  · have hreports := (q.resolve s.subst).reports_ambiguities
    rw [hwalked.program]
    by_cases hnil : (q.resolve s.subst).ambiguities = []
    · rw [hwalked.typed.2 hnil]
      exact .typed (hnil ▸ hreports)
    · rw [(hwalked.illTyped _).2 ⟨rfl, hnil⟩]
      exact .ambiguous hnil hreports

end Program

/-- Each declaration reports its first ambiguity.  Assembling a program, with a stack or without,
resolves its slots, and its errors are the first ambiguous expressions of those declarations that
have one.  So a run ends with types, with one error that is not an ambiguity, or with such
ambiguities. -/
theorem first_ambiguities_reported (p : Program) :
    (∀ s : Subst, p.assemble s = (p.resolve s, (p.resolve s).ambiguities)) ∧
    (∀ s : Subst, s.Acyclic →
      p.Resolves s (p.resolve s) ∧ (p.resolve s).Reports (p.resolve s).ambiguities) ∧
    ∀ mode, (p.inferTypes mode).program.Judged (p.inferTypes mode).verdict :=
  ⟨fun s => p.assemble_eq s,
    fun s hs => ⟨p.resolves_resolve hs, (p.resolve s).reports_ambiguities⟩,
    fun mode => p.judged_inferTypes mode⟩

/-- Two declarations with open types, where `a` stands for `b`.  The first has two expressions whose
types mention `b`, and reports the first of them.  The second quantifies over what it mentions. -/
theorem first_ambiguities_reported_alias :
    let hole (n : Nat) (t : Ty) : Expr := .invalid ⟨⟨n, n + 1, 0⟩, .filled t⟩
    let decl (x : String) (σ : Scheme) (e : Expr) : Decl :=
      ⟨⟨0, 0, 0⟩, ⟨x, ⟨0, 0, 0⟩, none, .filled σ⟩, e⟩
    let call : Expr :=
      .app ⟨⟨0, 4, 0⟩, .filled .int⟩ (hole 0 (.fn (.var 0) .int)) (hole 2 (.var 0))
    let p : Program := [decl "x" (.mono .int) call, decl "y" ⟨[2], .var 2⟩ (hole 5 (.var 2))]
    let errs : List TypeError := [.ambiguous ⟨0, 1, 0⟩ (.fn (.var 1) .int)]
    Subst.aliasSample.Acyclic ∧ p.Resolves Subst.aliasSample (p.resolve Subst.aliasSample) ∧
      (p.resolve Subst.aliasSample).ambiguities = errs ∧
      (p.resolve Subst.aliasSample).Reports errs := by
  intro hole decl call p errs
  have hs := Subst.acyclic_aliasSample
  have herrs : (p.resolve Subst.aliasSample).ambiguities = errs := by decide
  obtain ⟨hresolves, hreports⟩ := (first_ambiguities_reported p).2.1 Subst.aliasSample hs
  exact ⟨hs, hresolves, herrs, herrs ▸ hreports⟩

end LetPoly
