import LetPoly.Proofs.Independence
import LetPoly.Proofs.Preorder

/-!
# Lexical scope

A name is *in scope* at a place if it is in the prelude or an earlier declaration has it, if it is
the parameter of a function in whose body the place is, or if a local definition introduces it in
whose body the place is.  The definition itself is not in the scope of its name.  A name that is not
in scope where it stands is *stray*.

A run looks names up in environments, which it extends on its way.  `Program.stray?` types nothing
and looks for the first stray name.  If a walk comes to its end then there is none, and if it
stops at an unbound name then it is this one (`Walk.Traces`).  That holds for each rule of
inference and whatever the mode pushes, since all rules walk the parts from left to right.
-/

namespace LetPoly

/-! ## Names in scope -/

/-- The names of the prelude. -/
def Prelude.names : List String := entries.map (·.1)

namespace Program

/-- A name is in scope at a place. -/
inductive InScope (p : Program) (κ : Place) (x : String) : Prop where
  | builtin (h : x ∈ Prelude.names)
  | decl {i j : Nat} {π : List Nat} {d : Decl} (hκ : κ = i :: π) (hj : j < i) (hd : p[j]? = some d)
      (hx : d.binder.name = x)
  | param {δ : Place} {m : Mark} {b : Binder} {e : Expr} (h : p.at? δ = some (.lam m b e))
      (hδ : δ ++ [0] <+: κ) (hx : b.name = x)
  | letIn {δ : Place} {m : Mark} {b : Binder} {d e : Expr}
      (h : p.at? δ = some (.letIn m b d e)) (hδ : δ ++ [1] <+: κ) (hx : b.name = x)

/-- A name that is not in scope stands at a place, with a span. -/
def StrayAt (p : Program) (κ : Place) (span : Span) (x : String) : Prop :=
  ∃ m, p.at? κ = some (.name m x) ∧ m.span = span ∧ ¬ p.InScope κ x

end Program

/-! ## The search for stray names -/

namespace Expr

mutual

/-- The first stray name of an expression, where the given names are in scope. -/
def stray? (scope : List String) : Expr → Option (Span × String)
  | lit _ _ => none
  | name m x => if x ∈ scope then none else some (m.span, x)
  | lam _ p b => stray? (p.name :: scope) b
  | app _ f a => (stray? scope f).or (stray? scope a)
  | letIn _ b d e => (stray? scope d).or (stray? (b.name :: scope) e)
  | cond _ c t e => (stray? scope c).or ((stray? scope t).or (stray? scope e))
  | anno _ e _ => stray? scope e
  | tuple _ es => strayAll? scope es
  | invalid _ => none

/-- The first stray name of the expressions of a list. -/
def strayAll? (scope : List String) : List Expr → Option (Span × String)
  | [] => none
  | e :: es => (stray? scope e).or (strayAll? scope es)

end

/-- In a list the expressions are searched from left to right. -/
theorem strayAll?_eq_findSome? (scope : List String) (es : List Expr) :
    strayAll? scope es = es.findSome? (stray? scope) := by
  induction es with
  | nil => rfl
  | cons e es ih => rw [strayAll?, ih, findSome?_cons_eq_or]

/-- Which names are stray does not depend on slots. -/
theorem stray?_clear (scope : List String) (e : Expr) : e.clear.stray? scope = e.stray? scope := by
  induction e using Expr.inductionOn generalizing scope with
  | lit | name | invalid => rfl
  | lam m p b ih => exact ih (p.name :: scope)
  | app m f a ihf iha => simp only [clear_app, stray?, ihf, iha]
  | letIn m b d e ihd ihe => simp only [clear_letIn, stray?, ihd, ihe]; rfl
  | cond m c t e ihc iht ihe => simp only [clear_cond, stray?, ihc, iht, ihe]
  | anno m e a ih => exact ih scope
  | tuple m es ih =>
    rw [clear_tuple, stray?, stray?]
    induction es with
    | nil => rfl
    | cons e es ihes =>
      rw [List.map_cons, strayAll?, strayAll?, ih e (List.mem_cons_self ..) scope,
        ihes fun d hd => ih d (List.mem_cons_of_mem e hd)]

/-- The names that a node introduces in one of its parts: its parameter in the body of a function,
and its name in the body of a local definition. -/
def namesIn : Expr → Nat → List String
  | lam _ p _, 0 => [p.name]
  | letIn _ b _ _, 1 => [b.name]
  | _, _ => []

/-- The name that an expression is, if it is stray. -/
def strayHere? (scope : List String) : Expr → Option (Span × String)
  | name m x => if x ∈ scope then none else some (m.span, x)
  | _ => none

/-- Only a name is stray at its own place, and only if it is not in scope. -/
theorem strayHere?_eq_some {scope : List String} {e : Expr} {span : Span} {x : String} :
    e.strayHere? scope = some (span, x) ↔ ∃ m, e = .name m x ∧ m.span = span ∧ x ∉ scope := by
  constructor
  · intro h
    unfold strayHere? at h
    split at h
    · split at h
      · cases h
      · rename_i m _ hx
        cases h
        exact ⟨m, rfl, rfl, hx⟩
    · cases h
  · rintro ⟨m, rfl, rfl, hx⟩
    exact if_neg hx

/-- The search for stray names looks at an expression and then at its parts, with the names that the
expression introduces. -/
theorem stray?_eq (scope : List String) (e : Expr) : e.stray? scope =
    (e.strayHere? scope).or (e.children.zipIdx.findSome? fun c =>
      c.1.stray? (e.namesIn c.2 ++ scope)) := by
  cases e <;> simp [stray?, strayHere?, children, namesIn, findSome?_cons_eq_or, findSome?_zipIdx,
    strayAll?_eq_findSome?]

/-- The search for stray names. -/
def straySearch : Search (List String) String (Span × String) where
  introduced := namesIn
  add scope xs := xs ++ scope
  mem_add scope xs x := by rw [List.mem_append, or_comm]
  here := strayHere?
  run := stray?
  run_eq := stray?_eq

end Expr

namespace Program

/-- The first stray name of a program, where the given names are in scope. -/
def stray? : Program → List String → Option (Span × String)
  | [], _ => none
  | d :: ds, scope => (d.bound.stray? scope).or (stray? ds (d.binder.name :: scope))

/-- Which names are stray in a program does not depend on slots. -/
theorem stray?_clear (scope : List String) (p : Program) :
    stray? p.clear scope = p.stray? scope := by
  induction p generalizing scope with
  | nil => rfl
  | cons d ds ih => exact congrArg₂ Option.or (d.bound.stray?_clear scope) (ih _)

/-- The names in scope at the definition of a declaration. -/
def namesBefore (p : Program) (scope : List String) (i : Nat) : List String :=
  (p.take i).foldl (fun scope d => d.binder.name :: scope) scope

/-- In scope at a declaration are the names from before the program and those of earlier
declarations. -/
theorem mem_namesBefore {p : Program} {scope : List String} {i : Nat} {x : String} :
    x ∈ p.namesBefore scope i ↔
      x ∈ scope ∨ ∃ j < i, ∃ d : Decl, p[j]? = some d ∧ d.binder.name = x := by
  induction p generalizing scope i with
  | nil => simp [namesBefore]
  | cons d ds ih =>
    cases i with
    | zero => simp [namesBefore]
    | succ i =>
      have hsucc : namesBefore (d :: ds) scope (i + 1) =
          namesBefore ds (d.binder.name :: scope) i := rfl
      rw [hsucc, ih, List.mem_cons, or_assoc, or_left_comm, eq_comm]
      refine or_congr_right ?_
      constructor
      · rintro (hx | ⟨j, hj, c, hc, hx⟩)
        · exact ⟨0, Nat.zero_lt_succ i, d, rfl, hx⟩
        · exact ⟨j + 1, Nat.succ_lt_succ hj, c, hc, hx⟩
      · rintro ⟨j, hj, c, hc, hx⟩
        cases j with
        | zero =>
          cases hc
          exact .inl hx
        | succ j => exact .inr ⟨j, Nat.lt_of_succ_lt_succ hj, c, hc, hx⟩

/-- A program is searched declaration by declaration, each with the names in scope there. -/
theorem stray?_eq (p : Program) (scope : List String) : p.stray? scope =
    p.zipIdx.findSome? fun d => d.1.bound.stray? (p.namesBefore scope d.2) := by
  induction p generalizing scope with
  | nil => rfl
  | cons d ds ih =>
    rw [stray?, ih, List.zipIdx_cons', findSome?_cons_eq_or, List.findSome?_map]
    rfl

variable {p : Program} {i : Nat} {d : Decl} {π : List Nat} {x : String} {span : Span}

/-- What is in scope at a place is in scope at the definition of its declaration or is introduced
on the way. -/
theorem inScope_iff (hd : p[i]? = some d) : p.InScope (i :: π) x ↔
    x ∈ p.namesBefore Prelude.names i ∨ d.bound.Introduces Expr.namesIn π x := by
  rw [mem_namesBefore]
  constructor
  · intro h
    cases h with
    | builtin h => exact .inl (.inl h)
    | decl hκ hj hd hx =>
      cases hκ
      exact .inl (.inr ⟨_, hj, _, hd, hx⟩)
    | param h hδ hx =>
      have hmem := List.mem_singleton.2 hx.symm
      exact .inr ((introduces_iff hd).1 ⟨_, 0, _, hδ, h, hmem⟩)
    | letIn h hδ hx =>
      have hmem := List.mem_singleton.2 hx.symm
      exact .inr ((introduces_iff hd).1 ⟨_, 1, _, hδ, h, hmem⟩)
  · rintro ((h | ⟨j, hj, c, hc, hx⟩) | h)
    · exact .builtin h
    · exact .decl rfl hj hc hx
    · obtain ⟨δ, j, c, hδ, hat, hx⟩ := (introduces_iff hd).2 h
      cases c with
      | lit | name | app | cond | anno | tuple | invalid => cases hx
      | lam m b e =>
        cases j with
        | zero => exact .param hat hδ (List.mem_singleton.1 hx).symm
        | succ => cases hx
      | letIn m b d' e =>
        rcases j with _ | _ | j
        · cases hx
        · exact .letIn hat hδ (List.mem_singleton.1 hx).symm
        · cases hx

/-- The search finds a name at a place if the name is stray there. -/
theorem strayAt_iff (hd : p[i]? = some d) : p.StrayAt (i :: π) span x ↔
    Expr.straySearch.foundAt (p.namesBefore Prelude.names i) d.bound π = some (span, x) := by
  have hscope {e : Expr} (he : d.bound.at? π = some e) (x : String) :
      x ∈ Expr.straySearch.scopeAt (p.namesBefore Prelude.names i) d.bound π ↔
        p.InScope (i :: π) x := by
    rw [Search.mem_scopeAt _ he, inScope_iff hd]
    rfl
  rw [Search.foundAt, Option.bind_eq_some_iff, StrayAt, at?_of_getElem? hd]
  constructor
  · rintro ⟨m, he, hm, hx⟩
    exact ⟨_, he, Expr.strayHere?_eq_some.2 ⟨m, rfl, hm, mt (hscope he x).1 hx⟩⟩
  · rintro ⟨e, he, h⟩
    obtain ⟨m, rfl, hm, hx⟩ := Expr.strayHere?_eq_some.1 h
    exact ⟨m, he, hm, mt (hscope he x).2 hx⟩

/-- A stray name stands in a declaration. -/
theorem StrayAt.exists_decl {κ : Place} (h : p.StrayAt κ span x) :
    ∃ i π d, κ = i :: π ∧ p[i]? = some d := by
  obtain ⟨m, hat, -⟩ := h
  cases κ with
  | nil => cases hat
  | cons i π =>
    obtain ⟨d, hd, -⟩ := at?_cons hat
    exact ⟨i, π, d, rfl, hd⟩

/-- If the search finds nothing then no name is stray. -/
theorem not_strayAt_of_stray? (h : p.stray? Prelude.names = none) (κ : Place) :
    ¬ p.StrayAt κ span x := by
  intro hstray
  obtain ⟨i, π, d, rfl, hd⟩ := hstray.exists_decl
  rw [stray?_eq, List.findSome?_eq_none_iff] at h
  have hnone := Expr.straySearch.run_eq_none.1 (h (d, i) (List.mem_zipIdx_iff_getElem?.2 hd)) π
  rw [(strayAt_iff hd).1 hstray] at hnone
  cases hnone

/-- The search finds the first stray name. -/
theorem isFirst_of_stray? (h : p.stray? Prelude.names = some (span, x)) :
    ∃ κ, p.StrayAt κ span x ∧ Place.IsFirst (fun κ => ∃ span x, p.StrayAt κ span x) κ := by
  rw [stray?_eq] at h
  obtain ⟨i, d, hd, hrun, hleft⟩ := findSome?_zipIdx_eq_some h
  obtain ⟨π, hπ, hfirst⟩ := Expr.straySearch.run_eq_some hrun
  refine ⟨i :: π, (strayAt_iff hd).2 hπ, .cons (hfirst.congr fun π => ?_) ?_ ?_⟩
  · simp only [strayAt_iff hd, Prod.exists]
  · rintro ⟨span, x, hstray⟩
    obtain ⟨j, π, c, hκ, -⟩ := hstray.exists_decl
    cases hκ
  · rintro j hj π ⟨span, x, hstray⟩
    obtain ⟨j, π, c, hκ, hc⟩ := hstray.exists_decl
    cases hκ
    have hnone := Expr.straySearch.run_eq_none.1 (hleft _ hj c hc) π
    rw [(strayAt_iff hc).1 hstray] at hnone
    cases hnone

end Program

/-! ## Acts and walks -/

/-- If a stop is at an unbound name, then at the given one. -/
def Fault.Names (r : Option (Span × String)) (f : Fault TypeError) : Prop :=
  ∀ span x, f = .error (.unbound span x) → r = some (span, x)

namespace Fault.Names

variable {r : Option (Span × String)} {f : Fault TypeError}

theorem or (h : f.Names r) (r' : Option (Span × String)) : f.Names (r.or r') := by
  intro span x hf
  rw [h span x hf, Option.some_or]

/-- A stop that is at no unbound name. -/
theorem of_none (h : f.Names none) : f.Names r := fun span x hf => nomatch h span x hf

theorem defect (d : Defect) : (Fault.defect d).Names r := fun _ _ h => nomatch h

/-- Unification does not stop at an unbound name. -/
theorem ofUnify (because : Because) (span : Span) (f : Fault UnifyError) :
    (f.mapError (TypeError.ofUnify because span)).Names r := by
  intro span' x h
  cases f with
  | defect d => cases h
  | error e => cases e <;> cases because <;> cases h

end Fault.Names

/-- An act does not stop at an unbound name. -/
def Act.Nameless {α : Type} (a : Act α) : Prop :=
  ∀ s, a.Meets s (fun _ _ => True) fun f _ => f.Names none

namespace Act

variable {α β : Type} {a : Act α}

theorem nameless_draw {f : StateM Supply α} : (draw f).Nameless := fun _ => trivial

theorem nameless_pure {x : α} : Act.Nameless (pure x : Act α) := fun _ => trivial

theorem Nameless.bind {f : α → Act β} (h : a.Nameless) (hf : ∀ x, (f x).Nameless) :
    Act.Nameless (a >>= f) :=
  fun s => (h s).bind fun x s' _ => hf x s'

theorem Nameless.map {f : α → β} (h : a.Nameless) : Act.Nameless (f <$> a) :=
  fun s => (h s).map

theorem nameless_fresh : Act.fresh.Nameless := nameless_draw.map

/-- An instance of a scheme draws variables, or there is a defect. -/
theorem nameless_instantiate {σ : Scheme} : (instantiate σ).Nameless := by
  intro s
  unfold Act.Meets instantiate
  rcases σ.instantiate s.drawn with ⟨d | t, n⟩
  · exact .defect d
  · trivial

theorem nameless_unify {because : Because} {span : Span} {t u : Ty} :
    (Act.unify because span t u).Nameless := by
  intro s
  unfold Act.Meets Act.unify
  rcases LetPoly.unify t u s.subst with ⟨f | ⟨⟩, x⟩
  · exact .ofUnify because span f
  · trivial

end Act

/-- If a walk ends then there is no stray name, and if it stops at an unbound name then at the given
one. -/
def Walk.Traces {τ α : Type} (w : Walk τ α) (r : Option (Span × String)) : Prop :=
  ∀ s, w.Meets s (fun _ _ _ => r = none) fun _ f _ => f.Names r

namespace Walk

variable {τ υ α β : Type} {w : Walk τ α} {r r' : Option (Span × String)}

theorem traces_done {t : τ} {a : α} : (done t a).Traces none := fun _ => rfl

theorem traces_annotate {expr : Mark → Expr} {m : Mark} {t : Ty} :
    (annotate expr m t).Traces none := by
  intro s
  unfold Meets annotate Slot.fill
  cases m.ty.isFilled with
  | true => exact .defect _
  | false => rfl

/-- A walk and the next one are searched one after the other. -/
theorem Traces.andThen {stopped : τ → υ} {next : τ → α → Walk υ β} (h : w.Traces r)
    (hnext : ∀ t a, (next t a).Traces r') : (w.andThen stopped next).Traces (r.or r') := by
  intro s
  refine (h s).andThen (fun t a s' hr => ?_) fun _ _ _ hf => hf.or r'
  rw [hr, Option.none_or]
  exact hnext t a s'

/-- A walk of a part that is followed by nothing that looks up names. -/
theorem Traces.last {stopped : τ → υ} {next : τ → α → Walk υ β} (h : w.Traces r)
    (hnext : ∀ t a, (next t a).Traces none) : (w.andThen stopped next).Traces r := by
  have hthen : (w.andThen stopped next).Traces (r.or none) := h.andThen hnext
  rwa [Option.or_none] at hthen

theorem traces_act {a : Act α} {stopped : υ} {next : α → Walk υ β} (h : a.Nameless)
    (hnext : ∀ x, (next x).Traces r) : (Walk.act a stopped next).Traces r :=
  fun s => .act (h s) (fun x s' _ => hnext x s') fun _ _ hf => hf.of_none

/-- Filling a binder ends with a filled slot or with a defect, and the name of the binder stays. -/
theorem Meets.fillAny {s : Session} {b : Binder} {σ : Scheme} {stopped : Binder → υ}
    {next : Binder → Walk υ β} {Q : υ → β → Session → Prop}
    {E : υ → Fault TypeError → Session → Prop}
    (hnext : ∀ slot, (next { b with scheme := slot }).Meets s Q E)
    (hstop : ∀ b d, E (stopped b) (.defect d) s) :
    (Walk.fillBinder b σ stopped next).Meets s Q E := by
  unfold Walk.fillBinder Slot.fill
  cases b.scheme.isFilled with
  | true => exact hstop _ _
  | false => exact hnext _

/-- The scheme of a binder does not matter to names. -/
theorem traces_fillBinder {b : Binder} {σ : Scheme} {stopped : Binder → υ}
    {next : Binder → Walk υ β} (h : ∀ slot, (next { b with scheme := slot }).Traces r) :
    (fillBinder b σ stopped next).Traces r :=
  fun s => .fillAny (fun slot => h slot s) fun _ d => .defect d

end Walk

/-! ## Rules -/

/-- The names of an environment are those in scope. -/
def Env.HasNames (Γ : Env) (scope : List String) : Prop :=
  ∀ x, (Γ.lookup? x).isSome ↔ x ∈ scope

/-- A bound name is in scope in the extended environment, along with those before. -/
theorem Env.HasNames.extend {Γ : Env} {scope : List String} (h : Γ.HasNames scope) (x : String)
    (σ : Scheme) : (Γ.extend x σ).HasNames (x :: scope) := by
  intro y
  rw [Env.lookup?_extend, List.mem_cons, ← h y]
  split
  · rename_i hx
    simp [hx]
  · rename_i hx
    simp [Ne.symm hx]

/-- The environment of the prelude has its names. -/
theorem Prelude.hasNames_env : env.HasNames names := by
  have hfoldl (entries : List (String × Scheme)) : ∀ (Γ : Env) (scope : List String),
      Γ.HasNames scope →
        (entries.foldl (fun Γ e => Γ.extend e.1 e.2) Γ).HasNames (entries.map (·.1) ++ scope) := by
    induction entries with
    | nil => exact fun _ _ h => h
    | cons e entries ih =>
      intro Γ scope h x
      rw [List.foldl_cons, ih _ _ (h.extend e.1 e.2) x]
      simp [or_left_comm]
  have hempty : Env.empty.HasNames [] := fun x => by simp [Env.lookup?, Env.empty]
  have hnames := hfoldl entries .empty [] hempty
  rwa [List.append_nil] at hnames

/-- Settling a goal finds no stray names. -/
theorem Goal.traces_settle (goal : Goal) (span : Span) {w : Walk Expr Ty}
    {r : Option (Span × String)} (h : w.Traces r) : (goal.settle span w).Traces r := by
  cases goal with
  | none => exact h
  | some d => exact h.last fun _ _ => Walk.traces_act Act.nameless_unify fun _ => Walk.traces_done

/-- A walk looks for the stray names of an expression, in every environment and for every goal. -/
def ExprWalk.Traces (w : ExprWalk) (e : Expr) : Prop :=
  ∀ {Γ scope} goal, Env.HasNames Γ scope → (w Γ goal).Traces (e.stray? scope)

namespace Infer

variable {m : Mark} {p : Binder} {b d e f a c y n : Expr}
  {body bound callee arg test yes no : ExprWalk} {Γ : Env} {scope : List String} {demand : Demand}

/-- A name that is not found in the environment is not in scope. -/
theorem traces_name {x : String} (hΓ : Γ.HasNames scope) :
    (name m x Γ).Traces ((Expr.name m x).stray? scope) := by
  unfold name
  rw [Expr.stray?]
  cases hx : Γ.lookup? x with
  | some σ =>
    rw [if_pos ((hΓ x).1 (by rw [hx]; rfl))]
    exact Walk.traces_act Act.nameless_instantiate fun _ => Walk.traces_annotate
  | none =>
    have hscope : x ∉ scope := fun hmem => by simpa [hx] using (hΓ x).2 hmem
    rw [if_neg hscope]
    intro s span y h
    cases h
    rfl

theorem nameless_paramTy (p : Binder) : (paramTy p).Nameless := by
  unfold paramTy
  split
  · exact Act.nameless_draw
  · exact Act.nameless_fresh

theorem nameless_paramTyAgainst (p : Binder) (t : Ty) : (paramTyAgainst p t).Nameless := by
  unfold paramTyAgainst
  split
  · exact Act.nameless_draw.bind fun _ => Act.nameless_unify.bind fun _ => Act.nameless_pure
  · exact Act.nameless_pure

theorem nameless_annotated (a : TypeExpr) : (annotated a).Nameless :=
  Act.nameless_draw.bind fun _ => Act.nameless_pure

/-- The goal for a definition comes from an annotation, which has no names of expressions. -/
theorem nameless_boundGoal (b : Binder) : (boundGoal b).Nameless := by
  unfold boundGoal
  split
  · exact (nameless_annotated _).map
  · exact Act.nameless_pure

/-- The definition of a binder is walked in the scope outside, and the binder keeps its name. -/
theorem meets_bind (hbound : bound.Traces d) (hΓ : Γ.HasNames scope) (s : Session) :
    (bind p d bound Γ).Meets s (fun t _ _ => d.stray? scope = none ∧ t.1.name = p.name)
      fun _ f _ => f.Names (d.stray? scope) := by
  refine .act (nameless_boundGoal p s) (fun goal s₁ _ => ?_) fun _ _ hf => hf.of_none
  refine (hbound goal hΓ s₁).andThen (fun e t s₂ hnone => ?_) fun _ _ _ hf => hf
  exact Walk.Meets.fillAny (s := { s₂ with log := _ :: s₂.log }) (fun _ => .done ⟨hnone, rfl⟩)
    fun _ d => Fault.Names.defect d

/-- The parameter of a function is in scope in its body. -/
theorem traces_lam (hbody : body.Traces b) (hΓ : Γ.HasNames scope) :
    (lam m p b body Γ).Traces ((Expr.lam m p b).stray? scope) :=
  Walk.traces_act (nameless_paramTy p) fun _ => Walk.traces_fillBinder fun _ =>
    (hbody none (hΓ.extend p.name _)).last fun _ _ => Walk.traces_annotate

theorem traces_lamAgainst (hbody : body.Traces b) (hΓ : Γ.HasNames scope) (t u : Ty) :
    (lamAgainst m p b body Γ demand t u).Traces ((Expr.lam m p b).stray? scope) :=
  Walk.traces_act (nameless_paramTyAgainst p t) fun _ => Walk.traces_fillBinder fun _ =>
    (hbody _ (hΓ.extend p.name _)).last fun _ _ => Walk.traces_annotate

/-- The callee is searched before the argument, whether that gets a demand or not. -/
theorem traces_app (mode : Mode) (hcallee : callee.Traces f) (harg : arg.Traces a)
    (hΓ : Γ.HasNames scope) :
    (app mode m a callee arg Γ).Traces ((Expr.app m f a).stray? scope) := by
  refine (hcallee none hΓ).andThen fun f t s => ?_
  -- what is solved decides whether the argument gets a demand, but not which names it has
  unfold Walk.Meets
  dsimp only
  cases calleeTy? mode t s with
  | some pr => exact ((harg _ hΓ).last fun _ _ => Walk.traces_annotate) s
  | none =>
    refine ((harg none hΓ).last fun _ _ => ?_) s
    exact Walk.traces_act Act.nameless_fresh fun _ => Walk.traces_act Act.nameless_unify
      fun _ => Walk.traces_annotate

/-- The rules for a local definition, which differ in what they do with the body. -/
theorem traces_letIn_of {next : Binder × Expr → Scheme → Walk Expr Ty}
    {stopped : Binder × Expr → Expr} (hbound : bound.Traces d) (hΓ : Γ.HasNames scope)
    (hnext : ∀ t σ, t.1.name = p.name → (next t σ).Traces (e.stray? (p.name :: scope))) :
    ((bind p d bound Γ).andThen stopped next).Traces ((Expr.letIn m p d e).stray? scope) := by
  intro s
  refine (meets_bind hbound hΓ s).andThen (fun t σ s₁ hbind => ?_) fun _ _ _ hf => hf.or _
  obtain ⟨hnone, hname⟩ := hbind
  rw [Expr.stray?, hnone, Option.none_or]
  exact hnext t σ hname s₁

/-- A bound name is in scope in the body of a local definition, but not in the definition. -/
theorem traces_letIn (hbound : bound.Traces d) (hbody : body.Traces e) (hΓ : Γ.HasNames scope) :
    (letIn m p d e bound body Γ).Traces ((Expr.letIn m p d e).stray? scope) :=
  traces_letIn_of hbound hΓ fun _ _ hname =>
    (hbody none (hname ▸ hΓ.extend _ _)).last fun _ _ => Walk.traces_annotate

theorem traces_letInAgainst (hbound : bound.Traces d) (hbody : body.Traces e)
    (hΓ : Γ.HasNames scope) :
    (letInAgainst m p d e bound body Γ demand).Traces ((Expr.letIn m p d e).stray? scope) :=
  traces_letIn_of hbound hΓ fun _ _ hname =>
    (hbody _ (hname ▸ hΓ.extend _ _)).last fun _ _ => Walk.traces_annotate

/-- The test is searched before the branches, in both modes. -/
theorem traces_cond (mode : Mode) (htest : test.Traces c) (hyes : yes.Traces y)
    (hno : no.Traces n) (hΓ : Γ.HasNames scope) :
    (cond mode m y n test yes no Γ).Traces ((Expr.cond m c y n).stray? scope) := by
  refine (htest _ hΓ).andThen fun _ _ => (hyes none hΓ).andThen fun _ _ => ?_
  cases mode with
  | bottomUp =>
    exact (hno none hΓ).last fun _ _ => Walk.traces_act Act.nameless_unify
      fun _ => Walk.traces_annotate
  | topDown => exact (hno _ hΓ).last fun _ _ => Walk.traces_annotate

theorem traces_condAgainst (htest : test.Traces c) (hyes : yes.Traces y) (hno : no.Traces n)
    (hΓ : Γ.HasNames scope) :
    (condAgainst m y n test yes no Γ demand).Traces ((Expr.cond m c y n).stray? scope) :=
  (htest _ hΓ).andThen fun _ _ => (hyes _ hΓ).andThen fun _ _ =>
    (hno _ hΓ).last fun _ _ => Walk.traces_annotate

theorem traces_anno (hinner : body.Traces e) (t : TypeExpr) (hΓ : Γ.HasNames scope) :
    (anno m e t body Γ).Traces ((Expr.anno m e t).stray? scope) :=
  Walk.traces_act (nameless_annotated t) fun _ => (hinner _ hΓ).last fun _ _ =>
    Walk.traces_annotate

end Infer

/-! ## Whole walks -/

namespace Expr

/-- The elements of a tuple are searched from left to right. -/
theorem traces_inferAll (mode : Mode) {es : List Expr} (h : ∀ e ∈ es, (infer mode e).Traces e)
    {Γ : Env} {scope : List String} (hΓ : Γ.HasNames scope) (goals : List Goal) :
    (inferAll mode es Γ goals).Traces (strayAll? scope es) := by
  induction es generalizing goals with
  | nil =>
    rw [inferAll]
    exact Walk.traces_done
  | cons e es ih =>
    rw [inferAll]
    exact (h e (List.mem_cons_self ..) _ hΓ).andThen fun _ _ =>
      (ih (fun d hd => h d (List.mem_cons_of_mem e hd)) _).last fun _ _ => Walk.traces_done

/-- Inference comes to the names of an expression in the order in which they stand, and looks each
up in its scope. -/
theorem traces_infer (mode : Mode) (e : Expr) : (infer mode e).Traces e := by
  induction e using Expr.inductionOn with
  | lit m l =>
    intro Γ scope goal hΓ
    rw [infer]
    exact goal.traces_settle _ Walk.traces_annotate
  | name m x =>
    intro Γ scope goal hΓ
    rw [infer]
    exact goal.traces_settle _ (Infer.traces_name hΓ)
  | lam m p b ih =>
    intro Γ scope goal hΓ s
    obtain ⟨d, t, u, -, -, hrun⟩ | ⟨-, hrun⟩ := infer_lam mode m Γ goal s p b
    · exact .congr hrun (Infer.traces_lamAgainst ih hΓ t u s)
    · exact .congr hrun (goal.traces_settle _ (Infer.traces_lam ih hΓ) s)
  | app m f a ihf iha =>
    intro Γ scope goal hΓ
    rw [infer]
    exact goal.traces_settle _ (Infer.traces_app mode ihf iha hΓ)
  | letIn m b d e ihd ihe =>
    intro Γ scope goal hΓ s
    obtain ⟨c, -, hrun⟩ | ⟨-, hrun⟩ := infer_letIn mode m Γ goal s b d e
    · exact .congr hrun (Infer.traces_letInAgainst ihd ihe hΓ s)
    · exact .congr hrun (goal.traces_settle _ (Infer.traces_letIn ihd ihe hΓ) s)
  | cond m c y n ihc ihy ihn =>
    intro Γ scope goal hΓ s
    obtain ⟨d, -, hrun⟩ | ⟨-, hrun⟩ := infer_cond mode m Γ goal s c y n
    · exact .congr hrun (Infer.traces_condAgainst ihc ihy ihn hΓ s)
    · exact .congr hrun (goal.traces_settle _ (Infer.traces_cond mode ihc ihy ihn hΓ) s)
  | anno m e a ih =>
    intro Γ scope goal hΓ
    rw [infer]
    exact goal.traces_settle _ (Infer.traces_anno ih a hΓ)
  | tuple m es ih =>
    intro Γ scope goal hΓ s
    have helems (goals : List Goal) := traces_inferAll mode ih hΓ goals
    obtain ⟨d, ts, -, -, -, -, hrun⟩ | ⟨-, hrun⟩ := infer_tuple mode m Γ goal s es
    · exact .congr hrun ((helems _).last (fun _ _ => Walk.traces_annotate) s)
    · exact .congr hrun
        (goal.traces_settle _ ((helems _).last fun _ _ => Walk.traces_annotate) s)
  | invalid m =>
    intro Γ scope goal hΓ
    rw [infer]
    exact goal.traces_settle _
      (Walk.traces_act Act.nameless_fresh fun _ => Walk.traces_annotate)

end Expr

/-- Inference stops at the first stray name of a program, if it stops at an unbound name at all. -/
theorem Program.traces_infer (mode : Mode) (p : Program) {Γ : Env} {scope : List String}
    (hΓ : Γ.HasNames scope) : (Program.infer mode p Γ).Traces (p.stray? scope) := by
  induction p generalizing Γ scope with
  | nil => exact Walk.traces_done
  | cons d ds ih =>
    intro s
    rw [Program.infer]
    refine (Infer.meets_bind (d.bound.traces_infer mode) hΓ s).andThen
      (fun t σ s₁ hbind => ?_) fun _ _ _ hf => hf.or _
    -- the definition has no stray name, so the first one is further down
    rw [stray?, hbind.1, Option.none_or]
    exact (ih (hΓ.extend d.binder.name σ)).last (fun _ _ => Walk.traces_done) _

/-- Names are resolved in their lexical scope.  If a run reports an unbound name then it is the
first one that is not in scope.  If there is one, then the run stops with an error, which may be
another one if that comes first. -/
theorem names_resolved_lexically (mode : Mode) (p : Program) :
    (∀ span x, .unbound span x ∈ (p.inferTypes mode).verdict.errors →
      ∃ κ, p.StrayAt κ span x ∧ Place.IsFirst (fun κ => ∃ span x, p.StrayAt κ span x) κ) ∧
    (∀ κ span x, p.StrayAt κ span x →
      ∃ e, ¬ e.IsAmbiguous ∧ (p.inferTypes mode).verdict = .illTyped [e]) := by
  have htraces := Program.traces_infer mode p.clear Prelude.hasNames_env Session.start
  rw [Program.stray?_clear] at htraces
  obtain ⟨q, e, s, hfailed⟩ | ⟨q, s, hwalked⟩ := p.failed_or_walked mode
  · have hnames := htraces.of_error hfailed.walk
    rw [hfailed.verdict]
    refine ⟨fun span x hmem => ?_, fun _ _ _ _ => ⟨e, hfailed.ordinary, rfl⟩⟩
    cases List.mem_singleton.1 hmem
    exact Program.isFirst_of_stray? (hnames span x rfl)
  · have hnone := htraces.of_ok hwalked.walk
    refine ⟨fun span x hmem => ?_, fun κ span x hstray => ?_⟩
    · rw [hwalked.errors_eq] at hmem
      obtain ⟨span', t, heq⟩ := Program.isAmbiguous_of_mem_ambiguities _ hmem
      cases heq
    · exact absurd hstray (Program.not_strayAt_of_stray? hnone κ)

/-- `let f = fn (x) -> let y = x(y) in z`.  The definition of `y` is not in the scope of `y`, and
`z` is nowhere in scope.  The first of them is reported. -/
theorem names_resolved_lexically_sample :
    let name (n : Nat) (x : String) : Expr := .name (.new ⟨n, n + 1, 0⟩) x
    let binder (x : String) : Binder := ⟨x, .nowhere, none, .empty⟩
    let call : Expr := .app .nowhere (name 0 "x") (name 2 "y")
    let p : Program := [.sample "f" (.lam .nowhere (binder "x")
      (.letIn .nowhere (binder "y") call (name 5 "z")))]
    let verdict := (p.inferTypes (.topDown .all)).verdict
    .unbound ⟨2, 3, 0⟩ "y" ∈ verdict.errors ∧
      (∃ κ, p.StrayAt κ ⟨2, 3, 0⟩ "y" ∧
        Place.IsFirst (fun κ => ∃ span x, p.StrayAt κ span x) κ) ∧
      ∃ e, ¬ e.IsAmbiguous ∧ verdict = .illTyped [e] := by
  intro name binder call p verdict
  have hmem : .unbound ⟨2, 3, 0⟩ "y" ∈ verdict.errors := by decide +kernel
  obtain ⟨hfirst, herror⟩ := names_resolved_lexically (.topDown .all) p
  obtain ⟨κ, hstray, hκ⟩ := hfirst ⟨2, 3, 0⟩ "y" hmem
  exact ⟨hmem, ⟨κ, hstray, hκ⟩, herror κ ⟨2, 3, 0⟩ "y" hstray⟩

end LetPoly
