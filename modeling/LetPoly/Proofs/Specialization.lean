import LetPoly.Proofs.Programs

/-!
# Specialization

The types that inference finds are compared with others under an assignment of types to
variables.  A scheme is more general than another if it has all the instances of the other, where
the assignment says what the free variables stand for.

Generalizing a definition quantifies over all that it can.  A derivation may quantify only over
variables that are not free in its environment, and the variables that inference leaves free
stand for types without others.  So generalizing gives the more general scheme.
-/

namespace LetPoly

/-! ## More general schemes -/

/-- Every instance of the second scheme is one of the first, with the assignment on its free
variables. -/
def Scheme.MoreGeneral (θ : TyVar → Ty) (σ σ' : Scheme) : Prop :=
  ∀ u, σ'.Instance u → ∃ ρ : TyVar → Ty, (∀ v ∈ σ.freeVars, ρ v = θ v) ∧ u = σ.ty.replace ρ

/-- The environments have the same names, and the schemes of the first are more general. -/
structure Env.MoreGeneral (θ : TyVar → Ty) (Γ Γ' : Env) : Prop where
  /-- The names are the same. -/
  names : ∀ x, Γ.lookup? x = none ↔ Γ'.lookup? x = none
  /-- The schemes of the first environment are more general. -/
  scheme : ∀ x σ σ', Γ.lookup? x = some σ → Γ'.lookup? x = some σ' → σ.MoreGeneral θ σ'

section

variable {θ θ' : TyVar → Ty} {Γ Γ' : Env}

/-- A type without quantifiers is its only instance. -/
theorem Scheme.instance_mono {t u : Ty} : (Scheme.mono t).Instance u ↔ u = t := by
  constructor
  · rintro ⟨ρ, hρ, rfl⟩
    exact Ty.replace_eq_self fun v _ => hρ v nofun
  · rintro rfl
    exact ⟨.var, fun _ _ => rfl, (Ty.replace_var_self u).symm⟩

/-- A type is more general than what an assignment makes of it. -/
theorem Scheme.moreGeneral_mono {t u : Ty} (h : t.replace θ = u) :
    (Scheme.mono t).MoreGeneral θ (.mono u) := by
  intro r hr
  rw [Scheme.instance_mono.1 hr, ← h]
  exact ⟨θ, fun _ _ => rfl, rfl⟩

theorem Scheme.MoreGeneral.congr {σ σ' : Scheme} (h : σ.MoreGeneral θ σ')
    (hθ : ∀ v ∈ σ.freeVars, θ' v = θ v) : σ.MoreGeneral θ' σ' := by
  intro u hu
  obtain ⟨ρ, hρ, heq⟩ := h u hu
  exact ⟨ρ, fun v hv => (hρ v hv).trans (hθ v hv).symm, heq⟩

/-- What the free variables of the more general scheme stand for is made of free variables of the
other.  To see this, take the instance in which all quantified variables become a closed type. -/
theorem Scheme.MoreGeneral.mem_freeVars {σ σ' : Scheme} (h : σ.MoreGeneral θ σ') {w v : TyVar}
    (hw : w ∈ σ.freeVars) (hv : v ∈ (θ w).occurrences) : v ∈ σ'.freeVars := by
  let ρ' : TyVar → Ty := fun v => if v ∈ σ'.vars then .int else .var v
  obtain ⟨ρ, hρ, heq⟩ := h (σ'.ty.replace ρ') ⟨ρ', fun v hv => if_neg hv, rfl⟩
  have hmem : v ∈ (σ'.ty.replace ρ').occurrences := by
    rw [heq, Ty.mem_occurrences_replace]
    exact ⟨w, (Scheme.mem_freeVars.1 hw).1, by rwa [hρ w hw]⟩
  obtain ⟨u, hu, hvu⟩ := Ty.mem_occurrences_replace.1 hmem
  by_cases huvars : u ∈ σ'.vars
  · rw [show ρ' u = .int from if_pos huvars] at hvu
    cases hvu
  · rw [show ρ' u = .var u from if_neg huvars, Ty.occurrences_var, List.mem_singleton] at hvu
    rw [hvu]
    exact Scheme.mem_freeVars.2 ⟨hu, huvars⟩

/-- Environments that are extended by schemes, of which one is more general, stay so. -/
theorem Env.MoreGeneral.extend (h : Γ.MoreGeneral θ Γ') (x : String) {σ σ' : Scheme}
    (hσ : σ.MoreGeneral θ σ') : (Γ.extend x σ).MoreGeneral θ (Γ'.extend x σ') := by
  refine ⟨fun y => ?_, fun y τ τ' hτ hτ' => ?_⟩
  · rw [lookup?_extend, lookup?_extend]
    split
    · simp
    · exact h.names y
  · rw [lookup?_extend] at hτ hτ'
    split at hτ
    · rename_i hxy
      rw [if_pos hxy] at hτ'
      cases hτ
      cases hτ'
      exact hσ
    · rename_i hxy
      rw [if_neg hxy] at hτ'
      exact h.scheme y τ τ' hτ hτ'

/-- Only the assignment of drawn variables matters to an environment. -/
theorem Env.MoreGeneral.agreesBelow {T : Set TyVar} {s : Session} (h : Γ.MoreGeneral θ Γ')
    (hΓ : Γ.Known T s) (hθ : AgreesBelow s.drawn θ θ') : Γ.MoreGeneral θ' Γ' where
  names := h.names
  scheme x σ σ' hx hx' := (h.scheme x σ σ' hx hx').congr fun v hv =>
    hθ v ((hΓ.scheme x σ hx).free v hv).1

/-- What the environment of inference reaches stands for types made of free variables of the
derivation's environment. -/
theorem Env.MoreGeneral.free {s : Session} (h : Γ.MoreGeneral θ Γ') (hθ : s.subst.Solves θ)
    {u v : TyVar} (hu : Γ.Reaches s u) (hv : v ∈ (θ u).occurrences) : Γ'.Free v := by
  obtain ⟨x, σ, hx, w, hw, hu⟩ := hu
  cases hx' : Γ'.lookup? x with
  | none =>
    rw [(h.names x).2 hx'] at hx
    cases hx
  | some σ' =>
    refine ⟨x, σ', hx', (h.scheme x σ σ' hx hx').mem_freeVars hw ?_⟩
    rw [← Ty.replace_var θ w, ← hθ.replace_apply, Ty.mem_occurrences_replace]
    exact ⟨u, hu, hv⟩

/-- Generalizing as far as possible gives a scheme that is more general than any that a derivation
may give the definition. -/
theorem Env.MoreGeneral.generalize {T : Set TyVar} {s : Session} (h : Γ.MoreGeneral θ Γ')
    (hΓ : Γ.Known T s) (hθ : s.subst.Solves θ) {t u : Ty} {σ' : Scheme} (ht : t.replace θ = u)
    (hσ' : Γ'.Closes u σ') : (Γ.generalize s.subst t).MoreGeneral θ σ' := by
  rintro _ ⟨ρ', hρ', rfl⟩
  refine ⟨fun v => if v ∈ (Γ.generalize s.subst t).vars then (θ v).replace ρ' else θ v,
    fun v hv => if_neg (Scheme.mem_freeVars.1 hv).2, ?_⟩
  rw [hσ'.ty, ← ht, ← hθ.replace_apply t, Ty.replace_replace]
  refine Ty.replace_congr fun v hv => ?_
  split
  · rfl
  · rename_i hvars
    refine Ty.replace_eq_self fun w hw => hρ' w fun hmem => hσ'.vars w hmem ?_
    have hfree : v ∈ Γ.freeVars s.subst := by
      by_contra hfree
      exact hvars (mem_vars_generalize.2 ⟨hv, hfree⟩)
    exact h.free hθ (hΓ.mem_freeVars.1 hfree) hw

end

/-! ## Types under an assignment -/

/-- The slot of a mark under an assignment. -/
def Mark.specialize (θ : TyVar → Ty) (m : Mark) : Mark := m.update (·.resolve (Ty.replace θ))

/-- The slot of a binder under an assignment, without the quantifiers. -/
def Binder.specialize (θ : TyVar → Ty) (b : Binder) : Binder :=
  b.update (·.resolve fun σ => .mono (σ.ty.replace θ))

/-- The types in the slots of an expression under an assignment, without the quantifiers. -/
def Expr.specialize (θ : TyVar → Ty) (e : Expr) : Expr :=
  e.retype (Ty.replace θ) fun σ => .mono (σ.ty.replace θ)

/-- The types in the slots of a program under an assignment, without the quantifiers. -/
def Program.specialize (θ : TyVar → Ty) (p : Program) : Program :=
  p.retype (Ty.replace θ) fun σ => .mono (σ.ty.replace θ)

/-- What becomes of a tree depends on what becomes of its types. -/
theorem Expr.specialize_congr {θ θ' : TyVar → Ty} {e : Expr}
    (h : ∀ t ∈ e.types, t.replace θ = t.replace θ') : e.specialize θ = e.specialize θ' := by
  refine retype_congr (fun d hd t ht => h t (mem_types_of_mark hd ht)) fun d hd b σ hb hσ => ?_
  rw [h σ.ty (mem_types_of_binder hd hb hσ)]

theorem Program.specialize_congr {θ θ' : TyVar → Ty} {p : Program}
    (h : ∀ t ∈ p.types, t.replace θ = t.replace θ') : p.specialize θ = p.specialize θ' := by
  refine List.map_congr_left fun d hd => ?_
  have hd : ∀ t ∈ d.types, t.replace θ = t.replace θ' := fun t ht =>
    h t (List.mem_flatMap.2 ⟨d, hd, ht⟩)
  have hbinder : d.binder.specialize θ = d.binder.specialize θ' := by
    refine congrArg (Binder.mk _ _ _) (Slot.resolve_congr fun σ hσ => ?_)
    rw [hd σ.ty (List.mem_append_left _ (by simp [hσ, Slot.filled]))]
  exact congrArg₂ (Decl.mk d.span) hbinder
    (Expr.specialize_congr fun t ht => hd t (List.mem_append_right _ ht))

theorem Program.types_specialize (θ : TyVar → Ty) (p : Program) :
    (p.specialize θ).types = p.types.map (Ty.replace θ) :=
  types_retype (fun _ => rfl) p

/-- The type of a known scheme mentions no variables but those drawn. -/
theorem Scheme.Known.lt_drawn {T : Set TyVar} {s : Session} {σ : Scheme} (hσ : σ.Known T s) :
    ∀ v ∈ σ.ty.occurrences, v < s.drawn := by
  intro v hv
  by_cases hvars : v ∈ σ.vars
  · exact hσ.below v hvars
  · exact (hσ.free v (Scheme.mem_freeVars.2 ⟨hv, hvars⟩)).1

namespace Expr

variable {T : Set TyVar} {θ θ' : TyVar → Ty} {s s' : Session}

/-- All subexpressions of a tidy tree are tidy. -/
theorem Tidy.walk {e : Expr} (h : e.Tidy s T) : ∀ d ∈ e.walk, ∃ T', d.Tidy s T' := by
  induction e using inductionOnParts generalizing T with
  | step e ih =>
    intro d hd
    rw [walk_eq, List.mem_cons, List.mem_flatMap] at hd
    rcases hd with rfl | ⟨c, hc, hd⟩
    · exact ⟨T, h⟩
    · obtain ⟨i, hi⟩ := List.mem_iff_getElem?.1 hc
      exact ih c hc (h.parts i c hi) d hd

/-- The slots of a tidy tree do not see what an assignment does with variables not yet drawn. -/
theorem Tidy.specialize_eq {e : Expr} (h : e.Tidy s T) (hθ : AgreesBelow s.drawn θ θ') :
    e.specialize θ' = e.specialize θ := by
  refine retype_congr (fun d hd t ht => ?_) fun d hd b σ hb hσ => ?_
  · obtain ⟨T', hd⟩ := h.walk d hd
    exact hθ.replace_eq fun v hv => (hd.mark t ht v hv).1
  · obtain ⟨T', hd⟩ := h.walk d hd
    rw [hθ.replace_eq (hd.binder b σ hb hσ).lt_drawn]

end Expr

end LetPoly
