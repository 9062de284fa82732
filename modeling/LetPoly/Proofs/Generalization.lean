import LetPoly.Proofs.Acts

/-!
# Generalization

The free variables of an environment decide what a definition is generalized over.  They are the
variables that the environment *reaches*: those that some free variable of a scheme stands for
(`Env.Known.mem_freeVars`).

Generalizing retires the quantified variables (`Env.retires_generalize`).  The reason is a territory
of its own, made of what the environment reaches and of what is not drawn yet.  A definition is
typed in that territory, so a variable of its type that the environment does not reach was drawn on
the way, and so were all variables that stand for types with it.

What is solved later changes neither which variables a scheme quantifies over nor that it
quantifies over all that it can (`Env.Known.generalizes`).
-/

namespace LetPoly

variable {T D : Set TyVar} {s b : Session} {Γ : Env}

/-! ## Resolved schemes -/

/-- Resolving a known scheme does not run into its quantified variables. -/
theorem Scheme.Known.applyScheme_eq {σ : Scheme} (hσ : σ.Known T s) :
    s.subst.applyScheme σ = ⟨σ.vars, s.subst.apply σ.ty⟩ := by
  rw [Subst.applyScheme, Subst.without_eq_self hσ.unsolved]

/-- The free variables of a resolved scheme are what its free variables stand for. -/
theorem Scheme.Known.mem_freeVars {σ : Scheme} (hσ : σ.Known T s) (hapart : ∀ v ∈ σ.vars, v ∉ T)
    {v : TyVar} :
    v ∈ (s.subst.applyScheme σ).freeVars ↔
      ∃ w ∈ σ.freeVars, v ∈ (s.subst.apply (.var w)).occurrences := by
  rw [hσ.applyScheme_eq, Scheme.mem_freeVars]
  constructor
  · rintro ⟨hv, hvars⟩
    obtain ⟨w, hw, hv⟩ := Subst.mem_apply.1 hv
    refine ⟨w, Scheme.mem_freeVars.2 ⟨hw, fun hmem => hvars ?_⟩, hv⟩
    rw [Subst.apply_of_get?_eq_none (hσ.unsolved w hmem), Ty.occurrences_var,
      List.mem_singleton] at hv
    rwa [hv]
  · rintro ⟨w, hw, hv⟩
    exact ⟨Subst.mem_apply.2 ⟨w, (Scheme.mem_freeVars.1 hw).1, hv⟩,
      fun hmem => hapart v hmem ((hσ.free w hw).2 v hv)⟩

/-- An instance of a known scheme stays one when both are resolved. -/
theorem Scheme.Known.instance_apply {σ : Scheme} (hσ : σ.Known T s)
    (hapart : ∀ v ∈ σ.vars, v ∉ T) {t : Ty} (ht : σ.Instance t) :
    (s.subst.applyScheme σ).Instance (s.subst.apply t) := by
  obtain ⟨ρ, hρ, rfl⟩ := ht
  rw [hσ.applyScheme_eq]
  refine ⟨fun v => if v ∈ σ.vars then s.subst.apply (ρ v) else .var v, fun v hv => if_neg hv, ?_⟩
  rw [Subst.apply_eq_replace, Ty.replace_replace, Subst.apply_eq_replace s.subst σ.ty,
    Ty.replace_replace]
  refine Ty.replace_congr fun v hv => ?_
  rw [← Subst.apply_eq_replace]
  by_cases hmem : v ∈ σ.vars
  · rw [Subst.apply_of_get?_eq_none (hσ.unsolved v hmem), Ty.replace_var, if_pos hmem]
  · rw [hρ v hmem]
    refine (Ty.replace_eq_self fun w hw => if_neg fun hw' => ?_).symm
    exact hapart w hw' ((hσ.free v (Scheme.mem_freeVars.2 ⟨hv, hmem⟩)).2 w hw)

/-! ## What an environment reaches -/

/-- A free variable of the environment stands for a type with the variable. -/
def Env.Reaches (Γ : Env) (s : Session) (v : TyVar) : Prop :=
  ∃ x σ, Γ.lookup? x = some σ ∧ ∃ w ∈ σ.freeVars, v ∈ (s.subst.apply (.var w)).occurrences

theorem Env.Known.mem_freeVars (hΓ : Γ.Known T s) {v : TyVar} :
    v ∈ Γ.freeVars s.subst ↔ Γ.Reaches s v := by
  rw [Env.mem_freeVars]
  constructor
  · rintro ⟨x, σ, hx, hv⟩
    exact ⟨x, σ, hx, ((hΓ.scheme x σ hx).mem_freeVars (hΓ.apart x σ hx)).1 hv⟩
  · rintro ⟨x, σ, hx, hv⟩
    exact ⟨x, σ, hx, ((hΓ.scheme x σ hx).mem_freeVars (hΓ.apart x σ hx)).2 hv⟩

theorem Env.Known.mem_of_reaches (hΓ : Γ.Known T s) {v : TyVar} (hv : Γ.Reaches s v) : v ∈ T := by
  obtain ⟨x, σ, hx, w, hw, hv⟩ := hv
  exact ((hΓ.scheme x σ hx).free w hw).2 v hv

/-- What is reached through a reached variable is reached later. -/
theorem Env.Reaches.trans (hb : b.subst.Acyclic) (hle : s.subst ≤ b.subst) {u v : TyVar}
    (hu : Γ.Reaches s u) (hv : v ∈ (b.subst.apply (.var u)).occurrences) : Γ.Reaches b v := by
  obtain ⟨x, σ, hx, w, hw, hu⟩ := hu
  exact ⟨x, σ, hx, w, hw, (hb.mem_apply_of_le hle).2 ⟨u, hu, hv⟩⟩

/-- What the environment reaches and what is not drawn yet. -/
def Env.reach (Γ : Env) (s : Session) : Set TyVar := {v | Γ.Reaches s v ∨ s.drawn ≤ v}

theorem Env.Known.reach (hΓ : Γ.Known T s) : Γ.Known (Γ.reach s) s where
  scheme x σ hx :=
    { hΓ.scheme x σ hx with
      free := fun w hw =>
        ⟨((hΓ.scheme x σ hx).free w hw).1, fun _ hv => .inl ⟨x, σ, hx, w, hw, hv⟩⟩ }
  apart x σ hx v hv hmem := by
    rcases hmem with hmem | hmem
    · exact hΓ.apart x σ hx v hv (hΓ.mem_of_reaches hmem)
    · exact Nat.not_lt.2 hmem ((hΓ.scheme x σ hx).below v hv)

theorem Session.Sound.reach (hs : s.Sound T) (Γ : Env) : s.Sound (Γ.reach s) :=
  { hs with fresh := fun _ hv => .inr hv }

/-! ## Quantified variables -/

theorem Env.mem_vars_generalize {r : Subst} {t : Ty} {v : TyVar} :
    v ∈ (Γ.generalize r t).vars ↔ v ∈ (r.apply t).occurrences ∧ v ∉ Γ.freeVars r := by
  simp only [Env.generalize, List.mem_filter, Ty.mem_vars, Bool.not_eq_true', ← Bool.not_eq_true,
    Std.ExtTreeSet.contains_iff_mem]

/-- Generalizing a known type gives a scheme that is known apart from its quantified variables. -/
theorem Env.known_generalize (hs : s.Sound T) (Γ : Env) {t : Ty} (ht : t.Known T s) :
    (Γ.generalize s.subst t).Known (T \ {v | v ∈ (Γ.generalize s.subst t).vars}) s where
  nodup := (Ty.nodup_vars _).filter _
  below _ hv := ht.lt_of_apply hs (Env.mem_vars_generalize.1 hv).1
  unsolved _ hv := hs.acyclic.get?_of_mem_apply (Env.mem_vars_generalize.1 hv).1
  free v hv := by
    obtain ⟨hv, hvars⟩ := Scheme.mem_freeVars.1 hv
    exact Session.knows_of_get?_eq_none (ht.lt_of_apply hs hv) (hs.acyclic.get?_of_mem_apply hv)
      ⟨ht.mem_of_apply hv, hvars⟩

/-- The variables that a definition is generalized over are retired. -/
theorem Env.retires_generalize {N : Set TyVar} (hs : s.Sound T) (hsteps : s.Steps (Γ.reach s) N b)
    (hΓ : Γ.Known D b) {t : Ty} (ht : t.Known (Γ.reach s) b) {v : TyVar}
    (hv : v ∈ (Γ.generalize b.subst t).vars) : s.Retires b v := by
  obtain ⟨hmem, hfree⟩ := mem_vars_generalize.1 hv
  rw [hΓ.mem_freeVars] at hfree
  have hb := hsteps.sound
  have hopen := hb.acyclic.get?_of_mem_apply hmem
  have hdrawn : s.drawn ≤ v := by
    rcases ht.mem_of_apply hmem with hreach | hdrawn
    · refine absurd (hreach.trans hb.acyclic hsteps.le ?_) hfree
      rw [Subst.apply_of_get?_eq_none hopen]
      exact List.mem_singleton.2 rfl
    · exact hdrawn
  refine ⟨hdrawn, ht.lt_of_apply (hb.mono Set.sdiff_subset) hmem, hopen, fun w hw hvw => hfree ?_⟩
  -- Some variable that was there before has been solved by a type with `v`, so it was reached.
  obtain ⟨u, hu, hvu⟩ := (hb.acyclic.mem_apply_of_le hsteps.le).1 hvw
  have hult := hs.lt_of_mem_apply hw u hu
  cases hsol : b.subst.get? u with
  | none =>
    rw [Subst.apply_of_get?_eq_none hsol, Ty.occurrences_var, List.mem_singleton] at hvu
    rw [hvu] at hdrawn
    exact absurd hult (Nat.not_lt.2 hdrawn)
  | some r =>
    rcases (hsteps.added u r hsol (hs.acyclic.get?_of_mem_apply hu)).1 with hreach | hnew
    · exact hreach.trans hb.acyclic hsteps.le hvu
    · exact absurd hult (Nat.not_lt.2 hnew)

/-! ## Quantified variables later on -/

/-- Resolving a type further keeps the unsolved variables of a list in their order, if they come up
nowhere else. -/
theorem filter_vars_apply {r : Subst} {t : Ty} {vs : List TyVar}
    (hsame : ∀ v ∈ vs, r.apply (.var v) = .var v)
    (hother : ∀ u ∈ t.occurrences, u ∉ vs → ∀ v ∈ (r.apply (.var u)).occurrences, v ∉ vs) :
    (r.apply t).vars.filter (· ∈ vs) = t.vars.filter (· ∈ vs) := by
  have hocc : (r.apply t).occurrences.filter (· ∈ vs) = t.occurrences.filter (· ∈ vs) := by
    rw [Subst.apply_eq_replace, Ty.occurrences_replace]
    generalize t.occurrences = us at hother ⊢
    induction us with
    | nil => rfl
    | cons u us ih =>
      rw [List.flatMap_cons, List.filter_append,
        ih fun w hw => hother w (List.mem_cons_of_mem u hw)]
      by_cases hu : u ∈ vs
      · simp [hsame u hu, hu]
      · have hnil : (r.apply (.var u)).occurrences.filter (· ∈ vs) = [] := by
          rw [List.filter_eq_nil_iff]
          intro v hv
          simpa using hother u (List.mem_cons_self ..) hu v hv
        simp [hnil, hu]
  rw [Ty.vars, filter_firstOccurrences, hocc, ← filter_firstOccurrences, Ty.vars]

/-- The scheme of a definition, resolved at any later time, quantifies over exactly the variables of
the resolved type that are not free in the resolved environment. -/
theorem Env.Known.generalizes {N : Set TyVar} (hΓb : Γ.Known D b) {t : Ty}
    (hle : b.subst ≤ s.subst) (hs : s.Sound N) (hΓ : Γ.Known T s)
    (hσ : (Γ.generalize b.subst t).Known T s)
    (hapart : ∀ v ∈ (Γ.generalize b.subst t).vars, v ∉ T) :
    (Γ.resolve s.subst).Generalizes (s.subst.apply t)
      (s.subst.applyScheme (Γ.generalize b.subst t)) := by
  have hsame : ∀ v ∈ (Γ.generalize b.subst t).vars, s.subst.apply (.var v) = .var v :=
    fun v hv => Subst.apply_of_get?_eq_none (hσ.unsolved v hv)
  have hother : ∀ u ∈ (b.subst.apply t).occurrences, u ∉ (Γ.generalize b.subst t).vars →
      ∀ v ∈ (s.subst.apply (.var u)).occurrences, Γ.Reaches s v := by
    intro u hu huvars v hv
    have hfree : u ∈ Γ.freeVars b.subst := by
      by_contra hfree
      exact huvars (mem_vars_generalize.2 ⟨hu, hfree⟩)
    exact (hΓb.mem_freeVars.1 hfree).trans hs.acyclic hle hv
  have happly := hs.acyclic.apply_apply_of_le hle t
  rw [hσ.applyScheme_eq]
  refine ⟨happly, ?_, fun v => ?_⟩
  · have hfilter := filter_vars_apply hsame fun u hu huvars v hv hmem =>
      hapart v hmem (hΓ.mem_of_reaches (hother u hu huvars v hv))
    rw [happly] at hfilter
    have hvars : (b.subst.apply t).vars.filter (· ∈ (Γ.generalize b.subst t).vars) =
        (Γ.generalize b.subst t).vars :=
      List.filter_congr fun v hv => by simp [Env.generalize, List.mem_filter, hv]
    rw [← hvars, ← hfilter]
    exact List.filter_sublist
  · rw [Env.free_resolve, hΓ.mem_freeVars]
    constructor
    · intro hv
      refine ⟨?_, fun hreach => hapart v hv (hΓ.mem_of_reaches hreach)⟩
      exact hs.acyclic.mem_apply_of_get?_eq_none hle (hσ.unsolved v hv)
        (mem_vars_generalize.1 hv).1
    · rintro ⟨hv, hreach⟩
      obtain ⟨u, hu, hv⟩ := (hs.acyclic.mem_apply_of_le hle).1 hv
      by_cases huvars : u ∈ (Γ.generalize b.subst t).vars
      · rw [hsame u huvars, Ty.occurrences_var, List.mem_singleton] at hv
        rwa [hv]
      · exact absurd (hother u hu huvars v hv) hreach

end LetPoly
