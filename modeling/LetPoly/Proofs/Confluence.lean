import LetPoly.Proofs.Completeness
import Mathlib.SetTheory.Cardinal.Arithmetic

/-!
# Confluence of the modes

Two runs over one program in different modes draw different variables and solve equations in
different orders.  If one comes to its end, its tree is a derivation, so the other comes to its end
as well, and each tree is the other under an assignment.  The two assignments are
inverse to each other on the variables of the trees, so they only rename variables.

The assignments say nothing of quantifiers.  But a definition quantifies over all variables that
are not free, in the order of its type, and so the quantifiers are determined by the types.
-/

namespace LetPoly

/-! ## Quantifiers -/

/-- Two parts of a list without repetitions that have the same elements are the same. -/
theorem eq_of_sublist_of_mem_iff {α : Type} {l l₁ l₂ : List α} (hl : l.Nodup) (h₁ : l₁.Sublist l)
    (h₂ : l₂.Sublist l) (h : ∀ a, a ∈ l₁ ↔ a ∈ l₂) : l₁ = l₂ := by
  induction l generalizing l₁ l₂ with
  | nil => rw [List.sublist_nil.1 h₁, List.sublist_nil.1 h₂]
  | cons a l ih =>
    obtain ⟨ha, hl⟩ := List.nodup_cons.1 hl
    have hnot : ∀ {l' : List α}, l'.Sublist l → a ∉ l' := fun h' hmem => ha (h'.subset hmem)
    cases h₁ with
    | cons _ h₁ =>
      cases h₂ with
      | cons _ h₂ => exact ih hl h₁ h₂ h
      | cons_cons _ h₂ => exact absurd ((h a).2 (List.mem_cons_self ..)) (hnot h₁)
    | @cons_cons l₁ _ _ h₁ =>
      cases h₂ with
      | cons _ h₂ => exact absurd ((h a).1 (List.mem_cons_self ..)) (hnot h₂)
      | @cons_cons l₂ _ _ h₂ =>
        refine congrArg _ (ih hl h₁ h₂ fun b => ?_)
        have hb := h b
        rw [List.mem_cons, List.mem_cons] at hb
        constructor
        · intro hmem
          exact (hb.1 (.inr hmem)).resolve_left fun heq => hnot h₁ (heq ▸ hmem)
        · intro hmem
          exact (hb.2 (.inr hmem)).resolve_left fun heq => hnot h₂ (heq ▸ hmem)

/-- The free variables of each name are the same up to renaming. -/
def Env.Renames (π : TyVar → TyVar) (Γ Γ' : Env) : Prop :=
  ∀ x v, (∃ σ, Γ.lookup? x = some σ ∧ v ∈ σ.freeVars) ↔
    ∃ σ, Γ'.lookup? x = some σ ∧ π v ∈ σ.freeVars

section

variable {π : TyVar → TyVar} {Γ Γ' : Env} {t : Ty} {σ σ' : Scheme}

theorem Env.Renames.free (h : Γ.Renames π Γ') (v : TyVar) : Γ.Free v ↔ Γ'.Free (π v) :=
  exists_congr fun x => h x v

/-- Environments without free variables have the same, whatever the renaming. -/
theorem Env.renames_of_not_free (hΓ : ∀ v, ¬ Γ.Free v) (hΓ' : ∀ v, ¬ Γ'.Free v) :
    Γ.Renames π Γ' := by
  intro x v
  constructor
  · rintro ⟨σ, hx, hv⟩
    exact (hΓ v ⟨x, σ, hx, hv⟩).elim
  · rintro ⟨σ, hx, hv⟩
    exact (hΓ' (π v) ⟨x, σ, hx, hv⟩).elim

theorem Scheme.mem_freeVars_rename (hπ : π.Injective) {v : TyVar} :
    π v ∈ (σ.rename π).freeVars ↔ v ∈ σ.freeVars := by
  rw [mem_freeVars, mem_freeVars, rename, Ty.occurrences_rename, List.mem_map_of_injective hπ,
    List.mem_map_of_injective hπ]

theorem Env.Renames.extend (h : Γ.Renames π Γ') (hπ : π.Injective) (x : String) (σ : Scheme) :
    (Γ.extend x σ).Renames π (Γ'.extend x (σ.rename π)) := by
  intro y v
  rw [lookup?_extend, lookup?_extend]
  split
  · simp [Scheme.mem_freeVars_rename hπ]
  · exact h y v

/-- The quantifiers of a definition are determined by its type and the free variables. -/
theorem Env.Generalizes.eq_rename (h : Γ.Generalizes t σ) (h' : Γ'.Generalizes (t.rename π) σ')
    (hΓ : Γ.Renames π Γ') (hπ : π.Injective) : σ' = σ.rename π := by
  have hvars : σ'.vars = σ.vars.map π := by
    refine eq_of_sublist_of_mem_iff (Ty.nodup_vars _) h'.sublist ?_ fun w => ?_
    · rw [Ty.vars_rename hπ]
      exact h.sublist.map π
    · rw [h'.vars, Ty.occurrences_rename, List.mem_map, List.mem_map]
      constructor
      · rintro ⟨⟨v, hv, rfl⟩, hfree⟩
        exact ⟨v, (h.vars v).2 ⟨hv, fun hmem => hfree ((hΓ.free v).1 hmem)⟩, rfl⟩
      · rintro ⟨v, hv, rfl⟩
        obtain ⟨hv, hfree⟩ := (h.vars v).1 hv
        exact ⟨⟨v, hv, rfl⟩, fun hmem => hfree ((hΓ.free v).2 hmem)⟩
  cases σ'
  cases σ
  cases h.ty
  cases h'.ty
  exact congrArg (Scheme.mk · _) hvars

/-! ## Trees -/

theorem Mark.eq_rename {m m' : Mark} (h : m.specialize (fun v => .var (π v)) = m'.specialize .var) :
    m' = m.update (·.resolve (Ty.rename π)) := by
  have hslot : m'.ty.resolve (Ty.replace .var) = m'.ty := by
    cases m'.ty with
    | mk t? => cases t? <;> simp [Slot.resolve, Ty.replace_var_self]
  exact (congrArg (Mark.mk m'.span) hslot).symm.trans h.symm

/-- Binders with schemes that are the same up to renaming. -/
theorem Binder.eq_rename {b b' : Binder} (hb : b.scheme = .filled σ)
    (hb' : b'.scheme = .filled (σ.rename π))
    (h : b.specialize (fun v => .var (π v)) = b'.specialize .var) :
    b' = b.update (·.resolve (Scheme.rename π)) := by
  obtain ⟨x, s, a, _⟩ := b
  obtain ⟨x', s', a', _⟩ := b'
  cases hb
  cases hb'
  obtain ⟨rfl, rfl, rfl, -⟩ := Binder.mk.inj h
  rfl

/-- The types of binders that are the same up to renaming. -/
theorem Binder.ty_eq_rename {b b' : Binder} (hb : b.scheme = .filled σ)
    (hb' : b'.scheme = .filled σ')
    (h : b.specialize (fun v => .var (π v)) = b'.specialize .var) : σ'.ty = σ.ty.rename π := by
  obtain ⟨x, s, a, _⟩ := b
  obtain ⟨x', s', a', _⟩ := b'
  cases hb
  cases hb'
  obtain ⟨-, -, -, hscheme⟩ := Binder.mk.inj h
  have hty := congrArg Scheme.ty (Option.some.inj (Slot.mk.inj hscheme))
  rw [← Ty.replace_var_self σ'.ty]
  exact hty.symm

/-- A tree in which definitions are generalized is determined by its types. -/
theorem Typed.eq_rename (hπ : π.Injective) {e e' : Expr} {u : Ty} (h : Typed Env.Generalizes Γ e t)
    (h' : Typed Env.Generalizes Γ' e' u) (hΓ : Γ.Renames π Γ')
    (htree : e.specialize (fun v => .var (π v)) = e'.specialize .var) : e' = e.rename π := by
  induction h generalizing Γ' e' u with
  | lit hm =>
    cases h' with
    | lit hm' =>
      obtain ⟨hmark, rfl⟩ := Expr.lit.inj htree
      exact congrArg (Expr.lit · _) (Mark.eq_rename hmark)
    | _ => cases htree
  | name hm hx ht =>
    cases h' with
    | name hm' hx' ht' =>
      obtain ⟨hmark, rfl⟩ := Expr.name.inj htree
      exact congrArg (Expr.name · _) (Mark.eq_rename hmark)
    | _ => cases htree
  | @lam Γ m p b t r hm hp ha hb ih =>
    cases h' with
    | @lam _ m' p' b' t' r' hm' hp' ha' hb' =>
      obtain ⟨hmark, hparam, hbody⟩ := Expr.lam.inj htree
      have ht : t' = t.rename π := Binder.ty_eq_rename hp hp' hparam
      have hname : p'.name = p.name := (congrArg Binder.name hparam).symm
      rw [ht] at hp' hb'
      rw [hname] at hb'
      have hb := ih hb' (hΓ.extend hπ p.name (.mono t)) hbody
      rw [Mark.eq_rename hmark, Binder.eq_rename (σ := .mono t) hp hp' hparam, hb]
      rfl
    | _ => cases htree
  | app hm hf ha ihf iha =>
    cases h' with
    | app hm' hf' ha' =>
      obtain ⟨hmark, hfn, harg⟩ := Expr.app.inj htree
      rw [Mark.eq_rename hmark, ihf hf' hΓ hfn, iha ha' hΓ harg]
      rfl
    | _ => cases htree
  | @letIn Γ m b d e t r σ hm hd ha hb hσ he ihd ihe =>
    cases h' with
    | @letIn _ m' b' d' e' t' r' σ' hm' hd' ha' hb' hσ' he' =>
      obtain ⟨hmark, hbinder, hbound, hbody⟩ := Expr.letIn.inj htree
      have ht : t' = t.rename π := by
        rw [← hσ'.ty, ← hσ.ty]
        exact Binder.ty_eq_rename hb hb' hbinder
      have hname : b'.name = b.name := (congrArg Binder.name hbinder).symm
      rw [ht] at hσ'
      rw [hσ.eq_rename hσ' hΓ hπ] at hb' he'
      rw [hname] at he'
      have he := ihe he' (hΓ.extend hπ b.name σ) hbody
      rw [Mark.eq_rename hmark, Binder.eq_rename hb hb' hbinder, ihd hd' hΓ hbound, he]
      rfl
    | _ => cases htree
  | cond hm hc ht he ihc iht ihe =>
    cases h' with
    | cond hm' hc' ht' he' =>
      obtain ⟨hmark, htest, hyes, hno⟩ := Expr.cond.inj htree
      rw [Mark.eq_rename hmark, ihc hc' hΓ htest, iht ht' hΓ hyes, ihe he' hΓ hno]
      rfl
    | _ => cases htree
  | anno hm ha he ih =>
    cases h' with
    | anno hm' ha' he' =>
      obtain ⟨hmark, hinner, rfl⟩ := Expr.anno.inj htree
      rw [Mark.eq_rename hmark, ih he' hΓ hinner]
      rfl
    | _ => cases htree
  | @tuple Γ m es ts hm hlen hes ih =>
    cases h' with
    | @tuple _ m' es' ts' hm' hlen' hes' =>
      rw [Expr.specialize, Expr.specialize, Expr.retype_tuple, Expr.retype_tuple] at htree
      obtain ⟨hmark, helems⟩ := Expr.tuple.inj htree
      have hlength : es.length = es'.length := by simpa using congrArg List.length helems
      have hrename : es' = es.map (Expr.rename π) := by
        refine List.ext_getElem (by rw [List.length_map, hlength]) fun i hi hi' => ?_
        have hies : i < es.length := hlength ▸ hi
        have hits : i < ts.length := hlen ▸ hies
        have hits' : i < ts'.length := hlen' ▸ hi
        have helem := congrArg (·[i]?) helems
        simp only [List.getElem?_map, List.getElem?_eq_getElem hies, List.getElem?_eq_getElem hi,
          Option.map_some, Option.some.injEq] at helem
        rw [List.getElem_map]
        exact ih (es[i], ts[i]) (List.mem_iff_getElem.2 ⟨i, by simp [hies, hits], by simp⟩)
          (hes' (es'[i], ts'[i]) (List.mem_iff_getElem.2 ⟨i, by simp [hi, hits'], by simp⟩))
          hΓ helem
      rw [Mark.eq_rename hmark, hrename, Expr.rename, Expr.retype_tuple]
      rfl
    | _ =>
      rw [Expr.specialize, Expr.retype_tuple] at htree
      cases htree
  | invalid hm =>
    cases h' with
    | invalid hm' =>
      exact congrArg Expr.invalid (Mark.eq_rename (Expr.invalid.inj htree))
    | _ => cases htree

/-- A program in which definitions are generalized is determined by its types. -/
theorem Program.Typed.eq_rename (hπ : π.Injective) {p p' : Program} (h : p.Typed Env.Generalizes Γ)
    (h' : p'.Typed Env.Generalizes Γ') (hΓ : Γ.Renames π Γ')
    (htree : p.specialize (fun v => .var (π v)) = p'.specialize .var) : p' = p.rename π := by
  induction h generalizing Γ' p' with
  | nil =>
    cases h' with
    | nil => rfl
    | cons => nomatch htree
  | @cons Γ d ds t σ hd ha hb hσ hds ih =>
    cases h' with
    | nil => nomatch htree
    | @cons _ d' ds' t' σ' hd' ha' hb' hσ' hds' =>
      obtain ⟨hdecl, hrest⟩ := List.cons.inj htree
      obtain ⟨hspan, hbinder, hbound⟩ := Decl.mk.inj hdecl
      have ht : t' = t.rename π := by
        rw [← hσ'.ty, ← hσ.ty]
        exact Binder.ty_eq_rename hb hb' hbinder
      have hname : d'.binder.name = d.binder.name := (congrArg Binder.name hbinder).symm
      rw [ht] at hσ'
      rw [hσ.eq_rename hσ' hΓ hπ] at hb' hds'
      rw [hname] at hds'
      have hds := ih hds' (hΓ.extend hπ d.binder.name σ) hrest
      rw [hds, show d' = ⟨d'.span, d'.binder, d'.bound⟩ from rfl, ← hspan,
        Binder.eq_rename hb hb' hbinder, hd.eq_rename hπ hd' hΓ hbound]
      rfl

end

/-! ## The bijection -/

/-- Two assignments that turn two lists of types into each other only rename variables. -/
theorem exists_perm_of_map_replace {ts us : List Ty} {θ θ' : TyVar → Ty}
    (h : ts.map (Ty.replace θ) = us) (h' : us.map (Ty.replace θ') = ts) :
    ∃ π : Equiv.Perm TyVar, ∀ t ∈ ts, ∀ v ∈ t.occurrences, θ v = .var (π v) := by
  let V : Set TyVar := {v | v ∈ ts.flatMap Ty.occurrences}
  have hinverse : ∀ v ∈ V, (θ v).replace θ' = .var v := by
    intro v hv
    obtain ⟨t, ht, hv⟩ := List.mem_flatMap.1 hv
    have hself : t.replace (fun v => (θ v).replace θ') = t.replace .var := by
      rw [← h, List.map_map] at h'
      rw [← Ty.replace_replace, Ty.replace_var_self]
      exact List.map_inj_left.1 (h'.trans (List.map_id' ts).symm) t ht
    exact Ty.eq_of_replace_eq hself v hv
  have hvar : ∀ v : V, ∃ w, θ v = .var w := by
    rintro ⟨v, hv⟩
    have hv := hinverse v hv
    cases hθ : θ v with
    | var w => exact ⟨w, rfl⟩
    | con c args =>
      rw [hθ] at hv
      cases hv
  choose f hf using hvar
  have hinjective : f.Injective := by
    rintro ⟨v, hv⟩ ⟨w, hw⟩ heq
    have hvw : Ty.var v = Ty.var w := by
      rw [← hinverse v hv, ← hinverse w hw, hf ⟨v, hv⟩, hf ⟨w, hw⟩, heq]
    exact Subtype.ext (Ty.var.inj hvw)
  have hfinite : V.Finite := List.finite_toSet _
  obtain ⟨π, hπ⟩ := Cardinal.extend_function_of_lt ⟨f, hinjective⟩
    (by rw [Cardinal.mk_nat]; exact Cardinal.lt_aleph0_iff_set_finite.2 hfinite) ⟨Equiv.refl TyVar⟩
  refine ⟨π, fun t ht v hv => ?_⟩
  have hmem : v ∈ V := List.mem_flatMap.2 ⟨t, ht, hv⟩
  rw [hπ ⟨v, hmem⟩]
  exact hf ⟨v, hmem⟩

/-! ## Runs -/

namespace Program

variable {p q q₁ q₂ : Program} {mode m₁ m₂ : Mode} {s s₁ s₂ : Session}

/-- If a walk ends in one mode then it ends in every mode, and the tree of the first is the other
under an assignment. -/
theorem Walked.specialize (h : p.Walked m₁ q₁ s₁) (m₂ : Mode) :
    ∃ q₂ s₂ θ, p.Walked m₂ q₂ s₂ ∧
      (q₂.resolve s₂.subst).specialize θ = (q₁.resolve s₁.subst).specialize .var := by
  refine walked_of_typed m₂ (h.derivation.mono fun _ _ _ => Env.Generalizes.closes) ?_
  rw [clear_resolve, h.found.left.shape, clear_clear]

theorem Walked.unique (h : p.Walked mode q₁ s₁) (h' : p.Walked mode q₂ s₂) : q₁ = q₂ ∧ s₁ = s₂ := by
  have heq := h.walk.symm.trans h'.walk
  exact ⟨congrArg (·.1.1) heq, congrArg (·.2) heq⟩

/-- Two derivations, each of which is the other under an assignment, are the same up to
renaming. -/
theorem Typed.exists_rename {d d' : Program} (h : d.Typed Env.Generalizes Prelude.env)
    (h' : d'.Typed Env.Generalizes Prelude.env) {θ θ' : TyVar → Ty}
    (hθ : d.specialize θ = d'.specialize .var) (hθ' : d'.specialize θ' = d.specialize .var) :
    ∃ π : Equiv.Perm TyVar, d' = d.rename π := by
  have htypes (p : Program) : p.types.map (Ty.replace .var) = p.types := by
    rw [List.map_congr_left fun t _ => Ty.replace_var_self t, List.map_id']
  have hts := congrArg types hθ
  have hus := congrArg types hθ'
  rw [types_specialize, types_specialize, htypes] at hts hus
  obtain ⟨π, hπ⟩ := exists_perm_of_map_replace hts hus
  refine ⟨π, h.eq_rename π.injective h' ?_ ?_⟩
  · exact Env.renames_of_not_free Prelude.not_free Prelude.not_free
  · rw [← hθ]
    exact specialize_congr fun t ht => Ty.replace_congr fun v hv => (hπ t ht v hv).symm

/-- The trees of two walks are the same up to renaming. -/
theorem Walked.eq_rename (h₁ : p.Walked m₁ q₁ s₁) (h₂ : p.Walked m₂ q₂ s₂) :
    ∃ π : Equiv.Perm TyVar, q₂.resolve s₂.subst = (q₁.resolve s₁.subst).rename π := by
  obtain ⟨q, s, θ, hwalked, htree⟩ := h₂.specialize m₁
  obtain ⟨rfl, rfl⟩ := hwalked.unique h₁
  obtain ⟨q', s', θ', hwalked', htree'⟩ := h₁.specialize m₂
  obtain ⟨rfl, rfl⟩ := hwalked'.unique h₂
  exact h₁.derivation.exists_rename h₂.derivation htree htree'

end Program

/-- What can come of a run. -/
inductive Outcome where
  /-- The program has types. -/
  | typed
  /-- The program has only ambiguous types. -/
  | ambiguous
  /-- The program has another error. -/
  | rejected

/-- Two runs have the same outcome, up to renaming. -/
def Outcome.Shared (π : Equiv.Perm TyVar) (r₁ r₂ : TypingRun) : Outcome → Prop
  | typed => r₁.verdict = .typed ∧ r₂.verdict = .typed ∧ r₂.program = r₁.program.rename π
  | ambiguous => ∃ es, es ≠ [] ∧ (∀ e ∈ es, e.IsAmbiguous) ∧ r₁.verdict = .illTyped es ∧
      r₂.verdict = .illTyped (es.map (TypeError.rename π))
  | rejected => ∃ e₁ e₂, ¬ e₁.IsAmbiguous ∧ ¬ e₂.IsAmbiguous ∧ r₁.verdict = .illTyped [e₁] ∧
      r₂.verdict = .illTyped [e₂]

/-- A verdict belongs to one outcome only. -/
theorem Outcome.Shared.unique {π π' : Equiv.Perm TyVar} {r₁ r₂ : TypingRun} {o o' : Outcome}
    (h : o.Shared π r₁ r₂) (h' : o'.Shared π' r₁ r₂) : o = o' := by
  have htyped {es : List TypeError} (ht : r₁.verdict = .typed) (hes : r₁.verdict = .illTyped es) :
      False := by
    rw [ht] at hes
    cases hes
  have hmixed {es : List TypeError} {e : TypeError} (hes : ∀ e ∈ es, e.IsAmbiguous)
      (he : ¬ e.IsAmbiguous) (h : r₁.verdict = .illTyped es) (h' : r₁.verdict = .illTyped [e]) :
      False := by
    rw [h] at h'
    cases h'
    exact he (hes e (List.mem_singleton_self e))
  cases o with
  | typed =>
    cases o' with
    | typed => rfl
    | ambiguous =>
      obtain ⟨es, -, -, hes, -⟩ := h'
      exact (htyped h.1 hes).elim
    | rejected =>
      obtain ⟨e, -, -, -, he, -⟩ := h'
      exact (htyped h.1 he).elim
  | ambiguous =>
    obtain ⟨es, -, hamb, hes, -⟩ := h
    cases o' with
    | typed => exact (htyped h'.1 hes).elim
    | ambiguous => rfl
    | rejected =>
      obtain ⟨e, -, hnot, -, he, -⟩ := h'
      exact (hmixed hamb hnot hes he).elim
  | rejected =>
    obtain ⟨e, -, hnot, -, he, -⟩ := h
    cases o' with
    | typed => exact (htyped h'.1 he).elim
    | ambiguous =>
      obtain ⟨es, -, hamb, hes, -⟩ := h'
      exact (hmixed hamb hnot hes he).elim
    | rejected => rfl

/-- Two walks that come to their end share the outcome. -/
theorem Program.Walked.shared {p q₁ q₂ : Program} {m₁ m₂ : Mode} {s₁ s₂ : Session}
    (h₁ : p.Walked m₁ q₁ s₁) (h₂ : p.Walked m₂ q₂ s₂) :
    ∃ o π, Outcome.Shared π (p.inferTypes m₁) (p.inferTypes m₂) o := by
  obtain ⟨π, hπ⟩ := h₁.eq_rename h₂
  have hambiguities := ambiguities_rename π.injective (q₁.resolve s₁.subst)
  rw [← hπ] at hambiguities
  cases hes : (q₁.resolve s₁.subst).ambiguities with
  | nil =>
    rw [hes] at hambiguities
    refine ⟨.typed, π, h₁.typed.2 hes, h₂.typed.2 hambiguities, ?_⟩
    rw [h₁.program, h₂.program, hπ]
  | cons e es =>
    rw [hes] at hambiguities
    refine ⟨.ambiguous, π, e :: es, nofun, ?_, (h₁.illTyped _).2 ⟨hes, nofun⟩,
      (h₂.illTyped _).2 ⟨hambiguities, nofun⟩⟩
    rw [← hes]
    exact isAmbiguous_of_mem_ambiguities

/-- The runs of a program in two modes have the same outcome, and only one.  If the program has
types then the trees are the same up to a renaming of variables, and so are ambiguous types. -/
theorem modes_confluent (m₁ m₂ : Mode) (p : Program) :
    ∃! o : Outcome, ∃ π, o.Shared π (p.inferTypes m₁) (p.inferTypes m₂) := by
  refine existsUnique_of_exists_of_unique ?_ fun o o' ⟨π, h⟩ ⟨π', h'⟩ => h.unique h'
  obtain ⟨q₁, e₁, s₁, h₁⟩ | ⟨q₁, s₁, h₁⟩ := p.failed_or_walked m₁
  · obtain ⟨q₂, e₂, s₂, h₂⟩ | ⟨q₂, s₂, h₂⟩ := p.failed_or_walked m₂
    · exact ⟨.rejected, 1, e₁, e₂, h₁.ordinary, h₂.ordinary, h₁.verdict, h₂.verdict⟩
    · obtain ⟨q, s, -, hwalked, -⟩ := h₂.specialize m₁
      cases h₁.walk.symm.trans hwalked.walk
  · obtain ⟨q₂, s₂, -, h₂, -⟩ := h₁.specialize m₂
    exact h₁.shared h₂

end LetPoly
