import LetPoly.Proofs.Following
import LetPoly.Proofs.Renaming

/-!
# Completeness of inference

A run over a program that has a derivation never stops with an error.  When it comes to its end, the
derivation is the tree of the run under an assignment of types to variables.  The schemes of
declarations have no free variables, so each is more general than what the derivation says of the
declaration.
-/

namespace LetPoly

namespace Program

variable {T : Set TyVar} {Γ Γ' : Env} {s : Session} {θ : TyVar → Ty} {mode : Mode}

/-- A run follows every derivation of the program. -/
theorem reaches_infer (mode : Mode) {d : Program} (hd : d.Typed Env.Closes Γ')
    (h : Expr.Follows T Γ s θ Γ') :
    (Program.infer mode d.clear Γ).Meets s
      (fun p' _ s' => ∃ θ', AgreesBelow s.drawn θ θ' ∧ s'.subst.Solves θ' ∧
        p'.specialize θ' = d.specialize .var) fun _ _ _ => False := by
  induction hd generalizing T Γ s θ with
  | nil => exact .done ⟨θ, .refl _ θ, h.solves, rfl⟩
  | @cons Γ' d ds t σ' hd ha hb hσ hds ih =>
    have hkeeps := Expr.infer_keeps mode d.bound.clear (Expr.clear_clear _)
    refine .andThen ((Expr.meets_bind rfl hkeeps h.sound h.known).and
      (Expr.reaches_bind ha hb hσ (Expr.infer_completes mode hd) h)) ?_ (by rintro _ _ _ ⟨-, ⟨⟩⟩)
    rintro ⟨b', e'⟩ σ s₁ ⟨hbound, θ₁, hreached⟩
    obtain rfl := hbound.binder
    have hdef := hbound.defined
    have hfollows : Expr.Follows _ (Γ.extend d.binder.name σ) s₁ θ₁ _ :=
      { sound := hdef.sound
        known := hbound.env_known h.sound h.known
        solves := hreached.solves
        env := (h.env.agreesBelow h.known hreached.agrees).extend d.binder.name
          hreached.moreGeneral }
    have hlog (l : List Event) := Session.Steps.log hdef.sound l
    refine .andThen (s := { s₁ with log := _ :: s₁.log })
      (ih (hfollows.act (hlog _) (.refl _ θ₁) hreached.solves)) ?_ fun _ _ _ => id
    rintro ds' _ s₂ ⟨θ₂, hθ₂, hsolves, htree⟩
    refine .done ⟨θ₂, hreached.agrees.trans hθ₂ hdef.steps.drawn_le, hsolves, ?_⟩
    obtain ⟨hbinder, hdtree⟩ := hreached.agreesBelow hdef hθ₂
    exact congrArg₂ List.cons (congrArg₂ (Decl.mk d.span) hbinder hdtree) htree

end Program

/-- The prelude lets inference follow derivations from the prelude. -/
theorem Prelude.follows (θ : TyVar → Ty) :
    Expr.Follows territory env Session.start θ env where
  sound := start_sound
  known := env_known
  solves v t h := by
    rw [show Session.start.subst = .empty from rfl, Subst.get?_empty] at h
    cases h
  env :=
    { names := fun _ => Iff.rfl
      scheme := by
        rintro x σ _ hx hx' u ⟨ρ, -, rfl⟩
        cases hx.symm.trans hx'
        refine ⟨ρ, fun v hv => ?_, rfl⟩
        obtain ⟨hmem, hvars⟩ := Scheme.mem_freeVars.1 hv
        exact absurd (Scheme.isClosed_iff.1 (isClosed_of_lookup? hx) v hmem) hvars }

/-! ## Resolved slots -/

namespace Program

variable {mode : Mode} {p q d : Program} {s : Session}

/-- A solution does not see whether slots are resolved. -/
theorem specialize_resolve {r : Subst} {θ : TyVar → Ty} (hθ : r.Solves θ) (p : Program) :
    (p.resolve r).specialize θ = p.specialize θ := by
  have hty : Ty.replace θ ∘ r.apply = Ty.replace θ := funext hθ.replace_apply
  have hscheme : (fun σ : Scheme => Scheme.mono (σ.ty.replace θ)) ∘ r.applyScheme =
      fun σ => .mono (σ.ty.replace θ) := by
    funext σ
    exact congrArg Scheme.mono ((hθ.of_le (r.without_le σ.vars)).replace_apply σ.ty)
  rw [resolve_eq, specialize, retype_retype, hty, hscheme]
  rfl

/-- The walk of a program that has a derivation ends, and the derivation is its tree under an
assignment. -/
theorem walked_of_typed (mode : Mode) (hd : d.Typed Env.Closes Prelude.env)
    (hclear : d.clear = p.clear) :
    ∃ q s θ, p.Walked mode q s ∧ (q.resolve s.subst).specialize θ = d.specialize .var := by
  have hmeets := reaches_infer mode hd (Prelude.follows .var)
  rw [hclear] at hmeets
  obtain ⟨q, e, s, h⟩ | ⟨q, s, h⟩ := p.failed_or_walked mode
  · exact (hmeets.of_error h.walk).elim
  · obtain ⟨θ, -, hsolves, htree⟩ := hmeets.of_ok h.walk
    exact ⟨q, s, θ, h, (specialize_resolve hsolves q).trans htree⟩

end Program

/-! ## Schemes of declarations -/

section

variable {Γ : Env} {t : Ty} {σ : Scheme}

/-- In an environment without free variables a definition is generalized over all variables. -/
theorem Env.Generalizes.isClosed (h : Γ.Generalizes t σ) (hΓ : ∀ v, ¬ Γ.Free v) :
    ∀ v ∈ σ.ty.occurrences, v ∈ σ.vars := by
  intro v hv
  rw [h.ty] at hv
  exact (h.vars v).2 ⟨hv, hΓ v⟩

/-- So there are no free variables in its scope either. -/
theorem Env.Generalizes.not_free_extend (h : Γ.Generalizes t σ) (hΓ : ∀ v, ¬ Γ.Free v)
    (x : String) (v : TyVar) : ¬ (Γ.extend x σ).Free v := by
  rintro ⟨y, τ, hy, hv⟩
  obtain ⟨-, rfl⟩ | ⟨-, hy⟩ := Env.lookup?_extend_eq_some.1 hy
  · obtain ⟨hmem, hvars⟩ := Scheme.mem_freeVars.1 hv
    exact hvars (h.isClosed hΓ v hmem)
  · exact hΓ v ⟨y, τ, hy, hv⟩

end

namespace Program

/-- In an environment without free variables, the schemes of declarations have none either. -/
theorem Typed.isClosed {p : Program} {Γ : Env} (h : p.Typed Env.Generalizes Γ) (hΓ : ∀ v, ¬ Γ.Free v) :
    ∀ c ∈ p, ∃ σ, c.binder.scheme = .filled σ ∧ ∀ v ∈ σ.ty.occurrences, v ∈ σ.vars := by
  induction h with
  | nil => simp
  | @cons Γ d ds t σ hd ha hb hσ hds ih =>
    intro c hc
    rcases List.mem_cons.1 hc with rfl | hc
    · exact ⟨σ, hb, hσ.isClosed hΓ⟩
    · exact ih (hσ.not_free_extend hΓ d.binder.name) c hc

end Program

/-- A type that a closed scheme becomes under an assignment is an instance of it. -/
theorem Scheme.instance_of_closed {σ : Scheme} {θ : TyVar → Ty} {t : Ty}
    (hσ : ∀ v ∈ σ.ty.occurrences, v ∈ σ.vars) (ht : σ.ty.replace θ = t) : σ.Instance t := by
  refine ⟨fun v => if v ∈ σ.vars then θ v else .var v, fun v hv => if_neg hv, ?_⟩
  rw [← ht]
  exact Ty.replace_congr fun v hv => (if_pos (hσ v hv)).symm

theorem Prelude.not_free (v : TyVar) : ¬ env.Free v := by
  rintro ⟨x, σ, hx, hv⟩
  obtain ⟨hmem, hvars⟩ := Scheme.mem_freeVars.1 hv
  exact hvars (Scheme.isClosed_iff.1 (isClosed_of_lookup? hx) v hmem)

/-- A program that has a derivation is typed or has only ambiguous types, in every mode.  The type
that the derivation gives to a declaration is an instance of the scheme that inference finds. -/
theorem inference_complete (mode : Mode) (p d : Program) (hclear : d.clear = p.clear)
    (hd : d.Typed Env.Closes Prelude.env) :
    ((p.inferTypes mode).verdict = .typed ∨
      ∃ es, (p.inferTypes mode).verdict = .illTyped es ∧ es ≠ [] ∧ ∀ e ∈ es, e.IsAmbiguous) ∧
    ∀ (i : Nat) (c : Decl), d[i]? = some c → ∃ c' σ τ, (p.inferTypes mode).program[i]? = some c' ∧
      c.binder.scheme = .filled σ ∧ c'.binder.scheme = .filled τ ∧ τ.Instance σ.ty := by
  obtain ⟨q, s, θ, hwalked, htree⟩ := Program.walked_of_typed mode hd hclear
  constructor
  · cases hes : (q.resolve s.subst).ambiguities with
    | nil => exact .inl (hwalked.typed.2 hes)
    | cons e es =>
      refine .inr ⟨e :: es, (hwalked.illTyped _).2 ⟨hes, nofun⟩, nofun, ?_⟩
      rw [← hes]
      exact Program.isAmbiguous_of_mem_ambiguities
  · intro i c hc
    rw [hwalked.program]
    have hi := congrArg (·[i]?) htree
    simp only [Program.specialize, Program.retype, List.getElem?_map, hc, Option.map_some,
      Option.map_eq_some_iff] at hi
    obtain ⟨c', hc', heq⟩ := hi
    obtain ⟨τ, hτ, hclosed⟩ :=
      hwalked.derivation.isClosed Prelude.not_free c' (List.mem_of_getElem? hc')
    have hscheme := congrArg (·.binder.scheme) heq
    simp only [Decl.retype, Decl.update, Binder.update, hτ] at hscheme
    obtain ⟨σ, hσ, hty⟩ := Slot.eq_filled_of_resolve hscheme.symm
    refine ⟨c', σ, τ, hc', hσ, hτ, Scheme.instance_of_closed hclosed (θ := θ) ?_⟩
    rw [← Ty.replace_var_self σ.ty]
    exact congrArg Scheme.ty hty.symm

/-- The types of the sample are a derivation, which is not the most general one. -/
theorem Program.sample_typed : Program.sample.Typed Env.Closes Prelude.env := by
  have hlocal (v : TyVar) : ¬ (Prelude.env.extend "x" (.mono .bool)).Free v := by
    rintro ⟨y, σ, hy, hv⟩
    obtain ⟨-, rfl⟩ | ⟨-, hy⟩ := Env.lookup?_extend_eq_some.1 hy
    · simp [Scheme.mem_freeVars, Scheme.mono, Ty.bool] at hv
    · exact Prelude.not_free v ⟨y, σ, hy, hv⟩
  have hinstance (t : Ty) : (⟨[7], .fn (.var 7) (.var 7)⟩ : Scheme).Instance (.fn t t) :=
    ⟨fun v => if v = 7 then t else .var v, fun v hv => if_neg (by simpa using hv), rfl⟩
  have hanno {t : Ty} : ∀ a ∈ (none : Option TypeExpr), a.Admits t := by simp
  refine .cons (.lam rfl rfl hanno (.letIn rfl ?_ hanno rfl ⟨rfl, fun v _ => hlocal v⟩ ?_)) hanno
    rfl ⟨rfl, List.forall_mem_nil _⟩ .nil
  · exact .lam rfl rfl hanno (.name rfl (Env.lookup?_extend ..) ⟨.var, by simp, rfl⟩)
  · have hf (t : Ty) : LetPoly.Typed Env.Closes
        ((Prelude.env.extend "x" (.mono .bool)).extend "f" ⟨[7], .fn (.var 7) (.var 7)⟩)
        (.name ⟨⟨0, 0, 0⟩, .filled (.fn t t)⟩ "f") (.fn t t) :=
      .name rfl (Env.lookup?_extend ..) (hinstance t)
    refine .tuple rfl rfl fun q hq => ?_
    simp only [List.zip_cons_cons, List.zip_nil_left, List.mem_cons, List.not_mem_nil,
      or_false] at hq
    rcases hq with rfl | rfl
    · exact .app rfl (hf .bool) (.name rfl (Env.lookup?_extend ..) ⟨.var, by simp, rfl⟩)
    · exact .app rfl (hf .int) (.lit rfl)

/-- The types of the sample are an instance of what is found if every demand is passed on. -/
theorem inference_complete_sample :
    Program.sample.Typed Env.Closes Prelude.env ∧
      ∃ c τ, (Program.sample.inferTypes (.topDown .all)).program[0]? = some c ∧
        c.binder.scheme = .filled τ ∧ τ.Instance (.fn .bool (.tuple [.bool, .int])) := by
  refine ⟨Program.sample_typed, ?_⟩
  obtain ⟨-, hinstance⟩ := inference_complete (.topDown .all) Program.sample Program.sample rfl
    Program.sample_typed
  obtain ⟨c, σ, τ, hc, hσ, hτ, hinst⟩ := hinstance 0 _ rfl
  cases hσ
  exact ⟨c, τ, hc, hτ, hinst⟩

end LetPoly
