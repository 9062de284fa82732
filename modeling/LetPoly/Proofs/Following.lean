import LetPoly.Proofs.Specialization

/-!
# Following a derivation

Inference finds a type whenever there is one, and what it finds is most general.  The
argument follows a walk along a given derivation of the same tree.  At each point there is an
assignment of types to variables under which what inference knows becomes what the derivation
says.  The assignment solves the substitution of the session, so unification never
fails.  It is extended when variables are drawn, and never changed on those drawn before.
-/

namespace LetPoly

namespace Expr

variable {T : Set TyVar} {θ θ' : TyVar → Ty} {s s' : Session}

/-- A session in which inference can follow a derivation in the environment `Γ'`. -/
structure Follows (T : Set TyVar) (Γ : Env) (s : Session) (θ : TyVar → Ty) (Γ' : Env) : Prop where
  /-- The session is sound. -/
  sound : s.Sound T
  /-- The environment is known. -/
  known : Γ.Known T s
  /-- The assignment is a solution. -/
  solves : s.subst.Solves θ
  /-- The environment is more general than that of the derivation. -/
  env : Γ.MoreGeneral θ Γ'

/-- After a stretch the derivation can be followed in what is left of the territory. -/
theorem Follows.steps {N : Set TyVar} {Γ Γ' : Env} (h : Follows T Γ s θ Γ')
    (hsteps : s.Steps T N s') (hθ : AgreesBelow s.drawn θ θ') (hsolves : s'.subst.Solves θ') :
    Follows (T \ N) Γ s' θ' Γ' where
  sound := hsteps.sound
  known := h.known.steps h.sound hsteps
  solves := hsolves
  env := h.env.agreesBelow h.known hθ

/-- After an act it can be followed in the same territory. -/
theorem Follows.act {Γ Γ' : Env} (h : Follows T Γ s θ Γ') (hsteps : s.Steps T ∅ s')
    (hθ : AgreesBelow s.drawn θ θ') (hsolves : s'.subst.Solves θ') : Follows T Γ s' θ' Γ' := by
  have := h.steps hsteps hθ hsolves
  rwa [Set.sdiff_empty] at this

/-- The walk found what the derivation `d` of the type `u` says, up to an assignment. -/
def Reached (θ : TyVar → Ty) (d : Expr) (u : Ty) (s : Session) (e' : Expr) (t : Ty)
    (s' : Session) : Prop :=
  ∃ θ', AgreesBelow s.drawn θ θ' ∧ s'.subst.Solves θ' ∧ t.replace θ' = u ∧
    e'.specialize θ' = d.specialize .var

end Expr

/-- A walk of an expression follows the derivation `d` of the type `u` in `Γ'`. -/
def ExprWalk.Completes (w : ExprWalk) (Γ' : Env) (d : Expr) (u : Ty) : Prop :=
  ∀ T Γ goal s θ, Expr.Follows T Γ s θ Γ' → goal.Known T s →
    (∀ c ∈ goal, c.expected.replace θ = u) →
    (w Γ goal).Meets s
      (fun e' t s' => d.clear.Found T Γ goal s e' t s' ∧ d.Reached θ u s e' t s')
      fun _ _ _ => False

namespace Expr

variable {T : Set TyVar} {θ θ' : TyVar → Ty} {s s₁ s₂ : Session} {Γ Γ' : Env} {goal : Goal}
  {d e' : Expr} {t u : Ty}

/-- Comparing with a demand that the derivation meets changes nothing. -/
theorem reaches_settle {w : Walk Expr Ty} {span : Span} {e : Expr}
    (hgoal : goal.Known T s) (hmet : ∀ c ∈ goal, c.expected.replace θ = u)
    (hfound : w.Meets s (e.Found T Γ none s) (e.Stopped T s))
    (h : w.Meets s (d.Reached θ u s) fun _ _ _ => False) :
    (goal.settle span w).Meets s (d.Reached θ u s) fun _ _ _ => False := by
  cases goal with
  | none => exact h
  | some c =>
    refine (hfound.and h).andThen ?_ (by rintro _ _ _ ⟨-, ⟨⟩⟩)
    rintro e' t s₁ ⟨hfound, θ', hθ, hsolves, ht, htree⟩
    have hexpected : c.expected.replace θ' = t.replace θ' := by
      rw [ht, ← hmet c rfl, hθ.replace_eq fun v hv => (hgoal c rfl v hv).1]
    refine .act
      (Act.meets_unify_of_solves hfound.left.sound c.because span hsolves hexpected) ?_ nofun
    intro _ s₂ hsolves'
    exact .done ⟨θ', hθ, hsolves', ht, htree⟩

/-- Filling the slot of a node whose parts follow the derivation. -/
theorem reaches_annotate {expr : Mark → Expr} {m : Mark}
    {E : Expr → Fault TypeError → Session → Prop}
    (hm : m.ty = .filled u) (hθ : AgreesBelow s.drawn θ θ') (hsolves : s₁.subst.Solves θ')
    (ht : t.replace θ' = u)
    (htree : ∀ m', m'.specialize θ' = m.specialize .var →
      (expr m').specialize θ' = d.specialize .var) :
    (Walk.annotate expr m.clear t).Meets s₁ (d.Reached θ u s) E := by
  refine .annotate rfl ⟨θ', hθ, hsolves, ht, htree _ ?_⟩
  have hslot : (s₁.subst.apply t).replace θ' = u.replace .var := by
    rw [hsolves.replace_apply, ht, Ty.replace_var_self]
  simp only [Mark.specialize, Mark.update, Mark.clear, hm, Slot.filled, Slot.resolve,
    Option.map_some,
    hslot]

/-- A binder with a scheme whose type is that of the derivation's scheme. -/
theorem specialize_binder {p : Binder} {σ σ' : Scheme} (hp : p.scheme = .filled σ')
    (h : σ.ty.replace θ = σ'.ty) :
    Binder.specialize θ { p.clear with scheme := .filled σ } = p.specialize .var := by
  simp only [Binder.specialize, Binder.update, Binder.clear, hp, Slot.filled, Slot.resolve,
    Option.map_some, h, Ty.replace_var_self]

/-! ## Literals, names and invalid expressions -/

/-- A literal has the same type in the derivation. -/
theorem reaches_lit {m : Mark} {l : Literal} (hm : m.ty = .filled l.ty) (h : Follows T Γ s θ Γ')
    {E : Expr → Fault TypeError → Session → Prop} :
    (Walk.annotate (.lit · l) m.clear l.ty).Meets s ((lit m l).Reached θ l.ty s) E := by
  have hty : l.ty.replace θ = l.ty := by cases l <;> rfl
  exact reaches_annotate hm (.refl _ θ) h.solves hty fun m' hm' => congrArg (lit · l) hm'

/-- The instance that a name has in the derivation is one of the instance that is found. -/
theorem reaches_name {m : Mark} {x : String} {σ' : Scheme} (hm : m.ty = .filled u)
    (hx : Γ'.lookup? x = some σ') (hu : σ'.Instance u) (h : Follows T Γ s θ Γ') :
    (Infer.name m.clear x Γ).Meets s ((name m x).Reached θ u s) fun _ _ _ => False := by
  unfold Infer.name
  cases hΓx : Γ.lookup? x with
  | none =>
    rw [(h.env.names x).1 hΓx] at hx
    cases hx
  | some σ =>
    refine .act (Act.meets_instantiate h.sound (h.known.scheme x σ hΓx)) ?_ nofun
    rintro t s₁ ⟨-, hsubst, -, -, hreach⟩
    obtain ⟨ρ, hρ, rfl⟩ := h.env.scheme x σ σ' hΓx hx u hu
    obtain ⟨θ', hθ, ht⟩ := hreach θ ρ hρ
    have hsolves : s₁.subst.Solves θ' := by
      rw [hsubst]
      exact h.sound.solves_of_agreesBelow h.solves hθ
    exact reaches_annotate hm hθ hsolves ht fun m' hm' => congrArg (name · x) hm'

/-- An invalid expression can have whatever type the derivation says. -/
theorem reaches_invalid {m : Mark} (hm : m.ty = .filled u) (h : Follows T Γ s θ Γ') :
    (Infer.invalid m.clear).Meets s ((invalid m).Reached θ u s) fun _ _ _ => False := by
  refine .act (Act.meets_fresh s) ?_ nofun
  rintro t s₁ ⟨hdraws, hreach⟩
  obtain ⟨θ', hθ, ht⟩ := hreach θ u
  have hsolves : s₁.subst.Solves θ' := by
    rw [hdraws.subst_eq]
    exact h.sound.solves_of_agreesBelow h.solves hθ
  exact reaches_annotate hm hθ hsolves ht fun m' hm' => congrArg invalid hm'

/-! ## Functions -/

section

variable {m : Mark} {p : Binder} {b b' : Expr} {a r : Ty}

/-- The type that the derivation gives to a parameter is an instance of the one that is found. -/
theorem reaches_paramTy (ha : ∀ x ∈ p.anno, x.Admits a) (h : Follows T Γ s θ Γ') :
    (Infer.paramTy p).Meets s
      (fun t s' => ∃ θ', AgreesBelow s.drawn θ θ' ∧ s'.subst.Solves θ' ∧ t.replace θ' = a)
      fun _ _ => False := by
  unfold Infer.paramTy
  cases hp : p.anno with
  | none =>
    refine (Act.meets_fresh s).mono ?_ fun _ _ => id
    rintro t s₁ ⟨hdraws, hreach⟩
    obtain ⟨θ', hθ, ht⟩ := hreach θ a
    refine ⟨θ', hθ, ?_, ht⟩
    rw [hdraws.subst_eq]
    exact h.sound.solves_of_agreesBelow h.solves hθ
  | some x =>
    refine (Act.meets_lower x s).mono ?_ fun _ _ => id
    rintro t s₁ ⟨hdraws, -, hreach⟩
    obtain ⟨θ', hθ, ht⟩ := hreach θ a (ha x hp)
    refine ⟨θ', hθ, ?_, ht⟩
    rw [hdraws.subst_eq]
    exact h.sound.solves_of_agreesBelow h.solves hθ

/-- A parameter of which the type is known agrees with its annotation, as it does in the
derivation. -/
theorem reaches_paramTyAgainst (ha : ∀ x ∈ p.anno, x.Admits a) (h : Follows T Γ s θ Γ')
    (htknown : t.Known T s) (ht : t.replace θ = a) :
    (Infer.paramTyAgainst p t).Meets s
      (fun t s' => ∃ θ', AgreesBelow s.drawn θ θ' ∧ s'.subst.Solves θ' ∧ t.replace θ' = a)
      fun _ _ => False := by
  unfold Infer.paramTyAgainst
  cases hp : p.anno with
  | none => exact .pure ⟨θ, .refl _ θ, h.solves, ht⟩
  | some x =>
    refine .bind (Act.meets_lower x s) ?_
    rintro t' s₁ ⟨hdraws, -, hreach⟩
    obtain ⟨θ', hθ, ht'⟩ := hreach θ a (ha x hp)
    have hsolves : s₁.subst.Solves θ' := by
      rw [hdraws.subst_eq]
      exact h.sound.solves_of_agreesBelow h.solves hθ
    have heq : t'.replace θ' = t.replace θ' := by
      rw [ht', ← ht, hθ.replace_eq fun v hv => (htknown v hv).1]
    refine .bind (Act.meets_unify_of_solves (hdraws.steps h.sound).sound_act _ _ hsolves heq) ?_
    intro _ s₂ hsolves'
    exact .pure ⟨θ', hθ, hsolves', ht'⟩

/-- The body of a function and the end of its rules. -/
theorem reaches_lamBody {body : ExprWalk} {g : Goal} {result : Ty → Ty}
    (hm : m.ty = .filled (.fn a r)) (hp : p.scheme = .filled (.mono a))
    (hbody : body.Completes (Γ'.extend p.name (.mono a)) b r) (h : Follows T Γ s θ Γ')
    (hu : ParamTy T p.clear s u s₁) (hθ : AgreesBelow s.drawn θ θ') (hsolves : s₁.subst.Solves θ')
    (hua : u.replace θ' = a) (hg : g.Known T s₁) (hmet : ∀ c ∈ g, c.expected.replace θ' = r)
    (hresult : ∀ t θ'', AgreesBelow s₁.drawn θ' θ'' → t.replace θ'' = r →
      (result t).replace θ'' = .fn a r) :
    ((body (Γ.extend p.name (.mono u)) g).andThen
        (.lam m.clear { p.clear with scheme := .filled (.mono u) }) fun b' t =>
      .annotate (.lam · { p.clear with scheme := .filled (.mono u) } b') m.clear (result t)).Meets
        s₁
      ((lam m p b).Reached θ (.fn a r) s) fun _ _ _ => False := by
  have hfollows := h.act hu.steps hθ hsolves
  have hfollows' : Follows T (Γ.extend p.name (.mono u)) s₁ θ' (Γ'.extend p.name (.mono a)) :=
    { hfollows with
      known := hfollows.known.extend_mono p.name hu.known
      env := hfollows.env.extend p.name (Scheme.moreGeneral_mono hua) }
  refine .andThen (hbody T _ g s₁ θ' hfollows' hg hmet) ?_ fun _ _ _ => id
  rintro b' t s₂ ⟨hfound, θ'', hθ', hsolves', ht, htree⟩
  have hua' : u.replace θ'' = a := by rw [hθ'.replace_eq fun v hv => (hu.known v hv).1, hua]
  refine reaches_annotate hm (hθ.trans hθ' hu.steps.drawn_le) hsolves' (hresult t θ'' hθ' ht) ?_
  intro m' hm'
  change lam (m'.specialize θ'') (Binder.specialize θ'' _) (b'.specialize θ'') = _
  rw [hm', htree, specialize_binder hp (σ := .mono u) hua']
  rfl

variable {body : ExprWalk} (hm : m.ty = .filled (.fn a r)) (hp : p.scheme = .filled (.mono a))
  (ha : ∀ x ∈ p.anno, x.Admits a) (hbody : body.Completes (Γ'.extend p.name (.mono a)) b r)
  (h : Follows T Γ s θ Γ')

include hm hp ha hbody h

/-- A function is followed if its body is. -/
theorem reaches_lam :
    (Infer.lam m.clear p.clear b.clear body Γ).Meets s ((lam m p b).Reached θ (.fn a r) s)
      fun _ _ _ => False := by
  refine .act ((meets_paramTy p.clear h.sound).and (reaches_paramTy ha h)) ?_
    (by rintro _ _ ⟨⟨⟩, -⟩)
  rintro u s₁ ⟨hu, θ', hθ, hsolves, hua⟩
  refine .fillBinder rfl
    (reaches_lamBody hm hp hbody h hu hθ hsolves hua Goal.known_none (by nofun) ?_)
  intro t θ'' hθ' ht
  rw [Ty.replace_fn, ht, hθ'.replace_eq fun v hv => (hu.known v hv).1, hua]

/-- Against a demand the body is followed for the result of the demand. -/
theorem reaches_lamAgainst {c : Demand} {t u : Ty} (hc : c.expected.Known T s)
    (hfn : c.expected = .fn t u) (hmet : c.expected.replace θ = .fn a r) :
    (Infer.lamAgainst m.clear p.clear b.clear body Γ c t u).Meets s
      ((lam m p b).Reached θ (.fn a r) s) fun _ _ _ => False := by
  obtain ⟨htknown, huknown⟩ := Ty.known_fn.1 (hfn ▸ hc)
  have hmet' := hmet
  rw [hfn, Ty.replace_fn, Ty.fn_inj] at hmet'
  obtain ⟨hta, hur⟩ := hmet'
  refine .act ((meets_paramTyAgainst p.clear h.sound htknown).and
    (reaches_paramTyAgainst ha h htknown hta)) ?_ (by rintro _ _ ⟨-, ⟨⟩⟩)
  rintro r' s₁ ⟨⟨hr', -⟩, θ', hθ, hsolves, hra⟩
  have hu₁ := huknown.act h.sound hr'.steps
  refine .fillBinder rfl
    (reaches_lamBody hm hp hbody h hr' hθ hsolves hra (Goal.known_some hu₁) ?_ ?_)
  · rintro _ ⟨⟩
    rw [hθ.replace_eq fun v hv => (huknown v hv).1, hur]
  · intro _ θ'' hθ' _
    have hagree := hθ.trans hθ' hr'.steps.drawn_le
    rw [hagree.replace_eq fun v hv => (hc v hv).1, hmet]

end

/-! ## Calls -/

section

variable {m : Mark} {f f' a a' : Expr} {tf ta r : Ty}

/-- The end of the rules for a call. -/
theorem reaches_appEnd {g : Goal} {E : Expr → Fault TypeError → Session → Prop}
    (hm : m.ty = .filled u) (hfound : f.clear.Found T Γ g s f' tf s₁)
    (hf : f'.specialize θ = f.specialize .var) (ha : a'.specialize θ' = a.specialize .var)
    (hθ : AgreesBelow s₁.drawn θ θ') (hsolves : s₂.subst.Solves θ') (hr : r.replace θ' = u)
    {θ₀ : TyVar → Ty} (hθ₀ : AgreesBelow s.drawn θ₀ θ) :
    (Walk.annotate (.app · f' a') m.clear r).Meets s₂ ((app m f a).Reached θ₀ u s) E := by
  refine reaches_annotate hm (hθ₀.trans hθ hfound.left.steps.drawn_le) hsolves hr ?_
  intro m' hm'
  change app (m'.specialize θ') (f'.specialize θ') (a'.specialize θ') = _
  rw [hm', ha, hfound.left.tidy.specialize_eq hθ, hf]
  rfl

/-- A call is followed if callee and argument are: the types agree in the derivation, so they can be
unified. -/
theorem reaches_app (mode : Mode) {callee arg : ExprWalk} (hm : m.ty = .filled u)
    (hf : callee.Completes Γ' f (.fn t u)) (ha : arg.Completes Γ' a t) (h : Follows T Γ s θ Γ') :
    (Infer.app mode m.clear a.clear callee arg Γ).Meets s ((app m f a).Reached θ u s)
      fun _ _ _ => False := by
  refine .andThen (hf T Γ none s θ h Goal.known_none (by nofun)) ?_ fun _ _ _ => id
  rintro f' tf s₁ ⟨hfound, θ₁, hθ₁, hsolves₁, htf, hftree⟩
  have hs₁ := hfound.left.sound
  have h₁ := h.steps hfound.left.steps hθ₁ hsolves₁
  cases hcallee : Infer.calleeTy? mode tf s₁ with
  | some pr =>
    obtain ⟨param, result⟩ := pr
    have hfn := Infer.calleeTy?_eq_some hcallee
    obtain ⟨hparam, hresult⟩ := Ty.known_fn.1 (hfn ▸ hfound.known.apply hs₁)
    have hmet := hsolves₁.replace_apply tf
    rw [hfn, htf, Ty.replace_fn, Ty.fn_inj] at hmet
    refine .congr (by simp only [hcallee]; rfl) (.andThen
      (ha _ Γ (some ⟨.argument, param⟩) s₁ θ₁ h₁ (Goal.known_some hparam) ?_) ?_ fun _ _ _ => id)
    · rintro _ ⟨⟩
      exact hmet.1
    · rintro a' ta s₂ ⟨-, θ₂, hθ₂, hsolves₂, -, hatree⟩
      refine reaches_appEnd hm hfound hftree hatree hθ₂ hsolves₂ ?_ hθ₁
      rw [hθ₂.replace_eq fun v hv => (hresult v hv).1, hmet.2]
  | none =>
    refine .congr (by simp only [hcallee]; rfl) (.andThen
      (ha _ Γ none s₁ θ₁ h₁ Goal.known_none (by nofun)) ?_ fun _ _ _ => id)
    rintro a' ta s₂ ⟨hfound', θ₂, hθ₂, hsolves₂, hta, hatree⟩
    have hs₂ := hfound'.left.sound
    refine .act (Act.meets_fresh s₂) ?_ nofun
    rintro r s₃ ⟨hdraws, hreach⟩
    obtain ⟨θ₃, hθ₃, hr⟩ := hreach θ₂ u
    have hsolves₃ : s₃.subst.Solves θ₃ := by
      rw [hdraws.subst_eq]
      exact hs₂.solves_of_agreesBelow hsolves₂ hθ₃
    have hθ := hθ₂.trans hθ₃ hfound'.left.steps.drawn_le
    have heq : tf.replace θ₃ = (Ty.fn ta r).replace θ₃ := by
      rw [Ty.replace_fn, hr, hθ₃.replace_eq fun v hv => (hfound'.known v hv).1, hta,
        hθ.replace_eq fun v hv => (hfound.known v hv).1, htf]
    refine .act (Act.meets_unify_of_solves (hdraws.steps hs₂).sound_act _ _ hsolves₃ heq) ?_ nofun
    intro _ s₄ hsolves₄
    refine reaches_appEnd hm hfound hftree ?_ hθ hsolves₄ hr hθ₁
    rw [hfound'.left.tidy.specialize_eq hθ₃, hatree]

end

/-! ## Annotations -/

/-- An annotated expression is followed, since the derivation has a type that the annotation
admits. -/
theorem reaches_anno {m : Mark} {e : Expr} {a : TypeExpr} {inner : ExprWalk} (hm : m.ty = .filled u)
    (ha : a.Admits u) (he : inner.Completes Γ' e u) (h : Follows T Γ s θ Γ') :
    (Infer.anno m.clear e.clear a inner Γ).Meets s ((anno m e a).Reached θ u s)
      fun _ _ _ => False := by
  refine .act (meets_annotated a s) ?_ nofun
  intro c s₁ hc
  obtain ⟨θ₁, hθ₁, hmet⟩ := hc.reaches θ u ha
  have hsteps := hc.draws.steps h.sound
  have hknown := hc.draws.known h.sound
  have hsolves₁ : s₁.subst.Solves θ₁ := by
    rw [hc.draws.subst_eq]
    exact h.sound.solves_of_agreesBelow h.solves hθ₁
  refine .andThen (he T Γ (some c) s₁ θ₁ (h.act hsteps hθ₁ hsolves₁) (Goal.known_some hknown) ?_) ?_
    fun _ _ _ => id
  · rintro _ ⟨⟩
    exact hmet
  · rintro e' t s₂ ⟨-, θ₂, hθ₂, hsolves₂, -, htree⟩
    refine reaches_annotate hm (hθ₁.trans hθ₂ hsteps.drawn_le) hsolves₂ ?_ ?_
    · rw [hθ₂.replace_eq fun v hv => (hknown v hv).1, hmet]
    · intro m' hm'
      change anno (m'.specialize θ₂) (e'.specialize θ₂) a = _
      rw [hm', htree]
      rfl

/-! ## Definitions -/

/-- The goal for a definition is met in the derivation. -/
theorem BoundGoal.reaches {b : Binder} (hgoal : BoundGoal b s goal s₁) (hs : s.Sound T)
    (hθ : s.subst.Solves θ) (ha : ∀ x ∈ b.anno, x.Admits u) :
    ∃ θ', AgreesBelow s.drawn θ θ' ∧ s₁.subst.Solves θ' ∧
      ∀ c ∈ goal, c.expected.replace θ' = u := by
  cases hgoal with
  | none hb => exact ⟨θ, .refl _ θ, hθ, nofun⟩
  | @some x c _ hb hc =>
    obtain ⟨θ', hθ', hmet⟩ := hc.reaches θ u (ha x hb)
    refine ⟨θ', hθ', ?_, ?_⟩
    · rw [hc.draws.subst_eq]
      exact hs.solves_of_agreesBelow hθ hθ'
    · rintro _ ⟨⟩
      exact hmet

/-- A definition got a scheme that is more general than that of the derivation. -/
structure ReachedBound (θ : TyVar → Ty) (b : Binder) (d : Expr) (σ' : Scheme) (s : Session)
    (b' : Binder) (d' : Expr) (σ : Scheme) (s' : Session) (θ' : TyVar → Ty) : Prop where
  /-- The assignment is kept on the variables drawn before. -/
  agrees : AgreesBelow s.drawn θ θ'
  /-- The assignment is a solution. -/
  solves : s'.subst.Solves θ'
  /-- The scheme is more general. -/
  moreGeneral : σ.MoreGeneral θ' σ'
  /-- The binder has the type of the derivation. -/
  binder : b'.specialize θ' = b.specialize .var
  /-- The definition has the types of the derivation. -/
  bound : d'.specialize θ' = d.specialize .var

/-- The types of a definition stay those of the derivation when the assignment is extended. -/
theorem ReachedBound.agreesBelow {b : Binder} {d' : Expr} {σ σ' : Scheme} {θ₂ : TyVar → Ty}
    (h : ReachedBound θ b d σ' s { b.clear with scheme := .filled σ } d' σ s₁ θ')
    (hdef : Defined T d.clear d' σ s s₁) (hθ : AgreesBelow s₁.drawn θ' θ₂) :
    Binder.specialize θ₂ { b.clear with scheme := .filled σ } = b.specialize .var ∧
      d'.specialize θ₂ = d.specialize .var := by
  constructor
  · rw [← h.binder]
    simp only [Binder.specialize, Binder.update, Slot.filled, Slot.resolve, Option.map_some,
      hθ.replace_eq hdef.known.lt_drawn]
  · rw [hdef.left.tidy.specialize_eq hθ, h.bound]

section

variable {m : Mark} {b b' : Binder} {e : Expr} {σ σ' : Scheme} {r : Ty} {bound body : ExprWalk}
  (ha : ∀ x ∈ b.anno, x.Admits u) (hb : b.scheme = .filled σ') (hσ : Γ'.Closes u σ')
  (hd : bound.Completes Γ' d u) (h : Follows T Γ s θ Γ')

include ha hb hσ hd h

/-- A definition gets a scheme that is at least as general as that of the derivation. -/
theorem reaches_bind :
    (Infer.bind b.clear d.clear bound Γ).Meets s
      (fun p σ s' => ∃ θ', ReachedBound θ b d σ' s p.1 p.2 σ s' θ') fun _ _ _ => False := by
  refine .act (meets_boundGoal b.clear s) ?_ nofun
  intro goal s₁ hgoal
  obtain ⟨θ₁, hθ₁, hsolves₁, hmet⟩ := hgoal.reaches h.sound h.solves ha
  have hsteps := hgoal.steps h.sound
  have h₁ := h.act hsteps hθ₁ hsolves₁
  have hknown := hgoal.known h.sound
  refine .andThen (hd T Γ goal s₁ θ₁ h₁ hknown hmet) ?_ fun _ _ _ => id
  rintro d' t s₂ ⟨hfound, θ₂, hθ₂, hsolves₂, ht, htree⟩
  have h₂ := h₁.steps hfound.left.steps hθ₂ hsolves₂
  have hdefined : (definedTy goal t).replace θ₂ = u := by
    cases goal with
    | none => exact ht
    | some c =>
      change c.expected.replace θ₂ = u
      rw [hθ₂.replace_eq fun v hv => (hknown c rfl v hv).1, hmet c rfl]
  refine meets_bindEnd b.scheme_clear fun l => ?_
  exact ⟨θ₂,
    { agrees := hθ₁.trans hθ₂ hsteps.drawn_le
      solves := hsolves₂
      moreGeneral := h₂.env.generalize h₂.known hsolves₂ hdefined hσ
      binder := specialize_binder hb (by
        rw [hσ.ty, ← hdefined]
        exact hsolves₂.replace_apply _)
      bound := htree }⟩

/-- The definition, the body and the end of the rules for a local definition. -/
theorem reaches_letBody {g : Goal} {result : Ty → Ty} (hm : m.ty = .filled r)
    (hkeeps : bound.Keeps d.clear) (hbody : body.Completes (Γ'.extend b.name σ') e r)
    (hg : g.Known T s) (hmet : ∀ c ∈ g, c.expected.replace θ = r)
    (hresult : ∀ t θ', AgreesBelow s.drawn θ θ' → t.replace θ' = r → (result t).replace θ' = r) :
    ((Infer.bind b.clear d.clear bound Γ).andThen
        (fun (b, d) => Expr.letIn m.clear b d e.clear) fun (b, d) σ =>
      (body (Γ.extend b.name σ) g).andThen (.letIn m.clear b d) fun e t =>
      .annotate (.letIn · b d e) m.clear (result t)).Meets s
        ((letIn m b d e).Reached θ r s) fun _ _ _ => False := by
  refine .andThen ((meets_bind rfl hkeeps h.sound h.known).and (reaches_bind ha hb hσ hd h)) ?_
    (by rintro _ _ _ ⟨-, ⟨⟩⟩)
  rintro ⟨b', d'⟩ σ s₁ ⟨hbound, θ₁, hreached⟩
  obtain rfl := hbound.binder
  have hdef := hbound.defined
  have hknown : g.Known ((T \ d'.generic) \ {v | v ∈ σ.vars}) s₁ :=
    Set.sdiff_sdiff ▸ hg.steps h.sound hdef.steps
  have h₁ : Follows ((T \ d'.generic) \ {v | v ∈ σ.vars}) (Γ.extend b.name σ) s₁ θ₁
      (Γ'.extend b.name σ') :=
    { sound := hdef.sound
      known := hbound.env_known h.sound h.known
      solves := hreached.solves
      env := (h.env.agreesBelow h.known hreached.agrees).extend b.name hreached.moreGeneral }
  refine .andThen (hbody _ _ g s₁ θ₁ h₁ hknown ?_) ?_ fun _ _ _ => id
  · intro c hc
    rw [hreached.agrees.replace_eq fun v hv => (hg c hc v hv).1, hmet c hc]
  · rintro e' t s₂ ⟨-, θ₂, hθ₂, hsolves₂, ht, htree⟩
    have hθ := hreached.agrees.trans hθ₂ hdef.steps.drawn_le
    refine reaches_annotate hm hθ hsolves₂ (hresult t θ₂ hθ ht) ?_
    intro m' hm'
    obtain ⟨hbinder, hdtree⟩ := hreached.agreesBelow hdef hθ₂
    change letIn (m'.specialize θ₂) (Binder.specialize θ₂ _) (d'.specialize θ₂)
      (e'.specialize θ₂) = _
    rw [hm', htree, hdtree, hbinder]
    rfl

variable (hm : m.ty = .filled r) (hkeeps : bound.Keeps d.clear)
  (hbody : body.Completes (Γ'.extend b.name σ') e r)

include hm hkeeps hbody

/-- A local definition is followed if definition and body are. -/
theorem reaches_letIn :
    (Infer.letIn m.clear b.clear d.clear e.clear bound body Γ).Meets s
      ((letIn m b d e).Reached θ r s) fun _ _ _ => False :=
  reaches_letBody ha hb hσ hd h hm hkeeps hbody Goal.known_none (by nofun) fun _ _ _ => id

/-- Against a demand the body is followed for it. -/
theorem reaches_letInAgainst {c : Demand} (hc : c.expected.Known T s)
    (hmet : c.expected.replace θ = r) :
    (Infer.letInAgainst m.clear b.clear d.clear e.clear bound body Γ c).Meets s
      ((letIn m b d e).Reached θ r s) fun _ _ _ => False := by
  refine reaches_letBody ha hb hσ hd h hm hkeeps hbody (Goal.known_some hc) ?_ ?_
  · rintro _ ⟨⟩
    exact hmet
  · intro _ θ' hθ _
    rw [hθ.replace_eq fun v hv => (hc v hv).1, hmet]

end

/-! ## Conditionals -/

section

variable {m : Mark} {c c' y y' n n' : Expr} {ty r : Ty} {s₃ : Session} {θ₂ : TyVar → Ty}

/-- The test and the first branch of a conditional followed the derivation. -/
structure ReachedYes (T : Set TyVar) (Γ : Env) (s : Session) (θ : TyVar → Ty) (Γ' : Env)
    (c y : Expr) (u : Ty) (c' y' : Expr) (ty : Ty) (s' : Session) (θ' : TyVar → Ty) : Prop where
  /-- The sessions. -/
  steps : s.Steps T (c'.generic ∪ y'.generic) s'
  /-- The second branch can follow the derivation. -/
  follows : Follows ((T \ c'.generic) \ y'.generic) Γ s' θ' Γ'
  /-- The assignment is kept on the variables drawn before. -/
  agrees : AgreesBelow s.drawn θ θ'
  /-- The type of the branch is known. -/
  known : ty.Known ((T \ c'.generic) \ y'.generic) s'
  /-- The branch has the type of the derivation. -/
  ty_eq : ty.replace θ' = u
  /-- The test has the types of the derivation, from now on. -/
  test : ∀ θ'', AgreesBelow s'.drawn θ' θ'' → c'.specialize θ'' = c.specialize .var
  /-- The branch has the types of the derivation, from now on. -/
  yes : ∀ θ'', AgreesBelow s'.drawn θ' θ'' → y'.specialize θ'' = y.specialize .var

/-- A conditional is followed if the second branch is, after the test and the first branch. -/
theorem reaches_condEnd (hm : m.ty = .filled u) (hyes : ReachedYes T Γ s θ Γ' c y u c' y' ty s₂ θ₂)
    (hθ : AgreesBelow s₂.drawn θ₂ θ') (hsolves : s₃.subst.Solves θ') (hr : r.replace θ' = u)
    (hn : n'.specialize θ' = n.specialize .var) {E : Expr → Fault TypeError → Session → Prop} :
    (Walk.annotate (.cond · c' y' n') m.clear r).Meets s₃ ((cond m c y n).Reached θ u s) E := by
  refine reaches_annotate hm (hyes.agrees.trans hθ hyes.steps.drawn_le) hsolves hr ?_
  intro m' hm'
  change cond (m'.specialize θ') (c'.specialize θ') (y'.specialize θ') (n'.specialize θ') = _
  rw [hm', hyes.test θ' hθ, hyes.yes θ' hθ, hn]
  rfl

variable {test yes no : ExprWalk} (hc : test.Completes Γ' c .bool) (hy : yes.Completes Γ' y u)
  (h : Follows T Γ s θ Γ')

include hc hy h

/-- The test and the first branch are followed before what comes next. -/
theorem reaches_condStart {g : Goal} (hg : g.Known T s) (hmet : ∀ d ∈ g, d.expected.replace θ = u)
    {next : Expr → Expr → Ty → Walk Expr Ty}
    (hnext : ∀ c' y' ty s₂ θ₂, ReachedYes T Γ s θ Γ' c y u c' y' ty s₂ θ₂ →
      (next c' y' ty).Meets s₂ ((cond m c y n).Reached θ u s) fun _ _ _ => False) :
    ((test Γ (some Infer.truthValue)).andThen (.cond m.clear · y.clear n.clear) fun c' _ =>
      (yes Γ g).andThen (.cond m.clear c' · n.clear) fun y' ty => next c' y' ty).Meets s
        ((cond m c y n).Reached θ u s) fun _ _ _ => False := by
  have htruth : Infer.truthValue.expected.Known T s := Ty.known_of_isEmpty rfl
  refine .andThen (hc T Γ _ s θ h (Goal.known_some htruth) ?_) ?_ fun _ _ _ => id
  · rintro _ ⟨⟩
    rfl
  rintro c' tc s₁ ⟨hcfound, θ₁, hθ₁, hsolves₁, -, hctree⟩
  have hsteps₁ := hcfound.left.steps
  refine .andThen (hy _ Γ g s₁ θ₁ (h.steps hsteps₁ hθ₁ hsolves₁) (hg.steps h.sound hsteps₁) ?_) ?_
    fun _ _ _ => id
  · intro d hd
    rw [hθ₁.replace_eq fun v hv => (hg d hd v hv).1, hmet d hd]
  rintro y' ty s₂ ⟨hyfound, θ₂, hθ₂, hsolves₂, hty, hytree⟩
  have hsteps₂ := hyfound.left.steps
  refine hnext c' y' ty s₂ θ₂
    { steps := hsteps₁.trans hsteps₂
      follows := (h.steps hsteps₁ hθ₁ hsolves₁).steps hsteps₂ hθ₂ hsolves₂
      agrees := hθ₁.trans hθ₂ hsteps₁.drawn_le
      known := hyfound.known
      ty_eq := hty
      test := fun θ'' hθ => ?_
      yes := fun θ'' hθ => ?_ }
  · rw [hcfound.left.tidy.specialize_eq (hθ₂.trans hθ hsteps₂.drawn_le), hctree]
  · rw [hyfound.left.tidy.specialize_eq hθ, hytree]

variable (hm : m.ty = .filled u) (hn : no.Completes Γ' n u)

include hm hn

/-- A conditional is followed in both modes. -/
theorem reaches_cond (mode : Mode) :
    (Infer.cond mode m.clear y.clear n.clear test yes no Γ).Meets s ((cond m c y n).Reached θ u s)
      fun _ _ _ => False := by
  refine reaches_condStart hc hy h Goal.known_none (by nofun) ?_
  intro c' y' ty s₂ θ₂ hyes
  cases mode with
  | bottomUp =>
    refine .andThen (hn _ Γ none s₂ θ₂ hyes.follows Goal.known_none (by nofun)) ?_ fun _ _ _ => id
    rintro n' tn s₃ ⟨hnfound, θ₃, hθ₃, hsolves₃, htn, hntree⟩
    have hty : ty.replace θ₃ = u := by
      rw [hθ₃.replace_eq fun v hv => (hyes.known v hv).1, hyes.ty_eq]
    refine .act (Act.meets_unify_of_solves hnfound.left.sound _ _ hsolves₃ (hty.trans htn.symm)) ?_
      nofun
    intro _ s₄ hsolves₄
    exact reaches_condEnd hm hyes hθ₃ hsolves₄ hty hntree
  | topDown p =>
    refine .andThen (hn _ Γ (some ⟨.branch m.span, ty⟩) s₂ θ₂ hyes.follows
      (Goal.known_some hyes.known) ?_) ?_ fun _ _ _ => id
    · rintro _ ⟨⟩
      exact hyes.ty_eq
    · rintro n' tn s₃ ⟨hnfound, θ₃, hθ₃, hsolves₃, -, hntree⟩
      refine reaches_condEnd hm hyes hθ₃ hsolves₃ ?_ hntree
      rw [hθ₃.replace_eq fun v hv => (hyes.known v hv).1, hyes.ty_eq]

/-- Against a demand both branches are followed for its type. -/
theorem reaches_condAgainst {d : Demand} (hd : d.expected.Known T s)
    (hmet : d.expected.replace θ = u) :
    (Infer.condAgainst m.clear y.clear n.clear test yes no Γ d).Meets s
      ((cond m c y n).Reached θ u s) fun _ _ _ => False := by
  refine reaches_condStart hc hy h (Goal.known_some hd) ?_ ?_
  · rintro _ ⟨⟩
    exact hmet
  intro c' y' ty s₂ θ₂ hyes
  have hd₂ : d.expected.Known ((T \ c'.generic) \ y'.generic) s₂ :=
    Set.sdiff_sdiff ▸ hd.steps h.sound hyes.steps
  have hmet₂ : d.expected.replace θ₂ = u := by
    rw [hyes.agrees.replace_eq fun v hv => (hd v hv).1, hmet]
  refine .andThen (hn _ Γ (some ⟨.branch m.span, d.expected⟩) s₂ θ₂ hyes.follows
    (Goal.known_some hd₂) ?_) ?_ fun _ _ _ => id
  · rintro _ ⟨⟩
    exact hmet₂
  · rintro n' tn s₃ ⟨hnfound, θ₃, hθ₃, hsolves₃, -, hntree⟩
    refine reaches_condEnd hm hyes hθ₃ hsolves₃ ?_ hntree
    rw [hθ₃.replace_eq fun v hv => (hd₂ v hv).1, hmet₂]

end

/-! ## Tuples -/

/-- Walks of some expressions found what the derivations `ds` of the types `us` say. -/
def ReachedAll (θ : TyVar → Ty) (ds : List Expr) (us : List Ty) (s : Session) (es' : List Expr)
    (ts : List Ty) (s' : Session) : Prop :=
  ∃ θ', AgreesBelow s.drawn θ θ' ∧ s'.subst.Solves θ' ∧ ts.map (Ty.replace θ') = us ∧
    es'.map (specialize θ') = ds.map (specialize .var)

/-- Elements are followed one after the other. -/
theorem reaches_inferAll (mode : Mode) :
    ∀ {ds : List Expr} {us : List Ty}, ds.length = us.length →
      (∀ p ∈ ds.zip us, (infer mode p.1.clear).Completes Γ' p.1 p.2) →
      ∀ {T : Set TyVar} {goals : List Goal} {s : Session} {θ : TyVar → Ty}, Follows T Γ s θ Γ' →
        (∀ goal ∈ goals, goal.Known T s) →
        (∀ (i : Nat) c u, goals[i]? = some (some c) → us[i]? = some u → c.expected.replace θ = u) →
        (inferAll mode (ds.map clear) Γ goals).Meets s (ReachedAll θ ds us s) fun _ _ _ => False
  | [], [], _, _, T, goals, s, θ, h, _, _ => by
    rw [List.map_nil, inferAll]
    exact .done ⟨θ, .refl _ θ, h.solves, rfl, rfl⟩
  | d :: ds, u :: us, hlen, hcomplete, T, goals, s, θ, h, hgoals, hmet => by
    rw [List.map_cons, inferAll]
    have hgoal : (goals.headD none).Known T s := by
      cases goals with
      | nil => exact Goal.known_none
      | cons goal goals => exact hgoals goal (List.mem_cons_self ..)
    refine .andThen (hcomplete (d, u) (List.mem_cons_self ..) T Γ _ s θ h hgoal ?_) ?_
      fun _ _ _ => id
    · intro c hc
      refine hmet 0 c u ?_ rfl
      cases goals with
      | nil => cases hc
      | cons goal goals => exact congrArg some hc
    rintro e' t s₁ ⟨hfound, θ₁, hθ₁, hsolves₁, ht, htree⟩
    have hsteps := hfound.left.steps
    refine .andThen (reaches_inferAll mode (Nat.succ.inj hlen)
      (fun p hp => hcomplete p (List.mem_cons_of_mem _ hp)) (h.steps hsteps hθ₁ hsolves₁)
      (fun goal hg => (hgoals goal (List.mem_of_mem_tail hg)).steps h.sound hsteps) ?_) ?_
      fun _ _ _ => id
    · intro i c u' hc hu
      rw [List.getElem?_tail] at hc
      have hknown := hgoals (some c) (List.mem_of_getElem? hc) c rfl
      rw [hθ₁.replace_eq fun v hv => (hknown v hv).1]
      exact hmet (i + 1) c u' hc hu
    · rintro es' ts s₂ ⟨θ₂, hθ₂, hsolves₂, hts, htrees⟩
      refine .done ⟨θ₂, hθ₁.trans hθ₂ hsteps.drawn_le, hsolves₂, ?_, ?_⟩
      · rw [List.map_cons, hts, hθ₂.replace_eq fun v hv => (hfound.known v hv).1, ht]
      · rw [List.map_cons, htrees, hfound.left.tidy.specialize_eq hθ₂, htree, List.map_cons]

section

variable {m : Mark} {ds : List Expr} {us : List Ty} (mode : Mode) (hm : m.ty = .filled (.tuple us))
  (hlen : ds.length = us.length)
  (hcomplete : ∀ p ∈ ds.zip us, (infer mode p.1.clear).Completes Γ' p.1 p.2)
  (h : Follows T Γ s θ Γ')

include hm hlen hcomplete h

/-- The elements of a tuple and the end of its rules. -/
theorem reaches_elems {goals : List Goal} {result : List Ty → Ty}
    (hgoals : ∀ goal ∈ goals, goal.Known T s)
    (hmet : ∀ (i : Nat) c u, goals[i]? = some (some c) → us[i]? = some u → c.expected.replace θ = u)
    (hresult : ∀ ts θ', AgreesBelow s.drawn θ θ' → ts.map (Ty.replace θ') = us →
      (result ts).replace θ' = .tuple us) :
    ((inferAll mode (ds.map clear) Γ goals).andThen (.tuple m.clear) fun es ts =>
      .annotate (.tuple · es) m.clear (result ts)).Meets s
        ((tuple m ds).Reached θ (.tuple us) s) fun _ _ _ => False := by
  refine .andThen (reaches_inferAll mode hlen hcomplete h hgoals hmet) ?_ fun _ _ _ => id
  rintro es' ts s₁ ⟨θ', hθ, hsolves, hts, htrees⟩
  refine reaches_annotate hm hθ hsolves (hresult ts θ' hθ hts) ?_
  intro m' hm'
  rw [specialize, specialize, retype_tuple, retype_tuple]
  exact congrArg₂ tuple hm' htrees

/-- A tuple is followed if its elements are. -/
theorem reaches_tuple :
    (Infer.tuple m.clear (ds.map clear) (inferAll mode (ds.map clear)) Γ).Meets s
      ((tuple m ds).Reached θ (.tuple us) s) fun _ _ _ => False := by
  refine reaches_elems mode hm hlen hcomplete h ?_ ?_ ?_
  · intro goal hg
    obtain ⟨e, -, rfl⟩ := List.mem_map.1 hg
    exact Goal.known_none
  · intro i c u hc
    rw [List.getElem?_map, Option.map_eq_some_iff] at hc
    obtain ⟨_, -, ⟨⟩⟩ := hc
  · intro ts θ' _ hts
    rw [Ty.replace_tuple, hts]

/-- Against a demand for a tuple each element is followed for its part. -/
theorem reaches_tupleAgainst {c : Demand} {ts : List Ty} (hc : c.expected.Known T s)
    (hty : c.expected = .tuple ts) (hmet : c.expected.replace θ = .tuple us) :
    (Infer.tupleAgainst m.clear (inferAll mode (ds.map clear)) Γ c ts).Meets s
      ((tuple m ds).Reached θ (.tuple us) s) fun _ _ _ => False := by
  refine reaches_elems mode hm hlen hcomplete h ?_ ?_ ?_
  · intro goal hg
    obtain ⟨t, ht, rfl⟩ := List.mem_map.1 hg
    exact Goal.known_some (Ty.known_tuple.1 (hty ▸ hc) t ht)
  · intro i d u hd hu
    rw [hty, Ty.replace_tuple, Ty.tuple_inj] at hmet
    rw [List.getElem?_map, Option.map_eq_some_iff] at hd
    obtain ⟨t, ht, ⟨⟩⟩ := hd
    rw [← hmet, List.getElem?_map, ht] at hu
    exact Option.some.inj hu
  · intro _ θ' hθ _
    rw [hθ.replace_eq fun v hv => (hc v hv).1, hmet]

end

/-! ## Expressions -/

/-- The demand that is pushed is met in the derivation, like that of the goal. -/
theorem expected_pushed {mode : Mode} {c : Demand} (h : Follows T Γ s θ Γ')
    (hmet : ∀ c ∈ goal, c.expected.replace θ = u) (hpush : mode.pushed? goal s = some c) :
    c.expected.replace θ = u := by
  obtain ⟨c, rfl, rfl⟩ := Mode.pushed?_eq_some hpush
  rw [← hmet c rfl]
  exact h.solves.replace_apply _

/-- Inference keeps its promises, so following a derivation is all that remains to be shown. -/
theorem completes_of_reaches {mode : Mode}
    (h : ∀ T Γ goal s θ, Follows T Γ s θ Γ' → goal.Known T s →
      (∀ c ∈ goal, c.expected.replace θ = u) →
      (infer mode d.clear Γ goal).Meets s (d.Reached θ u s) fun _ _ _ => False) :
    (infer mode d.clear).Completes Γ' d u := by
  intro T Γ goal s θ hfollows hgoal hmet
  have hkeeps := infer_keeps mode d.clear (clear_clear d) T Γ goal s hfollows.sound
    hfollows.known hgoal
  exact (hkeeps.and (h T Γ goal s θ hfollows hgoal hmet)).mono (fun _ _ _ => id) fun _ _ _ h => h.2

/-- Inference follows every derivation, in every mode. -/
theorem infer_completes (mode : Mode) (h : Typed Env.Closes Γ' d u) :
    (infer mode d.clear).Completes Γ' d u := by
  induction h with
  | @lit Γ' m l hm =>
    refine completes_of_reaches fun T Γ goal s θ h hgoal hmet => ?_
    rw [clear_lit, infer]
    exact reaches_settle hgoal hmet (meets_lit (Γ := Γ) rfl l h.sound) (reaches_lit hm h)
  | @name Γ' m x σ t hm hx ht =>
    refine completes_of_reaches fun T Γ goal s θ h hgoal hmet => ?_
    rw [clear_name, infer]
    exact reaches_settle hgoal hmet (meets_name rfl x h.sound h.known) (reaches_name hm hx ht h)
  | @lam Γ' m p b t r hm hp ha hb ih =>
    refine completes_of_reaches fun T Γ goal s θ h hgoal hmet => ?_
    have hkeeps := infer_keeps mode b.clear (clear_clear b)
    rw [clear_lam]
    obtain ⟨c, t', r', hpush, hfn, hrun⟩ | ⟨-, hrun⟩ :=
      infer_lam mode m.clear Γ goal s p.clear b.clear
    · exact .congr hrun (reaches_lamAgainst hm hp ha ih h (known_pushed h.sound hgoal hpush) hfn
        (expected_pushed h hmet hpush))
    · exact .congr hrun (reaches_settle hgoal hmet (meets_lam rfl rfl hkeeps h.sound h.known)
        (reaches_lam hm hp ha ih h))
  | @app Γ' m f a t r hm hf ha ihf iha =>
    refine completes_of_reaches fun T Γ goal s θ h hgoal hmet => ?_
    rw [clear_app, infer]
    have hfound := meets_app mode (rfl : m.clear.ty = .empty) (clear_clear a)
      (infer_keeps mode _ (clear_clear f)) (infer_keeps mode _ (clear_clear a)) h.sound h.known
    exact reaches_settle hgoal hmet hfound (reaches_app mode hm ihf iha h)
  | @letIn Γ' m b d e t r σ hm hd ha hb hσ he ihd ihe =>
    refine completes_of_reaches fun T Γ goal s θ h hgoal hmet => ?_
    have hkeeps := infer_keeps mode d.clear (clear_clear d)
    rw [clear_letIn]
    obtain ⟨c, hpush, hrun⟩ | ⟨-, hrun⟩ := infer_letIn mode m.clear Γ goal s b.clear d.clear e.clear
    · exact .congr hrun (reaches_letInAgainst ha hb hσ ihd h hm hkeeps ihe
        (known_pushed h.sound hgoal hpush) (expected_pushed h hmet hpush))
    · have hfound := meets_letIn (rfl : m.clear.ty = .empty) b.scheme_clear (clear_clear e) hkeeps
        (infer_keeps mode _ (clear_clear e)) h.sound h.known
      exact .congr hrun
        (reaches_settle hgoal hmet hfound (reaches_letIn ha hb hσ ihd h hm hkeeps ihe))
  | @cond Γ' m c y n r hm hc hy hn ihc ihy ihn =>
    refine completes_of_reaches fun T Γ goal s θ h hgoal hmet => ?_
    rw [clear_cond]
    obtain ⟨c', hyes, hrun⟩ | ⟨-, hrun⟩ := infer_cond mode m.clear Γ goal s c.clear y.clear n.clear
    · have hpush := Mode.pushed?_of_yesGoal hyes
      exact .congr hrun (reaches_condAgainst ihc ihy h hm ihn (known_pushed h.sound hgoal hpush)
        (expected_pushed h hmet hpush))
    · have hfound := meets_cond (rfl : m.clear.ty = .empty) (clear_clear y) (clear_clear n)
        (infer_keeps mode _ (clear_clear c)) (infer_keeps mode _ (clear_clear y)) h.sound h.known
        (infer_keeps mode _ (clear_clear n)) mode
      exact .congr hrun (reaches_settle hgoal hmet hfound (reaches_cond ihc ihy h hm ihn mode))
  | @anno Γ' m e a t hm ha he ih =>
    refine completes_of_reaches fun T Γ goal s θ h hgoal hmet => ?_
    rw [clear_anno, infer]
    exact reaches_settle hgoal hmet
      (meets_anno a rfl (infer_keeps mode _ (clear_clear e)) h.sound h.known)
      (reaches_anno hm ha ih h)
  | @tuple Γ' m ds us hm hlen hds ih =>
    refine completes_of_reaches fun T Γ goal s θ h hgoal hmet => ?_
    have hblank : ∀ e ∈ ds.map clear, e.clear = e := by
      intro e he
      obtain ⟨d, -, rfl⟩ := List.mem_map.1 he
      exact clear_clear d
    rw [clear_tuple]
    obtain ⟨c, ts, hpush, hty, -, -, hrun⟩ | ⟨-, hrun⟩ :=
      infer_tuple mode m.clear Γ goal s (ds.map clear)
    · exact .congr hrun (reaches_tupleAgainst mode hm hlen ih h
        (known_pushed h.sound hgoal hpush) hty (expected_pushed h hmet hpush))
    · have hfound := meets_tuple mode (rfl : m.clear.ty = .empty) hblank
        (fun e he => infer_keeps mode e (hblank e he)) h.sound h.known
      exact .congr hrun (reaches_settle hgoal hmet hfound (reaches_tuple mode hm hlen ih h))
  | @invalid Γ' m t hm =>
    refine completes_of_reaches fun T Γ goal s θ h hgoal hmet => ?_
    rw [show (invalid m).clear = invalid m.clear from rfl, infer]
    exact reaches_settle hgoal hmet (meets_invalid (Γ := Γ) rfl h.sound) (reaches_invalid hm h)

end Expr

end LetPoly
