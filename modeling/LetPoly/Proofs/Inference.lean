import LetPoly.Proofs.Leftovers

/-!
# What inference guarantees

A walk that is started in a known environment keeps its promises (`ExprWalk.Keeps`), whatever the
mode and the goal.  Whether it ends or stops, it leaves a tidy tree behind
and retires what that tree is generic in, and it never breaks a contract.  If it ends, the type it
found is known, it meets the demand, and the tree is a derivation once it is
resolved at any later time.

The last point is about all later times at once, because a slot is resolved only when the run is
over.  A later session that stays out of the retired variables does not disturb the schemes of
the tree, so the derivation holds then as well.

There is one lemma for each rule of inference, and `Expr.infer_keeps` ties them together by
induction on the expression.
-/

namespace LetPoly

/-! ## Later sessions -/

/-- A session that is reached by a stretch in a territory. -/
def Session.Later (T : Set TyVar) (s S : Session) : Prop := ∃ N, s.Steps T N S

namespace Session.Later

variable {T T' N : Set TyVar} {s s' S : Session}

theorem mono (h : s.Later T S) (hT : T ⊆ T') : s.Later T' S := by
  obtain ⟨N, h⟩ := h
  exact ⟨N, h.mono hT (Set.Subset.refl N)⟩

theorem after (h : s'.Later (T \ N) S) (hsteps : s.Steps T N s') : s.Later T S := by
  obtain ⟨N', h⟩ := h
  exact ⟨_, hsteps.trans h⟩

theorem after_act (h : s'.Later T S) (hsteps : s.Steps T ∅ s') : s.Later T S :=
  after (h.mono (by simp)) hsteps

theorem le (h : s.Later T S) : s.subst ≤ S.subst := by
  obtain ⟨N, h⟩ := h
  exact h.le

theorem acyclic (h : s.Later T S) : S.subst.Acyclic := by
  obtain ⟨N, h⟩ := h
  exact h.sound.acyclic

/-- Types that are equal now are equal later. -/
theorem apply_eq (h : s.Later T S) {t u : Ty} (heq : s.subst.apply t = s.subst.apply u) :
    S.subst.apply t = S.subst.apply u := by
  rw [← h.acyclic.apply_apply_of_le h.le t, heq, h.acyclic.apply_apply_of_le h.le]

/-- Resolving a type first at one time and then later is to resolve it later. -/
theorem apply_apply (h : s.Later T S) (t : Ty) :
    S.subst.apply (s.subst.apply t) = S.subst.apply t :=
  h.acyclic.apply_apply_of_le h.le t

end Session.Later

/-! ## Promises -/

/-- The demand of a goal, if there is one, is known. -/
def Goal.Known (T : Set TyVar) (s : Session) (goal : Goal) : Prop :=
  ∀ d ∈ goal, d.expected.Known T s

theorem Goal.known_none {T : Set TyVar} {s : Session} : Goal.Known T s none := nofun

theorem Goal.known_some {T : Set TyVar} {s : Session} {d : Demand} (h : d.expected.Known T s) :
    Goal.Known T s (some d) := by
  rintro _ ⟨⟩
  exact h

theorem Goal.Known.steps {T N : Set TyVar} {s s' : Session} (hs : s.Sound T) (h : s.Steps T N s')
    {goal : Goal} (hgoal : goal.Known T s) : goal.Known (T \ N) s' :=
  fun d hd => (hgoal d hd).steps hs h

namespace Expr

/-- What holds when a walk of `e` for a goal has found the type `t`. -/
structure Found (T : Set TyVar) (Γ : Env) (goal : Goal) (e : Expr) (s : Session) (e' : Expr)
    (t : Ty) (s' : Session) : Prop where
  /-- The tree and the session. -/
  left : Left T e e' s s'
  /-- The type is known. -/
  known : t.Known (T \ e'.generic) s'
  /-- The type meets the demand. -/
  met : ∀ d ∈ goal, s'.subst.apply t = s'.subst.apply d.expected
  /-- The tree is a derivation later on. -/
  typed : ∀ S, s'.Later (T \ e'.generic) S →
    Typed Env.Generalizes (Γ.resolve S.subst) (e'.resolve S.subst) (S.subst.apply t)

/-- What holds when a walk of `e` has stopped. -/
def Stopped (T : Set TyVar) (e : Expr) (s : Session) (e' : Expr) (f : Fault TypeError)
    (s' : Session) : Prop :=
  Left T e e' s s' ∧ f.Ordinary

end Expr

/-- A walk of an expression keeps its promises. -/
def ExprWalk.Keeps (w : ExprWalk) (e : Expr) : Prop :=
  ∀ T Γ goal s, s.Sound T → Γ.Known T s → goal.Known T s →
    (w Γ goal).Meets s (e.Found T Γ goal s) (e.Stopped T s)

namespace Expr

variable {T : Set TyVar} {Γ : Env} {goal : Goal} {e e' : Expr} {s s₁ s₂ : Session} {t : Ty}

/-- Acts after a walk leave what it has found. -/
theorem Found.act (h : e.Found T Γ goal s e' t s₁) (h' : s₁.Steps (T \ e'.generic) ∅ s₂) :
    e.Found T Γ goal s e' t s₂ where
  left := h.left.act h'
  known := h.known.act h.left.sound h'
  met d hd := by
    have hlater : s₁.Later (T \ e'.generic) s₂ := ⟨∅, h'⟩
    exact hlater.apply_eq (h.met d hd)
  typed S hS := h.typed S (hS.after_act h')

/-- Comparing a synthesized type with a demand meets the demand. -/
theorem meets_settle {w : Walk Expr Ty} {span : Span} (hs : s.Sound T) (hgoal : goal.Known T s)
    (h : w.Meets s (e.Found T Γ none s) (e.Stopped T s)) :
    (goal.settle span w).Meets s (e.Found T Γ goal s) (e.Stopped T s) := by
  cases goal with
  | none => exact h
  | some d =>
    refine h.andThen (fun e' t s₁ hfound => ?_) fun _ _ _ hstop => hstop
    have hexpected := (hgoal d rfl).steps hs hfound.left.steps
    refine .act (Act.meets_unify hfound.left.sound d.because span hexpected hfound.known) ?_ ?_
    · rintro - s₂ ⟨hsteps, heq⟩
      refine .done { hfound.act hsteps with met := ?_ }
      rintro _ ⟨⟩
      exact heq.symm
    · rintro f s₂ ⟨hsteps, hf⟩
      exact ⟨hfound.left.act hsteps, hf⟩

theorem resolve_withMark (m : Mark) (e : Expr) (r : Subst) :
    (e.withMark m).resolve r = (e.resolve r).withMark (m.update (·.resolve r.apply)) := by
  cases e <;> rfl

/-- Filling the slot of the node ends a walk whose parts are done. -/
theorem meets_annotate {expr : Mark → Expr} {m : Mark} {E : Expr → Fault TypeError → Session → Prop}
    (hexpr : ∀ m', expr m' = (expr m).withMark m') (hm : m.ty = .empty)
    (hleft : Left T e (expr m) s s₁) (hknown : t.Known (T \ (expr m).generic) s₁)
    (hmet : ∀ d ∈ goal, s₁.subst.apply t = s₁.subst.apply d.expected)
    (htyped : ∀ S m', s₁.Later (T \ (expr m).generic) S → m'.ty = .filled (S.subst.apply t) →
      Typed Env.Generalizes (Γ.resolve S.subst) (((expr m).resolve S.subst).withMark m')
        (S.subst.apply t)) :
    (Walk.annotate expr m t).Meets s₁ (e.Found T Γ goal s) E := by
  have hmark : (expr m).mark = m := by
    have := congrArg Expr.mark (hexpr m)
    rwa [mark_withMark] at this
  refine .annotate hm ?_
  rw [hexpr]
  refine ⟨hleft.withMark (by rw [hmark]; rfl) ?_, ?_, hmet, fun S hS => ?_⟩
  · rintro _ ⟨⟩
    exact hknown.apply hleft.sound
  · rwa [generic_withMark]
  · rw [generic_withMark] at hS
    rw [resolve_withMark]
    refine htyped S _ hS ?_
    change Slot.filled (S.subst.apply (s₁.subst.apply t)) = _
    rw [hS.apply_apply]

/-! ## Literals, names and invalid expressions -/

/-- A literal has its type, which has no variables. -/
theorem meets_lit {m : Mark} (hm : m.ty = .empty) (l : Literal) (hs : s.Sound T) :
    (Walk.annotate (.lit · l) m l.ty).Meets s ((lit m l).Found T Γ none s)
      ((lit m l).Stopped T s) := by
  have hclosed : l.ty.occurrences = [] := by cases l <;> rfl
  refine meets_annotate (fun _ => rfl) hm (Left.refl (by rw [clear_lit, Mark.clear_of_empty hm]) hs)
    (Ty.known_of_isEmpty hclosed) nofun fun S m' hS hm' => ?_
  have hty : S.subst.apply l.ty = l.ty := Subst.apply_eq_self (by simp [hclosed])
  rw [hty] at hm' ⊢
  exact .lit hm'

/-- A name has an instance of its scheme, or is reported as unbound. -/
theorem meets_name {m : Mark} (hm : m.ty = .empty) (x : String) (hs : s.Sound T)
    (hΓ : Γ.Known T s) :
    (Infer.name m x Γ).Meets s ((name m x).Found T Γ none s) ((name m x).Stopped T s) := by
  have hblank : (name m x).clear = name m x := by rw [clear_name, Mark.clear_of_empty hm]
  unfold Infer.name
  cases hx : Γ.lookup? x with
  | none => exact ⟨.refl hblank hs, _, rfl, nofun⟩
  | some σ =>
    refine .act (Act.meets_instantiate hs (hΓ.scheme x σ hx)) ?_ nofun
    rintro t s₁ ⟨hdrawn, hsubst, hknown, hinst, -⟩
    have hsteps : s.Steps T ∅ s₁ := .of_subst_eq hs hdrawn hsubst
    have hleft : Left T (name m x) (name m x) s s₁ :=
      (Left.refl hblank hs).act (by rwa [generic_of_blank hblank, Set.sdiff_empty])
    refine meets_annotate (fun _ => rfl) hm hleft ?_ nofun fun S m' hS hm' => ?_
    · rwa [generic_of_blank hblank, Set.sdiff_empty]
    · rw [generic_of_blank hblank, Set.sdiff_empty] at hS
      obtain ⟨N, hlater⟩ := hS.after_act hsteps
      have hΓS := hΓ.steps hs hlater
      refine .name hm' (by rw [Env.lookup?_resolve, hx]; rfl) ?_
      exact (hΓS.scheme x σ hx).instance_apply (hΓS.apart x σ hx) hinst

/-- An invalid expression has a fresh variable as its type. -/
theorem meets_invalid {m : Mark} (hm : m.ty = .empty) (hs : s.Sound T) :
    (Infer.invalid m).Meets s ((invalid m).Found T Γ none s) ((invalid m).Stopped T s) := by
  have hblank : (invalid m).clear = invalid m := by rw [clear_invalid, Mark.clear_of_empty hm]
  refine .act (Act.meets_fresh s) ?_ nofun
  rintro t s₁ ⟨hdraws, -⟩
  have hleft : Left T (invalid m) (invalid m) s s₁ := (Left.refl hblank hs).act
    (by rw [generic_of_blank hblank, Set.sdiff_empty]; exact hdraws.steps hs)
  refine meets_annotate (fun _ => rfl) hm hleft ?_ nofun fun S m' hS hm' => .invalid hm'
  rw [generic_of_blank hblank, Set.sdiff_empty]
  exact hdraws.known hs

/-! ## Functions -/

/-- What holds of the type of a parameter. -/
structure ParamTy (T : Set TyVar) (p : Binder) (s : Session) (t : Ty) (s' : Session) : Prop where
  /-- The session. -/
  steps : s.Steps T ∅ s'
  /-- The type is known. -/
  known : t.Known T s'
  /-- The type respects the annotation. -/
  admits : ∀ a ∈ p.anno, ∀ f, a.Admits (t.replace f)

/-- The type of a parameter always exists: it is that of the annotation, or a fresh variable. -/
theorem meets_paramTy (p : Binder) (hs : s.Sound T) :
    (Infer.paramTy p).Meets s (ParamTy T p s) fun _ _ => False := by
  unfold Infer.paramTy
  cases hp : p.anno with
  | none =>
    refine (Act.meets_fresh s).mono (fun t s₁ h => ⟨h.1.steps hs, h.1.known hs, ?_⟩) fun _ _ => id
    rw [hp]
    nofun
  | some a =>
    refine (Act.meets_lower a s).mono (fun t s₁ h => ⟨h.1.steps hs, h.1.known hs, ?_⟩) fun _ _ => id
    rw [hp]
    rintro _ ⟨⟩
    exact h.2.1

/-- A parameter for which a type is expected gets a type that is equal to it. -/
theorem meets_paramTyAgainst (p : Binder) (hs : s.Sound T) (ht : t.Known T s) :
    (Infer.paramTyAgainst p t).Meets s
      (fun u s' => ParamTy T p s u s' ∧ s'.subst.apply u = s'.subst.apply t)
      (fun f s' => s.Steps T ∅ s' ∧ f.Ordinary) := by
  unfold Infer.paramTyAgainst
  cases hp : p.anno with
  | none =>
    refine .pure ⟨⟨.refl hs, ht, ?_⟩, rfl⟩
    rw [hp]
    nofun
  | some a =>
    refine .bind ((Act.meets_lower a s).mono (fun _ _ => id) nofun) fun u s₁ h => ?_
    have hsteps := h.1.steps hs
    have hu := h.1.known hs
    refine .bind ((Act.meets_unify hsteps.sound_act _ _ hu (ht.act hs hsteps)).mono (fun _ _ => id)
      fun f s₂ h => ⟨hsteps.act_trans h.1, h.2⟩) fun _ s₂ h' => ?_
    refine .pure ⟨⟨hsteps.act_trans h'.1, hu.act hsteps.sound_act h'.1, ?_⟩, h'.2⟩
    rw [hp]
    rintro _ ⟨⟩
    exact h.2.1

section

variable {m : Mark} {p : Binder} {b b' : Expr} {u : Ty}

/-- The tree of a function is tidy if that of its body is. -/
theorem Left.lam (hm : m.ty = .empty) (hu : ParamTy T p s u s₁) (hb : Left T b b' s₁ s₂) :
    Left T (lam m p b) (lam m { p with scheme := .filled (.mono u) } b') s s₂ := by
  have hgeneric : genericAll [b'] = b'.generic := by simp [genericAll_cons]
  refine .node (.act hu.steps (.cons hb (.rest nofun hb.sound))) ?_ rfl ?_ ?_
  · rw [clear_lam, clear_lam, hb.shape]
    rfl
  · intro t ht
    rw [show (Expr.lam m _ b').mark = m from rfl, hm] at ht
    cases ht
  · rintro _ σ ⟨⟩ ⟨⟩
    have hknown := hu.known.steps hu.steps.sound_act hb.steps
    rw [show (Expr.lam m _ b').children = [b'] from rfl, hgeneric]
    exact Scheme.known_mono hknown

/-- The end of the rules for a function, whose type `r` has become equal to what was found. -/
theorem meets_lamEnd {r : Ty} {g : Goal} (hm : m.ty = .empty) (hu : ParamTy T p s u s₁)
    (hb : b.Found T (Γ.extend p.name (.mono u)) g s₁ b' t s₂)
    (hr : r.Known (T \ b'.generic) s₂) (heq : s₂.subst.apply r = s₂.subst.apply (.fn u t))
    (hmet : ∀ d ∈ goal, s₂.subst.apply r = s₂.subst.apply d.expected)
    {E : Expr → Fault TypeError → Session → Prop} :
    (Walk.annotate (.lam · { p with scheme := .filled (.mono u) } b') m r).Meets s₂
      ((lam m p b).Found T Γ goal s) E := by
  have hgeneric : (lam m { p with scheme := .filled (.mono u) } b').generic = b'.generic :=
    generic_lam rfl m b'
  refine meets_annotate (fun _ => rfl) hm (.lam hm hu hb.left) (by rwa [hgeneric]) hmet ?_
  intro S m' hS hm'
  rw [hgeneric] at hS
  have heq' := hS.apply_eq heq
  rw [Subst.apply_fn] at heq'
  rw [heq'] at hm' ⊢
  refine .lam hm' rfl (fun a ha => hu.admits a ha _) ?_
  have := hb.typed S hS
  rwa [Env.resolve_extend, Subst.applyScheme_mono] at this

variable {body : ExprWalk} (hm : m.ty = .empty) (hp : p.scheme = .empty) (hb : b.clear = b)
  (hbody : body.Keeps b) (hs : s.Sound T) (hΓ : Γ.Known T s)

include hm hp hbody hs hΓ

/-- A function has the type from its parameter to its body. -/
theorem meets_lam :
    (Infer.lam m p b body Γ).Meets s ((lam m p b).Found T Γ none s) ((lam m p b).Stopped T s) := by
  refine .act (meets_paramTy p hs) (fun u s₁ hu => .fillBinder hp ?_) nofun
  have hs₁ := hu.steps.sound_act
  have hΓ₁ := (hΓ.act hs hu.steps).extend_mono p.name hu.known
  refine .andThen (hbody T _ none s₁ hs₁ hΓ₁ Goal.known_none) ?_ ?_
  · intro b' t s₂ hfound
    have hr := hu.known.steps hs₁ hfound.left.steps
    exact meets_lamEnd hm hu hfound (Ty.known_fn.2 ⟨hr, hfound.known⟩) rfl (by nofun)
  · rintro b' f s₂ ⟨hleft, hf⟩
    exact ⟨.lam hm hu hleft, hf⟩

include hb

/-- Against a demand for a function the body is walked for its result. -/
theorem meets_lamAgainst {d : Demand} {t u : Ty} (hd : d.expected.Known T s)
    (hfn : d.expected = .fn t u) :
    (Infer.lamAgainst m p b body Γ d t u).Meets s ((lam m p b).Found T Γ (some d) s)
      ((lam m p b).Stopped T s) := by
  have hblank : (lam m p b).clear = lam m p b := by
    rw [clear_lam, Mark.clear_of_empty hm, Binder.clear_of_empty hp, hb]
  obtain ⟨ht, hu⟩ := Ty.known_fn.1 (hfn ▸ hd)
  refine .act (meets_paramTyAgainst p hs ht) ?_ ?_
  · rintro r s₁ ⟨hr, heq⟩
    refine .fillBinder hp ?_
    have hs₁ := hr.steps.sound_act
    have hΓ₁ := (hΓ.act hs hr.steps).extend_mono p.name hr.known
    have hgoal : Goal.Known T s₁ (some ⟨d.because, u⟩) := Goal.known_some (hu.act hs hr.steps)
    refine .andThen (hbody T _ _ s₁ hs₁ hΓ₁ hgoal) ?_ ?_
    · intro b' t' s₂ hfound
      have hlater : s₁.Later T s₂ := ⟨_, hfound.left.steps⟩
      have hmet : s₂.subst.apply t' = s₂.subst.apply u := hfound.met _ rfl
      refine meets_lamEnd hm hr hfound ((hd.act hs hr.steps).steps hs₁ hfound.left.steps) ?_ ?_
      · rw [hfn, Subst.apply_fn, Subst.apply_fn, hmet, hlater.apply_eq heq]
      · rintro _ ⟨⟩
        rfl
    · rintro b' f s₂ ⟨hleft, hf⟩
      exact ⟨.lam hm hr hleft, hf⟩
  · rintro f s₁ ⟨hsteps, hf⟩
    exact ⟨.prepend hsteps (.refl hblank hsteps.sound_act), hf⟩

end

/-! ## Calls -/

section

variable {m : Mark} {f f' a a' : Expr} {tf ta : Ty} {s₃ : Session}

/-- The tree of a call is tidy if those of callee and argument are. -/
theorem Left.app (hm : m.ty = .empty) (hf : Left T f f' s s₁)
    (ha : Left (T \ f'.generic) a a' s₁ s₂) : Left T (app m f a) (app m f' a') s s₂ := by
  refine .node (.cons hf (.cons ha (.rest nofun ha.sound))) ?_ rfl ?_ nofun
  · rw [clear_app, clear_app, hf.shape, ha.shape]
  · intro t ht
    rw [show (Expr.app m f' a').mark = m from rfl, hm] at ht
    cases ht

/-- The end of the rules for a call: the function takes the argument to the result. -/
theorem meets_appEnd {r : Ty} {g : Goal} (hm : m.ty = .empty) (hf : f.Found T Γ none s f' tf s₁)
    (ha : a.Found (T \ f'.generic) Γ g s₁ a' ta s₂)
    (hr : r.Known ((T \ f'.generic) \ a'.generic) s₂)
    (heq : s₂.subst.apply tf = s₂.subst.apply (.fn ta r))
    {E : Expr → Fault TypeError → Session → Prop} :
    (Walk.annotate (.app · f' a') m r).Meets s₂ ((app m f a).Found T Γ none s) E := by
  have hterritory : T \ (app m f' a').generic = (T \ f'.generic) \ a'.generic := by
    rw [generic_app, Set.sdiff_sdiff]
  refine meets_annotate (fun _ => rfl) hm (.app hm hf.left ha.left) (by rwa [hterritory]) nofun ?_
  intro S m' hS hm'
  rw [hterritory] at hS
  have heq' := hS.apply_eq heq
  rw [Subst.apply_fn] at heq'
  have htf := hf.typed S (hS.after ha.left.steps)
  rw [heq'] at htf
  exact .app hm' htf (ha.typed S hS)

/-- A call has the result of its callee as its type, in both ways of walking the argument. -/
theorem meets_app (mode : Mode) {callee arg : ExprWalk} (hm : m.ty = .empty) (hablank : a.clear = a)
    (hf : callee.Keeps f) (ha : arg.Keeps a) (hs : s.Sound T) (hΓ : Γ.Known T s) :
    (Infer.app mode m a callee arg Γ).Meets s ((app m f a).Found T Γ none s)
      ((app m f a).Stopped T s) := by
  refine .andThen (hf T Γ none s hs hΓ Goal.known_none) ?_ ?_
  · intro f' tf s₁ hfound
    have hs₁ := hfound.left.sound
    have hΓ₁ := hΓ.steps hs hfound.left.steps
    cases hcallee : Infer.calleeTy? mode tf s₁ with
    | some pr =>
      obtain ⟨param, result⟩ := pr
      have hfn := Infer.calleeTy?_eq_some hcallee
      obtain ⟨hparam, hresult⟩ := Ty.known_fn.1 (hfn ▸ hfound.known.apply hs₁)
      refine .congr (by simp only [hcallee]; rfl)
        (.andThen (ha _ Γ (some ⟨.argument, param⟩) s₁ hs₁ hΓ₁ (Goal.known_some hparam)) ?_ ?_)
      · intro a' ta s₂ hfound'
        have hlater : s₁.Later (T \ f'.generic) s₂ := ⟨_, hfound'.left.steps⟩
        refine meets_appEnd hm hfound hfound' (hresult.steps hs₁ hfound'.left.steps) ?_
        rw [← hlater.apply_apply tf, hfn, Subst.apply_fn, Subst.apply_fn, hfound'.met _ rfl]
      · rintro a' e s₂ ⟨hleft, he⟩
        exact ⟨.app hm hfound.left hleft, he⟩
    | none =>
      refine .congr (by simp only [hcallee]; rfl)
        (.andThen (ha _ Γ none s₁ hs₁ hΓ₁ Goal.known_none) ?_ ?_)
      · intro a' ta s₂ hfound'
        have hs₂ := hfound'.left.sound
        refine .act (Act.meets_fresh s₂) ?_ nofun
        rintro r s₃ ⟨hdraws, -⟩
        have hdrawn := hdraws.steps hs₂
        have hfound₃ := hfound'.act hdrawn
        have hs₃ := hfound₃.left.sound
        have htf := (hfound.known.steps hs₁ hfound'.left.steps).act hs₂ hdrawn
        have hr := hdraws.known hs₂
        refine .act (Act.meets_unify hs₃ _ _ htf (Ty.known_fn.2 ⟨hfound₃.known, hr⟩)) ?_ ?_
        · rintro - s₄ ⟨hsteps, heq⟩
          exact meets_appEnd hm hfound (hfound₃.act hsteps) (hr.act hs₃ hsteps) heq
        · rintro e s₄ ⟨hsteps, he⟩
          exact ⟨.app hm hfound.left (hfound₃.left.act hsteps), he⟩
      · rintro a' e s₂ ⟨hleft, he⟩
        exact ⟨.app hm hfound.left hleft, he⟩
  · rintro f' e s₁ ⟨hleft, he⟩
    exact ⟨.app hm hleft (.refl hablank hleft.sound), he⟩

end

/-! ## Annotations -/

/-- What holds of the demand that an annotation makes. -/
structure Annotated (a : TypeExpr) (s : Session) (d : Demand) (s' : Session) : Prop where
  /-- The type is drawn. -/
  draws : s.Draws d.expected s'
  /-- Whatever is put for its variables, the type is admitted. -/
  admits : ∀ f, a.Admits (d.expected.replace f)
  /-- The type can become any type that is admitted. -/
  reaches : ∀ θ u, a.Admits u → ∃ θ', AgreesBelow s.drawn θ θ' ∧ d.expected.replace θ' = u

/-- The demand of an annotation always exists. -/
theorem meets_annotated (a : TypeExpr) (s : Session) :
    (Infer.annotated a).Meets s (Annotated a s) fun _ _ => False :=
  .bind (Act.meets_lower a s) fun _ _ h => .pure ⟨h.1, h.2.1, h.2.2⟩

/-- The tree of an annotated expression is tidy if that of the expression is. -/
theorem Left.anno {m : Mark} {a : TypeExpr} (hm : m.ty = .empty) (hsteps : s.Steps T ∅ s₁)
    (he : Left T e e' s₁ s₂) : Left T (anno m e a) (anno m e' a) s s₂ := by
  refine .node (.act hsteps (.cons he (.rest nofun he.sound))) ?_ rfl ?_ nofun
  · rw [clear_anno, clear_anno, he.shape]
  · intro t ht
    rw [show (Expr.anno m e' a).mark = m from rfl, hm] at ht
    cases ht

/-- An annotated expression has the type of its annotation. -/
theorem meets_anno {m : Mark} {inner : ExprWalk} (a : TypeExpr) (hm : m.ty = .empty)
    (he : inner.Keeps e) (hs : s.Sound T) (hΓ : Γ.Known T s) :
    (Infer.anno m e a inner Γ).Meets s ((anno m e a).Found T Γ none s)
      ((anno m e a).Stopped T s) := by
  refine .act (meets_annotated a s) ?_ nofun
  intro d s₁ hd
  have hsteps := hd.draws.steps hs
  have hs₁ := hsteps.sound_act
  have hknown := hd.draws.known hs
  refine .andThen (he T Γ (some d) s₁ hs₁ (hΓ.act hs hsteps) (Goal.known_some hknown)) ?_ ?_
  · intro e' t s₂ hfound
    refine meets_annotate (fun _ => rfl) hm (.anno hm hsteps hfound.left) ?_ nofun ?_
    · rw [generic_anno]
      exact hknown.steps hs₁ hfound.left.steps
    · intro S m' hS hm'
      rw [generic_anno] at hS
      refine .anno hm' (hd.admits _) ?_
      have htyped := hfound.typed S hS
      rwa [hS.apply_eq (hfound.met d rfl)] at htyped
  · rintro e' f s₂ ⟨hleft, hf⟩
    exact ⟨.anno hm hsteps hleft, hf⟩

/-! ## Definitions -/

/-- The goal for the definition of a binder: there is none, or the annotation makes it. -/
inductive BoundGoal (b : Binder) (s : Session) : Goal → Session → Prop where
  | none (hb : b.anno = none) : BoundGoal b s none s
  | some {a : TypeExpr} {d : Demand} {s' : Session} (hb : b.anno = some a)
      (hd : Annotated a s d s') : BoundGoal b s (some d) s'

/-- The goal for a definition always exists. -/
theorem meets_boundGoal (b : Binder) (s : Session) :
    (Infer.boundGoal b).Meets s (BoundGoal b s) fun _ _ => False := by
  unfold Infer.boundGoal
  cases hb : b.anno with
  | none => exact .pure (.none hb)
  | some a => exact .map ((meets_annotated a s).mono (fun d s' hd => .some hb hd) fun _ _ => id)

/-- The goal for a definition is drawn, which retires nothing. -/
theorem BoundGoal.steps {b : Binder} (hs : s.Sound T) (h : BoundGoal b s goal s₁) :
    s.Steps T ∅ s₁ := by
  cases h with
  | none => exact .refl hs
  | some hb hd => exact hd.draws.steps hs

theorem BoundGoal.known {b : Binder} (hs : s.Sound T) (h : BoundGoal b s goal s₁) :
    goal.Known T s₁ := by
  cases h with
  | none => exact Goal.known_none
  | some hb hd => exact Goal.known_some (hd.draws.known hs)

/-- The type that a definition is given: that of its annotation, or else what was found. -/
def definedTy (goal : Goal) (t : Ty) : Ty :=
  match goal with
  | some d => d.expected
  | none => t

/-- The end of the rule for a definition fills the slot of the binder with the generalized type. -/
theorem meets_bindEnd {b : Binder} {Q : Binder × Expr → Scheme → Session → Prop}
    {E : Binder × Expr → Fault TypeError → Session → Prop} (hb : b.scheme = .empty) :
    (∀ l, Q ({ b with scheme := .filled (Γ.generalize s.subst (definedTy goal t)) }, e)
      (Γ.generalize s.subst (definedTy goal t)) { s with log := l }) →
    Walk.Meets (fun s =>
      let t := match goal with
        | some d => d.expected
        | none => t
      let σ := Γ.generalize s.subst t
      (Walk.log (.generalized b.name σ) <|
        Walk.fillBinder b σ (·, e) fun b => .done (b, e) σ) s) s Q E := by
  have hrun (σ : Scheme) : Walk.log (.generalized b.name σ)
      (Walk.fillBinder b σ (·, e) fun b => .done (b, e) σ) s =
      ((({ b with scheme := .filled σ }, e), .ok σ),
        { s with log := .generalized b.name σ :: s.log }) := by
    rw [Walk.log, Walk.fillBinder, hb]
    rfl
  intro h
  cases goal <;> · unfold Walk.Meets; simp only [hrun]; exact h _

/-- What holds when a definition has been generalized. -/
structure Bound (T : Set TyVar) (Γ : Env) (b : Binder) (e : Expr) (s : Session) (b' : Binder)
    (e' : Expr) (σ : Scheme) (s' : Session) : Prop where
  /-- The scheme is in the slot of the binder. -/
  binder : b' = { b with scheme := .filled σ }
  /-- The definition and the session. -/
  defined : Defined T e e' σ s s'
  /-- The definition is derived and generalized later on. -/
  typed : ∀ S, s'.Later ((T \ e'.generic) \ {v | v ∈ σ.vars}) S →
    ∃ t, Typed Env.Generalizes (Γ.resolve S.subst) (e'.resolve S.subst) t ∧
      (∀ a ∈ b.anno, a.Admits t) ∧
      (Γ.resolve S.subst).Generalizes t (S.subst.applyScheme σ)

/-- The type that a definition is given is known. -/
theorem Found.definedTy_known (h : e.Found T Γ goal s e' t s₁) (hs : s.Sound T)
    (hgoal : goal.Known T s) : (definedTy goal t).Known (T \ e'.generic) s₁ := by
  cases goal with
  | none => exact h.known
  | some d => exact (hgoal d rfl).steps hs h.left.steps

/-- The type that a definition is given is the one that was found, as far as it is solved. -/
theorem Found.apply_definedTy (h : e.Found T Γ goal s e' t s₁) :
    s₁.subst.apply t = s₁.subst.apply (definedTy goal t) := by
  cases goal with
  | none => rfl
  | some d => exact h.met d rfl

/-- A definition that was typed in a territory, and in the one its environment reaches, can be
generalized. -/
theorem Found.bound {b : Binder} (hs : s.Sound T) (hΓ : Γ.Known T s) (hgoal : BoundGoal b s goal s₁)
    (h : e.Found T Γ goal s₁ e' t s₂) (hreach : e.Found (Γ.reach s) Γ goal s₁ e' t s₂) :
    Bound T Γ b e s { b with scheme := .filled (Γ.generalize s₂.subst (definedTy goal t)) } e'
      (Γ.generalize s₂.subst (definedTy goal t)) s₂ := by
  have hsreach := hs.reach Γ
  have hsteps := (hgoal.steps hs).act_trans h.left.steps
  have hΓ₂ : Γ.Known (T \ e'.generic) s₂ := hΓ.steps hs hsteps
  have hknown := h.definedTy_known (hgoal.steps hs).sound_act (hgoal.known hs)
  have hknownReach :=
    (hreach.definedTy_known (hgoal.steps hsreach).sound_act (hgoal.known hsreach)).mono
      Set.sdiff_subset
  have hdefined : Defined T e e' (Γ.generalize s₂.subst (definedTy goal t)) s s₂ :=
    { left := .prepend (hgoal.steps hs) h.left
      vars := fun v hv => hknown.mem_of_apply (Env.mem_vars_generalize.1 hv).1
      retires := fun v hv => Env.retires_generalize hs
        ((hgoal.steps hsreach).act_trans hreach.left.steps) hΓ₂ hknownReach hv
      known := Env.known_generalize h.left.sound Γ hknown }
  refine ⟨rfl, hdefined, fun S hS => ⟨S.subst.apply (definedTy goal t), ?_, fun a ha => ?_, ?_⟩⟩
  · have hlater := hS.mono Set.sdiff_subset
    rw [← hlater.apply_eq h.apply_definedTy]
    exact h.typed S hlater
  · cases hgoal with
    | none hb =>
      rw [hb] at ha
      cases ha
    | some hb hd =>
      rw [hb] at ha
      cases ha
      exact hd.admits _
  · obtain ⟨N, hS⟩ := hS
    have hsound := hdefined.sound
    have hΓ' : Γ.Known ((T \ e'.generic) \ _) s₂ :=
      Set.sdiff_sdiff ▸ hΓ.steps hs hdefined.steps
    refine Env.Known.generalizes hΓ₂ hS.le hS.sound (hΓ'.steps hsound hS) ?_
      fun v hv hmem => hmem.1.2 hv
    exact hdefined.known.steps hsound hS fun v hv hmem => hmem.2 hv

/-- A definition is generalized to a scheme, which is in the slot of its binder. -/
theorem meets_bind {b : Binder} {bound : ExprWalk} (hb : b.scheme = .empty)
    (hbound : bound.Keeps e) (hs : s.Sound T) (hΓ : Γ.Known T s) :
    (Infer.bind b e bound Γ).Meets s (fun p σ s' => Bound T Γ b e s p.1 p.2 σ s')
      (fun p f s' => p.1 = b ∧ e.Stopped T s p.2 f s') := by
  have hsreach := hs.reach Γ
  refine .act (meets_boundGoal b s) ?_ nofun
  intro goal s₁ hgoal
  have hsteps := hgoal.steps hs
  have hstepsReach := hgoal.steps hsreach
  refine .andThen ((hbound T Γ goal s₁ hsteps.sound_act (hΓ.act hs hsteps) (hgoal.known hs)).and
    (hbound (Γ.reach s) Γ goal s₁ hstepsReach.sound_act (hΓ.reach.act hsreach hstepsReach)
      (hgoal.known hsreach))) ?_ ?_
  · rintro e' t s₂ ⟨h, hreach⟩
    refine meets_bindEnd hb fun l => ?_
    exact Found.bound hs hΓ hgoal (h.act (.log h.left.sound l))
      (hreach.act (.log hreach.left.sound l))
  · rintro e' f s₂ ⟨⟨hleft, hf⟩, -⟩
    exact ⟨rfl, .prepend hsteps hleft, hf⟩

section

variable {m : Mark} {b b' : Binder} {d d' : Expr} {σ : Scheme}

/-- A definition that stopped leaves the rest of the local definition blank. -/
theorem Left.letIn_of_stopped (hm : m.ty = .empty) (hb : b.scheme = .empty) (he : e.clear = e)
    (hd : Left T d d' s s₁) : Left T (.letIn m b d e) (.letIn m b d' e) s s₁ := by
  have hown : (Expr.letIn m b d' e).own = [] := by
    simp [own, binder?, Binder.quantified, hb, Slot.empty]
  refine .node (.cons hd (.rest (by simpa using he) hd.sound)) ?_ hown ?_ ?_
  · rw [clear_letIn, clear_letIn, hd.shape]
  · intro t ht
    rw [show (Expr.letIn m b d' e).mark = m from rfl, hm] at ht
    cases ht
  · rintro _ τ ⟨⟩ hτ
    rw [hb] at hτ
    cases hτ

/-- The environment of the body is known in what is left of the territory. -/
theorem Bound.env_known (hbound : Bound T Γ b d s b' d' σ s₁) (hs : s.Sound T) (hΓ : Γ.Known T s) :
    (Γ.extend b'.name σ).Known ((T \ d'.generic) \ {v | v ∈ σ.vars}) s₁ := by
  have hΓ₁ : Γ.Known ((T \ d'.generic) \ {v | v ∈ σ.vars}) s₁ :=
    Set.sdiff_sdiff ▸ hΓ.steps hs hbound.defined.steps
  exact hΓ₁.extend _ hbound.defined.known fun v hv hmem => hmem.2 hv

section

variable (hm : m.ty = .empty) (hbound : Bound T Γ b d s b' d' σ s₁)

include hm hbound

/-- The tree of a local definition is tidy if that of its body is in what the definition leaves. -/
theorem Bound.left (he : Left ((T \ d'.generic) \ {v | v ∈ σ.vars}) e e' s₁ s₂) :
    Left T (letIn m b d e) (letIn m b' d' e') s s₂ := by
  obtain rfl := hbound.binder
  refine .letIn hbound.defined he rfl rfl rfl fun t ht => ?_
  rw [hm] at ht
  cases ht

/-- The end of the rules for a local definition, whose type has become equal to that of its body. -/
theorem meets_letEnd {r : Ty} {g : Goal}
    (he : e.Found ((T \ d'.generic) \ {v | v ∈ σ.vars}) (Γ.extend b'.name σ) g s₁ e' t s₂)
    (hr : r.Known (((T \ d'.generic) \ {v | v ∈ σ.vars}) \ e'.generic) s₂)
    (heq : s₂.subst.apply t = s₂.subst.apply r)
    (hmet : ∀ c ∈ goal, s₂.subst.apply r = s₂.subst.apply c.expected)
    {E : Expr → Fault TypeError → Session → Prop} :
    (Walk.annotate (.letIn · b' d' e') m r).Meets s₂ ((letIn m b d e).Found T Γ goal s) E := by
  have hleft := hbound.left hm he.left
  obtain rfl := hbound.binder
  have hterritory : T \ (letIn m { b with scheme := .filled σ } d' e').generic =
      ((T \ d'.generic) \ {v | v ∈ σ.vars}) \ e'.generic := by
    rw [generic_letIn (b := { b with scheme := .filled σ }) rfl, Set.sdiff_sdiff, Set.sdiff_sdiff,
      Set.union_assoc]
  refine meets_annotate (fun _ => rfl) hm hleft (by rwa [hterritory]) hmet ?_
  intro S m' hS hm'
  rw [hterritory] at hS
  obtain ⟨u, hdtyped, hadmits, hgeneralizes⟩ := hbound.typed S (hS.after he.left.steps)
  have hetyped := he.typed S hS
  rw [Env.resolve_extend, hS.apply_eq heq] at hetyped
  exact .letIn hm' hdtyped hadmits rfl hgeneralizes hetyped

end

variable {bound body : ExprWalk} (hm : m.ty = .empty) (hb : b.scheme = .empty) (he : e.clear = e)
  (hbound : bound.Keeps d) (hbody : body.Keeps e) (hs : s.Sound T) (hΓ : Γ.Known T s)

include hm hb he hbound hbody hs hΓ

/-- A local definition has the type of its body. -/
theorem meets_letIn :
    (Infer.letIn m b d e bound body Γ).Meets s ((letIn m b d e).Found T Γ none s)
      ((letIn m b d e).Stopped T s) := by
  refine .andThen (meets_bind hb hbound hs hΓ) ?_ ?_
  · rintro ⟨b', d'⟩ σ s₁ hdef
    refine .andThen
      (hbody _ _ none s₁ hdef.defined.sound (hdef.env_known hs hΓ) Goal.known_none) ?_ ?_
    · intro e' t s₂ hfound
      exact meets_letEnd hm hdef hfound hfound.known rfl (by nofun)
    · rintro e' f s₂ ⟨hleft, hf⟩
      exact ⟨hdef.left hm hleft, hf⟩
  · rintro ⟨b', d'⟩ f s₁ ⟨rfl, hleft, hf⟩
    exact ⟨.letIn_of_stopped hm hb he hleft, hf⟩

/-- Against a demand the body is walked for it. -/
theorem meets_letInAgainst {c : Demand} (hc : c.expected.Known T s) :
    (Infer.letInAgainst m b d e bound body Γ c).Meets s ((letIn m b d e).Found T Γ (some c) s)
      ((letIn m b d e).Stopped T s) := by
  refine .andThen (meets_bind hb hbound hs hΓ) ?_ ?_
  · rintro ⟨b', d'⟩ σ s₁ hdef
    have hs₁ := hdef.defined.sound
    have hc₁ : c.expected.Known ((T \ d'.generic) \ {v | v ∈ σ.vars}) s₁ :=
      Set.sdiff_sdiff ▸ hc.steps hs hdef.defined.steps
    refine .andThen (hbody _ _ (some c) s₁ hs₁ (hdef.env_known hs hΓ) (Goal.known_some hc₁)) ?_ ?_
    · intro e' t s₂ hfound
      refine meets_letEnd hm hdef hfound (hc₁.steps hs₁ hfound.left.steps) (hfound.met c rfl) ?_
      rintro _ ⟨⟩
      rfl
    · rintro e' f s₂ ⟨hleft, hf⟩
      exact ⟨hdef.left hm hleft, hf⟩
  · rintro ⟨b', d'⟩ f s₁ ⟨rfl, hleft, hf⟩
    exact ⟨.letIn_of_stopped hm hb he hleft, hf⟩

end

/-! ## Conditionals -/

section

variable {m : Mark} {c c' y y' n n' : Expr} {tc ty tn r : Ty} {s₃ : Session}

/-- The tree of a conditional is tidy if those of its parts are. -/
theorem Left.cond (hm : m.ty = .empty) (hc : Left T c c' s s₁)
    (hy : Left (T \ c'.generic) y y' s₁ s₂)
    (hn : Left ((T \ c'.generic) \ y'.generic) n n' s₂ s₃) :
    Left T (cond m c y n) (cond m c' y' n') s s₃ := by
  refine .node (.cons hc (.cons hy (.cons hn (.rest nofun hn.sound)))) ?_ rfl ?_ nofun
  · rw [clear_cond, clear_cond, hc.shape, hy.shape, hn.shape]
  · intro t ht
    rw [show (Expr.cond m c' y' n').mark = m from rfl, hm] at ht
    cases ht

/-- The end of the rules for a conditional, whose type has become equal to those of its branches. -/
theorem meets_condEnd {g g' : Goal} (hm : m.ty = .empty)
    (hc : c.Found T Γ (some Infer.truthValue) s c' tc s₁)
    (hy : y.Found (T \ c'.generic) Γ g s₁ y' ty s₂)
    (hn : n.Found ((T \ c'.generic) \ y'.generic) Γ g' s₂ n' tn s₃)
    (hr : r.Known (((T \ c'.generic) \ y'.generic) \ n'.generic) s₃)
    (hyeq : s₃.subst.apply ty = s₃.subst.apply r) (hneq : s₃.subst.apply tn = s₃.subst.apply r)
    (hmet : ∀ d ∈ goal, s₃.subst.apply r = s₃.subst.apply d.expected)
    {E : Expr → Fault TypeError → Session → Prop} :
    (Walk.annotate (.cond · c' y' n') m r).Meets s₃ ((cond m c y n).Found T Γ goal s) E := by
  have hterritory : T \ (cond m c' y' n').generic =
      ((T \ c'.generic) \ y'.generic) \ n'.generic := by
    rw [generic_cond, Set.sdiff_sdiff, Set.sdiff_sdiff, Set.union_assoc]
  refine meets_annotate (fun _ => rfl) hm (.cond hm hc.left hy.left hn.left) (by rwa [hterritory])
    hmet ?_
  intro S m' hS hm'
  rw [hterritory] at hS
  have hS₂ := hS.after hn.left.steps
  have hS₁ := hS₂.after hy.left.steps
  have hctyped := hc.typed S hS₁
  rw [hS₁.apply_eq (hc.met _ rfl)] at hctyped
  have hytyped := hy.typed S hS₂
  rw [hS.apply_eq hyeq] at hytyped
  have hntyped := hn.typed S hS
  rw [hS.apply_eq hneq] at hntyped
  exact .cond hm' hctyped hytyped hntyped

variable {test yes no : ExprWalk} (hm : m.ty = .empty) (hyblank : y.clear = y)
  (hnblank : n.clear = n) (hc : test.Keeps c) (hy : yes.Keeps y) (hs : s.Sound T)
  (hΓ : Γ.Known T s) (hn : no.Keeps n)

include hm hyblank hnblank hc hy hs hΓ

/-- The test and the first branch of a conditional, with what remains to be done after them. -/
theorem meets_condStart {g : Goal} (hg : g.Known T s) {next : Expr → Expr → Ty → Walk Expr Ty}
    (hnext : ∀ c' tc s₁ y' ty s₂, c.Found T Γ (some Infer.truthValue) s c' tc s₁ →
      y.Found (T \ c'.generic) Γ g s₁ y' ty s₂ → s.Steps T (c'.generic ∪ y'.generic) s₂ →
      (next c' y' ty).Meets s₂ ((cond m c y n).Found T Γ goal s) ((cond m c y n).Stopped T s)) :
    ((test Γ (some Infer.truthValue)).andThen (.cond m · y n) fun c' _ =>
      (yes Γ g).andThen (.cond m c' · n) fun y' ty => next c' y' ty).Meets s
        ((cond m c y n).Found T Γ goal s) ((cond m c y n).Stopped T s) := by
  have htruth : Infer.truthValue.expected.Known T s := Ty.known_of_isEmpty rfl
  refine .andThen (hc T Γ _ s hs hΓ (Goal.known_some htruth)) ?_ ?_
  · intro c' tc s₁ hcfound
    have hs₁ := hcfound.left.sound
    refine .andThen (hy _ Γ g s₁ hs₁ (hΓ.steps hs hcfound.left.steps)
      (hg.steps hs hcfound.left.steps)) ?_ ?_
    · intro y' ty s₂ hyfound
      exact hnext c' tc s₁ y' ty s₂ hcfound hyfound (hcfound.left.steps.trans hyfound.left.steps)
    · rintro y' f s₂ ⟨hleft, hf⟩
      exact ⟨.cond hm hcfound.left hleft (.refl hnblank hleft.sound), hf⟩
  · rintro c' f s₁ ⟨hleft, hf⟩
    have hs₁ := hleft.sound
    have hrest : s₁.Sound ((T \ c'.generic) \ y.generic) := by
      rwa [generic_of_blank hyblank, Set.sdiff_empty]
    exact ⟨.cond hm hleft (.refl hyblank hs₁) (.refl hnblank hrest), hf⟩

include hn

/-- A conditional has the type of its branches, in both modes. -/
theorem meets_cond (mode : Mode) :
    (Infer.cond mode m y n test yes no Γ).Meets s ((cond m c y n).Found T Γ none s)
      ((cond m c y n).Stopped T s) := by
  refine meets_condStart hm hyblank hnblank hc hy hs hΓ Goal.known_none ?_
  intro c' tc s₁ y' ty s₂ hcfound hyfound hsteps
  have hs₂ := hyfound.left.sound
  have hΓ₂ : Γ.Known ((T \ c'.generic) \ y'.generic) s₂ := Set.sdiff_sdiff ▸ hΓ.steps hs hsteps
  cases mode with
  | bottomUp =>
    refine .andThen (hn _ Γ none s₂ hs₂ hΓ₂ Goal.known_none) ?_ ?_
    · intro n' tn s₃ hnfound
      have hs₃ := hnfound.left.sound
      have hty := hyfound.known.steps hs₂ hnfound.left.steps
      refine .act (Act.meets_unify hs₃ _ _ hty hnfound.known) ?_ ?_
      · rintro - s₄ ⟨hact, heq⟩
        exact meets_condEnd hm hcfound hyfound (hnfound.act hact) (hty.act hs₃ hact) rfl heq.symm
          (by nofun)
      · rintro f s₄ ⟨hact, hf⟩
        exact ⟨.cond hm hcfound.left hyfound.left (hnfound.left.act hact), hf⟩
    · rintro n' f s₃ ⟨hleft, hf⟩
      exact ⟨.cond hm hcfound.left hyfound.left hleft, hf⟩
  | topDown p =>
    refine .andThen (hn _ Γ _ s₂ hs₂ hΓ₂ (Goal.known_some hyfound.known)) ?_ ?_
    · intro n' tn s₃ hnfound
      exact meets_condEnd hm hcfound hyfound hnfound
        (hyfound.known.steps hs₂ hnfound.left.steps) rfl
        (hnfound.met _ rfl) (by nofun)
    · rintro n' f s₃ ⟨hleft, hf⟩
      exact ⟨.cond hm hcfound.left hyfound.left hleft, hf⟩

/-- Against a demand both branches are walked for its type. -/
theorem meets_condAgainst {d : Demand} (hd : d.expected.Known T s) :
    (Infer.condAgainst m y n test yes no Γ d).Meets s ((cond m c y n).Found T Γ (some d) s)
      ((cond m c y n).Stopped T s) := by
  refine meets_condStart hm hyblank hnblank hc hy hs hΓ (Goal.known_some hd) ?_
  intro c' tc s₁ y' ty s₂ hcfound hyfound hsteps
  have hs₂ := hyfound.left.sound
  have hΓ₂ : Γ.Known ((T \ c'.generic) \ y'.generic) s₂ := Set.sdiff_sdiff ▸ hΓ.steps hs hsteps
  have hd₂ : d.expected.Known ((T \ c'.generic) \ y'.generic) s₂ :=
    Set.sdiff_sdiff ▸ hd.steps hs hsteps
  refine .andThen (hn _ Γ _ s₂ hs₂ hΓ₂ (Goal.known_some hd₂)) ?_ ?_
  · intro n' tn s₃ hnfound
    have hlater : s₂.Later ((T \ c'.generic) \ y'.generic) s₃ := ⟨_, hnfound.left.steps⟩
    refine meets_condEnd hm hcfound hyfound hnfound (hd₂.steps hs₂ hnfound.left.steps)
      (hlater.apply_eq (hyfound.met d rfl)) (hnfound.met ⟨.branch m.span, d.expected⟩ rfl) ?_
    rintro _ ⟨⟩
    rfl
  · rintro n' f s₃ ⟨hleft, hf⟩
    exact ⟨.cond hm hcfound.left hyfound.left hleft, hf⟩

end

/-! ## Tuples -/

/-- What holds when walks of some expressions have found their types. -/
structure FoundAll (T : Set TyVar) (Γ : Env) (goals : List Goal) (es : List Expr) (s : Session)
    (es' : List Expr) (ts : List Ty) (s' : Session) : Prop where
  /-- The trees and the session. -/
  left : LeftAll T es es' s s'
  /-- There is a type for each expression. -/
  length_eq : es'.length = ts.length
  /-- The types are known. -/
  known : ∀ t ∈ ts, t.Known (T \ genericAll es') s'
  /-- The types meet the demands. -/
  met : ∀ (i : Nat) d t, goals[i]? = some (some d) → ts[i]? = some t →
    s'.subst.apply t = s'.subst.apply d.expected
  /-- The trees are derivations later on. -/
  typed : ∀ S, s'.Later (T \ genericAll es') S →
    ∀ p ∈ (es'.map (resolve · S.subst)).zip (ts.map S.subst.apply),
      Typed Env.Generalizes (Γ.resolve S.subst) p.1 p.2

/-- Elements are found one after the other, each in what those before leave. -/
theorem FoundAll.cons {goals : List Goal} {es es' : List Expr} {ts : List Ty}
    (hs : s₁.Sound (T \ e'.generic)) (h : e.Found T Γ (goals.headD none) s e' t s₁)
    (h' : FoundAll (T \ e'.generic) Γ goals.tail es s₁ es' ts s₂) :
    FoundAll T Γ goals (e :: es) s (e' :: es') (t :: ts) s₂ := by
  have hterritory : T \ genericAll (e' :: es') = (T \ e'.generic) \ genericAll es' := by
    rw [genericAll_cons, Set.sdiff_sdiff]
  have hlater : s₁.Later (T \ e'.generic) s₂ := ⟨_, h'.left.steps⟩
  refine ⟨.cons h.left h'.left, by simp [h'.length_eq], ?_, ?_, fun S hS => ?_⟩
  · rw [hterritory]
    intro u hu
    rcases List.mem_cons.1 hu with rfl | hu
    · exact h.known.steps hs h'.left.steps
    · exact h'.known u hu
  · rintro (_ | i) d u hd hu
    · cases hu
      refine hlater.apply_eq (h.met d ?_)
      rw [List.headD_eq_head?_getD, List.head?_eq_getElem?, hd]
      rfl
    · exact h'.met i d u (by rwa [List.getElem?_tail]) hu
  · rw [hterritory] at hS
    intro p hp
    rw [List.map_cons, List.map_cons, List.zip_cons_cons, List.mem_cons] at hp
    rcases hp with rfl | hp
    · exact h.typed S (hS.after h'.left.steps)
    · exact h'.typed S hS p hp

/-- The elements of a tuple keep their promises if each of them does. -/
theorem meets_inferAll (mode : Mode) :
    ∀ {es : List Expr}, (∀ e ∈ es, e.clear = e) → (∀ e ∈ es, (infer mode e).Keeps e) →
      ∀ {T : Set TyVar} {goals : List Goal} {s : Session}, s.Sound T → Γ.Known T s →
        (∀ goal ∈ goals, goal.Known T s) →
        (inferAll mode es Γ goals).Meets s (FoundAll T Γ goals es s)
          (fun es' f s' => LeftAll T es es' s s' ∧ f.Ordinary)
  | [], _, _, T, goals, s, hs, _, _ => by
    rw [inferAll]
    refine .done ⟨.rest nofun hs, rfl, nofun, fun i d t _ ht => ?_, fun S _ => nofun⟩
    cases ht
  | e :: es, hblank, hkeeps, T, goals, s, hs, hΓ, hgoals => by
    rw [inferAll]
    have hblank' : ∀ e ∈ es, e.clear = e := fun d hd => hblank d (List.mem_cons_of_mem e hd)
    have hgoal : (goals.headD none).Known T s := by
      cases goals with
      | nil => exact Goal.known_none
      | cons goal goals => exact hgoals goal (List.mem_cons_self ..)
    refine .andThen (hkeeps e (List.mem_cons_self ..) T Γ _ s hs hΓ hgoal) ?_ ?_
    · intro e' t s₁ hfound
      have hs₁ := hfound.left.sound
      refine .andThen (meets_inferAll mode hblank'
        (fun d hd => hkeeps d (List.mem_cons_of_mem e hd))
        hs₁ (hΓ.steps hs hfound.left.steps) fun goal hg =>
          (hgoals goal (List.mem_of_mem_tail hg)).steps hs hfound.left.steps) ?_ ?_
      · intro es' ts s₂ hfounds
        exact .done (hfounds.cons hs₁ hfound)
      · rintro es' f s₂ ⟨hleft, hf⟩
        exact ⟨.cons hfound.left hleft, hf⟩
    · rintro e' f s₁ ⟨hleft, hf⟩
      exact ⟨.cons hleft (.rest hblank' hleft.sound), hf⟩

section

variable {m : Mark} {es es' : List Expr} {ts : List Ty}

/-- The tree of a tuple is tidy if those of its elements are. -/
theorem Left.tuple (hm : m.ty = .empty) (hes : LeftAll T es es' s s₁) :
    Left T (tuple m es) (tuple m es') s s₁ := by
  refine .node hes ?_ rfl ?_ nofun
  · rw [clear_tuple, clear_tuple, hes.shape]
  · intro t ht
    rw [show (Expr.tuple m es').mark = m from rfl, hm] at ht
    cases ht

/-- The end of the rules for a tuple, whose type has become equal to that of its elements. -/
theorem meets_tupleEnd {goals : List Goal} {r : Ty} (hm : m.ty = .empty)
    (hes : FoundAll T Γ goals es s es' ts s₁) (hr : r.Known (T \ genericAll es') s₁)
    (heq : s₁.subst.apply r = s₁.subst.apply (.tuple ts))
    (hmet : ∀ d ∈ goal, s₁.subst.apply r = s₁.subst.apply d.expected)
    {E : Expr → Fault TypeError → Session → Prop} :
    (Walk.annotate (.tuple · es') m r).Meets s₁ ((tuple m es).Found T Γ goal s) E := by
  refine meets_annotate (fun _ => rfl) hm (.tuple hm hes.left) (by rwa [generic_tuple]) hmet ?_
  intro S m' hS hm'
  rw [generic_tuple] at hS
  have heq' := hS.apply_eq heq
  rw [Subst.apply_tuple] at heq'
  rw [heq'] at hm' ⊢
  rw [resolve, retype_tuple]
  exact .tuple hm' (by simp [hes.length_eq]) (hes.typed S hS)

variable (mode : Mode) (hm : m.ty = .empty) (hblank : ∀ e ∈ es, e.clear = e)
  (hkeeps : ∀ e ∈ es, (infer mode e).Keeps e) (hs : s.Sound T) (hΓ : Γ.Known T s)

include hm hblank hkeeps hs hΓ

/-- A tuple has the tuple of the types of its elements. -/
theorem meets_tuple :
    (Infer.tuple m es (inferAll mode es) Γ).Meets s ((tuple m es).Found T Γ none s)
      ((tuple m es).Stopped T s) := by
  have hgoals : ∀ goal ∈ es.map fun _ => (none : Goal), Goal.Known T s goal := by
    intro goal hg
    obtain ⟨e, -, rfl⟩ := List.mem_map.1 hg
    exact Goal.known_none
  refine .andThen (meets_inferAll mode hblank hkeeps hs hΓ hgoals) ?_ ?_
  · intro es' ts s₁ hfounds
    exact meets_tupleEnd hm hfounds (Ty.known_tuple.2 hfounds.known) rfl (by nofun)
  · rintro es' f s₁ ⟨hleft, hf⟩
    exact ⟨.tuple hm hleft, hf⟩

/-- Against a demand for a tuple each element is walked for its part. -/
theorem meets_tupleAgainst {d : Demand} (hd : d.expected.Known T s) (hty : d.expected = .tuple ts)
    (hlen : ts.length = es.length) :
    (Infer.tupleAgainst m (inferAll mode es) Γ d ts).Meets s ((tuple m es).Found T Γ (some d) s)
      ((tuple m es).Stopped T s) := by
  have hgoals : ∀ goal ∈ ts.map fun t => some (⟨d.because, t⟩ : Demand), Goal.Known T s goal := by
    intro goal hg
    obtain ⟨t, ht, rfl⟩ := List.mem_map.1 hg
    exact Goal.known_some (Ty.known_tuple.1 (hty ▸ hd) t ht)
  refine .andThen (meets_inferAll mode hblank hkeeps hs hΓ hgoals) ?_ ?_
  · intro es' us s₁ hfounds
    refine meets_tupleEnd hm hfounds (hd.steps hs hfounds.left.steps) ?_ ?_
    · have hshape := congrArg List.length hfounds.left.shape
      rw [List.length_map, List.length_map] at hshape
      have hlen' : ts.length = us.length := by rw [hlen, ← hshape, hfounds.length_eq]
      rw [hty, Subst.apply_tuple, Subst.apply_tuple, Ty.tuple_inj]
      refine List.ext_getElem? fun i => ?_
      rw [List.getElem?_map, List.getElem?_map]
      cases ht : ts[i]? with
      | none =>
        rw [List.getElem?_eq_none_iff, hlen', ← List.getElem?_eq_none_iff] at ht
        rw [ht]
      | some t =>
        have hi : i < us.length := hlen' ▸ (List.getElem?_eq_some_iff.1 ht).1
        have hmet := hfounds.met i ⟨d.because, t⟩ us[i] (by rw [List.getElem?_map, ht]; rfl)
          (List.getElem?_eq_getElem hi)
        rw [List.getElem?_eq_getElem hi, Option.map_some, Option.map_some, hmet]
    · rintro _ ⟨⟩
      rfl
  · rintro es' f s₁ ⟨hleft, hf⟩
    exact ⟨.tuple hm hleft, hf⟩

end

/-! ## Expressions -/

/-- What meets the demand that is pushed meets the goal. -/
theorem Found.of_pushed {mode : Mode} {d : Demand} (hpush : mode.pushed? goal s = some d)
    (h : e.Found T Γ (some d) s e' t s₁) : e.Found T Γ goal s e' t s₁ := by
  obtain ⟨c, rfl, rfl⟩ := Mode.pushed?_eq_some hpush
  have hlater : s.Later T s₁ := ⟨_, h.left.steps⟩
  refine { h with met := ?_ }
  rintro _ ⟨⟩
  rw [h.met _ rfl, hlater.apply_apply]

/-- The demand that is pushed is known if the goal is. -/
theorem known_pushed {mode : Mode} {d : Demand} (hs : s.Sound T) (hgoal : goal.Known T s)
    (hpush : mode.pushed? goal s = some d) : d.expected.Known T s := by
  obtain ⟨c, rfl, rfl⟩ := Mode.pushed?_eq_some hpush
  exact (hgoal c rfl).apply hs

/-- A rule for a pushed demand serves the goal that the demand comes from. -/
theorem meets_of_pushed {mode : Mode} {d : Demand} {w : Walk Expr Ty}
    (hpush : mode.pushed? goal s = some d)
    (h : w.Meets s (e.Found T Γ (some d) s) (e.Stopped T s)) :
    w.Meets s (e.Found T Γ goal s) (e.Stopped T s) :=
  h.mono (fun _ _ _ hfound => hfound.of_pushed hpush) fun _ _ _ => id

/-- Inference keeps its promises, in every mode. -/
theorem infer_keeps (mode : Mode) (e : Expr) (he : e.clear = e) : (infer mode e).Keeps e := by
  induction e using Expr.inductionOn with
  | lit m l =>
    intro T Γ goal s hs hΓ hgoal
    rw [infer]
    exact meets_settle hs hgoal (meets_lit (Mark.ty_of_blank (Expr.lit.inj he).1) l hs)
  | name m x =>
    intro T Γ goal s hs hΓ hgoal
    rw [infer]
    exact meets_settle hs hgoal (meets_name (Mark.ty_of_blank (Expr.name.inj he).1) x hs hΓ)
  | lam m p b ih =>
    intro T Γ goal s hs hΓ hgoal
    obtain ⟨hm, hp, hb⟩ := Expr.lam.inj he
    have hm := Mark.ty_of_blank hm
    have hp := Binder.scheme_of_blank hp
    obtain ⟨d, t, u, hpush, hfn, hrun⟩ | ⟨-, hrun⟩ := infer_lam mode m Γ goal s p b
    · refine .congr hrun (meets_of_pushed hpush ?_)
      exact meets_lamAgainst hm hp hb (ih hb) hs hΓ (known_pushed hs hgoal hpush) hfn
    · exact .congr hrun (meets_settle hs hgoal (meets_lam hm hp (ih hb) hs hΓ))
  | app m f a ihf iha =>
    intro T Γ goal s hs hΓ hgoal
    obtain ⟨hm, hf, ha⟩ := Expr.app.inj he
    rw [infer]
    exact meets_settle hs hgoal
      (meets_app mode (Mark.ty_of_blank hm) ha (ihf hf) (iha ha) hs hΓ)
  | letIn m b d e ihd ihe =>
    intro T Γ goal s hs hΓ hgoal
    obtain ⟨hm, hb, hd, he⟩ := Expr.letIn.inj he
    have hm := Mark.ty_of_blank hm
    have hb := Binder.scheme_of_blank hb
    obtain ⟨c, hpush, hrun⟩ | ⟨-, hrun⟩ := infer_letIn mode m Γ goal s b d e
    · refine .congr hrun (meets_of_pushed hpush ?_)
      exact meets_letInAgainst hm hb he (ihd hd) (ihe he) hs hΓ (known_pushed hs hgoal hpush)
    · exact .congr hrun (meets_settle hs hgoal (meets_letIn hm hb he (ihd hd) (ihe he) hs hΓ))
  | cond m c y n ihc ihy ihn =>
    intro T Γ goal s hs hΓ hgoal
    obtain ⟨hm, hc, hy, hn⟩ := Expr.cond.inj he
    have hm := Mark.ty_of_blank hm
    obtain ⟨d, hyes, hrun⟩ | ⟨-, hrun⟩ := infer_cond mode m Γ goal s c y n
    · have hpush := Mode.pushed?_of_yesGoal hyes
      refine .congr hrun (meets_of_pushed hpush ?_)
      exact meets_condAgainst hm hy hn (ihc hc) (ihy hy) hs hΓ (ihn hn)
        (known_pushed hs hgoal hpush)
    · refine .congr hrun (meets_settle hs hgoal ?_)
      exact meets_cond hm hy hn (ihc hc) (ihy hy) hs hΓ (ihn hn) mode
  | anno m e a ih =>
    intro T Γ goal s hs hΓ hgoal
    obtain ⟨hm, he, -⟩ := Expr.anno.inj he
    rw [infer]
    exact meets_settle hs hgoal (meets_anno a (Mark.ty_of_blank hm) (ih he) hs hΓ)
  | tuple m es ih =>
    intro T Γ goal s hs hΓ hgoal
    rw [clear_tuple] at he
    obtain ⟨hm, hes⟩ := Expr.tuple.inj he
    have hm := Mark.ty_of_blank hm
    have hblank : ∀ e ∈ es, e.clear = e := List.map_inj_left.1 (hes.trans (List.map_id' es).symm)
    have hkeeps : ∀ e ∈ es, (infer mode e).Keeps e := fun e h => ih e h (hblank e h)
    obtain ⟨d, ts, hpush, hty, hlen, -, hrun⟩ | ⟨-, hrun⟩ := infer_tuple mode m Γ goal s es
    · refine .congr hrun (meets_of_pushed hpush ?_)
      exact meets_tupleAgainst mode hm hblank hkeeps hs hΓ (known_pushed hs hgoal hpush) hty hlen
    · exact .congr hrun (meets_settle hs hgoal (meets_tuple mode hm hblank hkeeps hs hΓ))
  | invalid m =>
    intro T Γ goal s hs hΓ hgoal
    rw [infer]
    exact meets_settle hs hgoal (meets_invalid (Mark.ty_of_blank (Expr.invalid.inj he)) hs)

end Expr

end LetPoly
