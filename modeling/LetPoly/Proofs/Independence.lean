import LetPoly.Proofs.Completeness
import LetPoly.Proofs.Grammar

/-!
# Later declarations do not matter to earlier ones

A run over `p ++ q` begins with the walk of `p`.  If that stops, nothing of `q` is ever looked at.
Otherwise `q` is walked in the scope of `p`, with the session that `p` has left behind, and the slots
of `p` are resolved only after that.

All declarations have closed schemes, so in the scope of `p` nothing stands for a variable that was
drawn for `p`.  So `q` is walked in the territory of the variables that are not drawn yet, and what
the slots of `p` stand for stays the same.
-/

namespace LetPoly

/-- The errors of a verdict. -/
def Verdict.errors : Verdict → List TypeError
  | typed => []
  | illTyped es => es
  | broken _ => []

/-! ## Walks of two programs -/

/-- A definition that was typed has its scheme in the slot of its binder. -/
theorem Infer.binder_of_bind {b b' : Binder} {e e' : Expr} {bound : ExprWalk} {Γ : Env}
    {σ : Scheme} {s s' : Session} (hb : b.scheme = .empty)
    (h : Infer.bind b e bound Γ s = (((b', e'), .ok σ), s')) :
    b' = { b with scheme := .filled σ } := by
  have hmeets : (Infer.bind b e bound Γ).Meets s
      (fun p σ _ => p.1 = { b with scheme := .filled σ }) (fun _ _ _ => True) := by
    refine .act (Expr.meets_boundGoal b s) (fun goal s₁ _ => ?_) fun _ _ _ => trivial
    refine .andThen (Q := fun _ _ _ => True) (E := fun _ _ _ => True) ?_
      (fun e' t s₂ _ => Expr.meets_bindEnd hb fun _ => rfl) fun _ _ _ _ => trivial
    unfold Walk.Meets
    split <;> trivial
  exact hmeets.of_ok h

namespace Program

/-- How the walk of a program ends, before types are assembled. -/
def walkResult (mode : Mode) (p : Program) : Except (Fault TypeError) Unit :=
  (Program.infer mode p.clear Prelude.env Session.start).1.2

/-- The environment in the scope of declarations. -/
def scope (Γ : Env) (p : Program) : Env :=
  p.foldl (fun Γ d =>
    match d.binder.scheme.get? with
    | some σ => Γ.extend d.binder.name σ
    | none => Γ) Γ

theorem scope_cons {d : Decl} {σ : Scheme} (hd : d.binder.scheme = .filled σ) (Γ : Env)
    (ds : Program) : scope Γ (d :: ds) = scope (Γ.extend d.binder.name σ) ds := by
  rw [scope, List.foldl_cons, hd]
  rfl

theorem lookup?_scope {Γ : Env} {p : Program} {x : String} {σ : Scheme}
    (h : (scope Γ p).lookup? x = some σ) :
    (∃ d ∈ p, d.binder.scheme = .filled σ) ∨ Γ.lookup? x = some σ := by
  induction p generalizing Γ with
  | nil => exact .inr h
  | cons d ds ih =>
    have hmem (Γ' : Env) (h : (scope Γ' ds).lookup? x = some σ) :
        (∃ c ∈ d :: ds, c.binder.scheme = .filled σ) ∨ Γ'.lookup? x = some σ :=
      (ih h).imp_left fun ⟨c, hc, hσ⟩ => ⟨c, List.mem_cons_of_mem d hc, hσ⟩
    cases hd : d.binder.scheme with
    | mk τ? =>
      cases τ? with
      | none =>
        rw [scope, List.foldl_cons, hd] at h
        exact hmem Γ h
      | some τ =>
        rw [scope_cons hd] at h
        refine (hmem _ h).elim .inl fun hx => ?_
        obtain ⟨-, rfl⟩ | ⟨-, hx⟩ := Env.lookup?_extend_eq_some.1 hx
        · exact .inl ⟨d, List.mem_cons_self .., hd⟩
        · exact .inr hx

variable {mode : Mode} {p p' q q' : Program} {Γ : Env} {s s₁ s₂ : Session}

/-- What stands behind a program whose walk stops is left as it is. -/
theorem infer_append_of_error {f : Fault TypeError} (q : Program)
    (h : Program.infer mode p Γ s = ((p', .error f), s₁)) :
    Program.infer mode (p ++ q) Γ s = ((p' ++ q, .error f), s₁) := by
  induction p generalizing Γ s p' with
  | nil => cases h
  | cons d ds ih =>
    rw [Program.infer, Walk.andThen] at h
    rw [List.cons_append, Program.infer, Walk.andThen]
    rcases hbind : Infer.bind d.binder d.bound (d.bound.infer mode) Γ s with ⟨⟨⟨b, e⟩, g | σ⟩, s'⟩
    · rw [hbind] at h
      cases h
      rfl
    · rw [hbind] at h
      simp only [Walk.log, Walk.andThen] at h ⊢
      rcases hrest : Program.infer mode ds (Γ.extend d.binder.name σ)
        { s' with log := .inferred d.binder.name σ :: s'.log } with ⟨⟨ds', g | u⟩, s''⟩
      · rw [hrest] at h
        cases h
        rw [ih hrest]
        rfl
      · rw [hrest] at h
        cases h

/-- What stands behind a program whose walk ends is walked in its scope. -/
theorem infer_append_of_ok {r : Except (Fault TypeError) Unit} (hp : ∀ d ∈ p, d.clear = d)
    (h : Program.infer mode p Γ s = ((p', .ok ()), s₁))
    (hq : Program.infer mode q (scope Γ p') s₁ = ((q', r), s₂)) :
    Program.infer mode (p ++ q) Γ s = ((p' ++ q', r), s₂) := by
  induction p generalizing Γ s p' with
  | nil =>
    cases h
    exact hq
  | cons d ds ih =>
    rw [Program.infer, Walk.andThen] at h
    rw [List.cons_append, Program.infer, Walk.andThen]
    rcases hbind : Infer.bind d.binder d.bound (d.bound.infer mode) Γ s with ⟨⟨⟨b, e⟩, g | σ⟩, s'⟩
    · rw [hbind] at h
      cases h
    · rw [hbind] at h
      simp only [Walk.log, Walk.andThen] at h ⊢
      rcases hrest : Program.infer mode ds (Γ.extend d.binder.name σ)
        { s' with log := .inferred d.binder.name σ :: s'.log } with ⟨⟨ds', g | u⟩, s''⟩
      · rw [hrest] at h
        cases h
      · rw [hrest] at h
        cases h
        have hd : d.binder.scheme = .empty := by
          rw [← hp d (List.mem_cons_self ..)]
          rfl
        obtain rfl := Infer.binder_of_bind hd hbind
        rw [scope_cons rfl] at hq
        rw [ih (fun c hc => hp c (List.mem_cons_of_mem d hc)) hrest hq]
        cases r <;> rfl

end Program

/-! ## What is solved later -/

section

variable {T U N : Set TyVar} {s s' : Session}

/-- A stretch that stays with variables not yet drawn does not change what a type stands for. -/
theorem Session.Steps.apply_eq (hs : s.Sound T) (h : s.Steps {v | s.drawn ≤ v} N s') {t : Ty}
    (ht : ∀ v ∈ t.occurrences, v < s.drawn) : s'.subst.apply t = s.subst.apply t := by
  have hopen : ∀ v ∈ (s.subst.apply t).occurrences, s'.subst.get? v = none := by
    intro v hv
    obtain ⟨u, hu, hvu⟩ := Subst.mem_apply.1 hv
    have hlt := hs.lt_of_mem_apply (ht u hu) v hvu
    exact h.get?_of_not_mem (Nat.not_le.2 hlt) (hs.acyclic.get?_of_mem_apply hv)
  calc s'.subst.apply t = s'.subst.apply (s.subst.apply t) :=
        (h.sound.acyclic.apply_apply_of_le h.le t).symm
    _ = s.subst.apply t := Subst.apply_eq_self hopen

theorem Session.Steps.applyScheme_eq (hs : s.Sound T) (h : s.Steps {v | s.drawn ≤ v} N s')
    {σ : Scheme} (hσ : σ.Known U s) : s'.subst.applyScheme σ = s.subst.applyScheme σ := by
  have hunsolved : ∀ v ∈ σ.vars, s'.subst.get? v = none := fun v hv =>
    h.get?_of_not_mem (Nat.not_le.2 (hσ.below v hv)) (hσ.unsolved v hv)
  rw [hσ.applyScheme_eq, Subst.applyScheme, Subst.without_eq_self hunsolved,
    h.apply_eq hs hσ.lt_drawn]

/-- It does not change what the slots of a tidy tree stand for either. -/
theorem Expr.Tidy.resolve_eq {e : Expr} (he : e.Tidy s U) (hs : s.Sound T)
    (h : s.Steps {v | s.drawn ≤ v} N s') : e.resolve s'.subst = e.resolve s.subst := by
  refine retype_congr (fun d hd t ht => ?_) fun d hd b σ hb hσ => ?_
  · obtain ⟨U', hd⟩ := he.walk d hd
    exact h.apply_eq hs fun v hv => (hd.mark t ht v hv).1
  · obtain ⟨U', hd⟩ := he.walk d hd
    exact h.applyScheme_eq hs (hd.binder b σ hb hσ)

theorem Program.Tidy.resolve_eq {p : Program} (hp : p.Tidy U s) (hs : s.Sound T)
    (h : s.Steps {v | s.drawn ≤ v} N s') : p.resolve s'.subst = p.resolve s.subst := by
  refine List.map_congr_left fun d hd => ?_
  obtain ⟨i, hi⟩ := List.mem_iff_getElem?.1 hd
  have hbinder : d.binder.scheme.resolve s'.subst.applyScheme =
      d.binder.scheme.resolve s.subst.applyScheme :=
    Slot.resolve_congr fun σ hσ => h.applyScheme_eq hs (hp.binder d hd σ hσ)
  exact congrArg₂ (Decl.mk d.span) (congrArg (Binder.mk _ _ _) hbinder)
    ((hp.bound i d hi).resolve_eq hs h)

end

namespace Program

variable {mode : Mode} {p p' q : Program} {s : Session}

/-- The scheme of a declaration is closed once it is resolved. -/
theorem Walked.closed (h : p.Walked mode p' s) {d : Decl} (hd : d ∈ p') {σ : Scheme}
    (hσ : d.binder.scheme = .filled σ) :
    ∀ v ∈ (s.subst.apply σ.ty).occurrences, v ∈ σ.vars := by
  have hknown := h.found.left.tidy.binder d hd σ hσ
  obtain ⟨τ, hτ, hclosed⟩ := h.derivation.isClosed Prelude.not_free _ (List.mem_map_of_mem hd)
  change d.binder.scheme.resolve s.subst.applyScheme = .filled τ at hτ
  rw [hσ] at hτ
  cases hτ
  rwa [hknown.applyScheme_eq] at hclosed

/-- In the scope of a program nothing stands for a variable that is drawn. -/
theorem Walked.scope_known (h : p.Walked mode p' s) :
    (scope Prelude.env p').Known {v | s.drawn ≤ v} s := by
  have hleft := h.found.left
  have hprelude := Prelude.env_known.steps Prelude.start_sound hleft.steps
  have hscheme (x : String) (σ : Scheme) (hx : (scope Prelude.env p').lookup? x = some σ) :
      σ.Known {v | s.drawn ≤ v} s := by
    rcases lookup?_scope hx with ⟨d, hd, hσ⟩ | hx
    · have hknown := hleft.tidy.binder d hd σ hσ
      refine { hknown with free := fun v hv => ⟨(hknown.free v hv).1, fun w hw => ?_⟩ }
      -- The resolved scheme is closed, so it quantifies over `w`, which is generic then.
      have hvars : w ∈ σ.vars := by
        exact h.closed hd hσ w (Subst.mem_apply.2 ⟨v, (Scheme.mem_freeVars.1 hv).1, hw⟩)
      have hgeneric : w ∈ p'.generic := by
        refine ⟨d, hd, .inr ?_⟩
        simpa [Binder.quantified, hσ, Slot.filled] using hvars
      exact absurd hgeneric ((hknown.free v hv).2 w hw).2
    · refine { hprelude.scheme x σ hx with free := fun v hv => ?_ }
      exact absurd ⟨x, σ, hx, hv⟩ (Prelude.not_free v)
  exact ⟨hscheme, fun x σ hx v hv => Nat.not_le.2 ((hscheme x σ hx).below v hv)⟩

/-! ## Runs over two programs -/

theorem clear_append (p q : Program) : (p ++ q).clear = p.clear ++ q.clear := List.map_append

theorem resolve_append (p q : Program) (r : Subst) :
    (p ++ q).resolve r = p.resolve r ++ q.resolve r :=
  List.map_append

theorem ambiguities_append (p q : Program) :
    (p ++ q).ambiguities = p.ambiguities ++ q.ambiguities :=
  List.filterMap_append

/-- The errors of a program whose walk ended are its ambiguities. -/
theorem Walked.errors_eq (h : p.Walked mode p' s) :
    (p.inferTypes mode).verdict.errors = (p'.resolve s.subst).ambiguities := by
  by_cases hnone : (p'.resolve s.subst).ambiguities = []
  · rw [h.typed.2 hnone, hnone]
    rfl
  · rw [(h.illTyped _).2 ⟨rfl, hnone⟩]
    rfl

theorem walked_of_walkResult (h : p.walkResult mode = .ok ()) : ∃ p' s, p.Walked mode p' s := by
  obtain ⟨p', e, s, hfailed⟩ | hwalked := p.failed_or_walked mode
  · rw [walkResult, hfailed.walk] at h
    cases h
  · exact hwalked

theorem failed_of_walkResult {e : TypeError} (h : p.walkResult mode = .error (.error e)) :
    ∃ p' s, p.Failed mode p' e s := by
  obtain ⟨p', e', s, hfailed⟩ | ⟨p', s, hwalked⟩ := p.failed_or_walked mode
  · rw [walkResult, hfailed.walk] at h
    cases h
    exact ⟨p', s, hfailed⟩
  · rw [walkResult, hwalked.walk] at h
    cases h

/-- If the walk of a program stops, what stands behind it is left blank. -/
theorem Failed.append {e : TypeError} (h : p.Failed mode p' e s) (q : Program) :
    ((p ++ q).inferTypes mode).verdict = .illTyped [e] ∧
      ((p ++ q).inferTypes mode).program = p' ++ q.clear := by
  have hrun := infer_append_of_error q.clear h.walk
  rw [← clear_append] at hrun
  rw [inferTypes, hrun]
  exact ⟨rfl, rfl⟩

/-- If the walk of a program ends, what stands behind it adds to the walk, and leaves what the slots
of the program stand for as it is. -/
theorem Walked.append {r : Program} {s' : Session} (h : p.Walked mode p' s)
    (h' : (p ++ q).Walked mode r s') :
    ∃ q', r.resolve s'.subst = p'.resolve s.subst ++ q' ∧ q'.clear = q.clear := by
  have hsound : s.Sound {v | s.drawn ≤ v} := { h.found.left.sound with fresh := fun _ hv => hv }
  rcases hq : Program.infer mode q.clear (scope Prelude.env p') s with ⟨⟨q', res⟩, s''⟩
  have hrun := infer_append_of_ok p.clear_blank h.walk hq
  rw [← clear_append, h'.walk] at hrun
  cases hrun
  have hfound := (meets_infer mode q.clear_blank hsound h.scope_known).of_ok hq
  refine ⟨q'.resolve s'.subst, ?_, ?_⟩
  · rw [resolve_append, h.found.left.tidy.resolve_eq hsound hfound.left.steps]
  · rw [clear_resolve, hfound.left.shape, clear_clear]

end Program

/-- Later declarations do not matter to earlier ones.  If the walk of a program stops with an
error, that is the only error whatever stands behind the program, and what stands behind it is left
blank.  If it ends, and so does the walk with more declarations behind the program, these add
to the errors and change nothing in the slots of the program. -/
theorem earlier_unaffected (mode : Mode) (p q : Program) :
    (∀ e, p.walkResult mode = .error (.error e) →
      (p.inferTypes mode).verdict = .illTyped [e] ∧
        ((p ++ q).inferTypes mode).verdict = .illTyped [e] ∧
        ((p ++ q).inferTypes mode).program = (p.inferTypes mode).program ++ q.clear) ∧
    (p.walkResult mode = .ok () → (p ++ q).walkResult mode = .ok () →
      (∃ q', ((p ++ q).inferTypes mode).program = (p.inferTypes mode).program ++ q' ∧
        q'.clear = q.clear) ∧
      (p.inferTypes mode).verdict.errors <+: ((p ++ q).inferTypes mode).verdict.errors) := by
  refine ⟨fun e he => ?_, fun hp hpq => ?_⟩
  · obtain ⟨p', s, hfailed⟩ := Program.failed_of_walkResult he
    obtain ⟨hverdict, hprogram⟩ := hfailed.append q
    rw [hfailed.program]
    exact ⟨hfailed.verdict, hverdict, hprogram⟩
  · obtain ⟨p', s, hwalked⟩ := Program.walked_of_walkResult hp
    obtain ⟨r, s', hwalked'⟩ := Program.walked_of_walkResult hpq
    obtain ⟨q', hresolved, hclear⟩ := hwalked.append hwalked'
    rw [hwalked.program, hwalked'.program, hwalked.errors_eq, hwalked'.errors_eq, hresolved,
      Program.ambiguities_append]
    exact ⟨⟨q', rfl, hclear⟩, List.prefix_append _ _⟩

/-- The declaration of a name. -/
def Decl.sample (x : String) (e : Expr) : Decl := ⟨.nowhere, ⟨x, .nowhere, none, .empty⟩, e⟩

/-- `let x = (fn (y) -> 1)(fn (z) -> z)`, which leaves the type of `z` open. -/
def Program.openSample : Program :=
  let fn (x : String) (e : Expr) : Expr := .lam .nowhere ⟨x, .nowhere, none, .empty⟩ e
  [.sample "x" (.app .nowhere (fn "y" (.lit .nowhere (.int 1))) (fn "z" (.name .nowhere "z")))]

/-- The open type stays an error if a use of `x` follows, and an unbound name is the only error even
if an open type follows. -/
theorem earlier_unaffected_sample :
    let use : Program := [.sample "w" (.name .nowhere "x")]
    Program.openSample.walkResult .bottomUp = .ok () ∧
      (Program.openSample ++ use).walkResult .bottomUp = .ok () ∧
      (Program.openSample.inferTypes .bottomUp).verdict.errors ≠ [] ∧
      (Program.openSample.inferTypes .bottomUp).verdict.errors <+:
        ((Program.openSample ++ use).inferTypes .bottomUp).verdict.errors ∧
      use.walkResult .bottomUp = .error (.error (.unbound .nowhere "x")) ∧
      ((use ++ Program.openSample).inferTypes .bottomUp).verdict =
        .illTyped [.unbound .nowhere "x"] := by
  intro use
  have hopen : Program.openSample.walkResult .bottomUp = .ok () := by decide +kernel
  have hboth : (Program.openSample ++ use).walkResult .bottomUp = .ok () := by decide +kernel
  have hne : (Program.openSample.inferTypes .bottomUp).verdict.errors ≠ [] := by decide +kernel
  have hunbound : use.walkResult .bottomUp = .error (.error (.unbound .nowhere "x")) := by
    decide +kernel
  have hadds := (earlier_unaffected .bottomUp Program.openSample use).2 hopen hboth
  have hstops := (earlier_unaffected .bottomUp use Program.openSample).1 _ hunbound
  exact ⟨hopen, hboth, hne, hadds.2, hunbound, hstops.2.1⟩

end LetPoly
