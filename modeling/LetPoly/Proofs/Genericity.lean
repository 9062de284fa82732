import LetPoly.Proofs.Coverage

/-!
# Generalized variables stay generic

The scheme that a definition gets quantifies over variables that belong to the definition alone.
From then on nothing solves them, no environment in use outside the definition has them free, no
slot outside the definition mentions them except that of its binder, and no other variable of the
scheme comes to stand for a type with them (`generalized_stay_generic`).  So a scheme can be
resolved below its quantifiers, and keeps them.
-/

namespace LetPoly

/-! ## Where the schemes in scope stand -/

namespace Program

variable {p : Program} {b : Binder} {δ κ : Place} {σ τ : Scheme}

theorem at?_of_getElem? {i : Nat} {π : List Nat} {d : Decl} (hd : p[i]? = some d) :
    p.at? (i :: π) = d.bound.at? π := by
  rw [at?, hd]

/-- The place of a definition determines its binder. -/
theorem Defines.eq_of_decl {i : Nat} {d : Decl} (hb : p.Defines b [i]) (hd : p[i]? = some d) :
    d.binder = b := by
  obtain ⟨j, π, c, heq, hc, ⟨-, hb⟩ | ⟨κ, m, d', e, hπ, -⟩⟩ := hb.exists_decl
  · cases heq
    cases hd.symm.trans hc
    exact hb
  · subst hπ
    simp at heq

theorem Defines.eq_of_binder {c : Expr} {b' : Binder} (hb : p.Defines b (κ ++ [0]))
    (hc : p.at? κ = some c) (hb' : c.binder? = some b') : b' = b := by
  generalize hδ : κ ++ [0] = δ at hb
  cases hb with
  | @decl i d hd =>
    cases κ with
    | nil => cases hc
    | cons => simp at hδ
  | letIn h =>
    cases List.append_cancel_right hδ
    cases hc.symm.trans h
    cases hb'
    rfl

/-- A scheme in scope outside a definition is that of its binder, or stands in another slot outside
the definition. -/
theorem Passes.own_or_outside (h : p.Passes κ τ) (hb : p.Defines b δ) (hκ : δ <+: κ → κ = δ) :
    b.scheme = .filled τ ∨ p.Outside δ τ := by
  cases h with
  | @decl i j π d _ hj hd hτ =>
    by_cases hδ : [j] = δ
    · subst hδ
      exact .inl (hb.eq_of_decl hd ▸ hτ)
    · exact .inr (.decl hδ hd hτ)
  | @part i π d _ hd h =>
    obtain ⟨κ, j, c, b', hκ', hat, hb', hτ⟩ := h
    have hat' : p.at? (i :: κ) = some c := (at?_of_getElem? hd).trans hat
    have hout : ¬ δ <+: i :: κ := by
      intro hδ
      have hlt : (i :: κ).length < (i :: π).length := by
        simpa [Nat.succ_le_iff] using hκ'.length_le
      have hπ := hκ (hδ.trans (List.cons_prefix_cons.2 ⟨rfl, (List.prefix_append _ _).trans hκ'⟩))
      exact absurd (hπ ▸ hδ.length_le) (Nat.not_le.2 hlt)
    by_cases hδ : i :: κ ++ [0] = δ
    · subst hδ
      exact .inl (hb.eq_of_binder hat' hb' ▸ hτ)
    · exact .inr (.binder hout hδ hat' hb' hτ)

end Program

/-! ## Substitutions of a run -/

variable {s : Session} {r : Subst} {v : TyVar} {τ : Scheme}

/-- A scheme that avoids a variable in the end has avoided it all along. -/
theorem Scheme.Avoids.not_mem_apply (h : τ.Avoids s v) (hs : s.subst.Acyclic)
    (hv : s.subst.get? v = none) (hr : r ≤ s.subst) : v ∉ (r.apply τ.ty).occurrences :=
  fun hmem => h.2 (hs.mem_apply_of_get?_eq_none hr hv hmem)

theorem Scheme.Avoids.not_free (h : τ.Avoids s v) (hs : s.subst.Acyclic)
    (hv : s.subst.get? v = none) (hr : r ≤ s.subst) : v ∉ (r.applyScheme τ).freeVars :=
  fun hmem => h.not_mem_apply hs hv (Subst.le_trans (Subst.without_le r τ.vars) hr)
    (Scheme.mem_freeVars.1 hmem).1

/-! ## Resolved programs -/

theorem Expr.at?_retype {e c : Expr} {π : List Nat} (f : Ty → Ty) (g : Scheme → Scheme)
    (h : e.at? π = some c) : (e.retype f g).at? π = some (c.retype f g) := by
  induction π generalizing e with
  | nil =>
    cases h
    rfl
  | cons i π ih =>
    obtain ⟨d, hd, hc⟩ := at?_cons h
    have hd' : (e.retype f g).children[i]? = some (d.retype f g) := by
      rw [retype, children_update, List.getElem?_map, hd]
      rfl
    rw [at?_cons_of_part hd']
    exact ih hc

theorem Program.Defines.retype {p : Program} {b : Binder} {δ : Place} (f : Ty → Ty)
    (g : Scheme → Scheme) (h : p.Defines b δ) :
    (p.retype f g).Defines (b.update (·.resolve g)) δ := by
  have hdecl {i : Nat} {d : Decl} (hd : p[i]? = some d) :
      (p.retype f g)[i]? = some (d.retype f g) := by
    rw [Program.retype, List.getElem?_map, hd]
    rfl
  cases h with
  | @decl i d hd hb => exact .decl (hdecl hd) (congrArg (Binder.update (·.resolve g)) hb)
  | @letIn κ m d e h =>
    cases κ with
    | nil => cases h
    | cons i κ =>
      obtain ⟨c, hc, hat⟩ := at?_cons h
      exact .letIn ((at?_of_getElem? (hdecl hc)).trans (Expr.at?_retype f g hat))

/-! ## Whole runs -/

/-- The events of a run that solve variables are those of its session. -/
theorem Program.solved_mem_events {mode : Mode} {p q : Program}
    {res : Except (Fault TypeError) Unit} {s : Session} {t : Ty}
    (hrun : Program.infer mode p.clear Prelude.env Session.start = ((q, res), s))
    (h : .solved v t ∈ (p.inferTypes mode).events) : .solved v t ∈ s.log := by
  rw [Program.inferTypes, hrun] at h
  rcases res with (d | e) | ⟨⟩ <;> dsimp only at h
  · simpa using h
  · simpa using h
  · split at h <;> simpa using h

/-- A variable that the definition at a place is generic in stays generic in the run of a program,
which leaves a program and a session behind. -/
structure StaysGeneric (mode : Mode) (p q : Program) (s : Session) (δ : Place) (σ : Scheme)
    (v : TyVar) : Prop where
  /-- No substitution of the run binds the variable. -/
  unbound : ∀ r ≤ s.subst, r.get? v = none
  /-- The variable is never solved. -/
  unsolved : ∀ t, .solved v t ∉ (p.inferTypes mode).events
  /-- The variable is never free in an environment in use outside the definition. -/
  env : ∀ κ Γ s', Program.Visits mode p.clear Prelude.env Session.start κ Γ s' →
    (δ <+: κ → κ = δ) → s'.subst ≤ s.subst ∧ ∀ r ≤ s.subst, v ∉ Γ.freeVars r
  /-- Slots outside the definition, but for that of the binder, never mention the variable. -/
  slot : ∀ τ, q.Outside δ τ → v ∉ τ.vars ∧ ∀ r ≤ s.subst, v ∉ (r.apply τ.ty).occurrences
  /-- The free variables of the scheme come never to stand for types with the variable. -/
  uncaptured : ∀ r ≤ s.subst, ∀ w ∈ σ.freeVars, v ∉ (r.apply (.var w)).occurrences

section

variable {mode : Mode} {p q : Program} {res : Except (Fault TypeError) Unit} {s : Session}
  {b : Binder} {δ : Place} {σ : Scheme} {v : TyVar}

/-- What a run leaves behind is tidy, also if it stops. -/
theorem Program.left_of_run
    (hrun : Program.infer mode p.clear Prelude.env Session.start = ((q, res), s)) :
    Left Prelude.territory p.clear q Session.start s := by
  have hmeets := p.meets_walk mode
  cases res with
  | error f => exact (hmeets.of_error hrun).1
  | ok => exact (hmeets.of_ok hrun).left

/-- A variable that is not solved in the end has never been solved. -/
theorem Program.not_solved
    (hrun : Program.infer mode p.clear Prelude.env Session.start = ((q, res), s))
    (hv : s.subst.get? v = none) (t : Ty) : .solved v t ∉ (p.inferTypes mode).events := by
  intro hmem
  have hextends := p.clear.extends_infer mode Prelude.env Session.start
  rw [hrun] at hextends
  rcases hextends.logged v t (solved_mem_events hrun hmem) with hstart | hsolved
  · simp [Session.start] at hstart
  · cases hv.symm.trans hsolved

/-- A scheme in scope outside a definition does not have the variables free that the definition is
generic in. -/
theorem Program.not_free_of_visit
    (hrun : Program.infer mode p.clear Prelude.env Session.start = ((q, res), s))
    (hb : q.Defines b δ) (hσ : b.scheme = .filled σ) (hv : v ∈ σ.vars)
    (houtside : ∀ τ, q.Outside δ τ → ∀ r ≤ s.subst, v ∉ (r.applyScheme τ).freeVars)
    {κ : Place} {Γ : Env} {s' : Session}
    (hvisit : Program.Visits mode p.clear Prelude.env Session.start κ Γ s') (hκ : δ <+: κ → κ = δ) :
    s'.subst ≤ s.subst ∧ ∀ r ≤ s.subst, v ∉ Γ.freeVars r := by
  obtain ⟨hscope, hle⟩ := hvisit.leaves
  rw [hrun] at hscope hle
  refine ⟨hle, fun r hr hmem => ?_⟩
  obtain ⟨x, τ, hx, hfree⟩ := Env.mem_freeVars.1 hmem
  rcases hscope x τ hx with hprelude | hpass
  · have hclosed := Prelude.isClosed_of_lookup? hprelude
    rw [Subst.applyScheme_of_isClosed r hclosed] at hfree
    obtain ⟨hty, hvars⟩ := Scheme.mem_freeVars.1 hfree
    exact hvars (Scheme.isClosed_iff.1 hclosed v hty)
  · rcases hpass.own_or_outside hb hκ with hown | hout
    · cases hσ.symm.trans hown
      exact (Scheme.mem_freeVars.1 hfree).2 hv
    · exact houtside τ hout r hr hfree

theorem Program.staysGeneric
    (hrun : Program.infer mode p.clear Prelude.env Session.start = ((q, res), s))
    (hb : q.Defines b δ) (hσ : b.scheme = .filled σ) (hv : v ∈ σ.vars) :
    StaysGeneric mode p q s δ σ v := by
  have hleft := left_of_run hrun
  have hacyclic := hleft.sound.acyclic
  have hquantified : v ∈ b.quantified := by simpa only [Binder.quantified, hσ, Slot.filled] using hv
  obtain ⟨T, hknown, hapart⟩ := hleft.tidy.defined hb hσ
  have hnone : s.subst.get? v = none := hknown.unsolved v hv
  have havoids (τ : Scheme) (hτ : q.Outside δ τ) : τ.Avoids s v :=
    hleft.tidy.avoids hb hquantified hτ
  refine ⟨fun r hr => ?_, fun t hmem => ?_, fun κ Γ s' hvisit hκ => ?_, fun τ hτ => ?_,
    fun r hr w hw hmem => ?_⟩
  · exact Subst.get?_eq_none_of_le hr hnone
  · exact not_solved hrun hnone t hmem
  · exact not_free_of_visit hrun hb hσ hv (fun τ hτ r => (havoids τ hτ).not_free hacyclic hnone)
      hvisit hκ
  · exact ⟨(havoids τ hτ).1, fun r hr => (havoids τ hτ).not_mem_apply hacyclic hnone hr⟩
  · exact hapart v hv ((hknown.free w hw).2 v (hacyclic.mem_apply_of_get?_eq_none hr hnone hmem))

/-- Resolving a program changes the scheme of a definition below its quantifiers. -/
theorem Program.defines_inferTypes
    (hrun : Program.infer mode p.clear Prelude.env Session.start = ((q, res), s))
    (hb : q.Defines b δ) (hσ : b.scheme = .filled σ) :
    ∃ τ, (p.inferTypes mode).program.Defines { b with scheme := .filled τ } δ ∧
      τ.vars = σ.vars := by
  obtain ⟨q', e, s', h⟩ | ⟨q', s', h⟩ := p.failed_or_walked mode
  · cases hrun.symm.trans h.walk
    rw [h.program]
    exact ⟨σ, hσ ▸ hb, rfl⟩
  · cases hrun.symm.trans h.walk
    rw [h.program, resolve_eq]
    have hdefines := hb.retype s.subst.apply s.subst.applyScheme
    rw [Binder.update, hσ] at hdefines
    exact ⟨s.subst.applyScheme σ, hdefines, rfl⟩

end

/-- Variables stay generic once a definition has been generalized over them, in every mode and also
if the run stops.  The visits that this speaks of are all that leave something behind.  So the
scheme of the definition is resolved below its quantifiers, and in the end it has the quantifiers
that it got. -/
theorem generalized_stay_generic (mode : Mode) (p q : Program) (res : Except (Fault TypeError) Unit)
    (s : Session) (hrun : Program.infer mode p.clear Prelude.env Session.start = ((q, res), s))
    (b : Binder) (δ : Place) (σ : Scheme) (hb : q.Defines b δ) (hσ : b.scheme = .filled σ) :
    (∀ v ∈ σ.vars, StaysGeneric mode p q s δ σ v) ∧
      (∀ κ e, q.at? κ = some e → e.clear ≠ e →
        ∃ Γ s', Program.Visits mode p.clear Prelude.env Session.start κ Γ s') ∧
      (∀ r ≤ s.subst, r.applyScheme σ = ⟨σ.vars, r.apply σ.ty⟩) ∧
      ∃ τ, (p.inferTypes mode).program.Defines { b with scheme := .filled τ } δ ∧
        τ.vars = σ.vars := by
  have hgeneric (v : TyVar) (hv : v ∈ σ.vars) := Program.staysGeneric hrun hb hσ hv
  have hvisited := (Program.visited mode p.clear_blank Prelude.env Session.start).of_run hrun
  refine ⟨hgeneric, hvisited, fun r hr => ?_, Program.defines_inferTypes hrun hb hσ⟩
  rw [Subst.applyScheme, Subst.without_eq_self fun v hv => (hgeneric v hv).unbound r hr]

/-- The local definition of the sample is generic in a variable, which stays generic. -/
theorem generalized_stay_generic_sample :
    ∃ q res s b, Program.infer .bottomUp Program.sample.clear Prelude.env Session.start =
        ((q, res), s) ∧ q.Defines b [0, 0, 0] ∧
      b.scheme = .filled ⟨[6], .fn (.var 6) (.var 6)⟩ ∧
      StaysGeneric .bottomUp Program.sample q s [0, 0, 0] ⟨[6], .fn (.var 6) (.var 6)⟩ 6 := by
  have hdef : ((Program.infer .bottomUp Program.sample.clear Prelude.env
      Session.start).1.1.at? [0, 0]).map (fun e => (e.binder?.map (·.scheme), e.children.length)) =
        some (some (.filled ⟨[6], .fn (.var 6) (.var 6)⟩), 2) := by
    decide +kernel
  generalize hrun : Program.infer .bottomUp Program.sample.clear Prelude.env Session.start =
    r at hdef
  obtain ⟨⟨q, res⟩, s⟩ := r
  obtain ⟨e, hat, hdef⟩ := Option.map_eq_some_iff.1 hdef
  cases e with
  | letIn m b d e =>
    have hb : q.Defines b [0, 0, 0] := .letIn hat
    have hσ : b.scheme = .filled ⟨[6], .fn (.var 6) (.var 6)⟩ :=
      Option.some.inj (Prod.mk.inj hdef).1
    have hgeneric := (generalized_stay_generic _ _ _ _ _ hrun b _ _ hb hσ).1
    exact ⟨q, res, s, b, rfl, hb, hσ, hgeneric 6 (List.mem_singleton_self 6)⟩
  | _ => simp [Expr.binder?, Expr.children] at hdef

end LetPoly
