import LetPoly.Proofs.Genericity
import LetPoly.Proofs.Completeness

/-!
# The annotations of a run

If a program has types then every slot is filled and resolved, and every variable in a slot is
quantified where it stands (`annotation_complete`).  The assembler looks at the types of
expressions only.  It is the derivation that carries this over to binders: the type of a
parameter is a part of the type of its function, and the type of a definition is that of an
expression inside of it.
-/

namespace LetPoly

/-! ## Resolving twice -/

/-- Slots that are resolved stay what they are when they are resolved again. -/
theorem Program.resolve_resolve {r : Subst} (hr : r.Acyclic) (p : Program) :
    (p.resolve r).resolve r = p.resolve r := by
  have hty : r.apply ∘ r.apply = r.apply := funext hr.apply_apply
  have hscheme : r.applyScheme ∘ r.applyScheme = r.applyScheme :=
    funext hr.applyScheme_applyScheme
  rw [resolve_eq, resolve_eq, retype_retype, hty, hscheme]

/-! ## Expressions without ambiguity -/

theorem Typed.filled {C : Closing} {Γ : Env} {e : Expr} {t : Ty} (h : Typed C Γ e t) :
    e.mark.ty = .filled t := by
  cases h <;> assumption

theorem Typed.part {C : Closing} {Γ : Env} {e c : Expr} {t : Ty} {i : Nat} (h : Typed C Γ e t)
    (hc : e.children[i]? = some c) : ∃ Γ' t', Typed C Γ' c t' := by
  cases h with
  | lit | name | invalid => cases hc
  | lam hm hp ha hb =>
    rcases i with _ | i <;> cases hc
    exact ⟨_, _, hb⟩
  | app hm hf ha =>
    rcases i with _ | _ | i <;> cases hc
    · exact ⟨_, _, hf⟩
    · exact ⟨_, _, ha⟩
  | letIn hm hd ha hb hσ he =>
    rcases i with _ | _ | i <;> cases hc
    · exact ⟨_, _, hd⟩
    · exact ⟨_, _, he⟩
  | cond hm hc' ht he =>
    rcases i with _ | _ | _ | i <;> cases hc
    · exact ⟨_, _, hc'⟩
    · exact ⟨_, _, ht⟩
    · exact ⟨_, _, he⟩
  | anno hm ha he =>
    rcases i with _ | i <;> cases hc
    exact ⟨_, _, he⟩
  | @tuple _ m es ts hm hlen hes =>
    obtain ⟨hi, rfl⟩ : ∃ hi : i < es.length, es[i] = c := List.getElem?_eq_some_iff.1 hc
    have hts : i < ts.length := hlen ▸ hi
    have hmem : (es[i], ts[i]) ∈ es.zip ts :=
      List.mem_iff_getElem.2 ⟨i, by simpa using ⟨hi, hts⟩, by simp⟩
    exact ⟨_, _, hes _ hmem⟩

theorem Binder.quantified_eq {b : Binder} {σ : Scheme} (h : b.scheme = .filled σ) :
    b.quantified = σ.vars := by
  simp only [quantified, h, Slot.filled]

namespace Expr

variable {bound : VarSet} {e c : Expr} {i : Nat} {v : TyVar}

theorem at?_append_singleton {π : List Nat} {e' : Expr} (he : e.at? π = some e')
    (hc : e'.children[i]? = some c) : e.at? (π ++ [i]) = some c := by
  induction π generalizing e with
  | nil =>
    cases he
    exact at?_cons_of_part hc
  | cons j π ih =>
    obtain ⟨d, hd, he⟩ := at?_cons he
    exact (at?_cons_of_part hd).trans (ih he)

theorem ambiguousAt?_eq_none {m : Mark} {t : Ty} (hm : m.ty = .filled t) :
    ambiguousAt? bound m = none ↔ ∀ v ∈ t.occurrences, v ∈ bound := by
  simp [ambiguousAt?, hm, Slot.filled]

/-- An expression without ambiguity has none in its type, and none in its parts. -/
theorem ambiguous?_eq_none (h : e.ambiguous? bound = none) : ambiguousAt? bound e.mark = none ∧
    ∀ (i : Nat) (c : Expr), e.children[i]? = some c →
      c.ambiguous? (bound.insertMany (e.quantifiedIn i)) = none := by
  rw [ambiguous?_eq, Option.or_eq_none_iff, List.findSome?_eq_none_iff] at h
  exact ⟨h.1, fun i c hc => h.2 (c, i) (List.mk_mem_zipIdx_iff_getElem?.2 hc)⟩

end Expr

/-! ## Where variables are quantified -/

namespace Program

/-- A variable is quantified at a place: by the scheme of a declaration or of a local definition in
whose definition the place is. -/
def Quantifies (p : Program) (κ : Place) (v : TyVar) : Prop :=
  ∃ b δ, p.Defines b δ ∧ δ <+: κ ∧ v ∈ b.quantified

/-- The expression at a place has a derivation, and no ambiguity where the variables are
quantified that are quantified at the place. -/
structure Settled (p : Program) (κ : Place) (e : Expr) : Prop where
  /-- The expression is at the place. -/
  at? : p.at? κ = some e
  /-- The derivation. -/
  typed : ∃ Γ t, LetPoly.Typed Env.Generalizes Γ e t
  /-- There is no ambiguity. -/
  unambiguous : ∃ bound : VarSet, e.ambiguous? bound = none ∧ ∀ v ∈ bound, p.Quantifies κ v

variable {p : Program} {κ : Place} {e c : Expr} {i : Nat} {v : TyVar}

theorem Quantifies.part (h : p.Quantifies κ v) (i : Nat) : p.Quantifies (κ ++ [i]) v := by
  obtain ⟨b, δ, hb, hδ, hv⟩ := h
  exact ⟨b, δ, hb, hδ.trans (List.prefix_append κ [i]), hv⟩

theorem at?_append_singleton (he : p.at? κ = some e) (hc : e.children[i]? = some c) :
    p.at? (κ ++ [i]) = some c := by
  cases κ with
  | nil => cases he
  | cons j π =>
    obtain ⟨d, hd, he⟩ := at?_cons he
    exact (at?_of_getElem? hd).trans (Expr.at?_append_singleton he hc)

/-- What a node quantifies over in one of its parts is quantified there.  Functions quantify over
nothing, since the types of their parameters are schemes without quantifiers. -/
theorem Settled.quantifies (h : p.Settled κ e) (hv : v ∈ e.quantifiedIn i) :
    p.Quantifies (κ ++ [i]) v := by
  obtain ⟨Γ, t, ht⟩ := h.typed
  cases ht with
  | lit | name | app | cond | anno | tuple | invalid => cases hv
  | lam hm hp =>
    rw [Expr.quantifiedIn, Binder.quantified_eq hp] at hv
    cases hv
  | @letIn _ m b d e t u σ =>
    cases i with
    | zero => exact ⟨b, κ ++ [0], .letIn h.at?, List.prefix_rfl, hv⟩
    | succ => cases hv

theorem Settled.part (h : p.Settled κ e) (hc : e.children[i]? = some c) :
    p.Settled (κ ++ [i]) c := by
  obtain ⟨Γ, t, ht⟩ := h.typed
  obtain ⟨bound, hnone, hbound⟩ := h.unambiguous
  have hc' := (Expr.ambiguous?_eq_none hnone).2 i c hc
  refine ⟨at?_append_singleton h.at? hc, ht.part hc, _, hc', fun v hv => ?_⟩
  rcases Std.ExtTreeSet.mem_insertMany_list.1 hv with hv | hv
  · exact (hbound v hv).part i
  · exact h.quantifies (by simpa using hv)

/-- So are all expressions inside of a settled one. -/
theorem Settled.of_at? {π : List Nat} (h : p.Settled κ e) (hc : e.at? π = some c) :
    p.Settled (κ ++ π) c := by
  induction π generalizing κ e with
  | nil =>
    cases hc
    rwa [List.append_nil]
  | cons i π ih =>
    obtain ⟨d, hd, hc⟩ := Expr.at?_cons hc
    have hsettled := ih (h.part hd) hc
    rwa [List.append_assoc, List.singleton_append] at hsettled

/-- The type of a settled expression mentions only variables that are quantified. -/
theorem Settled.mark (h : p.Settled κ e) :
    ∃ t, e.mark.ty = .filled t ∧ ∀ v ∈ t.occurrences, p.Quantifies κ v := by
  obtain ⟨Γ, t, ht⟩ := h.typed
  obtain ⟨bound, hnone, hbound⟩ := h.unambiguous
  have hocc := (Expr.ambiguousAt?_eq_none ht.filled).1 (Expr.ambiguous?_eq_none hnone).1
  exact ⟨t, ht.filled, fun v hv => hbound v (hocc v hv)⟩

/-- The free variables of a binder's scheme are quantified where the binder stands. -/
theorem Settled.binder {b : Binder} (h : p.Settled κ e) (hb : e.binder? = some b) :
    ∃ σ, b.scheme = .filled σ ∧ ∀ v ∈ σ.freeVars, p.Quantifies κ v := by
  obtain ⟨Γ, t, ht⟩ := h.typed
  obtain ⟨bound, hnone, hbound⟩ := h.unambiguous
  obtain ⟨hmark, hparts⟩ := Expr.ambiguous?_eq_none hnone
  cases ht with
  | lit | name | app | cond | anno | tuple | invalid => cases hb
  | @lam _ m p b t u hm hp =>
    cases hb
    refine ⟨_, hp, fun v hv => hbound v ((Expr.ambiguousAt?_eq_none hm).1 hmark v ?_)⟩
    -- the type of the parameter is a part of the type of the function
    rw [Ty.occurrences_fn]
    exact List.mem_append_left _ (Scheme.mem_freeVars.1 hv).1
  | @letIn _ m b d e t u σ hm hd ha hσ hgen =>
    cases hb
    refine ⟨_, hσ, fun v hv => hbound v ?_⟩
    obtain ⟨hocc, hfree⟩ := Scheme.mem_freeVars.1 hv
    -- the type of the scheme is that of the definition, where the scheme may mention its own
    have hd' := (Expr.ambiguous?_eq_none (hparts 0 d rfl)).1
    have hmem := (Expr.ambiguousAt?_eq_none hd.filled).1 hd' v (hgen.ty ▸ hocc)
    rw [Expr.quantifiedIn, Binder.quantified_eq hσ] at hmem
    rcases Std.ExtTreeSet.mem_insertMany_list.1 hmem with hmem | hmem
    · exact hmem
    · exact absurd (by simpa using hmem) hfree

end Program

/-! ## Whole programs -/

namespace Program

/-- The slots of a program are filled and resolved, and mention only variables that are quantified
where they stand. -/
structure Annotated (p : Program) (r : Subst) : Prop where
  /-- The types of expressions. -/
  expr : ∀ κ e, p.at? κ = some e →
    ∃ t, e.mark.ty = .filled t ∧ ∀ v ∈ t.occurrences, p.Quantifies κ v
  /-- The schemes of parameters and of local definitions. -/
  binder : ∀ κ e b, p.at? κ = some e → e.binder? = some b →
    ∃ σ, b.scheme = .filled σ ∧ ∀ v ∈ σ.freeVars, p.Quantifies κ v
  /-- The schemes of declarations. -/
  decl : ∀ d ∈ p, ∃ σ, d.binder.scheme = .filled σ ∧ σ.freeVars = []
  /-- Resolving the slots changes nothing. -/
  resolved : p.resolve r = p

/-- The substitution at the end of a run. -/
def solved (mode : Mode) (p : Program) : Subst :=
  (Program.infer mode p.clear Prelude.env Session.start).2.subst

theorem Typed.of_mem {C : Closing} {Γ : Env} {p : Program} (h : p.Typed C Γ) {d : Decl}
    (hd : d ∈ p) : ∃ Γ' t, LetPoly.Typed C Γ' d.bound t := by
  induction h with
  | nil => cases hd
  | cons htyped _ _ _ _ ih =>
    rcases List.mem_cons.1 hd with rfl | hd
    · exact ⟨_, _, htyped⟩
    · exact ih hd

/-- All expressions are settled in a program with a derivation and without ambiguities. -/
theorem settled {Γ : Env} {p : Program} (h : p.Typed Env.Generalizes Γ) (hnone : p.ambiguities = [])
    {κ : Place} {e : Expr} (he : p.at? κ = some e) : p.Settled κ e := by
  cases κ with
  | nil => cases he
  | cons i π =>
    obtain ⟨d, hd, he⟩ := at?_cons he
    have hmem := List.mem_of_getElem? hd
    have hsettled : p.Settled [i] d.bound := by
      refine ⟨at?_of_getElem? hd, h.of_mem hmem, .ofList d.binder.quantified, ?_, fun v hv => ?_⟩
      · exact List.filterMap_eq_nil_iff.1 hnone d hmem
      · exact ⟨d.binder, [i], .decl hd rfl, List.prefix_rfl, by simpa using hv⟩
    exact hsettled.of_at? he

end Program

/-- A run that finds types fills every slot.  The slots are resolved, and the variables in them
are quantified where they stand, so that no variable is free in the scheme of a declaration. -/
theorem annotation_complete (mode : Mode) (p : Program) (h : (p.inferTypes mode).verdict = .typed) :
    (p.inferTypes mode).program.Annotated (p.solved mode) := by
  obtain ⟨q, e, s, hfailed⟩ | ⟨q, s, hwalked⟩ := p.failed_or_walked mode
  · rw [hfailed.verdict] at h
    cases h
  · have hderivation := hwalked.derivation
    have hsolved : p.solved mode = s.subst := congrArg (·.2.subst) hwalked.walk
    have hsettled {κ : Place} {e : Expr} (he : (q.resolve s.subst).at? κ = some e) :=
      Program.settled hderivation (hwalked.typed.1 h) he
    rw [hwalked.program, hsolved]
    refine ⟨fun κ e he => (hsettled he).mark, fun κ e b he hb => (hsettled he).binder hb,
      fun d hd => ?_, Program.resolve_resolve hwalked.found.left.sound.acyclic q⟩
    obtain ⟨σ, hσ, hclosed⟩ := hderivation.isClosed Prelude.not_free d hd
    refine ⟨σ, hσ, List.eq_nil_iff_forall_not_mem.2 fun v hv => ?_⟩
    obtain ⟨hocc, hvars⟩ := Scheme.mem_freeVars.1 hv
    exact hvars (hclosed v hocc)

/-- The sample has types, and its slots are complete. -/
theorem annotation_complete_sample : (Program.sample.inferTypes .bottomUp).verdict = .typed ∧
    (Program.sample.inferTypes .bottomUp).program.Annotated (Program.sample.solved .bottomUp) := by
  have htyped : (Program.sample.inferTypes .bottomUp).verdict = .typed := by decide +kernel
  exact ⟨htyped, annotation_complete .bottomUp Program.sample htyped⟩

end LetPoly
