import LetPoly.Proofs.Descent
import LetPoly.Proofs.Freshness
import LetPoly.Proofs.Resolution

/-!
# Running inference again

A run empties all slots before it fills them.  So it never finds a slot filled, what was in the
slots before does not matter, and a second run over the tree that the first one leaves behind does
the same once more (`inference_repeats`).

A run also finishes by itself.  Resolving a type, following bindings at the head of a type and
unification are counted down, and a countdown that runs out would cut them short.  That does not
happen with an acyclic substitution (`Subst.Acyclic.finishes`).  A run only ever adds to its
substitution, so at each moment this is a part of the one at the end, which is acyclic
(`Program.acyclic_of_mem_moments`).
-/

namespace LetPoly

/-! ## Computations that finish -/

/-- What is computed with a substitution ends by itself, and is not cut short by a countdown. -/
structure Subst.Finishes (s : Subst) : Prop where
  /-- No variable stands for a type that contains it. -/
  acyclic : s.Acyclic
  /-- Resolving a type makes no endless row of calls, and comes to what is computed. -/
  apply : ∀ t, Acc s.Calls t ∧ s.Resolves t (s.apply t)
  /-- Bindings at the head of a type are followed up to the last one. -/
  head : ∀ t, Acc (flip s.Follows) t ∧ Relation.ReflTransGen s.Follows t (s.head t) ∧
    ∀ u, ¬ s.Follows (s.head t) u
  /-- The descent through two types comes to what unification gives. -/
  unify : ∀ t u, Unify.Descends [(t, u)] (.start s) (unify t u s)

/-- With an acyclic substitution all that is computed ends by itself. -/
theorem Subst.Acyclic.finishes {s : Subst} (hs : s.Acyclic) : s.Finishes where
  acyclic := hs
  apply t := ⟨hs.acc_calls t, hs.resolves_apply t⟩
  head t := ⟨hs.acc_follows t, s.follows_headWithin s.size t, fun _ => hs.not_follows_head⟩
  unify t u := (descends_iff hs t u _).2 rfl

/-- What a run computes at a moment ends by itself. -/
structure Moment.Finishes {τ : Type} (m : Moment τ) : Prop where
  /-- What is computed with the substitution of the session. -/
  subst : m.session.subst.Finishes
  /-- What is computed with it below quantifiers. -/
  quantified : ∀ vs, (m.session.subst.without vs).Finishes
  /-- A scheme is instantiated with a substitution of its own, which binds each quantified variable
  once. -/
  instantiates : ∀ σ, m.instantiates? = some σ →
    ∃ r n, Scheme.refresh σ.vars .empty m.session.drawn = (.ok r, n) ∧ r.Finishes

/-! ## Substitutions that a run comes to -/

namespace Reached

variable {x y z : Reached} {xs : List Reached}

/-- A change keeps what is solved. -/
theorem Step.le (h : Step x y) : x.2 ≤ y.2 := by
  cases h with
  | idle => exact Subst.le_refl _
  | draw => exact Subst.le_refl _
  | solve h => exact Subst.le_of_bind h

/-- What was solved on the way is solved in the end. -/
theorem Path.le (h : Path x xs y) : ∀ z ∈ x :: xs, z.2 ≤ y.2 := by
  induction h with
  | nil => exact List.forall_mem_singleton.2 (Subst.le_refl _)
  | cons hstep _ ih =>
    obtain ⟨hnext, hrest⟩ := List.forall_mem_cons.1 ih
    have hfirst := Subst.le_trans hstep.le hnext
    exact List.forall_mem_cons.2 ⟨hfirst, List.forall_mem_cons.2 ⟨hfirst, hrest⟩⟩

end Reached

namespace Program

/-- The walk of a program ends with an acyclic substitution, also if it stops with an error. -/
theorem acyclic_infer (mode : Mode) (p : Program) :
    (Program.infer mode p.clear Prelude.env Session.start).2.subst.Acyclic := by
  obtain ⟨q, e, s, h⟩ | ⟨q, s, h⟩ := p.failed_or_walked mode
  · rw [h.walk]
    exact h.left.sound.acyclic
  · rw [h.walk]
    exact h.found.left.sound.acyclic

/-- The substitution is acyclic at each moment of a run. -/
theorem acyclic_of_mem_moments (mode : Mode) (p : Program) :
    ∀ m ∈ p.moments mode, m.session.subst.Acyclic := by
  intro m hm
  have hle := (p.path_moments mode).le m.session.reached
    (List.mem_cons_of_mem _ (List.mem_map_of_mem hm))
  exact (p.acyclic_infer mode).of_le hle

/-- What is computed at a moment of a run ends by itself. -/
theorem finishes_of_mem_moments (mode : Mode) (p : Program) :
    ∀ m ∈ p.moments mode, m.Finishes := by
  intro m hm
  have hacyclic := p.acyclic_of_mem_moments mode m hm
  have hafter := p.after_of_mem_moments mode m hm
  refine ⟨hacyclic.finishes, fun vs => (hacyclic.of_le (Subst.without_le _ vs)).finishes, ?_⟩
  intro σ hσ
  obtain ⟨x, hx⟩ := hafter.scheme σ hσ
  obtain ⟨r, hr, hr'⟩ := (hafter.renews hx).ends
  exact ⟨r, _, hr, hr'.finishes⟩

/-! ## Second runs -/

/-- The verdict of a run is never that a contract was broken. -/
theorem not_broken (mode : Mode) (p : Program) (d : Defect) :
    (p.inferTypes mode).verdict ≠ .broken d := by
  intro hbroken
  obtain ⟨q, e, s, hfailed⟩ | ⟨q, s, hwalked⟩ := p.failed_or_walked mode
  · rw [hfailed.verdict] at hbroken
    cases hbroken
  · cases hes : (q.resolve s.subst).ambiguities with
    | nil =>
      rw [hwalked.typed.2 hes] at hbroken
      cases hbroken
    | cons e es =>
      rw [(hwalked.illTyped (e :: es)).2 ⟨hes, List.cons_ne_nil e es⟩] at hbroken
      cases hbroken

/-- Programs that differ only in their slots have the same run. -/
theorem inferTypes_congr (mode : Mode) {p q : Program} (h : p.clear = q.clear) :
    p.inferTypes mode = q.inferTypes mode := by
  rw [inferTypes, inferTypes, h]

end Program

/-- A run fills no slot twice and binds no variable twice, whatever the slots have held before.  It
finishes by itself: at each of its moments, which are those of the run and leave out nothing that is
drawn or solved, the substitution is acyclic and no countdown runs out.  The run is the same as the
one over the program with all slots empty, and the same as a second run over what it leaves
behind. -/
theorem inference_repeats (mode : Mode) (p : Program) :
    (∀ d, (p.inferTypes mode).verdict ≠ .broken d) ∧
      ((Program.observe mode p.clear Prelude.env Session.start).2 =
          Program.infer mode p.clear Prelude.env Session.start ∧
        Reached.Path (0, .empty) ((p.moments mode).map (·.session.reached))
          (Program.infer mode p.clear Prelude.env Session.start).2.reached ∧
        ∀ m ∈ p.moments mode, m.Finishes) ∧
      p.inferTypes mode = p.clear.inferTypes mode ∧
      (p.inferTypes mode).program.inferTypes mode = p.inferTypes mode := by
  have hobserved := congrFun (Program.walk_observe mode p.clear Prelude.env) Session.start
  exact ⟨p.not_broken mode, ⟨hobserved, p.path_moments mode, p.finishes_of_mem_moments mode⟩,
    p.inferTypes_congr mode p.clear_clear.symm,
    Program.inferTypes_congr mode (p.clear_inferTypes mode)⟩

end LetPoly
