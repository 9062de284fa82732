import LetPoly.Proofs.Programs

/-!
# Soundness of inference

If a run finds that a program has types, then the types it leaves in the slots are a
derivation.  Each binder has the most general scheme for its place: it quantifies over all
variables of its type that are not free in its environment.
-/

namespace LetPoly

/-- The slots of a typed program are a derivation from the prelude, in every mode, and nothing else
of the program has changed. -/
theorem inference_sound (mode : Mode) (p : Program) (h : (p.inferTypes mode).verdict = .typed) :
    (p.inferTypes mode).program.Typed Env.Generalizes Prelude.env ∧
      (p.inferTypes mode).program.clear = p.clear := by
  refine ⟨?_, p.clear_inferTypes mode⟩
  obtain ⟨q, e, s, hfailed⟩ | ⟨q, s, hwalked⟩ := p.failed_or_walked mode
  · rw [hfailed.verdict] at h
    cases h
  · rw [hwalked.program]
    exact hwalked.derivation

/-- The sample is typed bottom-up, so its slots are a derivation. -/
theorem inference_sound_sample :
    (Program.sample.inferTypes .bottomUp).verdict = .typed ∧
      (Program.sample.inferTypes .bottomUp).program.Typed Env.Generalizes Prelude.env ∧
      (Program.sample.inferTypes .bottomUp).program.clear = Program.sample.clear := by
  have htyped : (Program.sample.inferTypes .bottomUp).verdict = .typed := by decide +kernel
  exact ⟨htyped, inference_sound .bottomUp Program.sample htyped⟩

end LetPoly
