import LetPoly.Typing.Assemble
import LetPoly.Typing.Infer
import LetPoly.Typing.Prelude

/-!
# Runs of inference

A run types a whole program: it empties all slots, types the declarations in the
prelude, and then resolves the slots.  The tree that a run leaves behind has the slots
that were filled, also if the run fails.
-/

namespace LetPoly

/-- What a run of inference has found. -/
inductive Verdict where
  /-- The program has types. -/
  | typed
  /-- The program has errors. -/
  | illTyped (errors : List TypeError)
  /-- A contract was broken. -/
  | broken (d : Defect)
  deriving DecidableEq, Repr

/-- What a run of inference leaves behind. -/
structure TypingRun where
  /-- The program with the slots that were filled. -/
  program : Program
  /-- What was found. -/
  verdict : Verdict
  /-- What happened, in order. -/
  events : List Event

/-- The session that a run starts with. -/
def Session.start : Session := ⟨Prelude.drawn, .empty, [.inferring]⟩

/-- Infers the types of a program. -/
def Program.inferTypes (mode : Mode) (p : Program) : TypingRun :=
  match Program.infer mode p.clear Prelude.env Session.start with
  | ((q, .error (.defect d)), s) => ⟨q, .broken d, s.log.reverse⟩
  | ((q, .error (.error e)), s) => ⟨q, .illTyped [e], (.failed e :: s.log).reverse⟩
  | ((q, .ok ()), s) =>
    let q := Program.resolve q s.subst
    let events := (.typed :: .assembling s.subst.size s.drawn :: s.log).reverse
    match Program.ambiguities q with
    | [] => ⟨q, .typed, events⟩
    | es => ⟨q, .illTyped es, events⟩

end LetPoly
