import LetPoly.Check
import LetPoly.Main
import LetPoly.Ty.Unify
import LetPoly.Proofs.Substitution
import LetPoly.Proofs.Unification
import LetPoly.Proofs.Sessions
import LetPoly.Proofs.Trees
import LetPoly.Proofs.Derivations
import LetPoly.Proofs.Acts
import LetPoly.Proofs.Generalization
import LetPoly.Proofs.Leftovers
import LetPoly.Proofs.Inference
import LetPoly.Proofs.Programs
import LetPoly.Proofs.Soundness
import LetPoly.Proofs.Following
import LetPoly.Proofs.Completeness
import LetPoly.Proofs.Confluence
import LetPoly.Proofs.Places
import LetPoly.Proofs.Growth
import LetPoly.Proofs.Visits
import LetPoly.Proofs.Genericity
import LetPoly.Proofs.Coverage
import LetPoly.Proofs.Annotations
import LetPoly.Proofs.Propagation
import LetPoly.Proofs.Grammar
import LetPoly.Proofs.Parsers
import LetPoly.Proofs.Reading
import LetPoly.Proofs.Recognition
import LetPoly.Proofs.Acceptance
import LetPoly.Proofs.Rules
import LetPoly.Proofs.Munching
import LetPoly.Proofs.Tiling
import LetPoly.Proofs.Phases
import LetPoly.Proofs.Independence
import LetPoly.Proofs.Depth
import LetPoly.Proofs.Invariance
import LetPoly.Proofs.Spelling
import LetPoly.Proofs.Nesting
import LetPoly.Proofs.ReadBack
import LetPoly.Proofs.ParsedSpans
import LetPoly.Proofs.TypedSpans
import LetPoly.Proofs.Sources
import LetPoly.Proofs.Descent
import LetPoly.Proofs.Lines
import LetPoly.Proofs.Literals
import LetPoly.Proofs.Conflicts
import LetPoly.Proofs.Preorder
import LetPoly.Proofs.Assembler
import LetPoly.Proofs.Ambiguities
import LetPoly.Proofs.Scoping
import LetPoly.Proofs.Draws
import LetPoly.Proofs.Concatenation
import LetPoly.Proofs.Containment
import LetPoly.Proofs.Counter
import LetPoly.Proofs.Counting
import LetPoly.Proofs.Resolution
import LetPoly.Proofs.Naming
import LetPoly.Proofs.Readability
import LetPoly.Proofs.SourceNames
import LetPoly.Proofs.Printing
import LetPoly.Proofs.OneLine
import LetPoly.Proofs.LineBreaks
import LetPoly.Proofs.PrintedRenaming
import LetPoly.Proofs.Printouts
import LetPoly.Proofs.Composition
import LetPoly.Proofs.Observation
import LetPoly.Proofs.Drawn
import LetPoly.Proofs.DrawnRuns
import LetPoly.Proofs.Freshness
import LetPoly.Proofs.Repetition
