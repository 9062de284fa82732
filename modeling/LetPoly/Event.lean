import LetPoly.Typing.Error

/-!
# Events

What happens while sources are checked, as far as it is told: diagnostics are
reported, and other events are logged at a level.  A type or scheme in a log entry is
printed under names of its own.
-/

namespace LetPoly

/-- The level of a log entry. -/
inductive LogLevel where
  | info
  | debug
  | trace
  deriving DecidableEq, Repr

/-- How a level is written. -/
def LogLevel.text : LogLevel → String
  | info => "INFO"
  | debug => "DEBUG"
  | trace => "TRACE"

/-- Something that happens while sources are checked. -/
inductive Event where
  /-- A source with a name is about to be checked as a file. -/
  | checking (name : String) (file : FileId)
  /-- Lexing begins. -/
  | lexing (file : FileId)
  /-- Lexing is done. -/
  | lexed (file : FileId)
  /-- Parsing begins. -/
  | parsing (file : FileId)
  /-- Parsing is done. -/
  | parsed (file : FileId)
  /-- Inference begins. -/
  | inferring
  /-- A variable was solved. -/
  | solved (v : TyVar) (ty : Ty)
  /-- The scheme of a name was found. -/
  | generalized (x : String) (σ : Scheme)
  /-- A declaration was typed. -/
  | inferred (x : String) (σ : Scheme)
  /-- Inference found an error. -/
  | failed (e : TypeError)
  /-- Types are about to be written into the tree, with some of the variables solved. -/
  | assembling (n drawn : Nat)
  /-- Inference is done. -/
  | typed
  /-- Some sources had errors. -/
  | sourcesFailed (n total : Nat)
  /-- Diagnostics were reported. -/
  | reported (ds : List Diagnostic)
  deriving DecidableEq, Repr

namespace Event

/-- The level and the text of the log entry of an event, if it has one. -/
def entry? : Event → Option (LogLevel × String)
  | checking name file => some (.debug, "checking " ++ name ++ " as file " ++ toString file)
  | lexing file => some (.info, "lexing file with id " ++ toString file)
  | lexed file => some (.trace, "done lexing " ++ toString file)
  | parsing file => some (.info, "parsing file with id " ++ toString file)
  | parsed file => some (.trace, "done parsing " ++ toString file)
  | inferring => some (.info, "beginning type inference")
  | solved v ty => some (.trace, "solved " ++ (Ty.var v).text ++ " := " ++ ty.text)
  | generalized x σ => some (.trace, "generalized " ++ x ++ " to " ++ σ.text)
  | inferred x σ => some (.debug, "inferred " ++ x ++ " : " ++ σ.text)
  | failed e => some (.debug, "inference failed: " ++ e.message)
  | assembling n drawn =>
    some (.info, "assembling types with " ++ toString n ++ " solved variables out of "
      ++ toString drawn)
  | typed => some (.trace, "done type inference")
  | sourcesFailed n total =>
    some (.info, toString n ++ " of " ++ toString total ++ " sources failed")
  | reported _ => none

/-- The diagnostics of an event, if it reports any. -/
def diagnostics? : Event → Option (List Diagnostic)
  | reported ds => some ds
  | _ => none

end Event

end LetPoly
