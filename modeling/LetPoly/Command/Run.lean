import LetPoly.Check
import LetPoly.Command.Arguments
import LetPoly.Command.Directory
import LetPoly.Text.Position
import LetPoly.Text.Utf8
import LetPoly.Tree.Printer

/-!
# Running the command

A run checks the sources that its arguments name, one after another, and shows what it
finds.  Diagnostics, log entries and sources that cannot be read go to the error
channel, trees to the output channel.  Sources that can be read are numbered from zero.

The run is a function of the arguments and of what reading a path gives.
-/

namespace LetPoly.Command

/-- A line of text for one of the two channels. -/
inductive Line where
  | output (text : String)
  | error (text : String)
  deriving DecidableEq, Repr

/-- The lines of a diagnostic in a source with a name. -/
def diagnosticLines (name : String) (positions : Text.Positions) (d : Diagnostic) : List Line :=
  let p := positions.get d.span.start
  [.error ("error[" ++ d.code ++ "]: " ++ d.problem.headline),
   .error ("at " ++ name ++ ":" ++ toString p.line ++ ":" ++ toString p.column)]

/-- Something that a run shows. -/
inductive Notice where
  /-- Diagnostics of a source, with its name and its text. -/
  | diagnostics (name source : String) (ds : List Diagnostic)
  /-- A source that cannot be read. -/
  | unreadable (name : String) (e : ReadError)
  /-- A source that is no text. -/
  | notText (name : String) (e : Text.Utf8Error)
  /-- A log entry. -/
  | logged (level : LogLevel) (text : String)
  /-- The tree of a source. -/
  | tree (name text : String)
  /-- What is shown instead of a run. -/
  | usage (line : Line)

/-- The lines of a notice. -/
def Notice.lines : Notice → List Line
  | diagnostics name source ds =>
    let positions := Text.Positions.ofString source
    ds.flatMap (diagnosticLines name positions)
  | unreadable name e => [.error ("error: could not read '" ++ name ++ "': " ++ e.message)]
  | notText name e => [.error ("error: '" ++ name ++ "' is not valid UTF-8: " ++ e.message)]
  | logged level text => [.error (level.text ++ " " ++ text)]
  | tree name text => [.output ("==> " ++ name), .output text]
  | usage line => [line]

/-- What a run leaves behind. -/
structure Outcome where
  /-- The exit code. -/
  code : Nat
  /-- What it shows, in order. -/
  notices : List Notice

/-- The lines that a run shows, in order. -/
def Outcome.lines (o : Outcome) : List Line := o.notices.flatMap Notice.lines

/-- What is shown of an event.  Log entries are shown up to the level of debugging, if at all. -/
def eventNotices (debug : Bool) (name source : String) (e : Event) : List Notice :=
  match e with
  | .reported ds => [.diagnostics name source ds]
  | _ =>
    match e.entry? with
    | none => []
    | some (level, text) => if debug && level != .trace then [.logged level text] else []

/-- What a run has come to. -/
structure Progress where
  /-- The number of the next source. -/
  nextFile : FileId
  /-- How many sources had errors. -/
  failed : Nat
  /-- What was shown so far. -/
  notices : List Notice

/-- Ends a source with an error. -/
def Progress.fail (p : Progress) (notices : List Notice) : Progress :=
  { p with failed := p.failed + 1, notices := p.notices ++ notices }

/-- Checks a source that was read. -/
def Progress.check (args : Arguments) (p : Progress) (name source : String) : Progress :=
  let file := p.nextFile
  let p := { p with nextFile := file + 1 }
  let notices := fun events =>
    (Event.checking name file :: events).flatMap (eventNotices args.debug name source)
  match checkSource args.mode file source with
  | .error _ => p.fail (notices [])
  | .ok checked =>
    match checked.program? with
    | none => p.fail (notices checked.events)
    | some program =>
      let tree : List Notice := if args.print then [.tree name (program.text 80)] else []
      { p with notices := p.notices ++ notices checked.events ++ tree }

/-- Reads and checks a source. -/
def Progress.add (args : Arguments) (read : String → Except ReadError (List UInt8)) (p : Progress)
    (name : String) : Progress :=
  match read name with
  | .error e => p.fail [.unreadable name e]
  | .ok bytes =>
    match Text.decode bytes with
    | .error e => p.fail [.notText name e]
    | .ok source => p.check args name source

/-- Checks the sources of accepted arguments. -/
def runChecks (args : Arguments) (read : String → Except ReadError (List UInt8)) : Outcome :=
  let p := args.sources.foldl (Progress.add args read) ⟨0, 0, []⟩
  if p.failed = 0 then ⟨0, p.notices⟩
  else
    ⟨1, p.notices ++
      eventNotices args.debug "" "" (.sourcesFailed p.failed args.sources.length)⟩

/-- The version that is shown on request. -/
def versionText : String := "wispc 0.0.1"

/-- How the command is used. -/
def usage : List String :=
  ["a small functional language with type inference",
   "",
   "Usage: wisp [OPTIONS] <SOURCES>...",
   "",
   "Options:",
   "      --debug                     Show debug logs",
   "      --print                     Print the syntax tree of every source",
   "      --infer-types               Infer types bottom-up",
   "      --infer-types-td            Infer types top-down",
   "      --no-propagate-arguments    Do not push parameter types into call arguments",
   "      --no-propagate-branches     Do not push the type of a conditional into its arms",
   "      --no-propagate-annotations  Do not push annotations into what they annotate",
   "  -h, --help                      Print help",
   "  -V, --version                   Print version"]

/-- What is shown for arguments that are not accepted. -/
def ArgumentError.message : ArgumentError → String
  | noArguments => "no sources were given"
  | missingSource => "no sources were given"
  | emptySource => "a source has an empty name"
  | unknownFlag => "an argument is not known"
  | conflict => "arguments exclude each other or are repeated"
  | unexpectedValue => "an argument does not take a value"
  | help => ""
  | version => ""

/-- Runs the command. -/
def run (args : List String) (read : String → Except ReadError (List UInt8)) : Outcome :=
  match Arguments.read args with
  | .ok args => runChecks args read
  | .error .version => ⟨0, [.usage (.output versionText)]⟩
  | .error .help => ⟨0, usage.map fun text => .usage (.output text)⟩
  | .error .noArguments => ⟨2, usage.map fun text => .usage (.error text)⟩
  | .error e => ⟨2, [.usage (.error ("error: " ++ e.message))]⟩

end LetPoly.Command
