import LetPoly.Typing.Mode

/-!
# Command-line arguments

Arguments are flags, which begin with two dashes, and names of sources.  They may be
mixed.  A single dash is a source, and behind two dashes alone everything is.

Arguments are read from the left.  An unknown flag, a value given to a flag, a flag
given twice and the requests for help and for the version are noticed on the way, the
first of them counts.  After that flags that exclude each other are noticed, and last
that there is no source.
-/

namespace LetPoly.Command

/-- The flags. -/
inductive Flag where
  | debug
  | print
  /-- Infer types bottom-up. -/
  | inferTypes
  /-- Infer types top-down. -/
  | inferTypesTopDown
  /-- Do not push parameter types into arguments. -/
  | keepArguments
  /-- Do not push the type of a conditional into its branches. -/
  | keepBranches
  /-- Do not push annotations into what they annotate. -/
  | keepAnnotations
  deriving DecidableEq, Repr

/-- The flags by their names. -/
def Flag.ofName? : String → Option Flag
  | "debug" => some debug
  | "print" => some print
  | "infer-types" => some inferTypes
  | "infer-types-td" => some inferTypesTopDown
  | "no-propagate-arguments" => some keepArguments
  | "no-propagate-branches" => some keepBranches
  | "no-propagate-annotations" => some keepAnnotations
  | _ => none

/-- Why arguments are not accepted, or what is asked for instead of a run. -/
inductive ArgumentError where
  /-- There are no arguments. -/
  | noArguments
  /-- There is no source. -/
  | missingSource
  /-- A source has an empty name. -/
  | emptySource
  /-- A flag is not known. -/
  | unknownFlag
  /-- Flags exclude each other, or a flag is given twice. -/
  | conflict
  /-- A flag is given a value. -/
  | unexpectedValue
  /-- Help is asked for. -/
  | help
  /-- The version is asked for. -/
  | version
  deriving DecidableEq, Repr

/-- What is asked of a run. -/
structure Arguments where
  /-- How types are inferred, if they are. -/
  mode : Option Mode
  /-- Whether log entries are shown. -/
  debug : Bool
  /-- Whether trees are shown. -/
  print : Bool
  /-- The names of the sources. -/
  sources : List String
  deriving DecidableEq, Repr

/-- What an argument with dashes asks for. -/
inductive Request where
  | flag (f : Flag)
  | help
  | version
  deriving DecidableEq, Repr

namespace Request

/-- What a name behind two dashes asks for. -/
def ofName? : String → Option Request
  | "help" => some help
  | "version" => some version
  | name => (Flag.ofName? name).map flag

/-- What a letter behind one dash asks for. -/
def ofLetter? : Char → Option Request
  | 'h' => some help
  | 'V' => some version
  | _ => none

end Request

/-- The arguments read so far. -/
structure Reading where
  /-- The flags. -/
  flags : List Flag
  /-- The sources, the last one first. -/
  sources : List String
  /-- Whether a source since the last flag has an empty name. -/
  blank : Bool

namespace Reading

/-- Adds a source. -/
def addSource (r : Reading) (name : String) : Reading :=
  { r with sources := name :: r.sources, blank := r.blank || name.isEmpty }

/-- Adds what an argument with dashes asks for.  The sources before it are looked at first. -/
def addRequest (r : Reading) (q : Request) : Except ArgumentError Reading :=
  if r.blank then .error .emptySource
  else
    match q with
    | .help => .error .help
    | .version => .error .version
    | .flag f =>
      if r.flags.contains f then .error .conflict else .ok { r with flags := f :: r.flags }

/-- Adds an argument that begins with two dashes, which `cs` stand behind. -/
def addLong (r : Reading) (cs : List Char) : Except ArgumentError Reading :=
  match Request.ofName? (String.ofList (cs.takeWhile (· != '='))) with
  | none => .error .unknownFlag
  | some q => if cs.contains '=' then .error .unexpectedValue else r.addRequest q

/-- Adds an argument that begins with one dash, which `c` stands behind. -/
def addShort (r : Reading) (c : Char) : Except ArgumentError Reading :=
  match Request.ofLetter? c with
  | none => .error .unknownFlag
  | some q => r.addRequest q

/-- Reads arguments from the left. -/
def addAll (r : Reading) : List String → Except ArgumentError Reading
  | [] => if r.blank then .error .emptySource else .ok r
  | a :: as =>
    match a.toList with
    | ['-', '-'] =>
      let r := as.foldl addSource r
      if r.blank then .error .emptySource else .ok r
    | '-' :: '-' :: cs => do
      let r ← r.addLong cs
      r.addAll as
    | '-' :: c :: _ => do
      let r ← r.addShort c
      r.addAll as
    | _ => (r.addSource a).addAll as

/-- The flags that exclude inferring types bottom-up. -/
def topDownFlags : List Flag :=
  [.inferTypesTopDown, .keepArguments, .keepBranches, .keepAnnotations]

/-- Whether flags exclude each other. -/
def conflicts (r : Reading) : Bool :=
  r.flags.contains .inferTypes && topDownFlags.any r.flags.contains

/-- How types are inferred, if they are. -/
def mode? (r : Reading) : Option Mode :=
  if r.flags.contains .inferTypesTopDown then
    some (.topDown
      { arguments := !r.flags.contains .keepArguments
        branches := !r.flags.contains .keepBranches
        annotations := !r.flags.contains .keepAnnotations })
  else if r.flags.contains .inferTypes then some .bottomUp
  else none

end Reading

/-- Reads the arguments of a command. -/
def Arguments.read (args : List String) : Except ArgumentError Arguments := do
  let r ← Reading.addAll ⟨[], [], false⟩ args
  if r.flags.isEmpty && r.sources.isEmpty then throw .noArguments
  if r.conflicts then throw .conflict
  if r.sources.isEmpty then throw .missingSource
  return ⟨r.mode?, r.flags.contains .debug, r.flags.contains .print, r.sources.reverse⟩

end LetPoly.Command
