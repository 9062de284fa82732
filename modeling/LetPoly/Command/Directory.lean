/-!
# Directories

A directory as a value: what its files hold, and what reading a path in it gives.  A
path is taken from the directory on, part by part.  An empty part and a dot stay, and
two dots go up.  Nothing is known of what lies outside.
-/

namespace LetPoly.Command

/-- Why a path cannot be read. -/
inductive ReadError where
  /-- There is nothing there. -/
  | notFound
  /-- A part of the path that is not the last is a file. -/
  | notADirectory
  /-- The path leads to a directory. -/
  | isADirectory
  /-- Something else, with the message of the system. -/
  | other (text : String)
  deriving DecidableEq, Repr

/-- The message of the system for an error. -/
def ReadError.message : ReadError → String
  | notFound => "No such file or directory (os error 2)"
  | notADirectory => "Not a directory (os error 20)"
  | isADirectory => "Is a directory (os error 21)"
  | other text => text

/-- What a directory holds: paths from the directory on, with the bytes of files. -/
structure Directory where
  /-- The paths.  A path without bytes is a directory. -/
  entries : List (List String × Option (List UInt8))

namespace Directory

/-- Whether a path leads to a directory, perhaps only because there is something in it. -/
def isDirectory (d : Directory) (path : List String) : Bool :=
  path.isEmpty || d.entries.any fun e =>
    path.isPrefixOf e.1 && (path.length < e.1.length || e.2.isNone)

/-- The bytes of the file a path leads to. -/
def file? (d : Directory) (path : List String) : Option (List UInt8) :=
  (d.entries.find? fun e => e.1 == path && e.2.isSome).bind Prod.snd

/-- Follows the parts of a path from a place in the directory, or from outside. -/
def follow (d : Directory) (place : Option (List String)) :
    List String → Except ReadError (List UInt8)
  | [] =>
    match place with
    | none => .error .isADirectory
    | some path =>
      match d.file? path with
      | some bytes => .ok bytes
      | none => if d.isDirectory path then .error .isADirectory else .error .notFound
  | part :: parts =>
    match place with
    | none => if part = "" ∨ part = "." ∨ part = ".." then d.follow none parts else .error .notFound
    | some path =>
      if (d.file? path).isSome then .error .notADirectory
      else if !d.isDirectory path then .error .notFound
      else if part = "" ∨ part = "." then d.follow (some path) parts
      else if part = ".." then
        d.follow (if path.isEmpty then none else some path.dropLast) parts
      else d.follow (some (path ++ [part])) parts

/-- Reads a path. -/
def read (d : Directory) (path : String) : Except ReadError (List UInt8) :=
  match path.splitOn "/" with
  | "" :: parts => d.follow none parts
  | parts => d.follow (some []) parts

end Directory

end LetPoly.Command
