import StepRelay.Path.Basic

/-!
# Files and directories

A place is the list of names that leads to it from the root. Every place on the way to a known file
or directory is a directory.
-/

namespace StepRelay

/-- The names from the root down to a file or directory. -/
abbrev Place := List (List UInt8)

/-- What is kept: the contents of files, and directories that may be empty. -/
structure Files where
  files : List (Place × List UInt8) := []
  directories : List Place := []

/-- What there is at the end of a path. -/
inductive Found where
  | missing
  | directory
  | file (content : List UInt8)

namespace Files

def isDirectory (files : Files) (place : Place) : Bool :=
  place.isEmpty || files.directories.any place.isPrefixOf ||
    files.files.any fun (other, _) => place.isPrefixOf other && place != other

/-- What there is at a place. -/
def get (files : Files) (place : Place) : Found :=
  match files.files.find? (·.1 == place) with
  | some (_, content) => .file content
  | none => if files.isDirectory place then .directory else .missing

/-- Follows the pieces of a path. Each piece, also an empty one or a dot, needs a directory to start
from. -/
def follow (files : Files) (place : Place) : List (List UInt8) → Option Place
  | [] => some place
  | piece :: rest =>
    if ¬ files.isDirectory place then none
    else match Path.Component.ofPiece? piece with
      | some (.name name) => follow files (place ++ [name]) rest
      | some .parent => follow files place.dropLast rest
      | _ => follow files place rest

/-- What there is at the end of a path, as seen from a directory. -/
def find (files : Files) (start : Place) (path : Path) : Found :=
  -- an empty path leads nowhere, not even to where it starts
  if path.bytes = [] then .missing
  else match files.follow (if path.isAbsolute then [] else start) path.pieces with
    | some place => files.get place
    | none => .missing

end Files

end StepRelay
