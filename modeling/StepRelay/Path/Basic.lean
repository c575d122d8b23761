/-!
# Paths

A path is a string of bytes that slashes divide into pieces. Names need not be text. Joining and the
parts of a path follow the rules of Unix.
-/

namespace StepRelay

/-- A path by its bytes. -/
structure Path where
  bytes : List UInt8
  deriving DecidableEq, Inhabited

namespace Path

def slash : UInt8 := 0x2F
def dot : UInt8 := 0x2E

/-- The path that a text names. -/
def ofChars (text : List Char) : Path := ⟨text.flatMap String.utf8EncodeChar⟩

def ofString (text : String) : Path := ofChars text.toList

/-- A path is absolute if it begins with a slash. -/
def isAbsolute (path : Path) : Bool := path.bytes.head? == some slash

/-- A path as seen from a directory: an absolute path stands for itself, any other follows the
directory behind a slash, unless the directory already ends with one. -/
def join (directory path : Path) : Path :=
  if path.isAbsolute then path
  else if directory.bytes.getLast?.all (· == slash) then ⟨directory.bytes ++ path.bytes⟩
  else ⟨directory.bytes ++ slash :: path.bytes⟩

/-! ### Components

What a path means is told by its components. Empty pieces and single dots lead nowhere, so different
texts may name one place.
-/

/-- A part of a path that says where to go. -/
inductive Component where
  | root
  | here
  | parent
  | name (bytes : List UInt8)
  deriving DecidableEq

/-- The texts between the slashes, the empty ones as well. -/
def pieces (path : Path) : List (List UInt8) := path.bytes.splitOn slash

/-- Where a piece leads; an empty piece or a single dot leads nowhere. -/
def Component.ofPiece? (piece : List UInt8) : Option Component :=
  if piece = [] ∨ piece = [dot] then none
  else if piece = [dot, dot] then some .parent
  else some (.name piece)

/-- The parts of a path. A single dot counts only in front of a path that is not absolute. -/
def components (path : Path) : List Component :=
  let rest := path.pieces.filterMap Component.ofPiece?
  if path.isAbsolute then .root :: rest
  else if path.pieces.head? = some [dot] then .here :: rest
  else rest

/-- The name at the end of a path. -/
def fileName? (path : Path) : Option (List UInt8) :=
  match path.components.getLast? with
  | some (.name bytes) => some bytes
  | _ => none

/-- What follows the last dot of the name at the end. A dot in front of a name does not count. -/
def extension? (path : Path) : Option (List UInt8) := do
  let name ← path.fileName?
  if dot ∈ name.drop 1 then some (name.reverse.takeWhile (· != dot)).reverse else none

/-- Whether a path's extension is the given text, in capital or small letters. -/
def hasExtension (path : Path) (text : String) : Bool :=
  path.extension?.any fun bytes =>
    bytes.map (fun b => (Char.ofNat b.toNat).toLower) == text.toList.map Char.toLower

theorem join_of_isAbsolute (directory : Path) {path : Path} (h : path.isAbsolute = true) :
    directory.join path = path := by
  simp [join, h]

end Path

end StepRelay
