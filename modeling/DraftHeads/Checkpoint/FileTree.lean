import DraftHeads.Checkpoint.Path

/-! # Trees of files

A tree of files is a list of places with what is there: a directory or the bytes of a file. The
directories above a place are there as well. A path is looked up part by part from the root: every
part but the last one has to be a directory, a point stays where it is and two points go up. -/

namespace DraftHeads

/-- What is at a place of a tree. -/
inductive FileNode where
  | directory
  | file (bytes : List UInt8)
deriving Repr, DecidableEq

/-- The places of a tree with what is there, in the order in which directories list them. What is
put at a place later replaces what was there. -/
structure FileTree where
  entries : List (List String × FileNode)

namespace FileTree

/-- What is at a place. -/
def node? (t : FileTree) (place : List String) : Option FileNode :=
  match (t.entries.filter fun e => e.1 == place).getLast? with
  | some e => some e.2
  | none =>
    if place.isEmpty ∨ t.entries.any fun e => place.isPrefixOf e.1 then some .directory else none

/-- Is the place a directory? -/
def isDirectoryAt (t : FileTree) (place : List String) : Bool := t.node? place == some .directory

/-- The place that the parts of a path lead to. -/
def walk (t : FileTree) : (place : List String) → List String → Option (List String)
  | place, [] => some place
  | place, part :: rest =>
    if t.isDirectoryAt place then
      if part = "" ∨ part = "." then walk t place rest
      else if part = ".." then walk t place.dropLast rest
      else walk t (place ++ [part]) rest
    else none

/-- What a path leads to. -/
def find? (t : FileTree) (p : Path) : Option FileNode :=
  if p.text = "" then none else t.walk [] p.spelledParts >>= t.node?

/-- Does the path lead to a directory? -/
def isDirectory (t : FileTree) (p : Path) : Bool := t.find? p == some .directory

/-- The bytes of the file that a path leads to. -/
def readBytes? (t : FileTree) (p : Path) : Option (List UInt8) :=
  match t.find? p with
  | some (.file bytes) => some bytes
  | _ => none

/-- The text of the file that a path leads to, if its bytes are text. -/
def readText? (t : FileTree) (p : Path) : Option String := do
  String.fromUTF8? (ByteArray.mk (← t.readBytes? p).toArray)

/-- The names in the directory at a place, each once. -/
def namesAt (t : FileTree) (place : List String) : List String :=
  (t.entries.filterMap fun e =>
    if place.isPrefixOf e.1 then e.1[place.length]? else none).eraseDups

/-- The names in the directory that a path leads to. -/
def list? (t : FileTree) (p : Path) : Option (List String) := do
  let place ← t.walk [] p.spelledParts
  if t.isDirectoryAt place then some (t.namesAt place) else none

/-- The places that the parts of a path lead over, from a place on. -/
def stops : (place : List String) → List String → List (List String)
  | place, [] => [place]
  | place, part :: rest =>
    place :: (if part = "" ∨ part = "." then stops place rest
      else if part = ".." then stops place.dropLast rest
      else stops (place ++ [part]) rest)

/-- The tree with something where a path leads, all places on the way being directories. -/
def add (t : FileTree) (p : Path) (node : FileNode) : FileTree :=
  let places := stops [] p.spelledParts
  ⟨t.entries ++ places.dropLast.map (·, .directory) ++ places.getLast?.toList.map (·, node)⟩

end FileTree

end DraftHeads
