/-! # Paths

A path is kept as it is spelled. Two spellings are the *same* path if they have the same parts:
empty parts and single points do not count, except for a point in front, and a slash in front does.
The names of a path are not looked up anywhere, so that `..` is a part like any other.

* `Path.same`: do two spellings name the same path?
* `Path.fileName?`: the last part, if it is a name.
* `Path.extension?`: what follows the last point of the file name. -/

namespace DraftHeads

/-- The parts of a text between the occurrences of a character. -/
def cutAt (sep : Char) : List Char → List (List Char)
  | [] => [[]]
  | c :: cs =>
    if c = sep then [] :: cutAt sep cs
    else
      match cutAt sep cs with
      | [] => [[c]]
      | part :: parts => (c :: part) :: parts

/-- A path as it is spelled. -/
structure Path where
  text : String
deriving Repr, DecidableEq

namespace Path

/-- The parts between the slashes. -/
def spelledParts (p : Path) : List String := (cutAt '/' p.text.toList).map String.ofList

/-- Does the path start at the root? -/
def isAbsolute (p : Path) : Bool := p.text.toList.head? == some '/'

/-- The parts that count. -/
def parts (p : Path) : List String :=
  let rest := p.spelledParts.filter fun s => s ≠ "" ∧ s ≠ "."
  if p.spelledParts.head? = some "." then "." :: rest else rest

/-- Do two spellings name the same path? -/
def same (p q : Path) : Bool := p.isAbsolute == q.isAbsolute && p.parts == q.parts

/-- The last part, if it is a name. -/
def fileName? (p : Path) : Option String :=
  match p.parts.getLast? with
  | some s => if s = "." ∨ s = ".." then none else some s
  | none => none

/-- What follows the last point of the file name; a point in front does not count. -/
def extension? (p : Path) : Option String := do
  let parts := cutAt '.' (← p.fileName?).toList
  match parts.getLast?, parts.dropLast with
  | some last, before =>
    if before = [] ∨ before = [[]] then none else some (String.ofList last)
  | none, _ => none

/-- A path below another one; an absolute path stands for itself. -/
def join (p : Path) (name : String) : Path :=
  if (Path.mk name).isAbsolute ∨ p.text = "" then ⟨name⟩
  else if p.text.toList.getLast? = some '/' then ⟨p.text ++ name⟩
  else ⟨p.text ++ "/" ++ name⟩

end Path

end DraftHeads
