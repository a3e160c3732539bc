import DraftHeads.Toml.Lexer

/-! # Reading TOML documents

A document is a sequence of lines: a key with its value, or the header of a table. While it is read
it is a tree of *sections*. A section was *written* by a header, or it is *implied* by a longer key;
an implied section may have come from a dotted key or from a header. These kinds tell which sections
may be opened again:

* a header may open a section that is implied by longer headers, once;
* a dotted key may reach only into sections that dotted keys have made;
* no key and no array of sections may be given twice in any other way. -/

namespace DraftHeads.Toml

open Number

/-- How a section came about. -/
inductive Origin where
  | written
  | header
  | dotted
deriving DecidableEq, Repr

/-- An entry of a section while a document is read. -/
inductive Item where
  | value (v : Value)
  | table (origin : Origin) (entries : List (String × Item))
  /-- An array of sections. -/
  | tables (elements : List (List (String × Item)))

/-- A section: its origin and its entries. -/
structure Section where
  origin : Origin
  entries : List (String × Item)

namespace Section

/-- The section that has no entries and was written by a header. -/
def blank : Section := ⟨.written, []⟩

/-- The entry of a key. -/
def find? (s : Section) (key : String) : Option Item :=
  (s.entries.find? fun e => e.1 == key).map Prod.snd

/-- The section with an entry put in place of the one with its key, or at the end. -/
def put (s : Section) (key : String) (item : Item) : Section :=
  if (s.find? key).isSome then
    ⟨s.origin, s.entries.map fun e => if e.1 == key then (key, item) else e⟩
  else ⟨s.origin, s.entries ++ [(key, item)]⟩

/-- The section without the entry of a key. -/
def remove (s : Section) (key : String) : Section :=
  ⟨s.origin, s.entries.filter fun e => e.1 != key⟩

/-- The section at the end of a path; in an array of sections the path goes through the last one. -/
def at? : List String → Section → Option Section
  | [], s => some s
  | key :: path, s =>
    match s.find? key with
    | some (.table origin entries) => at? path ⟨origin, entries⟩
    | some (.tables elements) => elements.getLast? >>= fun last => at? path ⟨.written, last⟩
    | _ => none

/-- Changes the section at the end of a path, making the sections on the way that are not there. -/
def change (viaKey : Bool) (f : Section → Option Section) : List String → Section → Option Section
  | [], s => f s
  | key :: path, s =>
    match s.find? key with
    | none => do
      let inner ← change viaKey f path ⟨if viaKey then .dotted else .header, []⟩
      some (s.put key (.table inner.origin inner.entries))
    | some (.value _) => none
    | some (.tables elements) =>
      match elements.getLast? with
      | none => none
      | some last => do
        let inner ← change viaKey f path ⟨.written, last⟩
        some (s.put key (.tables (elements.dropLast ++ [inner.entries])))
    | some (.table origin entries) =>
      if viaKey ∧ origin = .written then none
      else do
        let inner ← change viaKey f path ⟨origin, entries⟩
        some (s.put key (.table inner.origin inner.entries))

/-- The section with a value for a dotted key. The section that the key reaches has to be one that
dotted keys have made, or the one that the line is in. -/
def assign (path : List String) (key : String) (v : Value) (s : Section) : Option Section :=
  s.change true (fun target =>
    if !path.isEmpty ∧ target.origin ≠ .dotted then none
    else if (target.find? key).isSome then none
    else some (target.put key (.value v))) path

end Section

mutual

/-- The value of an item. -/
def Item.toValue : Item → Value
  | .value v => v
  | .table _ entries => .table (entriesToValues entries)
  | .tables elements => .array (elementsToValues elements)

/-- The values of the entries of a section. -/
def entriesToValues : List (String × Item) → List (String × Value)
  | [] => []
  | (key, item) :: rest => (key, item.toValue) :: entriesToValues rest

/-- The values of the sections of an array. -/
def elementsToValues : List (List (String × Item)) → List Value
  | [] => []
  | entries :: rest => .table (entriesToValues entries) :: elementsToValues rest

end

/-! ### Values -/

/-- A value on one line that does not contain other values. -/
def scalar (cs : List Char) : Option (Value × List Char) :=
  match cs with
  | [] => none
  | c :: rest =>
    if c = '"' ∨ c = '\'' then (string cs).map fun (s, r) => (.string (String.ofList s), r)
    else if c = 't' then
      match rest with
      | 'r' :: 'u' :: 'e' :: r => some (.bool true, r)
      | _ => none
    else if c = 'f' then
      match rest with
      | 'a' :: 'l' :: 's' :: 'e' :: r => some (.bool false, r)
      | _ => none
    else
      match dateTime? cs with
      | some r => some (.dateTime (String.ofList (cs.take (cs.length - r.length))), r)
      | none =>
        match double cs with
        | some (x, r) => some (.double x, r)
        | none => (integer cs).map fun (i, r) => (.integer i, r)

mutual

/-- A value at some level of nesting. The fuel bounds the number of steps. -/
def value : (fuel level : Nat) → List Char → Option (Value × List Char)
  | 0, _, _ => none
  | fuel + 1, level, cs =>
    match cs with
    | '[' :: rest =>
      if level + 1 < maxLevels then
        (items fuel (level + 1) rest).map fun (vs, r) => (.array vs, r)
      else none
    | '\x7b' :: rest =>
      if level + 1 < maxLevels then
        match skipBlanks rest with
        | '\x7d' :: r => some (.table [], r)
        | rest =>
          (pairs fuel (level + 1) .blank rest).map fun (s, r) =>
            (.table (entriesToValues s.entries), r)
      else none
    | cs => scalar cs

/-- The items of an array, up to its closing bracket. -/
def items : (fuel level : Nat) → List Char → Option (List Value × List Char)
  | 0, _, _ => none
  | fuel + 1, level, cs => do
    match ← skipLines (cs.length + 1) cs with
    | ']' :: rest => some ([], rest)
    | rest =>
      let (v, rest) ← value fuel level rest
      match ← skipLines (rest.length + 1) rest with
      | ']' :: rest => some ([v], rest)
      | ',' :: rest => (items fuel level rest).map fun (vs, r) => (v :: vs, r)
      | _ => none

/-- The pairs of a table on one line, up to its closing bracket. -/
def pairs : (fuel level : Nat) → Section → List Char → Option (Section × List Char)
  | 0, _, _, _ => none
  | fuel + 1, level, s, cs => do
    let (path, rest) ← key cs
    match rest with
    | '=' :: rest =>
      let (v, rest) ← value fuel level (skipBlanks rest)
      let s ← s.assign path.dropLast (path.getLastD "") v
      match skipBlanks rest with
      | '\x7d' :: rest => some (s, rest)
      | ',' :: rest => pairs fuel level s rest
      | _ => none
    | _ => none

end

/-! ### Documents -/

/-- A document as far as it is read: the sections that are finished, and the one that lines are
added to, with the path of its header. -/
structure Draft where
  root : Section
  current : Section
  path : List String
  /-- Is the current section an element of an array? -/
  isElement : Bool

namespace Draft

/-- Nothing has been read and the root is the current section. -/
def start : Draft := ⟨.blank, .blank, [], false⟩

/-- The sections with the current one put into its place. -/
def close (d : Draft) : Option Section :=
  match d.path.getLast? with
  | none => some d.current
  | some key =>
    d.root.change false (fun parent =>
      match parent.find? key, d.isElement with
      | none, true => some (parent.put key (.tables [d.current.entries]))
      | some (.tables elements), true =>
        some (parent.put key (.tables (elements ++ [d.current.entries])))
      | none, false => some (parent.put key (.table d.current.origin d.current.entries))
      | _, _ => none) d.path.dropLast

/-- Opens the section of a header. A section that longer headers imply is gone on with. -/
def openTable (d : Draft) (path : List String) : Option Draft := do
  let root ← d.close
  let key := path.getLastD ""
  let opened : Option (List (String × Item)) :=
    match root.at? path.dropLast >>= fun parent => parent.find? key with
    | some (.table .header entries) => some entries
    | _ => none
  let root ← root.change false (fun parent =>
    match parent.find? key, opened with
    | none, _ => some parent
    | some _, some _ => some (parent.remove key)
    | some _, none => none) path.dropLast
  some ⟨root, ⟨.written, opened.getD []⟩, path, false⟩

/-- Opens a new section of an array of sections. -/
def openElement (d : Draft) (path : List String) : Option Draft := do
  let root ← d.close
  let key := path.getLastD ""
  let root ← root.change false (fun parent =>
    match parent.find? key with
    | none => some parent
    | some (.tables _) => some parent
    | some _ => none) path.dropLast
  some ⟨root, .blank, path, true⟩

/-- The document with a value for a key of the current section. -/
def assign (d : Draft) (path : List String) (v : Value) : Option Draft := do
  some { d with current := ← d.current.assign path.dropLast (path.getLastD "") v }

end Draft

/-- A header, up to the end of its line. -/
def header (d : Draft) (cs : List Char) : Option (Draft × List Char) :=
  match cs with
  | '[' :: rest => do
    let (path, rest) ← key rest
    match rest with
    | ']' :: ']' :: rest => do
      let rest ← lineTrailing? rest
      some (← d.openElement path, rest)
    | _ => none
  | cs => do
    let (path, rest) ← key cs
    match rest with
    | ']' :: rest => do
      let rest ← lineTrailing? rest
      some (← d.openTable path, rest)
    | _ => none

/-- A key with its value, up to the end of its line. -/
def assignment (d : Draft) (cs : List Char) : Option (Draft × List Char) := do
  let (path, rest) ← key cs
  match rest with
  | '=' :: rest =>
    let (v, rest) ← value (2 * rest.length + 4) 0 (skipBlanks rest)
    let rest ← lineTrailing? rest
    some (← d.assign path v, rest)
  | _ => none

/-- The lines of a document. The fuel bounds their number. -/
def lines : (fuel : Nat) → Draft → List Char → Option Section
  | 0, _, _ => none
  | fuel + 1, d, cs =>
    match skipBlanks cs with
    | [] => d.close
    | '[' :: rest => do
      let (d, rest) ← header d rest
      lines fuel d rest
    | c :: rest =>
      if c = '#' then do lines fuel d (← lineEnd? (rest.dropWhile isPlain))
      else
        match newline? (c :: rest) with
        | some rest => lines fuel d rest
        | none => do
          let (d, rest) ← assignment d (c :: rest)
          lines fuel d rest

/-- The rest of a text after a byte order mark, which need not be there. -/
def skipMark : List Char → List Char
  | c :: rest => if c.toNat = 0xFEFF then rest else c :: rest
  | [] => []

/-- The entries of a document. -/
def parse? (text : String) : Option (List (String × Value)) := do
  let cs := skipMark text.toList
  some (entriesToValues (← lines (cs.length + 1) .start cs).entries)

end DraftHeads.Toml
