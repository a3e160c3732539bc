import DraftHeads.Toml.Value

/-! # Writing TOML documents

* `quoteText`: a string in the plainest of four forms that can hold it: between double quotes,
  between single quotes, or either of them tripled; a string that none of these can hold as it is
  gets escapes.
* `doubleText`: a double with the fewest digits that read back, never with an exponent.
* `arrayText`: an array of two items or more has each of them on a line of its own.
* `document?`: one line for each entry; there is no text for an integer beyond `2^63 - 1`. -/

namespace DraftHeads.Toml

open Number

/-- Is the character a control character other than the tabulator and the end of a line? -/
def isControl (c : Char) : Bool :=
  c != '\t' && c != '\n' && (decide (c.toNat < 0x20) || c.toNat == 0x7F)

/-- The length of the longest run of a character. -/
def longestRun (c : Char) (cs : List Char) : Nat :=
  (cs.foldl (fun (best, run) d => if d = c then (max best (run + 1), run + 1) else (best, 0))
    (0, 0)).1

/-- A digit of a number in base sixteen. -/
def hexDigit (n : Nat) : Char := ((Nat.toDigits 16 (n % 16)).headD '0').toUpper

/-- Four digits in base sixteen. -/
def hexFour (n : Nat) : List Char :=
  [hexDigit (n / 4096), hexDigit (n / 256), hexDigit (n / 16), hexDigit n]

/-- How a character that is not a quote is written between double quotes. -/
def escapeChar (multiline : Bool) (c : Char) : List Char :=
  if c = '\\' then ['\\', '\\']
  else if c = '\x08' then ['\\', 'b']
  else if c = '\t' then ['\\', 't']
  else if c = '\n' then if multiline then ['\n'] else ['\\', 'n']
  else if c = '\x0c' then ['\\', 'f']
  else if c = '\r' then ['\\', 'r']
  else if c.toNat < 0x20 ∨ c.toNat = 0x7F then ['\\', 'u'] ++ hexFour c.toNat
  else [c]

/-- The characters between double quotes; `run` counts the double quotes in front, of which
`unescaped` may stand next to each other. -/
def escapeText (multiline : Bool) (unescaped : Nat) : (run : Nat) → List Char → List Char
  | _, [] => []
  | run, c :: cs =>
    if c = '"' then
      if run < unescaped then '"' :: escapeText multiline unescaped (run + 1) cs
      else '\\' :: '"' :: escapeText multiline unescaped 0 cs
    else escapeChar multiline c ++ escapeText multiline unescaped 0 cs

/-- The forms of a string. -/
inductive Quoting where
  | basic
  | literal
  | multiBasic
  | multiLiteral
deriving DecidableEq, Repr

/-- The form of a string. -/
def quotingOf (cs : List Char) : Quoting :=
  let control := cs.any isControl
  let backslash := cs.contains '\\'
  let newline := cs.contains '\n'
  if !control ∧ !backslash ∧ !cs.contains '"' ∧ !newline then .basic
  else if !control ∧ !cs.contains '\'' ∧ !newline then .literal
  else if !control ∧ !backslash ∧ longestRun '"' cs ≤ 2 then .multiBasic
  else if !control ∧ longestRun '\'' cs ≤ 2 then .multiLiteral
  else if newline then .multiBasic
  else .basic

/-- Three quotes around some characters; a text of several lines starts on a line of its own. -/
def triple (quote : Char) (newline : Bool) (body : List Char) : List Char :=
  let quotes := [quote, quote, quote]
  quotes ++ (if newline then ['\n'] else []) ++ body ++ quotes

/-- A string with its quotes. -/
def quoteText (cs : List Char) : List Char :=
  match quotingOf cs with
  | .basic => '"' :: (escapeText false 0 0 cs ++ ['"'])
  | .literal => '\'' :: (cs ++ ['\''])
  | .multiBasic => triple '"' (cs.contains '\n') (escapeText true 2 0 cs)
  | .multiLiteral => triple '\'' (cs.contains '\n') cs

/-- A double, with at least one digit after the point; what is not a number has no sign. -/
def doubleText (x : Double) : List Char :=
  let sign := if x.isNegative then ['-'] else []
  if x.isNaN then ['n', 'a', 'n']
  else if !x.isFinite then sign ++ ['i', 'n', 'f']
  else
    let (whole, fraction) := x.shortest.positional
    sign ++ whole ++ '.' :: (if fraction.isEmpty then ['0'] else fraction)

/-- An integer. -/
def integerText (i : Int) : List Char :=
  (if i < 0 then ['-'] else []) ++ Decimal.digits i.natAbs

/-- An array whose items are written already. -/
def arrayText (items : List (List Char)) : List Char :=
  match items with
  | [] => ['[', ']']
  | [item] => '[' :: (item ++ [']'])
  | items =>
    let line (item : List Char) : List Char := [' ', ' ', ' ', ' '] ++ item ++ [',', '\n']
    ['[', '\n'] ++ items.flatMap line ++ [']']

/-- The text of a value that is a string, a double, an integer in range or an array of such
integers. -/
def valueText? : Value → Option (List Char)
  | .string s => some (quoteText s.toList)
  | .double x => some (doubleText x)
  | .integer i => if i < (UInt64.size / 2 : Nat) then some (integerText i) else none
  | .array items => do
    let texts ← items.mapM fun v =>
      match v with
      | .integer i => if i < (UInt64.size / 2 : Nat) then some (integerText i) else none
      | _ => none
    some (arrayText texts)
  | _ => none

/-- The lines of some entries, whose keys need no quotes. -/
def documentText? : List (String × Value) → Option (List Char)
  | [] => some []
  | (key, v) :: rest => do
    let text ← valueText? v
    let more ← documentText? rest
    some (key.toList ++ [' ', '=', ' '] ++ text ++ '\n' :: more)

/-- The document of some entries, whose keys need no quotes. -/
def document? (entries : List (String × Value)) : Option String :=
  (documentText? entries).map String.ofList

end DraftHeads.Toml
