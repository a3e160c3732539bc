import DraftHeads.Toml.Value

/-! # The words of TOML

Readers of the parts of a TOML document that fit one line or one string: blanks, comments, keys,
strings, numbers, dates and times. Each takes the start of a text and gives what it read and the
rest. -/

namespace DraftHeads.Toml

open Number

/-! ### Blanks and comments -/

/-- The blanks within a line are the space and the tabulator. -/
def isBlank (c : Char) : Bool := c == ' ' || c == '\t'

/-- A text without the blanks in front. -/
def skipBlanks (cs : List Char) : List Char := cs.dropWhile isBlank

/-- May the character stand in a comment or a literal string? All may but the control characters,
of which the tabulator is allowed. -/
def isPlain (c : Char) : Bool := c == '\t' || (decide (0x20 ≤ c.toNat) && c.toNat != 0x7F)

/-- The rest of a text after the end of a line. -/
def newline? : List Char → Option (List Char)
  | '\n' :: rest => some rest
  | '\r' :: '\n' :: rest => some rest
  | _ => none

/-- The rest of a text after a comment, if there is one. -/
def skipComment : List Char → List Char
  | '#' :: rest => rest.dropWhile isPlain
  | cs => cs

/-- The rest of a text after the end of a line or at its own end. -/
def lineEnd? (cs : List Char) : Option (List Char) :=
  if cs.isEmpty then some [] else newline? cs

/-- The rest of a text after what may follow a value on its line. -/
def lineTrailing? (cs : List Char) : Option (List Char) := lineEnd? (skipComment (skipBlanks cs))

/-- The rest of a text after blanks, comments and ends of lines. -/
def skipLines : (fuel : Nat) → List Char → Option (List Char)
  | 0, cs => some cs
  | fuel + 1, cs =>
    match skipBlanks cs with
    | '#' :: rest => do skipLines fuel (← newline? (rest.dropWhile isPlain))
    | rest =>
      match newline? rest with
      | some after => skipLines fuel after
      | none => some rest

/-! ### Strings -/

/-- The value of a hexadecimal digit. -/
def hexValue? (c : Char) : Option Nat :=
  if '0' ≤ c ∧ c ≤ '9' then some (c.toNat - '0'.toNat)
  else if 'a' ≤ c ∧ c ≤ 'f' then some (c.toNat - 'a'.toNat + 10)
  else if 'A' ≤ c ∧ c ≤ 'F' then some (c.toNat - 'A'.toNat + 10)
  else none

/-- The value of hexadecimal digits. -/
def hexDigits? (acc : Nat) : List Char → Option Nat
  | [] => some acc
  | c :: cs => do hexDigits? (16 * acc + (← hexValue? c)) cs

/-- The character with a code, if there is one. -/
def charOf? (digits : List Char) : Option Char := do
  let n ← hexDigits? 0 digits
  if n.isValidChar then some (Char.ofNat n) else none

/-- The character that stands for a letter after a backslash. -/
def shortEscape? (c : Char) : Option Char :=
  match c with
  | '"' => some '"'
  | '\\' => some '\\'
  | 'b' => some '\x08'
  | 'f' => some '\x0c'
  | 'n' => some '\n'
  | 'r' => some '\r'
  | 't' => some '\t'
  | _ => none

/-- Puts a character in front of a reading. -/
def push (c : Char) (r : Option (List Char × List Char)) : Option (List Char × List Char) :=
  r.map fun (s, rest) => (c :: s, rest)

/-- The rest of a basic string after its opening quote. -/
def basicBody : List Char → Option (List Char × List Char)
  | [] => none
  | '"' :: rest => some ([], rest)
  | '\\' :: 'u' :: a :: b :: c :: d :: rest =>
    match charOf? [a, b, c, d] with
    | some x => push x (basicBody rest)
    | none => none
  | '\\' :: 'U' :: a :: b :: c :: d :: e :: f :: g :: h :: rest =>
    match charOf? [a, b, c, d, e, f, g, h] with
    | some x => push x (basicBody rest)
    | none => none
  | '\\' :: c :: rest =>
    match shortEscape? c with
    | some x => push x (basicBody rest)
    | none => none
  | c :: rest => if isPlain c then push c (basicBody rest) else none

/-- The rest of a literal string after its opening quote. -/
def literalBody : List Char → Option (List Char × List Char)
  | [] => none
  | c :: rest =>
    if c = '\'' then some ([], rest)
    else if isPlain c then push c (literalBody rest)
    else none

/-- Up to two quotes may stand in front of the three that close a string of several lines; `more`
says how many there are after the first three. -/
def closing (quote : Char) : List Char → List Char × List Char
  | a :: b :: rest =>
    if a = quote ∧ b = quote then ([quote, quote], rest)
    else if a = quote then ([quote], b :: rest)
    else ([], a :: b :: rest)
  | [a] => if a = quote then ([quote], []) else ([], [a])
  | [] => ([], [])

/-- The rest of a text after blanks and ends of lines. -/
def skipSpace : List Char → List Char
  | [] => []
  | '\r' :: '\n' :: rest => skipSpace rest
  | c :: rest => if isBlank c ∨ c = '\n' then skipSpace rest else c :: rest

/-- The rest of a text after a backslash that ends its line: all blanks and ends of lines go with
it. -/
def afterLineBreak? (cs : List Char) : Option (List Char) :=
  (newline? (skipBlanks cs)).map skipSpace

/-- The rest of a basic string of several lines. The fuel bounds the number of its characters. -/
def multiBasicBody : (fuel : Nat) → List Char → Option (List Char × List Char)
  | 0, _ => none
  | fuel + 1, cs =>
    match cs with
    | [] => none
    | '"' :: '"' :: '"' :: rest => some (closing '"' rest)
    | '\\' :: rest =>
      match afterLineBreak? rest with
      | some after => multiBasicBody fuel after
      | none =>
        match rest with
        | 'u' :: a :: b :: c :: d :: rest => do
          push (← charOf? [a, b, c, d]) (multiBasicBody fuel rest)
        | 'U' :: a :: b :: c :: d :: e :: f :: g :: h :: rest => do
          push (← charOf? [a, b, c, d, e, f, g, h]) (multiBasicBody fuel rest)
        | c :: rest => do push (← shortEscape? c) (multiBasicBody fuel rest)
        | [] => none
    | c :: rest =>
      match newline? cs with
      | some after => push '\n' (multiBasicBody fuel after)
      | none => if isPlain c then push c (multiBasicBody fuel rest) else none

/-- The rest of a literal string of several lines. -/
def multiLiteralBody : List Char → Option (List Char × List Char)
  | [] => none
  | '\'' :: '\'' :: '\'' :: rest => some (closing '\'' rest)
  | '\r' :: '\n' :: rest => push '\n' (multiLiteralBody rest)
  | c :: rest => if c = '\n' ∨ isPlain c then push c (multiLiteralBody rest) else none

/-- The rest of a text after the end of a line, which need not be there. -/
def skipNewline (cs : List Char) : List Char := (newline? cs).getD cs

/-- A string on one line. -/
def lineString : List Char → Option (List Char × List Char)
  | '"' :: rest => basicBody rest
  | '\'' :: rest => literalBody rest
  | _ => none

/-- A string. -/
def string : List Char → Option (List Char × List Char)
  | '"' :: '"' :: '"' :: rest =>
    let body := skipNewline rest
    multiBasicBody (body.length + 1) body
  | '\'' :: '\'' :: '\'' :: rest => multiLiteralBody (skipNewline rest)
  | cs => lineString cs

/-! ### Keys -/

/-- May the character stand in a key without quotes? -/
def isBare (c : Char) : Bool := c.isAlphanum || c == '_' || c == '-'

/-- A part of a key. -/
def simpleKey (cs : List Char) : Option (String × List Char) :=
  match lineString cs with
  | some (s, rest) => some (String.ofList s, rest)
  | none =>
    let name := cs.takeWhile isBare
    if name.isEmpty then none else some (String.ofList name, cs.dropWhile isBare)

/-- The parts of a key, with blanks around them. -/
def keyParts : (fuel : Nat) → List Char → Option (List String × List Char)
  | 0, _ => none
  | fuel + 1, cs => do
    let (part, rest) ← simpleKey (skipBlanks cs)
    match skipBlanks rest with
    | '.' :: rest => do
      let (parts, rest) ← keyParts fuel rest
      some (part :: parts, rest)
    | rest => some ([part], rest)

/-- The number of levels that keys and values may have. -/
def maxLevels : Nat := 80

/-- A key. -/
def key (cs : List Char) : Option (List String × List Char) := do
  let (parts, rest) ← keyParts (cs.length + 1) cs
  if parts.length < maxLevels then some (parts, rest) else none

/-! ### Numbers -/

/-- A run of digits of some kind with single underscores between them, after its first digit; the
underscores are left out. -/
def digitsAfter (isDigit : Char → Bool) : List Char → List Char × List Char
  | '_' :: c :: rest =>
    if isDigit c then
      let (ds, rest) := digitsAfter isDigit rest
      (c :: ds, rest)
    else ([], '_' :: c :: rest)
  | c :: rest =>
    if isDigit c then
      let (ds, rest) := digitsAfter isDigit rest
      (c :: ds, rest)
    else ([], c :: rest)
  | [] => ([], [])

/-- A run of digits of some kind with single underscores between them. -/
def digitRun (isDigit : Char → Bool) : List Char → Option (List Char × List Char)
  | c :: rest =>
    if isDigit c then
      let (ds, rest) := digitsAfter isDigit rest
      some (c :: ds, rest)
    else none
  | [] => none

/-- A sign, if there is one. -/
def sign : List Char → Bool × List Char
  | '-' :: rest => (true, rest)
  | '+' :: rest => (false, rest)
  | cs => (false, cs)

/-- A run of decimal digits that starts with a zero only if it is one. -/
def wholeDigits : List Char → Option (List Char × List Char)
  | '0' :: rest => some (['0'], rest)
  | cs => digitRun Char.isDigit cs

/-- The value of digits in a base. -/
def valueIn (base : Nat) (digits : List Char) : Nat :=
  digits.foldl (fun n c => base * n + (hexValue? c).getD 0) 0

/-- An integer of sixty-four bits. -/
def integerOf (negative : Bool) (n : Nat) : Option Int :=
  if n < UInt64.size / 2 then some (if negative then -n else n)
  else if negative ∧ n = UInt64.size / 2 then some (-n)
  else none

/-- An integer. -/
def integer (cs : List Char) : Option (Int × List Char) :=
  let based (base : Nat) (isDigit : Char → Bool) (rest : List Char) :
      Option (Int × List Char) := do
    let (ds, rest) ← digitRun isDigit rest
    some (← integerOf false (valueIn base ds), rest)
  match cs with
  | '0' :: 'x' :: rest => based 16 (fun c => (hexValue? c).isSome) rest
  | '0' :: 'o' :: rest => based 8 (fun c => decide ('0' ≤ c ∧ c ≤ '7')) rest
  | '0' :: 'b' :: rest => based 2 (fun c => c == '0' || c == '1') rest
  | _ => do
    let (negative, rest) := sign cs
    let (ds, rest) ← wholeDigits rest
    some (← integerOf negative (valueIn 10 ds), rest)

/-- The digits after the point of a number, if there is one. -/
def fraction : List Char → Option (Option (List Char) × List Char)
  | '.' :: rest => do
    let (ds, rest) ← digitRun Char.isDigit rest
    some (some ds, rest)
  | cs => some (none, cs)

/-- The exponent of a number, if there is one. -/
def exponent (cs : List Char) : Option (Option Int × List Char) :=
  match cs with
  | c :: rest =>
    if c = 'e' ∨ c = 'E' then do
      let (negative, rest) := sign rest
      let (ds, rest) ← digitRun Char.isDigit rest
      let n : Int := valueIn 10 ds
      some (some (if negative then -n else n), rest)
    else some (none, cs)
  | [] => some (none, [])

/-- An infinity, or what is not a number. -/
def specialDouble (negative : Bool) : List Char → Option (Double × List Char)
  | 'i' :: 'n' :: 'f' :: rest => some (.ofDatum (.infinite negative), rest)
  | 'n' :: 'a' :: 'n' :: rest => some (.ofDatum (.nan negative), rest)
  | _ => none

/-- A number with a fraction or an exponent; it may not be so large that it is infinite, unless it
is negative. -/
def double (cs : List Char) : Option (Double × List Char) :=
  let (negative, rest) := sign cs
  match specialDouble negative rest with
  | some r => some r
  | none => do
    let (whole, rest) ← wholeDigits rest
    let (fraction, rest) ← fraction rest
    let (exponent, rest) ← exponent rest
    if fraction.isNone ∧ exponent.isNone then none
    else
      let x := Double.ofDecimal negative
        (.ofDigits whole (fraction.getD []) (exponent.getD 0))
      if !negative ∧ !x.isFinite then none else some (x, rest)

/-! ### Dates and times -/

/-- A number of exactly `n` digits, not below `lo` and not above `hi`. -/
def fixedDigits (n lo hi : Nat) (cs : List Char) : Option (Nat × List Char) :=
  let ds := cs.take n
  if ds.length = n ∧ ds.all Char.isDigit ∧ lo ≤ valueIn 10 ds ∧ valueIn 10 ds ≤ hi then
    some (valueIn 10 ds, cs.drop n)
  else none

/-- The rest of a text after a character. -/
def after? (c : Char) : List Char → Option (List Char)
  | d :: rest => if c = d then some rest else none
  | [] => none

/-- The number of days of a month. -/
def daysIn (year month : Nat) : Nat :=
  if month = 2 then
    if (year % 4 = 0 ∧ year % 100 ≠ 0) ∨ year % 400 = 0 then 29 else 28
  else if month = 4 ∨ month = 6 ∨ month = 9 ∨ month = 11 then 30
  else 31

/-- The rest of a text after a date. -/
def date? (cs : List Char) : Option (List Char) := do
  let (year, rest) ← fixedDigits 4 0 9999 cs
  let (month, rest) ← fixedDigits 2 1 12 (← after? '-' rest)
  let (_, rest) ← fixedDigits 2 1 (daysIn year month) (← after? '-' rest)
  some rest

/-- The rest of a text after a time of day. -/
def time? (cs : List Char) : Option (List Char) := do
  let (_, rest) ← fixedDigits 2 0 23 cs
  let (_, rest) ← fixedDigits 2 0 59 (← after? ':' rest)
  let (_, rest) ← fixedDigits 2 0 60 (← after? ':' rest)
  match rest with
  | '.' :: c :: more => if c.isDigit then some (more.dropWhile Char.isDigit) else none
  | rest => some rest

/-- The rest of a text after a time zone, which need not be there. -/
def zone? (cs : List Char) : Option (List Char) :=
  match cs with
  | c :: rest =>
    if c = 'Z' ∨ c = 'z' then some rest
    else if c = '+' ∨ c = '-' then do
      let (_, rest) ← fixedDigits 2 0 23 rest
      let (_, rest) ← fixedDigits 2 0 59 (← after? ':' rest)
      some rest
    else some cs
  | [] => some []

/-- The rest of a text after a date, a time, or both. -/
def dateTime? (cs : List Char) : Option (List Char) :=
  match date? cs with
  | some rest =>
    match rest with
    | c :: more =>
      if c = 'T' ∨ c = 't' ∨ c = ' ' then
        match time? more with
        | some rest => zone? rest
        | none => some rest
      else some rest
    | [] => some []
  | none => time? cs

end DraftHeads.Toml
