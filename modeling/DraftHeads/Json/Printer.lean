import DraftHeads.Json.Value

/-! # JSON text

* `Value.compact`: a value without blanks.
* `Value.pretty`: a value with one member or item to a line, indented by two blanks a level.
* `doubleText`: a double with the fewest digits that read back, positional between `10^-5` and
  `10^16` and with an exponent elsewhere. -/

namespace DraftHeads.Json

open Number

/-- The character of a hexadecimal digit. -/
def hexDigit (n : Nat) : Char := (Nat.toDigits 16 (n % 16)).headD '0'

/-- How a character is written inside quotes. -/
def escapeChar (c : Char) : List Char :=
  if c = '"' then ['\\', '"']
  else if c = '\\' then ['\\', '\\']
  else if c = '\x08' then ['\\', 'b']
  else if c = '\x0c' then ['\\', 'f']
  else if c = '\n' then ['\\', 'n']
  else if c = '\r' then ['\\', 'r']
  else if c = '\t' then ['\\', 't']
  else if c.toNat < 32 then ['\\', 'u', '0', '0', hexDigit (c.toNat / 16), hexDigit c.toNat]
  else [c]

/-- A string between quotes. -/
def quote (s : String) : String :=
  String.ofList ('"' :: (s.toList.flatMap escapeChar ++ ['"']))

/-- A decimal with its digits around the point. The number of digits before the point tells how it
is written: up to sixteen of them and down to four zeros after the point it is positional, and
otherwise it has an exponent with a sign. -/
def decimalText (d : Decimal) : String :=
  let ds := Decimal.digits d.significand
  let point : Int := ds.length + d.exponent
  if 0 < point ∧ point ≤ 16 then
    let (whole, fraction) := d.positional
    String.ofList (whole ++ '.' :: (if fraction.isEmpty then ['0'] else fraction))
  else if -5 < point ∧ point ≤ 0 then
    let (whole, fraction) := d.positional
    String.ofList (whole ++ '.' :: fraction)
  else
    let mantissa :=
      match ds with
      | [] => []
      | [c] => [c]
      | c :: rest => c :: '.' :: rest
    String.ofList mantissa ++ (if 0 < point then "e+" else "e") ++ toString (point - 1)

/-- A finite double. -/
def doubleText (x : Double) : String :=
  let sign := if x.isNegative then "-" else ""
  if x.magnitude = 0 then sign ++ "0.0" else sign ++ decimalText x.shortest

/-- The text of a number. -/
def Numeral.text : Numeral → String
  | natural n => toString n
  | negative i => toString i
  | double x => doubleText x

namespace Value

mutual

/-- The value without blanks. -/
def compact : Value → String
  | null => "null"
  | bool b => if b then "true" else "false"
  | number n => n.text
  | string s => quote s
  | array items => "[" ++ ",".intercalate (compactItems items) ++ "]"
  | object members => "\x7b" ++ ",".intercalate (compactMembers members) ++ "\x7d"

/-- The texts of a list of values. -/
def compactItems : List Value → List String
  | [] => []
  | v :: rest => v.compact :: compactItems rest

/-- The texts of a list of members. -/
def compactMembers : List (String × Value) → List String
  | [] => []
  | (k, v) :: rest => (quote k ++ ":" ++ v.compact) :: compactMembers rest

end

/-- Parts on lines of their own between an opening and a closing bracket. -/
def block (level : Nat) (opening closing : String) (parts : List String) : String :=
  if parts.isEmpty then opening ++ closing
  else
    let line (n : Nat) : String := "\n" ++ "".pushn ' ' (2 * n)
    opening ++ line (level + 1) ++ (("," ++ line (level + 1)).intercalate parts) ++ line level ++
      closing

mutual

/-- The value at a level of indentation. -/
def prettyAt (level : Nat) : Value → String
  | array items => block level "[" "]" (prettyItems (level + 1) items)
  | object members => block level "\x7b" "\x7d" (prettyMembers (level + 1) members)
  | null => "null"
  | bool b => if b then "true" else "false"
  | number n => n.text
  | string s => quote s

/-- The texts of a list of values. -/
def prettyItems (level : Nat) : List Value → List String
  | [] => []
  | v :: rest => v.prettyAt level :: prettyItems level rest

/-- The texts of a list of members. -/
def prettyMembers (level : Nat) : List (String × Value) → List String
  | [] => []
  | (k, v) :: rest => (quote k ++ ": " ++ v.prettyAt level) :: prettyMembers level rest

end

/-- The value with one member or item to a line. -/
def pretty (v : Value) : String := v.prettyAt 0

end Value

end DraftHeads.Json
