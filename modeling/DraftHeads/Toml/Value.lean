import DraftHeads.Number.Double

/-! # TOML values

The values of a TOML document. A date or time is kept as its text. The entries of a table are in the
order in which they are written, and no key occurs twice. -/

namespace DraftHeads.Toml

open Number

/-- A TOML value. -/
inductive Value where
  | string (s : String)
  | integer (i : Int)
  | double (x : Double)
  | bool (b : Bool)
  | dateTime (text : String)
  | array (items : List Value)
  | table (entries : List (String × Value))
deriving Repr

namespace Value

/-- A string. -/
def string? : Value → Option String
  | string s => some s
  | _ => none

/-- An integer that is not negative. -/
def natural? : Value → Option Nat
  | integer i => if 0 ≤ i then some i.toNat else none
  | _ => none

/-- A list of integers that are not negative. -/
def naturals? : Value → Option (List Nat)
  | array items => items.mapM natural?
  | _ => none

/-- Any number, as a double. -/
def double? : Value → Option Double
  | double x => some x
  | integer i => some (.ofDatum (.ofInt i))
  | _ => none

end Value

/-- The value of a key. -/
def lookup? (key : String) (entries : List (String × Value)) : Option Value :=
  (entries.find? fun e => e.1 == key).map Prod.snd

end DraftHeads.Toml
