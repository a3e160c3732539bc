import DraftHeads.Number.Double

/-! # JSON values

A number is a natural number below `2^64`, a negative integer not below `-2^63`, or a double. The
members of an object are a list of pairs, as they were written; `Value.sorted` brings the objects of
a value into their normal form, in which keys ascend and none occurs twice, the last of several
members with one key being kept. -/

namespace DraftHeads.Json

open Number

/-- A JSON number. -/
inductive Numeral where
  | natural (n : Nat)
  | negative (i : Int)
  | double (x : Double)
deriving DecidableEq, Repr

/-- A JSON value. -/
inductive Value where
  | null
  | bool (b : Bool)
  | number (n : Numeral)
  | string (s : String)
  | array (items : List Value)
  | object (members : List (String × Value))
deriving Repr

/-- A list of members with ascending keys, with a member put in place of the one with its key. -/
def insertMember {α : Type} (key : String) (x : α) : List (String × α) → List (String × α)
  | [] => [(key, x)]
  | (k, y) :: rest =>
    if key < k then (key, x) :: (k, y) :: rest
    else if key = k then (key, x) :: rest
    else (k, y) :: insertMember key x rest

/-- The members with ascending keys, the last one of each key. -/
def sortMembers {α : Type} (members : List (String × α)) : List (String × α) :=
  members.foldl (fun acc m => insertMember m.1 m.2 acc) []

namespace Value

mutual

/-- The value with the members of all its objects sorted. -/
def sorted : Value → Value
  | array items => array (sortedItems items)
  | object members => object (sortMembers (sortedMembers members))
  | v => v

/-- A list of values with the members of all their objects sorted. -/
def sortedItems : List Value → List Value
  | [] => []
  | v :: rest => v.sorted :: sortedItems rest

/-- A list of members with the members of all objects in their values sorted. -/
def sortedMembers : List (String × Value) → List (String × Value)
  | [] => []
  | (k, v) :: rest => (k, v.sorted) :: sortedMembers rest

end

/-- The value of a key, the last one if there are several. -/
def get? (key : String) : Value → Option Value
  | object members => (members.reverse.find? fun m => m.1 == key).map Prod.snd
  | _ => none

/-- A natural number below `2^64`. -/
def natural? : Value → Option Nat
  | number (.natural n) => some n
  | _ => none

/-- A truth value. -/
def bool? : Value → Option Bool
  | bool b => some b
  | _ => none

/-- A string. -/
def string? : Value → Option String
  | string s => some s
  | _ => none

/-- Any number, as a double. -/
def double? : Value → Option Double
  | number (.natural n) => some (.ofDatum (.finite false n 0))
  | number (.negative i) => some (.ofDatum (.ofInt i))
  | number (.double x) => some x
  | _ => none

/-- A list of natural numbers. -/
def naturals? : Value → Option (List Nat)
  | array items => items.mapM natural?
  | _ => none

end Value

end DraftHeads.Json
