import DraftHeads.Json.Value

/-! # Reading JSON text

`parse?` reads a whole text as one value. Objects keep their members as they are written, so that a
reader that refuses repeated keys can see them.

* Arrays and objects may be nested 127 deep.
* A number with a fraction or an exponent, or out of range of the integers, is its leading digits,
  as many as fit sixty-four bits, times or divided by a power of ten in double precision
  (`scaleByTens`).
* A value may be *skimmed*: it has to be well formed, but the depth of its nesting, the range of its
  numbers and the pairing of surrogates in its strings are not looked at. -/

namespace DraftHeads.Json

open Number

/-- The blanks of JSON are the space, the two ends of a line and the tabulator. -/
def isBlank (c : Char) : Bool := c == ' ' || c == '\n' || c == '\t' || c == '\r'

/-- A text without the blanks in front. -/
def skipBlanks (cs : List Char) : List Char := cs.dropWhile isBlank

/-- The rest of a text after a word that it starts with. -/
def afterWord? (word : List Char) (cs : List Char) : Option (List Char) :=
  if word.isPrefixOf cs then some (cs.drop word.length) else none

/-! ### Numbers -/

/-- The largest significand. -/
def maxWord : Nat := UInt64.size - 1

/-- The double nearest to a power of ten. -/
def tenTo (k : Nat) : Float := (Double.ofDecimal false ⟨1, k⟩).toFloat

/-- `x · 10^exponent` in double precision; no result if it is out of range. -/
def scaleByTens (exponent : Int) (x : Float) : Option Float :=
  let rec shrink : Nat → Nat → Float → Float
    | 0, _, y => y
    | n + 1, e, y =>
      if y == 0 then y
      else if e ≤ 308 then y / tenTo e
      else shrink n (e - 308) (y / tenTo 308)
  if exponent < 0 then some (shrink 4 exponent.natAbs x)
  else if x == 0 then some x
  else if 308 < exponent then none
  else
    let y := x * tenTo exponent.toNat
    if y.isFinite then some y else none

/-- The leading digits that fit into `maxWord`, after those already in `acc`, and the number of
digits that are left out. -/
def leadingDigits (acc : Nat) : List Char → Nat × Nat
  | [] => (acc, 0)
  | c :: cs =>
    let next := 10 * acc + (c.toNat - '0'.toNat)
    if maxWord < next then (acc, cs.length + 1) else leadingDigits next cs

/-- The largest exponent that is not simply too large. -/
def maxExponent : Int := Int32.maxValue.toInt

/-- The double of a numeral that is not an integer of a fitting size; `skim` waives the range. -/
def doubleOf (skim negative : Bool) (whole fraction : List Char) (exponent : Int) : Option Float :=
  let (head, dropped) := leadingDigits 0 whole
  let (significand, rest) := leadingDigits head fraction
  let used : Int := fraction.length - rest
  let magnitude : Option Float :=
    if exponent.natAbs ≤ maxExponent then
      scaleByTens ((dropped : Int) - used + exponent) (doubleOfNat significand)
    else if significand = 0 ∨ exponent < 0 then some 0
    else none
  match magnitude with
  | some x => some (if negative then -x else x)
  | none => if skim then some 0 else none
where
  /-- A natural number as a double. -/
  doubleOfNat (n : Nat) : Float := (Double.ofDatum (.finite false n 0)).toFloat

/-- A run of at least one digit. -/
def digitRun (cs : List Char) : Option (List Char × List Char) :=
  let ds := cs.takeWhile Char.isDigit
  if ds.isEmpty then none else some (ds, cs.dropWhile Char.isDigit)

/-- A digit run without a zero in front. -/
def wholeDigits (cs : List Char) : Option (List Char × List Char) := do
  let (ds, rest) ← digitRun cs
  if ds.head? = some '0' ∧ ds.length ≠ 1 then none else some (ds, rest)

/-- The exponent of a numeral, if there is one. -/
def exponentPart (cs : List Char) : Option (Option Int × List Char) :=
  match cs with
  | c :: rest =>
    if c = 'e' ∨ c = 'E' then do
      let (negative, rest) :=
        match rest with
        | '-' :: r => (true, r)
        | '+' :: r => (false, r)
        | r => (false, r)
      let (ds, rest) ← digitRun rest
      let e : Int := Decimal.digitsValue 0 ds
      some (some (if negative then -e else e), rest)
    else some (none, cs)
  | [] => some (none, cs)

/-- The digits after the point of a numeral, if there is one. -/
def fractionPart (cs : List Char) : Option (Option (List Char) × List Char) :=
  match cs with
  | '.' :: rest => do
    let (ds, rest) ← digitRun rest
    some (some ds, rest)
  | _ => some (none, cs)

/-- The numeral of a run of digits: an integer if it has neither fraction nor exponent and is in
range. The negative zero is a double. -/
def numeralOf (skim negative : Bool) (whole : List Char) (fraction : Option (List Char))
    (exponent : Option Int) : Option Numeral :=
  let n := Decimal.digitsValue 0 whole
  if fraction.isNone ∧ exponent.isNone ∧ n ≤ maxWord then
    if !negative then some (.natural n)
    else if n = 0 ∨ UInt64.size / 2 < n then
      some (.double (.ofDatum (.finite true n 0)))
    else some (.negative (-n))
  else
    (doubleOf skim negative whole (fraction.getD []) (exponent.getD 0)).map fun x =>
      .double (.ofFloat x)

/-- A number at the start of a text. -/
def numeral (skim : Bool) (cs : List Char) : Option (Numeral × List Char) := do
  let (negative, cs) :=
    match cs with
    | '-' :: rest => (true, rest)
    | _ => (false, cs)
  let (whole, cs) ← wholeDigits cs
  let (fraction, cs) ← fractionPart cs
  let (exponent, cs) ← exponentPart cs
  let n ← numeralOf skim negative whole fraction exponent
  some (n, cs)

/-! ### Strings -/

/-- The value of a hexadecimal digit. -/
def hexValue? (c : Char) : Option Nat :=
  if '0' ≤ c ∧ c ≤ '9' then some (c.toNat - '0'.toNat)
  else if 'a' ≤ c ∧ c ≤ 'f' then some (c.toNat - 'a'.toNat + 10)
  else if 'A' ≤ c ∧ c ≤ 'F' then some (c.toNat - 'A'.toNat + 10)
  else none

/-- Four hexadecimal digits. -/
def hexUnit? (a b c d : Char) : Option Nat := do
  return ((16 * (← hexValue? a) + (← hexValue? b)) * 16 + (← hexValue? c)) * 16 + (← hexValue? d)

/-- The character that stands for a letter after a backslash. -/
def shortEscape? (c : Char) : Option Char :=
  match c with
  | '"' => some '"'
  | '\\' => some '\\'
  | '/' => some '/'
  | 'b' => some '\x08'
  | 'f' => some '\x0c'
  | 'n' => some '\n'
  | 'r' => some '\r'
  | 't' => some '\t'
  | _ => none

/-- Is the unit the first one of a pair? -/
def isHighSurrogate (u : Nat) : Bool := decide (0xD800 ≤ u ∧ u < 0xDC00)

/-- Is the unit the second one of a pair? -/
def isLowSurrogate (u : Nat) : Bool := decide (0xDC00 ≤ u ∧ u < 0xE000)

/-- The rest of a string after its opening quote; `acc` holds the characters so far in reverse, and
`high` a first surrogate that waits for its second one. -/
def stringBody (skim : Bool) :
    (acc : List Char) → (high : Option Nat) → List Char → Option (String × List Char)
  | _, _, [] => none
  | acc, high, '"' :: rest =>
    if high.isSome ∧ !skim then none else some (String.ofList acc.reverse, rest)
  | acc, high, '\\' :: 'u' :: a :: b :: c :: d :: rest =>
    match hexUnit? a b c d with
    | none => none
    | some u =>
      if isLowSurrogate u then
        match high with
        | some h =>
          let code := 0x10000 + (h - 0xD800) * 0x400 + (u - 0xDC00)
          stringBody skim (Char.ofNat code :: acc) none rest
        | none => if skim then stringBody skim acc none rest else none
      else if high.isSome ∧ !skim then none
      else if isHighSurrogate u then stringBody skim acc (some u) rest
      else stringBody skim (Char.ofNat u :: acc) none rest
  | acc, high, '\\' :: c :: rest =>
    if high.isSome ∧ !skim then none
    else
      match shortEscape? c with
      | some x => stringBody skim (x :: acc) none rest
      | none => none
  | acc, high, c :: rest =>
    if c.toNat < 32 ∨ (high.isSome ∧ !skim) then none
    else stringBody skim (c :: acc) none rest

/-! ### Values -/

mutual

/-- A value at the start of a text, nested at most `depth` deep. The fuel bounds the number of
steps. -/
def value (skim : Bool) : (fuel depth : Nat) → List Char → Option (Value × List Char)
  | 0, _, _ => none
  | fuel + 1, depth, cs =>
    match skipBlanks cs with
    | '"' :: rest => (stringBody skim [] none rest).map fun (s, r) => (.string s, r)
    | '[' :: rest =>
      if depth = 0 ∧ !skim then none
      else
        match skipBlanks rest with
        | ']' :: rest => some (.array [], rest)
        | rest => (items skim fuel (depth - 1) rest).map fun (vs, r) => (.array vs, r)
    | '\x7b' :: rest =>
      if depth = 0 ∧ !skim then none
      else
        match skipBlanks rest with
        | '\x7d' :: rest => some (.object [], rest)
        | rest =>
          (members skim (fun _ => skim) fuel (depth - 1) rest).map fun (ms, r) => (.object ms, r)
    | 't' :: rest => (afterWord? ['r', 'u', 'e'] rest).map fun r => (.bool true, r)
    | 'f' :: rest => (afterWord? ['a', 'l', 's', 'e'] rest).map fun r => (.bool false, r)
    | 'n' :: rest => (afterWord? ['u', 'l', 'l'] rest).map fun r => (.null, r)
    | rest => (numeral skim rest).map fun (n, r) => (.number n, r)

/-- The items of an array, up to its closing bracket. -/
def items (skim : Bool) : (fuel depth : Nat) → List Char → Option (List Value × List Char)
  | 0, _, _ => none
  | fuel + 1, depth, cs => do
    let (v, rest) ← value skim fuel depth cs
    match skipBlanks rest with
    | ']' :: rest => some ([v], rest)
    | ',' :: rest => (items skim fuel depth rest).map fun (vs, r) => (v :: vs, r)
    | _ => none

/-- The members of an object, up to its closing bracket; `skim` tells from the key whether the value
of a member is skimmed. -/
def members (skimKeys : Bool) (skim : String → Bool) :
    (fuel depth : Nat) → List Char → Option (List (String × Value) × List Char)
  | 0, _, _ => none
  | fuel + 1, depth, cs =>
    match skipBlanks cs with
    | '"' :: rest => do
      let (key, rest) ← stringBody skimKeys [] none rest
      match skipBlanks rest with
      | ':' :: rest => do
        let (v, rest) ← value (skim key) fuel depth rest
        match skipBlanks rest with
        | '\x7d' :: rest => some ([(key, v)], rest)
        | ',' :: rest =>
          (members skimKeys skim fuel depth rest).map fun (ms, r) => ((key, v) :: ms, r)
        | _ => none
      | _ => none
    | _ => none

end

/-- The deepest nesting of arrays and objects. -/
def maxDepth : Nat := 127

/-- The value of a reading that leaves nothing but blanks. -/
def complete? {α : Type} (r : Option (α × List Char)) : Option α :=
  match r with
  | some (x, rest) => if (skipBlanks rest).isEmpty then some x else none
  | none => none

/-- The steps that reading a text can take. -/
def stepBound (cs : List Char) : Nat := 2 * cs.length + 4

/-- A text that is one value. -/
def parse? (text : String) : Option Value :=
  let cs := text.toList
  complete? (value false (stepBound cs) maxDepth cs)

/-- A text that is one value; if it is an object, the values of the keys that are not `known` are
skimmed. -/
def parseKnown? (known : String → Bool) (text : String) : Option Value :=
  let cs := text.toList
  match skipBlanks cs with
  | '\x7b' :: rest =>
    match skipBlanks rest with
    | '\x7d' :: rest => complete? (some (.object [], rest))
    | rest =>
      (complete? (members false (fun k => !known k) (stepBound cs) (maxDepth - 1) rest)).map .object
  | _ => parse? text

end DraftHeads.Json
