import DraftHeads.Number.Format

/-! # Decimal numerals

A *decimal* is a number `± significand · 10^exponent`.

* `nearestWord`: reading, the word of a format nearest to a decimal.
* `shortest`: writing, a decimal with as few digits as possible among those that read back as a
  given word; of two such it is the nearer one, of two equally near the even one.
* `fixedPlaces`: writing with a given number of places after the point. -/

namespace DraftHeads.Number

/-- The magnitude `significand · 10^exponent`. -/
structure Decimal where
  significand : Nat
  exponent : Int
deriving Repr, DecidableEq

namespace Decimal

/-- The value of a run of decimal digits, read from the left after `acc`. -/
def digitsValue (acc : Nat) : List Char → Nat
  | [] => acc
  | c :: cs => digitsValue (10 * acc + (c.toNat - '0'.toNat)) cs

/-- The decimal written as `whole.fraction` times ten to the `exponent`. -/
def ofDigits (whole fraction : List Char) (exponent : Int) : Decimal :=
  ⟨digitsValue 0 (whole ++ fraction), exponent - fraction.length⟩

/-- The place of the leading decimal digit of `num / den`, which is not zero. -/
def leadingPlace (num den : Nat) : Int :=
  let guess := ((num.log2 : Int) - den.log2) * 30103 / 100000
  let reaches (p : Int) : Bool := den * Nat.pow 10 p.toNat ≤ num * Nat.pow 10 (-p).toNat
  if reaches (guess + 1) then guess + 1 else if reaches guess then guess else guess - 1

/-- The word nearest to a decimal. Magnitudes beyond `10^±5000` are out of range of every format and
are decided without being written out. -/
def nearestWord (f : Format) (d : Decimal) : Nat :=
  if d.significand = 0 then 0
  else
    let place := leadingPlace d.significand 1 + d.exponent
    if 5000 < place then f.infinityWord
    else if place < -5000 then 0
    else f.nearest (d.significand * Nat.pow 10 d.exponent.toNat) (Nat.pow 10 (-d.exponent).toNat) 0

/-- The same decimal without zeros at the end, up to `n` of them. -/
def trim : (n : Nat) → Decimal → Decimal
  | 0, d => d
  | n + 1, d =>
    if d.significand ≠ 0 ∧ d.significand % 10 = 0 then trim n ⟨d.significand / 10, d.exponent + 1⟩
    else d

/-- All digits of `m · 2^e`. -/
def exact (m : Nat) (e : Int) : Decimal :=
  if 0 ≤ e then ⟨m <<< e.toNat, 0⟩ else ⟨m * Nat.pow 5 (-e).toNat, e⟩

/-- Of the two decimals next to `num / den` on the grid of the place `k`, the nearer one that reads
back as the word. -/
def neighbour? (f : Format) (word num den : Nat) (k : Int) : Option Decimal :=
  let num' := num * Nat.pow 10 (-k).toNat
  let den' := den * Nat.pow 10 k.toNat
  let below : Decimal := ⟨num' / den', k⟩
  let above : Decimal := ⟨num' / den' + 1, k⟩
  let nearer := if roundQuotient num' den' = num' / den' then [below, above] else [above, below]
  nearer.find? fun d => d.nearestWord f = word

/-- The decimal with the fewest digits that reads back as the word of a finite magnitude. -/
def shortest (f : Format) (word : Nat) : Decimal :=
  match f.decode word with
  | .finite _ m e =>
    if m = 0 then ⟨0, 0⟩
    else
      let num := m <<< e.toNat
      let den := 1 <<< (-e).toNat
      let place := leadingPlace num den
      let grids := (List.range 17).map fun (n : Nat) => place - n
      ((grids.findSome? (neighbour? f word num den)).getD (exact m e)).trim 17
  | _ => ⟨0, 0⟩

/-- The digits of a natural number. -/
def digits (n : Nat) : List Char := Nat.toDigits 10 n

/-- A decimal written without an exponent: its digits, with a point where one is needed. -/
def positional (d : Decimal) : List Char × List Char :=
  let ds := digits d.significand
  if 0 ≤ d.exponent then (ds ++ List.replicate d.exponent.toNat '0', [])
  else
    let places := (-d.exponent).toNat
    let padded := List.replicate (places + 1 - ds.length) '0' ++ ds
    (padded.take (padded.length - places), padded.drop (padded.length - places))

/-- A magnitude `m · 2^e` with a given number of places after the point, a tie going to the even
digit. -/
def fixedPlaces (places m : Nat) (e : Int) : String :=
  let units := roundQuotient (m <<< e.toNat * Nat.pow 10 places) (1 <<< (-e).toNat)
  let (whole, fraction) := positional ⟨units, -(places : Int)⟩
  String.ofList (whole ++ '.' :: fraction)

end Decimal

end DraftHeads.Number
