/-! # Binary floating point formats

A *format* is a pair of widths: the bits of the fraction and the bits of the exponent. A word of a
format stands for a *datum*: not a number, an infinity, or `± m · 2^e`.

* `decode`: the datum of a word.
* `nearest`: the word of the magnitude nearest to a quotient `num / den · 2^e`, a tie going to the
  even significand, and the word of infinity past the largest finite number.
* `encode`: the word nearest to a datum; on the data that `decode` gives it is the inverse of
  `decode`. -/

namespace DraftHeads.Number

/-- The quotient `num / den` rounded to the nearest natural number, a tie going to the even one. -/
def roundQuotient (num den : Nat) : Nat :=
  let q := num / den
  let r := num % den
  if 2 * r < den then q else if den < 2 * r then q + 1 else q + q % 2

/-- A value of a binary format. -/
inductive Datum where
  /-- Not a number, with the sign bit of its word. -/
  | nan (negative : Bool)
  | infinite (negative : Bool)
  /-- The number `± significand · 2 ^ exponent`. -/
  | finite (negative : Bool) (significand : Nat) (exponent : Int)
deriving Repr, DecidableEq

/-- The widths of a binary interchange format. -/
structure Format where
  fractionBits : Nat
  exponentBits : Nat
deriving Repr, DecidableEq

namespace Format

/-- Sixteen bits, five of them exponent. -/
def half : Format := ⟨10, 5⟩

/-- Sixteen bits with the exponent range of the single format. -/
def brain : Format := ⟨7, 8⟩

/-- Thirty-two bits, eight of them exponent. -/
def single : Format := ⟨23, 8⟩

/-- Sixty-four bits, eleven of them exponent. -/
def double : Format := ⟨52, 11⟩

variable (f : Format)

/-- The exponent of the last place of the subnormal numbers. -/
def leastExponent : Int := 2 - (1 <<< (f.exponentBits - 1) : Nat) - f.fractionBits

/-- The word of positive infinity; the words below it are the finite magnitudes in order. -/
def infinityWord : Nat := (1 <<< f.exponentBits - 1) <<< f.fractionBits

/-- The weight of the sign bit. -/
def signWord : Nat := 1 <<< (f.exponentBits + f.fractionBits)

/-- The datum that a word stands for. -/
def decode (word : Nat) : Datum :=
  let negative := word / f.signWord % 2 == 1
  let fraction := word % 1 <<< f.fractionBits
  let exponent := word >>> f.fractionBits % 1 <<< f.exponentBits
  if exponent = 1 <<< f.exponentBits - 1 then
    if fraction = 0 then .infinite negative else .nan negative
  else if exponent = 0 then .finite negative fraction f.leastExponent
  else .finite negative (1 <<< f.fractionBits + fraction) (f.leastExponent + (exponent - 1 : Nat))

/-- The place of the leading bit of `num / den`, or one above it. -/
def magnitude (num den : Nat) : Int := (num.log2 : Int) - den.log2

/-- The word of the magnitude nearest to `num / den · 2^e`. The significand is rounded at the last
place of the binade, so that a carry out of it moves on to the next word by itself. -/
def nearest (num den : Nat) (e : Int) : Nat :=
  if num = 0 then 0
  else
    let guess := magnitude num den
    let top := if num <<< (-guess).toNat < den <<< guess.toNat then guess - 1 else guess
    let place := max (top + e - f.fractionBits) f.leastExponent
    let shift := e - place
    let significand := roundQuotient (num <<< shift.toNat) (den <<< (-shift).toNat)
    min ((place - f.leastExponent).toNat <<< f.fractionBits + significand) f.infinityWord

/-- The word with a sign put before a magnitude. -/
def signed (negative : Bool) (magnitude : Nat) : Nat :=
  if negative then f.signWord + magnitude else magnitude

/-- The word nearest to a datum. A datum that is not a number gets the quiet word. -/
def encode : Datum → Nat
  | .nan negative => f.signed negative (f.infinityWord + 1 <<< (f.fractionBits - 1))
  | .infinite negative => f.signed negative f.infinityWord
  | .finite negative significand exponent =>
    f.signed negative (f.nearest significand 1 exponent)

end Format

/-- The integer part of a datum, cut toward zero and clamped to `lo … hi`; what is not a number
gives zero. -/
def Datum.truncate (lo hi : Int) : Datum → Int
  | .nan _ => 0
  | .infinite negative => if negative then lo else hi
  | .finite negative significand exponent =>
    let magnitude : Nat :=
      if 0 ≤ exponent then significand <<< exponent.toNat else significand >>> (-exponent).toNat
    max lo (min hi (if negative then -(magnitude : Int) else magnitude))

/-- The datum with the last `bits` places of its significand set to zero. -/
def Datum.cut (bits : Nat) : Datum → Datum
  | .finite negative significand exponent =>
    .finite negative (significand >>> bits <<< bits) exponent
  | x => x

/-- The datum of an integer. -/
def Datum.ofInt (i : Int) : Datum := .finite (i < 0) i.natAbs 0

end DraftHeads.Number
