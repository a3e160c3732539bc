import DraftHeads.Number.Decimal

/-! # Double precision numbers as data

Numbers that are read from a text and written back are kept as the sixty-four bits of their word, so
that the sign of zero and of what is not a number survives. `Double.ofDecimal` is the double nearest
to a decimal. -/

namespace DraftHeads.Number

/-- A double precision number, kept as its word. -/
structure Double where
  word : UInt64
deriving DecidableEq, Repr

namespace Double

/-- The number of a word. -/
def toFloat (x : Double) : Float := Float.ofBits x.word

/-- The word of a number. -/
def ofFloat (x : Float) : Double := ⟨x.toBits⟩

/-- The value that the word stands for. -/
def datum (x : Double) : Datum := Format.double.decode x.word.toNat

/-- The double nearest to a value. -/
def ofDatum (d : Datum) : Double := ⟨UInt64.ofNat (Format.double.encode d)⟩

/-- The double nearest to a number `± decimal`; infinite if the magnitude is too large. -/
def ofDecimal (negative : Bool) (d : Decimal) : Double :=
  ⟨UInt64.ofNat (Format.double.signed negative (d.nearestWord .double))⟩

/-- Is the sign bit set? -/
def isNegative (x : Double) : Bool := decide (Format.double.signWord ≤ x.word.toNat)

/-- The word without its sign bit. -/
def magnitude (x : Double) : Nat := x.word.toNat % Format.double.signWord

/-- Is the number neither infinite nor not a number? -/
def isFinite (x : Double) : Bool := decide (x.magnitude < Format.double.infinityWord)

/-- Is it not a number? -/
def isNaN (x : Double) : Bool := decide (Format.double.infinityWord < x.magnitude)

/-- The shortest decimal that reads back as the magnitude of a finite number. -/
def shortest (x : Double) : Decimal := Decimal.shortest .double x.magnitude

end Double

end DraftHeads.Number
