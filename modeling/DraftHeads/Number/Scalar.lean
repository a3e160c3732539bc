import DraftHeads.Number.Elementary

/-! # The number formats of tensors

Tensors hold numbers of seven formats: three kinds of integers and four kinds of floating point
numbers. A layer adds and multiplies in the format of its tensors, reduces along rows in a *working*
format, and takes its constants from a *parameter* format; for all seven the working format is the
single format and the parameter format is the double format. The laws of the layers do not depend on
this choice, so it is kept in the classes

* `Scalar`: sums, products and the order of a format;
* `Analytic`: a `Scalar` with division and the elementary functions, for the working and the
  parameter format;
* `Element`: a `Scalar` with its conversions from and to those two. -/

namespace DraftHeads

open Number

/-- Numbers that can be added, multiplied and compared. -/
class Scalar (α : Type) extends Zero α, One α, Add α, Mul α where
  /-- Strictly less; false if either side is not a number. -/
  less : α → α → Bool

/-- Numbers with the operations of reductions along rows. -/
class Analytic (α : Type) extends Scalar α, Sub α, Div α where
  ofNat : Nat → α
  sqrt : α → α
  exp : α → α
  log : α → α
  /-- `x` maps to `2^-x`. -/
  halfPower : α → α
  isNaN : α → Bool
  /-- Strictly below in a total order of all values that agrees with `less`. -/
  precedes : α → α → Bool

/-- Numbers that tensors hold, with working format `ω` and parameter format `π`. -/
class Element (α : Type) (ω π : outParam Type) extends Scalar α where
  ofParameter : π → α
  /-- A parameter in the working format. -/
  workOfParameter : π → ω
  widen : α → ω
  narrow : ω → α
  /-- `x · Φ(x)`, with `Φ` the distribution function of the normal distribution. -/
  gelu : α → α
  /-- The inner product of two rows, if the format has matrix products. -/
  dot? : Option (List α → List α → α)

/-- The inner product of two rows, summed from the left. In which order the kernels of a matrix
product sum is not modelled: they may block and interleave the terms, which rounds differently. -/
def innerProduct {α : Type} [Zero α] [Add α] [Mul α] (xs ys : List α) : α :=
  (xs.zip ys).foldl (fun acc p => acc + p.1 * p.2) 0

namespace Number

/-- A function of data as a function of single precision numbers, rounded correctly. The platform
leaves open how precise its elementary functions are, so for `Elementary.exp`, `Elementary.log` and
the like correct rounding is a choice. -/
def singleMap (f : Datum → Datum) (x : Float32) : Float32 :=
  Float32.ofBits (UInt32.ofNat (Format.single.encode (f (Format.single.decode x.toBits.toNat))))

/-- A function of data as a function of double precision numbers, rounded correctly as well. -/
def doubleMap (f : Datum → Datum) (x : Float) : Float :=
  Float.ofBits (UInt64.ofNat (Format.double.encode (f (Format.double.decode x.toBits.toNat))))

/-- The value of a single precision number. -/
def singleDatum (x : Float32) : Datum := Format.single.decode x.toBits.toNat

/-- The value of a double precision number. -/
def doubleDatum (x : Float) : Datum := Format.double.decode x.toBits.toNat

/-- The single precision number nearest to a value. -/
def singleOfDatum (d : Datum) : Float32 := Float32.ofBits (UInt32.ofNat (Format.single.encode d))

/-- The double precision number nearest to a value. -/
def doubleOfDatum (d : Datum) : Float := Float.ofBits (UInt64.ofNat (Format.double.encode d))

/-- The double that equals a single. -/
def toDouble (x : Float32) : Float := doubleOfDatum (singleDatum x)

/-- The single nearest to a double. -/
def toSingle (x : Float) : Float32 := singleOfDatum (doubleDatum x)

/-- The place of a word in the total order of the words of a format: the negative numbers, with
their magnitudes reversed, below the positive ones. -/
def Format.rank (f : Format) (word : Nat) : Nat :=
  if f.signWord ≤ word then 2 * f.signWord - 1 - word else f.signWord + word

/-- `(erf (x / √2) + 1) · x / 2` in double precision. -/
def geluDouble (x : Float) : Float :=
  (doubleMap Elementary.erf (x / Float.sqrt 2.0) + 1.0) * 0.5 * x

/-- The activation in single precision, computed in double precision and rounded once. -/
def geluSingle (x : Float32) : Float32 := toSingle (geluDouble (toDouble x))

/-- A number of a format of sixteen bits, kept as its word. Its arithmetic is that of the single
format with the result rounded. -/
structure Short (f : Format) where
  word : UInt16
deriving DecidableEq, Repr

namespace Short

variable {f : Format}

/-- The value of a sixteen bit number. -/
def datum (x : Short f) : Datum := f.decode x.word.toNat

/-- The sixteen bit number nearest to a value. -/
def ofDatum (d : Datum) : Short f := ⟨UInt16.ofNat (f.encode d)⟩

/-- The same value in single precision, which holds every sixteen bit number. -/
def widen (x : Short f) : Float32 := singleOfDatum x.datum

/-- The sixteen bit number nearest to a single precision number. -/
def narrow (x : Float32) : Short f := ofDatum (singleDatum x)

/-- The sixteen bit number for a double, rounded twice, by way of the single format. -/
def halfOfDouble (x : Float) : Short .half := narrow (toSingle x)

/-- The number for a double of which only the upper half of the word is looked at. -/
def brainOfDouble (x : Float) : Short .brain := ofDatum ((doubleDatum x).cut 32)

end Short

end Number

instance : Scalar Float32 where
  zero := Float32.ofBits 0
  one := Float32.ofBits 0x3f800000
  less a b := decide (a < b)

instance : Analytic Float32 where
  ofNat n := singleOfDatum (.finite false n 0)
  sqrt := Float32.sqrt
  exp := singleMap Elementary.exp
  log := singleMap Elementary.log
  halfPower := singleMap Elementary.halfPower
  isNaN := Float32.isNaN
  precedes a b := decide (Format.single.rank a.toBits.toNat < Format.single.rank b.toBits.toNat)

instance : Element Float32 Float32 Float where
  ofParameter := toSingle
  workOfParameter := toSingle
  widen := id
  narrow := id
  gelu := geluSingle
  dot? := some innerProduct

instance : Scalar Float where
  zero := Float.ofBits 0
  one := Float.ofBits 0x3ff0000000000000
  less a b := decide (a < b)

instance : Analytic Float where
  ofNat n := doubleOfDatum (.finite false n 0)
  sqrt := Float.sqrt
  exp := doubleMap Elementary.exp
  log := doubleMap Elementary.log
  halfPower := doubleMap Elementary.halfPower
  isNaN := Float.isNaN
  precedes a b := decide (Format.double.rank a.toBits.toNat < Format.double.rank b.toBits.toNat)

instance : Element Float Float32 Float where
  ofParameter := id
  workOfParameter := toSingle
  widen := toSingle
  narrow := toDouble
  gelu := geluDouble
  dot? := some innerProduct

section Short

variable {f : Format}

instance : Scalar (Short f) where
  zero := ⟨0⟩
  one := Short.ofDatum (.finite false 1 0)
  add a b := Short.narrow (a.widen + b.widen)
  mul a b := Short.narrow (a.widen * b.widen)
  less a b := decide (a.widen < b.widen)

instance : Element (Short .half) Float32 Float where
  ofParameter := Short.halfOfDouble
  workOfParameter := toSingle
  widen := Short.widen
  narrow := Short.narrow
  gelu x := Short.narrow (geluSingle x.widen)
  dot? := some fun xs ys => Short.narrow (innerProduct (xs.map Short.widen) (ys.map Short.widen))

instance : Element (Short .brain) Float32 Float where
  ofParameter := Short.brainOfDouble
  workOfParameter := toSingle
  widen := Short.widen
  narrow := Short.narrow
  gelu x := Short.narrow (geluSingle x.widen)
  dot? := none

end Short

instance : Scalar UInt8 where
  zero := 0
  one := 1
  less a b := decide (a < b)

instance : Scalar UInt32 where
  zero := 0
  one := 1
  less a b := decide (a < b)

instance : Scalar Int64 where
  zero := 0
  one := 1
  less a b := decide (a < b)

instance : Element UInt8 Float32 Float where
  ofParameter x := UInt8.ofNat ((doubleDatum x).truncate 0 (UInt8.size - 1 : Nat)).toNat
  workOfParameter := toSingle
  widen x := singleOfDatum (.finite false x.toNat 0)
  narrow x := UInt8.ofNat ((singleDatum x).truncate 0 (UInt8.size - 1 : Nat)).toNat
  gelu x := x
  dot? := none

instance : Element UInt32 Float32 Float where
  ofParameter x := UInt32.ofNat ((doubleDatum x).truncate 0 (UInt32.size - 1 : Nat)).toNat
  workOfParameter := toSingle
  widen x := singleOfDatum (.finite false x.toNat 0)
  narrow x := UInt32.ofNat ((singleDatum x).truncate 0 (UInt32.size - 1 : Nat)).toNat
  gelu x := x
  dot? := none

instance : Element Int64 Float32 Float where
  ofParameter x := Int64.ofInt ((doubleDatum x).truncate Int64.minValue.toInt Int64.maxValue.toInt)
  workOfParameter := toSingle
  widen x := singleOfDatum (.ofInt x.toInt)
  narrow x := Int64.ofInt ((singleDatum x).truncate Int64.minValue.toInt Int64.maxValue.toInt)
  gelu x := x
  dot? := none

end DraftHeads
