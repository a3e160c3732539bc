import DraftHeads.Tensor.Basic

/-! # Tensors whose number format is known at run time

A `DType` names one of the seven number formats, `DType.Elem` is its type of numbers, and an
`AnyTensor` is a format with a tensor of that format. `AnyTensor.cast` converts between any two
formats: floating point numbers are rounded to the nearest one, doubles on their way to a short
format twice, and are cut toward zero and clamped on the way to integers; integers wrap around. -/

namespace DraftHeads

open Number

/-- A number format of tensors. -/
inductive DType where
  | u8
  | u32
  | i64
  | f16
  | bf16
  | f32
  | f64
deriving Repr, DecidableEq

namespace DType

/-- The numbers of a format. -/
@[reducible] def Elem : DType → Type
  | u8 => UInt8
  | u32 => UInt32
  | i64 => Int64
  | f16 => Short .half
  | bf16 => Short .brain
  | f32 => Float32
  | f64 => Float

instance (d : DType) : Element d.Elem Float32 Float :=
  match d with
  | u8 => inferInstanceAs (Element UInt8 Float32 Float)
  | u32 => inferInstanceAs (Element UInt32 Float32 Float)
  | i64 => inferInstanceAs (Element Int64 Float32 Float)
  | f16 => inferInstanceAs (Element (Short .half) Float32 Float)
  | bf16 => inferInstanceAs (Element (Short .brain) Float32 Float)
  | f32 => inferInstanceAs (Element Float32 Float32 Float)
  | f64 => inferInstanceAs (Element Float Float32 Float)

/-- Is the format one of floating point numbers? -/
def isFloat : DType → Bool
  | u8 | u32 | i64 => false
  | f16 | bf16 | f32 | f64 => true

/-- The short name of a format. -/
def name : DType → String
  | u8 => "u8"
  | u32 => "u32"
  | i64 => "i64"
  | f16 => "f16"
  | bf16 => "bf16"
  | f32 => "f32"
  | f64 => "f64"

/-- A number of the format as a datum; an integer is a finite datum. -/
def datum : (d : DType) → d.Elem → Datum
  | u8, x => .finite false (UInt8.toNat x) 0
  | u32, x => .finite false (UInt32.toNat x) 0
  | i64, x => .ofInt (Int64.toInt x)
  | f16, x => Short.datum x
  | bf16, x => Short.datum x
  | f32, x => singleDatum x
  | f64, x => doubleDatum x

/-- The value of a number of an integer format. -/
def integer? : (d : DType) → d.Elem → Option Int
  | u8, x => some (UInt8.toNat x)
  | u32, x => some (UInt32.toNat x)
  | i64, x => some (Int64.toInt x)
  | _, _ => none

/-- The number of a format nearest to a datum, cut toward zero for an integer format. -/
def ofDatum : (d : DType) → Datum → d.Elem
  | u8, x => UInt8.ofNat (x.truncate 0 (UInt8.size - 1 : Nat)).toNat
  | u32, x => UInt32.ofNat (x.truncate 0 (UInt32.size - 1 : Nat)).toNat
  | i64, x => Int64.ofInt (x.truncate Int64.minValue.toInt Int64.maxValue.toInt)
  | f16, x => Short.ofDatum x
  | bf16, x => Short.ofDatum x
  | f32, x => singleOfDatum x
  | f64, x => doubleOfDatum x

/-- The number of a format for an integer; the integer formats wrap around, and the short formats
round twice, by way of the single format. -/
def ofInteger : (d : DType) → Int → d.Elem
  | u8, i => UInt8.ofInt i
  | u32, i => UInt32.ofInt i
  | i64, i => Int64.ofInt i
  | f16, i => Short.narrow (singleOfDatum (.ofInt i))
  | bf16, i => Short.narrow (singleOfDatum (.ofInt i))
  | f32, i => singleOfDatum (.ofInt i)
  | f64, i => doubleOfDatum (.ofInt i)

/-- A number converted from one format to another. -/
def convert : (d e : DType) → d.Elem → e.Elem
  | f64, f16, x => Short.halfOfDouble x
  | f64, bf16, x => Short.brainOfDouble x
  | d, e, x =>
    match d.integer? x with
    | some i => e.ofInteger i
    | none => e.ofDatum (d.datum x)

end DType

/-- A tensor together with its number format. -/
structure AnyTensor where
  dtype : DType
  tensor : Tensor dtype.Elem

namespace AnyTensor

/-- The sizes of the dimensions. -/
def shape (t : AnyTensor) : List Nat := t.tensor.shape

/-- The tensor, if it has the given format. -/
def as? (d : DType) (t : AnyTensor) : Option (Tensor d.Elem) :=
  if h : t.dtype = d then some (h ▸ t.tensor) else none

/-- The entries converted to another format; a tensor that has the format already is left alone. -/
def cast (d : DType) (t : AnyTensor) : Tensor d.Elem :=
  match t.as? d with
  | some s => s
  | none => t.tensor.map (t.dtype.convert d)

/-- The same shape filled with zeros of another format. -/
def zerosLike (d : DType) (t : AnyTensor) : Tensor d.Elem := Tensor.fill t.shape 0

/-- The entries as integers, if the format is one of integers. -/
def integers? (t : AnyTensor) : Option (Tensor Int) :=
  if t.dtype.isFloat then none
  else some (t.tensor.map fun x => (t.dtype.integer? x).getD 0)

end AnyTensor

end DraftHeads
