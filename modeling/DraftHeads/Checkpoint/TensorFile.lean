import DraftHeads.Config
import DraftHeads.Json.Printer
import DraftHeads.Tensor.AnyFormat

/-! # Tensor files

A tensor file is a header and the bytes of its tensors. The header is the length of a JSON text, in
eight bytes, and the text: an object that gives for each name the format, the shape and the range of
the bytes of a tensor. The ranges follow each other without a gap and fill the rest of the file.

* `TensorFile.decode?` reads a file; `TensorFile.encode` writes one.
* `StoredTensor.load` gives the tensor of an entry; some formats can be stored but not loaded. -/

namespace DraftHeads

open Number

/-- A number format of stored tensors. -/
inductive StoredFormat where
  | bool | u8 | i8 | f8e5m2 | f8e4m3 | i16 | u16 | f16 | bf16 | i32 | u32 | f32 | f64 | i64 | u64
deriving Repr, DecidableEq

namespace StoredFormat

/-- All formats with their names and the sizes of their numbers in bytes. -/
def table : List (StoredFormat × String × Nat) :=
  [(bool, "BOOL", 1), (u8, "U8", 1), (i8, "I8", 1), (f8e5m2, "F8_E5M2", 1), (f8e4m3, "F8_E4M3", 1),
    (i16, "I16", 2), (u16, "U16", 2), (f16, "F16", 2), (bf16, "BF16", 2), (i32, "I32", 4),
    (u32, "U32", 4), (f32, "F32", 4), (f64, "F64", 8), (i64, "I64", 8), (u64, "U64", 8)]

/-- The format with a name. -/
def ofName? (name : String) : Option StoredFormat :=
  (table.find? fun row => row.2.1 == name).map Prod.fst

/-- The name of a format. -/
def name (f : StoredFormat) : String :=
  ((table.find? fun row => row.1 == f).map fun row => row.2.1).getD ""

/-- The bytes of a number. -/
def size (f : StoredFormat) : Nat :=
  ((table.find? fun row => row.1 == f).map fun row => row.2.2).getD 1

/-- The format in which a format of tensors is stored. -/
def ofDType : DType → StoredFormat
  | .u8 => u8
  | .u32 => u32
  | .i64 => i64
  | .f16 => f16
  | .bf16 => bf16
  | .f32 => f32
  | .f64 => f64

end StoredFormat

/-- The number of some bytes, the lowest one first. -/
def wordOfBytes : List UInt8 → Nat
  | [] => 0
  | b :: bs => b.toNat + 256 * wordOfBytes bs

/-- The `n` lowest bytes of a number, the lowest one first. -/
def bytesOfWord : (n : Nat) → Nat → List UInt8
  | 0, _ => []
  | n + 1, w => UInt8.ofNat w :: bytesOfWord n (w / 256)

/-- A word of `bits` bits as a signed number. -/
def signedWord (bits word : Nat) : Int := Int.bmod word (1 <<< bits)

namespace DType

/-- The word of a number. -/
def toWord : (d : DType) → d.Elem → Nat
  | u8, x => UInt8.toNat x
  | u32, x => UInt32.toNat x
  | i64, x => (Int64.toUInt64 x).toNat
  | f16, x => (Short.word x).toNat
  | bf16, x => (Short.word x).toNat
  | f32, x => (Float32.toBits x).toNat
  | f64, x => (Float.toBits x).toNat

end DType

/-- A named tensor as it is stored. -/
structure StoredTensor where
  name : String
  format : StoredFormat
  shape : List Nat
  bytes : List UInt8
deriving Repr, DecidableEq

namespace StoredTensor

/-- The words of the entries. -/
def words (t : StoredTensor) : List Nat :=
  (pieces t.format.size (entryCount t.shape) t.bytes).map wordOfBytes

/-- The tensor with entries that are made of the stored words. -/
def ofWords (t : StoredTensor) (d : DType) (f : Nat → d.Elem) : Except TensorFault AnyTensor := do
  return ⟨d, ← Tensor.ofData t.shape (t.words.map f)⟩

/-- The tensor of an entry. Short unsigned and medium signed integers get the next larger format. -/
def load (t : StoredTensor) : Except TensorFault AnyTensor :=
  match t.format with
  | .u8 => t.ofWords .u8 UInt8.ofNat
  | .u16 => t.ofWords .u32 UInt32.ofNat
  | .u32 => t.ofWords .u32 UInt32.ofNat
  | .i32 => t.ofWords .i64 fun w => Int64.ofInt (signedWord 32 w)
  | .i64 => t.ofWords .i64 fun w => Int64.ofInt (signedWord 64 w)
  | .f16 => t.ofWords .f16 fun w => ⟨UInt16.ofNat w⟩
  | .bf16 => t.ofWords .bf16 fun w => ⟨UInt16.ofNat w⟩
  | .f32 => t.ofWords .f32 fun w => Float32.ofBits (UInt32.ofNat w)
  | .f64 => t.ofWords .f64 fun w => Float.ofBits (UInt64.ofNat w)
  | .bool | .i8 | .f8e5m2 | .f8e4m3 | .i16 | .u64 => .error .unreadable

/-- A tensor as it is stored under a name. -/
def ofTensor (name : String) (t : AnyTensor) : StoredTensor :=
  let format := StoredFormat.ofDType t.dtype
  ⟨name, format, t.shape, t.tensor.data.flatMap fun x => bytesOfWord format.size (t.dtype.toWord x)⟩

end StoredTensor

namespace TensorFile

/-- What the header says of a tensor. -/
structure Entry where
  name : String
  format : StoredFormat
  shape : List Nat
  start : Nat
  stop : Nat
deriving Repr

/-- The member of a header that is not a tensor. -/
def metadataKey : String := "__metadata__"

/-- The largest header that is read. -/
def maxHeader : Nat := 100000000

/-- The format that a JSON value names; the name may also be the key of a null. -/
def formatOf? : Json.Value → Option StoredFormat
  | .string s => StoredFormat.ofName? s
  | .object [(s, .null)] => StoredFormat.ofName? s
  | _ => none

/-- A pair of natural numbers. -/
def rangeOf? (v : Json.Value) : Option (Nat × Nat) :=
  match v.naturals? with
  | some [start, stop] => some (start, stop)
  | _ => none

/-- The entry of a member of the header. -/
def entryOf? (name : String) : Json.Value → Option Entry
  | .object members => do
    let format ← formatOf? (← (← Config.field ["dtype"] members))
    let shape ← (← (← Config.field ["shape"] members)).naturals?
    let (start, stop) ← rangeOf? (← (← Config.field ["data_offsets"] members))
    return ⟨name, format, shape, start, stop⟩
  | .array [format, shape, range] => do
    let (start, stop) ← rangeOf? range
    return ⟨name, ← formatOf? format, ← shape.naturals?, start, stop⟩
  | _ => none

/-- Is the value one that the member that is not a tensor may have? -/
def isMetadata : Json.Value → Bool
  | .null => true
  | .object members => members.all fun m => m.2.string?.isSome
  | _ => false

/-- The entries of a header, those of the same name replaced by the last one. -/
def entriesOf? : Json.Value → Option (List Entry)
  | .object members => do
    if !((← Config.field [metadataKey] members).all isMetadata) then none
    else
      let entries ← (members.filter fun m => m.1 != metadataKey).mapM fun m => entryOf? m.1 m.2
      return (Json.sortMembers (entries.map fun e => (e.name, e))).map Prod.snd
  | _ => none

/-- The product of some sizes, if no partial product reaches `wordCount`. -/
def boundedProduct (acc : Nat) : List Nat → Option Nat
  | [] => some acc
  | n :: rest => if acc * n < wordCount then boundedProduct (acc * n) rest else none

/-- Do the entries follow each other from `start` on, each with as many bytes as its shape needs?
The result is where the last one stops. -/
def layout? : (start : Nat) → List Entry → Option Nat
  | start, [] => some start
  | start, e :: rest => do
    let size ← boundedProduct 1 (e.shape ++ [e.format.size])
    if e.start = start ∧ e.start ≤ e.stop ∧ size = e.stop - e.start then layout? e.stop rest
    else none

/-- Does an entry come before another one in the file? -/
def comesBefore (a b : Entry) : Bool :=
  decide (a.start < b.start) || (a.start == b.start && decide (a.stop ≤ b.stop))

/-- The tensors of a file. -/
def decode? (file : List UInt8) : Option (List StoredTensor) := do
  if file.length < 8 then none
  else
    let length := wordOfBytes (file.take 8)
    let rest := file.drop 8
    if maxHeader < length ∨ rest.length < length then none
    else
      let text ← String.fromUTF8? (ByteArray.mk (rest.take length).toArray)
      let entries := (← entriesOf? (← Json.parse? text)).mergeSort comesBefore
      let data := rest.drop length
      let stop ← layout? 0 entries
      if stop ≠ data.length then none
      else
        return entries.map fun e =>
          ⟨e.name, e.format, e.shape, (data.drop e.start).take (e.stop - e.start)⟩

/-- The members of a header for tensors whose bytes start at a place. -/
def headerMembers : (start : Nat) → List StoredTensor → List (String × Json.Value)
  | _, [] => []
  | start, t :: rest =>
    let natural (n : Nat) : Json.Value := .number (.natural n)
    let stop := start + t.bytes.length
    (t.name, .object [("dtype", .string t.format.name), ("shape", .array (t.shape.map natural)),
      ("data_offsets", .array [natural start, natural stop])]) :: headerMembers stop rest

/-- The file of some tensors. -/
def encode (tensors : List StoredTensor) : List UInt8 :=
  let header := (Json.Value.object (headerMembers 0 tensors)).compact.toUTF8.toList
  bytesOfWord 8 header.length ++ header ++ tensors.flatMap (·.bytes)

end TensorFile

end DraftHeads
