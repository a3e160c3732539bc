import DraftHeads.Checkpoint.TensorFile
import DraftHeads.Shard.Column

/-! # Sources of weights

A reader asks a source for a tensor by name, shape and number format. A source is

* `zeros`, which has every tensor, filled with zeros;
* `memory`, a list of named tensors;
* `files`, the tensors of some files; of several files with one name the last one counts.

A tensor that is missing is reported as such, and one with another shape by both shapes. -/

namespace DraftHeads

/-- A source of weights. -/
inductive Weights where
  | zeros
  | memory (entries : List (String × AnyTensor))
  | files (tables : List (List StoredTensor))

namespace Weights

/-- The stored tensor with a name, the one of the last file that has it. -/
def find? (tables : List (List StoredTensor)) (name : String) : Option StoredTensor :=
  tables.reverse.findSome? fun table => table.find? fun t => t.name == name

/-- A tensor in a number format, if it has the shape that is asked for. -/
def fit (d : DType) (name : String) (shape : List Nat) (t : AnyTensor) :
    Except TensorFault (Tensor d.Elem) :=
  if t.shape = shape then .ok (t.cast d) else .error (.misshapen name shape t.shape)

/-- The reader of a source in a number format. -/
def reader (d : DType) : Weights → Reader d.Elem
  | zeros, _, shape => do
    checkBytes (entryCount shape) (StoredFormat.ofDType d).size
    return Tensor.fill shape 0
  | memory entries, name, shape =>
    match entries.find? fun e => e.1 == name with
    | none => .error (.missing name)
    | some e => fit d name shape e.2
  | files tables, name, shape =>
    match find? tables name with
    | none => .error (.missing name)
    | some t => t.load >>= fit d name shape

end Weights

end DraftHeads
