import DraftHeads.Shard.Vocabulary

/-! # Layers, whole or split

A *projection* multiplies rows by a weight and an *embedding* looks up the rows of tokens. On a
worker of its own a layer holds its whole weight; in a group it holds the worker's share and ends
with a collective operation. -/

namespace DraftHeads

/-- What a sharded layer was doing when it failed. -/
inductive LayerStage where
  | columnLoad
  | vocabularyLoad
  | column
  | vocabulary
deriving Repr, DecidableEq

/-- Why a layer fails. -/
inductive LayerFault where
  | whole (cause : TensorFault)
  | sharded (stage : LayerStage) (cause : ShardFault)
deriving Repr, DecidableEq

/-- A projection without a bias, from rows of `in` entries to rows of `out` entries. -/
inductive Projection (α : Type) where
  | whole (weight : Tensor α)
  | column (shard : ColumnShard α)

/-- A table of rows, one for each token. -/
inductive Embedding (α : Type) where
  | whole (hidden : Nat) (table : Tensor α)
  | vocabulary (shard : VocabularyShard α)

variable {α : Type}

namespace Projection

/-- The projection of a checkpoint from `inputs` to `outputs` entries. -/
def load (inputs outputs : Nat) (read : Reader α) (g : Group) :
    Except LayerFault (Projection α) :=
  if g.isSingle then
    match read "weight" [outputs, inputs] with
    | .ok weight => .ok (.whole weight)
    | .error e => .error (.whole e)
  else
    match ColumnShard.load inputs outputs read g with
    | .ok shard => .ok (.column shard)
    | .error e => .error (.sharded .columnLoad e)

/-- The product with a whole weight. Tensors of three and four axes are flattened to a matrix and
take their shape again afterwards; all others go into the product as they are. -/
def applyWhole [Zero α] (dot? : Option (List α → List α → α)) (weight xs : Tensor α) :
    Except TensorFault (Tensor α) := do
  if xs.rank = 3 ∨ xs.rank = 4 then
    let out ← Tensor.product dot? (← xs.reshape [entryCount xs.lead, xs.width]) weight
    out.reshape (xs.lead ++ [out.width])
  else Tensor.product dot? xs weight

/-- The rows of a tensor multiplied by the weight. -/
def apply [Zero α] (dot? : Option (List α → List α → α)) :
    Projection α → Tensor α → Collective α LayerFault (Tensor α)
  | .whole weight, xs => .ofExcept ((applyWhole dot? weight xs).mapError .whole)
  | .column shard, xs => (shard.apply dot? xs).mapFault (.sharded .column)

end Projection

namespace Embedding

/-- The embedding of a checkpoint for `vocab` tokens. -/
def load (vocab hidden : Nat) (read : Reader α) (g : Group) : Except LayerFault (Embedding α) :=
  if g.isSingle then
    match read "weight" [vocab, hidden] with
    | .ok table => .ok (.whole hidden table)
    | .error e => .error (.whole e)
  else
    match VocabularyShard.load vocab hidden read g with
    | .ok shard => .ok (.vocabulary shard)
    | .error e => .error (.sharded .vocabularyLoad e)

/-- The rows of tokens, looked up in a whole table. -/
def applyWhole (hidden : Nat) (table : Tensor α) (tokens : AnyTensor) :
    Except TensorFault (Tensor α) :=
  match tokens.integers? with
  | none => .error .format
  | some ids => do Tensor.ofRows ids.shape hidden (← table.lookup ids.data)

/-- The rows of the tokens of a tensor of any shape. -/
def apply [Zero α] [One α] [Mul α] :
    Embedding α → AnyTensor → Collective α LayerFault (Tensor α)
  | .whole hidden table, tokens => .ofExcept ((applyWhole hidden table tokens).mapError .whole)
  | .vocabulary shard, tokens => (shard.apply tokens).mapFault (.sharded .vocabulary)

end Embedding

/-- A projection applied to a tensor of any format. Tensors of another format than the weight have
no products with it, except those that look at no entry. -/
def Projection.applyAny (d : DType) (layer : Projection d.Elem) (g : Group) (xs : AnyTensor) :
    Except LayerFault AnyTensor := do
  match xs.as? d with
  | some ys => return ⟨d, ← (layer.apply Element.dot? ys).simulate g⟩
  | none =>
    let blank (weight : Tensor d.Elem) : Tensor xs.dtype.Elem := Tensor.fill weight.shape 0
    let foreign : Projection xs.dtype.Elem :=
      match layer with
      | .whole weight => .whole (blank weight)
      | .column shard => .column ⟨blank shard.weight, shard.world, shard.rank⟩
    return ⟨xs.dtype, ← (foreign.apply none xs.tensor).simulate g⟩

/-- An embedding applied to the tokens of a tensor of any format. -/
def Embedding.applyAny (d : DType) (layer : Embedding d.Elem) (g : Group) (tokens : AnyTensor) :
    Except LayerFault AnyTensor := do
  return ⟨d, ← (layer.apply tokens).simulate g⟩

end DraftHeads
