import DraftHeads.Shard.Group

/-! # Projections split along their output features

A projection multiplies rows by the transpose of a weight of shape `[out, in]`. A worker of a group
keeps `out / world` rows of the weight, the ones that follow those of the workers before it; its
products are columns of the full product, and gathering the columns gives the full product. -/

namespace DraftHeads

/-- The entries of a checkpoint, looked up by name and by the shape that they have to have. -/
abbrev Reader (α : Type) := (name : String) → (shape : List Nat) → Except TensorFault (Tensor α)

/-- The entries whose names start with a word and a point. -/
def Reader.below {α : Type} (word : String) (read : Reader α) : Reader α :=
  fun name => read (word ++ "." ++ name)

/-- A worker's rows of a weight. -/
structure ColumnShard (α : Type) where
  weight : Tensor α
  world : Nat
  rank : Nat

namespace ColumnShard

variable {α : Type}

/-- The rows that a worker keeps of a full weight. -/
def ofWeight (full : Tensor α) (share world rank : Nat) : Except ShardFault (ColumnShard α) :=
  match full.slice (rank * share) ((rank + 1) * share) with
  | .ok weight => .ok ⟨weight, world, rank⟩
  | .error e => .error (.tensor e)

/-- Reads a weight of shape `[outputs, inputs]` and keeps the worker's rows. Whether the outputs
can be split is decided before anything is read. -/
def load (inputs outputs : Nat) (read : Reader α) (g : Group) :
    Except ShardFault (ColumnShard α) :=
  if outputs % g.world ≠ 0 then .error (.indivisible outputs g.world)
  else
    match read "weight" [outputs, inputs] with
    | .error e => .error (.tensor e)
    | .ok full => ofWeight full (outputs / g.world) g.world g.rank

/-- The product of the rows of a tensor with the weight, gathered from all workers. The axes before
the last one are kept. -/
def apply [Zero α] (dot? : Option (List α → List α → α)) (shard : ColumnShard α)
    (xs : Tensor α) : Collective α ShardFault (Tensor α) := do
  match xs.shape.getLast? with
  | none =>
    match shard.weight.shape[1]? with
    | some inputs => .fail (.shape [inputs] [])
    | none => .fail (.tensor .shapes)
  | some width =>
    let lift {β : Type} (r : Except TensorFault β) : Collective α ShardFault β :=
      .ofExcept (r.mapError .tensor)
    let flat ← lift (xs.reshape [entryCount xs.lead, width])
    let own ← lift (Tensor.product dot? flat shard.weight)
    let out ← if 1 < shard.world then .allGather own 1 lift else .done own
    lift (out.reshape (xs.lead ++ [out.width]))

end ColumnShard

end DraftHeads
