import DraftHeads.Shard.Column
import DraftHeads.Tensor.AnyFormat

/-! # Tables split along the vocabulary

A worker keeps a range of the rows of a table: `⌈vocab / world⌉` of them, fewer at the end. A lookup
gives the row of a token that the worker owns and a row of zeros for the others; the sum over the
workers is the row of the full table. -/

namespace DraftHeads

/-- Places in a table are counted in words of this many values. -/
def wordCount : Nat := UInt64.size

/-- A worker looks places in its own table up as words of this many values. -/
def placeCount : Nat := UInt32.size

/-- The number of rows that each worker but the last ones keeps. -/
def rowsPerWorker (vocab world : Nat) : Nat := (vocab + world - 1) / world

/-- The range of the rows that a worker keeps. -/
def vocabularyRange (vocab world rank : Nat) : Nat × Nat :=
  let share := rowsPerWorker vocab world
  (min (rank * share % wordCount) vocab, min ((rank + 1) * share % wordCount) vocab)

/-- A worker's rows of a table. -/
structure VocabularyShard (α : Type) where
  table : Tensor α
  world : Nat
  start : Nat
  stop : Nat

namespace VocabularyShard

variable {α : Type}

/-- The rows that a worker keeps of a full table. -/
def ofTable (full : Tensor α) (world rank : Nat) : Except ShardFault (VocabularyShard α) :=
  match full.shape with
  | [] => .error (.tensor .shapes)
  | vocab :: _ =>
    if world = 0 then .error .emptyWorld
    else
      let (start, stop) := vocabularyRange vocab world rank
      match full.slice start (max start stop) with
      | .ok table => .ok ⟨table, world, start, stop⟩
      | .error e => .error (.tensor e)

/-- Reads a table of shape `[vocab, hidden]` and keeps the worker's rows. -/
def load (vocab hidden : Nat) (read : Reader α) (g : Group) :
    Except ShardFault (VocabularyShard α) :=
  match read "weight" [vocab, hidden] with
  | .error e => .error (.tensor e)
  | .ok full => ofTable full g.world g.rank

/-- Does the worker keep the row of a token? -/
def owns (shard : VocabularyShard α) (token : Int) : Bool :=
  decide ((shard.start : Int) ≤ token ∧ token < shard.stop)

/-- The place in the worker's table that is looked up for a token; tokens of other workers are moved
to one end of the table. -/
def localRow (shard : VocabularyShard α) (token : Int) : Int :=
  let last : Int := (shard.stop - shard.start - 1 : Nat)
  min (max (Int.bmod (token - shard.start) wordCount) 0) last % placeCount

/-- The worker's part of the rows of some tokens, before the sum over all workers. -/
def partialRows [Zero α] [One α] [Mul α] (shard : VocabularyShard α) (tokens : List Int) :
    Except TensorFault (List (List α)) := do
  let rows ← shard.table.lookup (tokens.map shard.localRow)
  return (tokens.zip rows).map fun (token, row) =>
    let mask : α := if shard.owns token then 1 else 0
    row.map (· * mask)

/-- The rows of the tokens of a tensor of any shape, added over all workers. A worker that has the
whole table takes tokens of integer formats only. -/
def apply [Zero α] [One α] [Mul α] (shard : VocabularyShard α) (tokens : AnyTensor) :
    Collective α ShardFault (Tensor α) := do
  let lift {β : Type} (r : Except TensorFault β) : Collective α ShardFault β :=
    .ofExcept (r.mapError .tensor)
  match shard.table.shape[1]? with
  | none => .fail (.tensor .shapes)
  | some hidden =>
    if shard.world = 1 then
      match tokens.integers? with
      | none => .fail (.tensor .format)
      | some ids =>
        let rows ← lift (shard.table.lookup ids.data)
        lift (Tensor.ofRows ids.shape hidden rows)
    else
      let ids := (tokens.cast .i64).map Int64.toInt
      let rows ← lift (shard.partialRows ids.data)
      let own ← lift (Tensor.ofRows [ids.data.length] hidden rows)
      let sum ← .allReduce own lift
      lift (sum.reshape (tokens.shape ++ [hidden]))

end VocabularyShard

end DraftHeads
