import DraftHeads.Shard.Layer

/-! # Faults and their messages

A fault is a cause; `Fault.message` puts it into words. A tensor fault has words of its own only
where a tensor is missing or has the wrong shape, and inside a sharded layer its text comes after
the name of what the layer was doing. -/

namespace DraftHeads

/-- Why a configuration, a policy or a branching list is refused. -/
inductive ConfigFault where
  | noHeads
  | noVocabulary
  | noEmbedding
  | noTokens
  /-- The branching list has another length than there are heads. -/
  | branchCount (heads provided : Nat)
  /-- An entry of the branching list is not between one and the size of the vocabulary. -/
  | branchRange (head vocab k : Nat)
  /-- A directory holds no tensor file. -/
  | noWeightFiles (directory : String)
  /-- The index of a checkpoint does not say which file holds which tensor. -/
  | noWeightMap
deriving Repr, DecidableEq

/-- Why the inputs of a run are refused. -/
inductive InputFault where
  | branchCount (heads provided : Nat)
  /-- Hidden states are not a matrix. -/
  | hiddenShape (width : Nat) (actual : List Nat)
  | hiddenWidth (actual width : Nat)
  | tokenShape (batch : Nat) (actual : List Nat)
  | tokenFormat (format : DType)
  /-- A head meets another number of rows than its predecessors left. -/
  | candidateRows (head rows : Nat) (state tokens : List Nat)
deriving Repr, DecidableEq

/-- Why building, loading or running fails. -/
inductive Fault where
  | configuration (cause : ConfigFault)
  | input (cause : InputFault)
  | layer (cause : LayerFault)
  | shard (cause : ShardFault)
  /-- One tensor name in two files. -/
  | conflict (name first second : String)
  /-- A file could not be had from the hub. -/
  | hub
  | io
  | json
deriving Repr, DecidableEq

/-- A shape between brackets. -/
def shapeText (shape : List Nat) : String := "[" ++ ", ".intercalate (shape.map toString) ++ "]"

/-- A number format in capital letters. -/
def DType.title (d : DType) : String := d.name.toUpper

/-- The words for a refused configuration. -/
def ConfigFault.message : ConfigFault → String
  | noHeads => "n_predict must be >= 1"
  | noVocabulary => "vocab_size must be > 0"
  | noEmbedding => "emb_dim must be > 0"
  | noTokens => "num_speculative_tokens must be >= 1"
  | branchCount heads provided =>
    s!"a top-k value is required for each head ({heads} heads, {provided} provided)"
  | branchRange head vocab k => s!"top-k for head {head} must be in 1..={vocab}, got {k}"
  | noWeightFiles directory => s!"no safetensors files in {directory}"
  | noWeightMap => "missing weight_map in index"

/-- The words for refused inputs. -/
def InputFault.message : InputFault → String
  | branchCount heads provided => (ConfigFault.branchCount heads provided).message
  | hiddenShape width actual =>
    s!"hidden states must be [batch, {width}], got {shapeText actual}"
  | hiddenWidth actual width => s!"hidden size {actual} does not match emb_dim {width}"
  | tokenShape batch actual => s!"input ids must be [{batch}], got {shapeText actual}"
  | tokenFormat format => s!"input ids must be integers, got {format.title}"
  | candidateRows head rows state tokens =>
    s!"head {head}: expected {rows} candidate rows, got state {shapeText state} and ids " ++
      shapeText tokens

/-- The words of a tensor fault, where it has any. -/
def TensorFault.message? : TensorFault → Option String
  | missing name => some s!"cannot find tensor {name}"
  | misshapen name expected actual =>
    some s!"shape mismatch for {name}, expected: {shapeText expected}, got: {shapeText actual}"
  | shapes | index | format | unreadable | tooLarge => none

/-- The words of a fault of the workers; a tensor fault without words of its own is only called
one. -/
def ShardFault.message : ShardFault → String
  | invalidRank rank world => s!"invalid rank {rank}: must be < world_size {world}"
  | indivisible size world =>
    s!"out_features ({size}) must be divisible by world_size ({world})"
  | shape expected actual =>
    s!"tensor shape mismatch: expected {shapeText expected}, got {shapeText actual}"
  | tensor cause =>
    match cause.message? with
    | some text => s!"tensor error: {text}"
    | none => "tensor error"
  | emptyWorld => "attempt to divide by zero"

/-- The name of what a sharded layer does. -/
def LayerStage.name : LayerStage → String
  | columnLoad => "column parallel load"
  | vocabularyLoad => "vocab parallel load"
  | column => "column parallel"
  | vocabulary => "vocab parallel"

/-- The words of a layer's fault, where it has any. -/
def LayerFault.message? : LayerFault → Option String
  | whole cause => cause.message?
  | sharded stage cause => some s!"{stage.name}: {cause.message}"

/-- The words of a fault, where it has any. -/
def Fault.message? : Fault → Option String
  | configuration cause => some s!"configuration error: {cause.message}"
  | input cause => some s!"shape mismatch: {cause.message}"
  | layer cause => cause.message?
  | shard (.tensor cause) => cause.message?
  | shard cause => some cause.message
  | conflict name first second =>
    some s!"parameter {name} was found in multiple files: {first} and {second}"
  | hub | io | json => none

/-! ### Faults that end the program

A program that runs out of addresses or divides by zero ends at once; all other faults are
reported. -/

/-- Does the fault end the program? -/
def TensorFault.isFatal : TensorFault → Bool
  | tooLarge => true
  | _ => false

/-- Does the fault end the program? -/
def ShardFault.isFatal : ShardFault → Bool
  | tensor cause => cause.isFatal
  | emptyWorld => true
  | _ => false

/-- Does the fault end the program? -/
def LayerFault.isFatal : LayerFault → Bool
  | whole cause => cause.isFatal
  | sharded _ cause => cause.isFatal

/-- Does the fault end the program? -/
def Fault.isFatal : Fault → Bool
  | layer cause => cause.isFatal
  | shard cause => cause.isFatal
  | _ => false

end DraftHeads
