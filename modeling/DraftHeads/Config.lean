import DraftHeads.Fault
import DraftHeads.Json.Parser

/-! # The configuration of a checkpoint

A checkpoint says how large its vocabulary is, how wide the hidden states of the base model and the
states of the heads are, how many heads it has, and whether the heads share their weights. In its
JSON form further members may follow; they are kept in `extra`, with ascending keys.

* `Config.ofValue?` reads a JSON object and `Config.toValue` writes one.
* `Config.validate` refuses a configuration without heads, vocabulary or hidden states. -/

namespace DraftHeads

/-- The configuration of a checkpoint. -/
structure Config where
  vocabSize : Nat
  /-- The width of the hidden states of the base model. -/
  embDim : Nat
  /-- The width of the states of the heads as it is stored; zero stands for `embDim`. -/
  storedInnerDim : Nat
  headCount : Nat
  /-- Do the heads share their weights? -/
  tieWeights : Bool
  /-- Are hidden states normalised before the first head? -/
  scaleInput : Bool
  /-- The members that have no meaning here. -/
  extra : List (String × Json.Value)

namespace Config

/-- The configuration of a common checkpoint. -/
def standard : Config := ⟨128256, 4096, 3072, 4, true, true, []⟩

/-- The width of the states of the heads. -/
def innerDim (c : Config) : Nat := if c.storedInnerDim = 0 then c.embDim else c.storedInnerDim

/-- What has to hold of a configuration before a model is built from it. -/
def validate (c : Config) : Except ConfigFault Unit :=
  if c.headCount = 0 then .error .noHeads
  else if c.vocabSize = 0 then .error .noVocabulary
  else if c.embDim = 0 then .error .noEmbedding
  else .ok ()

/-- The keys that have a meaning; the width of the hidden states has two. -/
def declaredKeys : List String :=
  ["vocab_size", "emb_dim", "hidden_size", "inner_dim", "n_predict", "tie_weights", "scale_input"]

/-- The value of the one member with one of the given keys, if there is such a member; no result if
there are several. -/
def field (keys : List String) (members : List (String × Json.Value)) :
    Option (Option Json.Value) :=
  match members.filter fun m => keys.contains m.1 with
  | [] => some none
  | [m] => some (some m.2)
  | _ => none

/-- A member that has to be there and has to be of the right kind. -/
def required {α : Type} (keys : List String) (read : Json.Value → Option α)
    (members : List (String × Json.Value)) : Option α := do
  read (← (← field keys members))

/-- A member that may be missing. -/
def optional {α : Type} (keys : List String) (read : Json.Value → Option α) (default : α)
    (members : List (String × Json.Value)) : Option α := do
  match ← field keys members with
  | none => some default
  | some v => read v

/-- The members without a meaning, with ascending keys. -/
def extraOf (members : List (String × Json.Value)) : List (String × Json.Value) :=
  Json.sortMembers (Json.Value.sortedMembers (members.filter fun m => !declaredKeys.contains m.1))

/-- The configuration that a JSON object gives. -/
def ofValue? : Json.Value → Option Config
  | .object members => do
    return {
      vocabSize := ← required ["vocab_size"] Json.Value.natural? members
      embDim := ← required ["emb_dim", "hidden_size"] Json.Value.natural? members
      storedInnerDim := ← optional ["inner_dim"] Json.Value.natural? 0 members
      headCount := ← required ["n_predict"] Json.Value.natural? members
      tieWeights := ← optional ["tie_weights"] Json.Value.bool? false members
      scaleInput := ← optional ["scale_input"] Json.Value.bool? false members
      extra := extraOf members }
  | _ => none

/-- The JSON object of a configuration: the members with a meaning, then the others. -/
def toValue (c : Config) : Json.Value :=
  .object ([
    ("vocab_size", .number (.natural c.vocabSize)),
    ("emb_dim", .number (.natural c.embDim)),
    ("inner_dim", .number (.natural c.storedInnerDim)),
    ("n_predict", .number (.natural c.headCount)),
    ("tie_weights", .bool c.tieWeights),
    ("scale_input", .bool c.scaleInput)] ++ c.extra)

/-- The valid configuration that a JSON text gives. -/
def parse (text : String) : Except Fault Config :=
  match Json.parse? text >>= ofValue? with
  | none => .error .json
  | some c =>
    match c.validate with
    | .ok _ => .ok c
    | .error e => .error (.configuration e)

end Config

end DraftHeads
