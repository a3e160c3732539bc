import DraftHeads.Draft.Model

/-! # The language model head

The head of a base model projects hidden states to logits over the vocabulary. If the batch is small
enough, the most likely token of each row goes to the speculator together with the row's hidden
state, and the distributions of the draft come back beside the logits. -/

namespace DraftHeads

/-- A language model head with a speculator. -/
structure LanguageHead (α π : Type) where
  projection : Projection α
  speculator : Model α π
  /-- Larger batches are not speculated on. -/
  maxBatch : Nat

/-- What a language model head gives for a batch. -/
structure HeadOutput (α ω : Type) where
  logits : Tensor α
  /-- The distributions of the draft, if there was any speculation. -/
  speculative : Option (Tensor ω)

namespace LanguageHead

variable {α ω π : Type}

/-- The head of a checkpoint that holds the speculator and the projection of the base model. -/
def load [Analytic π] (c : Config) (policy : Policy π) (read : Reader α) (g : Group) :
    Except Fault (LanguageHead α π) := do
  let speculator ← Model.build c policy (read.below "speculator") g
  let projection ←
    (Projection.load c.embDim c.vocabSize (read.below "lm_head") g).mapError .layer
  return ⟨projection, speculator, policy.maxBatch⟩

/-- The size of the batch, if the hidden states are a matrix of the right width. -/
def accept (h : LanguageHead α π) (hiddenShape : List Nat) : Except Fault Nat :=
  match hiddenShape with
  | [batch, width] =>
    if width = h.speculator.sizes.emb then .ok batch
    else .error (.input (.hiddenShape h.speculator.sizes.emb hiddenShape))
  | _ => .error (.input (.hiddenShape h.speculator.sizes.emb hiddenShape))

/-- The same head whose speculator has another branching list. -/
def withBranching (h : LanguageHead α π) (branching : List Nat) : LanguageHead α π :=
  { h with speculator := h.speculator.withBranching branching }

variable [Element α ω π] [Analytic ω] [Analytic π]

/-- Logits and draft of a batch. -/
def forward (h : LanguageHead α π) (hidden : Tensor α) :
    Collective α Fault (HeadOutput α ω) := do
  let batch ← Collective.ofExcept (h.accept hidden.shape)
  let logits ← Model.layerStep (h.projection.apply Element.dot? hidden)
  if h.maxBatch < batch then return ⟨logits, none⟩
  else
    let tokens ← Model.tensorStep (argmaxRows logits)
    return ⟨logits, some (← h.speculator.forward hidden ⟨.u32, tokens⟩)⟩

end LanguageHead

/-- A language model head whose number format is known at run time. -/
structure AnyHead where
  dtype : DType
  head : LanguageHead dtype.Elem Float

/-- Logits and draft of a batch of hidden states of any format. -/
def AnyHead.forward (h : AnyHead) (hidden : AnyTensor) :
    Except Fault (AnyTensor × Option (Tensor Float32)) := do
  let group := h.head.speculator.group
  match hidden.as? h.dtype with
  | some states =>
    let out ← (h.head.forward states).simulate group
    return (⟨h.dtype, out.logits⟩, out.speculative)
  | none =>
    let _ ← h.head.accept hidden.shape
    let logits ← (h.head.projection.applyAny h.dtype group hidden).mapError .layer
    let _ ← (argmaxRows logits.tensor).mapError fun e => Fault.layer (.whole e)
    .error (.layer (.whole .format))

end DraftHeads
