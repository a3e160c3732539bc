import DraftHeads.Draft.Mixing
import DraftHeads.Draft.Parameters
import DraftHeads.Draft.Ranking

/-! # Models

A model drafts tokens from the hidden states of a base model. Its heads run one after the other on
*candidate rows*: a head blends the state of a row with the embedding of the row's token, normalises
the blend, and projects it to a distribution over the vocabulary; the `k` best tokens of the row
then become `k` candidate rows for the next head, all with the row's new state. The rows that come
from one row of the batch stay next to each other, so with branching factors `k₀, k₁, …` the row
`(b · k₀ + d₀) · k₁ + d₁` took the `d₀`-th best token of the first head and the `d₁`-th best token
of the second.

* `Model.build` reads a model from a checkpoint.
* `Model.trace` runs all heads and keeps what each of them saw and chose.
* `Model.propose` gives the best token of every head on its first branch. -/

namespace DraftHeads

/-- A model; the entries of its weights are of type `α`, its constants of type `π`. -/
structure Model (α π : Type) where
  parameters : Parameters α π
  /-- The normaliser of hidden states, if they are normalised. -/
  inputNorm : Option (Norm α π)
  mixing : MixingWeights π
  embedScale : π
  branching : List Nat
  heads : Nat
  sizes : Sizes
  group : Group

/-- What one head saw and chose. -/
structure HeadStep (ω : Type) where
  /-- The number of candidate rows for each row of the batch. -/
  multiplicity : Nat
  /-- The distributions of the candidate rows. -/
  probs : Tensor ω
  /-- The chosen tokens, the best ones of each row next to each other. -/
  candidates : Tensor UInt32

/-- The outcome of a run. -/
structure Trace (ω : Type) where
  /-- The distribution of each head on its first branch, for each row of the batch. -/
  allProbs : Tensor ω
  steps : List (HeadStep ω)

/-- The rows that the heads hand on. -/
structure CandidateRows (α : Type) where
  state : Tensor α
  tokens : Tensor UInt32
  multiplicity : Nat

/-- Refuses a branching list with an entry that is not between one and the size of the vocabulary;
`head` is the head of the first entry. -/
def checkBranching (vocab : Nat) (head : Nat) : List Nat → Except ConfigFault Unit
  | [] => .ok ()
  | k :: ks =>
    if k = 0 ∨ vocab < k then .error (.branchRange head vocab k)
    else checkBranching vocab (head + 1) ks

namespace Model

variable {α ω π : Type}

section Build

variable [Analytic π]

/-- Checks a configuration and the branching list that is given for a number of heads. -/
def checkPlan (c : Config) (heads : Nat) (branching? : Option (List Nat)) :
    Except ConfigFault Unit := do
  c.validate
  if heads = 0 then throw .noTokens
  match branching? with
  | none => return
  | some branching =>
    if branching.length ≠ heads then throw (.branchCount heads branching.length)
    checkBranching c.vocabSize 0 branching

/-- The number of bytes of a branching factor. -/
def factorSize : Nat := 8

/-- The model of a checkpoint. Configuration and policy are checked before a weight is read; without
a branching list each head has one candidate, and there may be only as many heads as such a list can
hold. The lists of parameters and of slots have limits of their own. -/
def build (c : Config) (policy : Policy π) (read : Reader α) (g : Group) :
    Except Fault (Model α π) := do
  let heads := policy.headCount c
  (checkPlan c heads policy.branching?).mapError .configuration
  (checkBytes heads factorSize).mapError fun e => .layer (.whole e)
  let sizes : Sizes := ⟨c.vocabSize, c.embDim, c.innerDim⟩
  let parameters ←
    (Parameters.load c.tieWeights heads sizes policy.normEps read g).mapError .layer
  let mixing : MixingWeights π := .forHeads heads
  return {
    parameters, mixing, branching := policy.branching heads, heads, sizes, group := g
    inputNorm := if c.scaleInput then some (.plain policy.normEps) else none
    embedScale := mixing.embedScale sizes.inner }

end Build

/-- The same model with another branching list, which is checked when the model runs. -/
def withBranching (m : Model α π) (branching : List Nat) : Model α π := { m with branching }

/-- The slot of a head. -/
def slot? (m : Model α π) (head : Nat) : Option Slot := m.parameters.slots[head]?

/-- Checks the branching list and the inputs of a run, and gives the size of the batch. -/
def accept (m : Model α π) (hiddenShape : List Nat) (tokens : AnyTensor) : Except Fault Nat := do
  if m.branching.length ≠ m.heads then
    throw (.input (.branchCount m.heads m.branching.length))
  (checkBranching m.sizes.vocab 0 m.branching).mapError .configuration
  match hiddenShape with
  | [batch, width] =>
    if width ≠ m.sizes.emb then throw (.input (.hiddenWidth width m.sizes.emb))
    if tokens.shape ≠ [batch] then throw (.input (.tokenShape batch tokens.shape))
    if tokens.dtype.isFloat then throw (.input (.tokenFormat tokens.dtype))
    return batch
  | _ => throw (.input (.hiddenShape m.sizes.emb hiddenShape))

section Run

variable [Element α ω π] [Analytic ω] [Analytic π]

/-- Local work of a layer. -/
def tensorStep {β : Type} (r : Except TensorFault β) : Collective α Fault β :=
  .ofExcept (r.mapError fun e => .layer (.whole e))

/-- The work of a layer. -/
def layerStep {β : Type} (p : Collective α LayerFault β) : Collective α Fault β :=
  p.mapFault .layer

/-- An entry multiplied by a constant. -/
def scaleBy (c : π) (x : α) : α := x * Element.ofParameter c + 0

/-- The parameter at a place. -/
def parameter {β : Type} (xs : List β) (i : Nat) : Collective α Fault β :=
  match xs[i]? with
  | some x => .done x
  | none => .fail (.layer (.whole .index))

/-- One head: the new states of the candidate rows and their logits. -/
def headOutput (m : Model α π) (slot : Slot) (state : Tensor α) (tokens : Tensor UInt32) :
    Collective α Fault (Tensor α × Tensor α) := do
  let embedding ← parameter m.parameters.embeddings slot.embedding
  let z ← layerStep (embedding.apply ⟨.u32, tokens⟩)
  let projection ← parameter m.parameters.stateProjections slot.stateProjection
  let projected ← layerStep (projection.apply Element.dot? state)
  let mixed ← tensorStep
    (projected.zipWith (fun p e => scaleBy m.mixing.state p + scaleBy m.embedScale e) z)
  let norm ← parameter m.parameters.norms slot.norm
  let next := (← tensorStep (norm.apply mixed)).map Element.gelu
  let output ← parameter m.parameters.outputProjections slot.outputProjection
  let logits ← layerStep (output.apply Element.dot? next)
  return (next, logits)

/-- One head on all candidate rows: what it saw and chose, and the rows for the next head. -/
def runHead (m : Model α π) (batch head : Nat) (slot : Slot) (k : Nat) (rows : CandidateRows α) :
    Collective α Fault (HeadStep ω × CandidateRows α) := do
  let count := batch * rows.multiplicity
  if rows.state.shape[0]? ≠ some count ∨ rows.tokens.shape[0]? ≠ some count then
    .fail (.input (.candidateRows head count rows.state.shape rows.tokens.shape))
  else
    let (next, logits) ← m.headOutput slot rows.state rows.tokens
    let logProbs ← tensorStep (logSoftmax (logits.map Element.widen))
    let chosen := logProbs.rows.flatMap fun row => (best k row).map UInt32.ofNat
    let candidates ← tensorStep (Tensor.ofData [count * k] chosen)
    let state ← tensorStep (next.repeatRows k)
    return (⟨rows.multiplicity, logProbs.map Analytic.exp, candidates⟩,
      ⟨state, candidates, rows.multiplicity * k⟩)

/-- The heads that are left, one after the other. -/
def runHeads (m : Model α π) (batch : Nat) :
    (head : Nat) → List (Slot × Nat) → CandidateRows α → Collective α Fault (List (HeadStep ω))
  | _, [], _ => return []
  | head, (slot, k) :: rest, rows => do
    let (step, next) ← m.runHead batch head slot k rows
    return step :: (← runHeads m batch (head + 1) rest next)

/-- The distributions of the first branch: the first of the rows of each row of the batch. -/
def firstBranch (batch : Nat) (step : HeadStep ω) : List (List ω) :=
  (pieces step.multiplicity batch step.probs.rows).filterMap List.head?

/-- The distributions of the first branches of all heads, side by side for each row of the batch. -/
def stackBranches (batch vocab : Nat) (steps : List (HeadStep ω)) :
    Except TensorFault (Tensor ω) :=
  let branches := steps.map (firstBranch batch)
  Tensor.ofData [batch, steps.length, vocab]
    ((List.range batch).flatMap fun b => branches.flatMap fun rows => rows.getD b [])

/-- The outcome of a run on no rows. -/
def emptyTrace (m : Model α π) : Trace ω := ⟨Tensor.fill [0, m.heads, m.sizes.vocab] 0, []⟩

/-- Runs all heads on hidden states of shape `[batch, emb]` and one token for each of their rows. -/
def trace (m : Model α π) (hidden : Tensor α) (tokens : AnyTensor) :
    Collective α Fault (Trace ω) := do
  let batch ← Collective.ofExcept (m.accept hidden.shape tokens)
  if batch = 0 then return m.emptyTrace
  else
    let state ←
      match m.inputNorm with
      | some norm => do
        let scaled ← tensorStep (norm.apply hidden)
        pure (scaled.map (scaleBy (1 / Analytic.sqrt (Analytic.ofNat 2) : π)))
      | none => pure hidden
    let steps ← m.runHeads batch 0 (m.parameters.slots.zip m.branching)
      ⟨state, tokens.cast .u32, 1⟩
    return ⟨← tensorStep (stackBranches batch m.sizes.vocab steps), steps⟩

/-- A run on hidden states of another format than the weights: it gets as far as the first product.
-/
def traceForeign (m : Model α π) (hiddenShape : List Nat) (tokens : AnyTensor) :
    Collective α Fault (Trace ω) := do
  let batch ← Collective.ofExcept (m.accept hiddenShape tokens)
  if batch = 0 then return m.emptyTrace
  else
    let embedding ← parameter m.parameters.embeddings 0
    let _ ← layerStep (embedding.apply ⟨.u32, tokens.cast .u32⟩)
    let projection ← parameter m.parameters.stateProjections 0
    let _ ← layerStep (projection.apply none (Tensor.fill hiddenShape 0))
    .fail (.layer (.whole .format))

/-- The distribution of every head for every row of the batch. -/
def forward (m : Model α π) (hidden : Tensor α) (tokens : AnyTensor) :
    Collective α Fault (Tensor ω) := do
  return (← m.trace hidden tokens).allProbs

/-- The most probable token of every head for every row of the batch. -/
def propose (m : Model α π) (hidden : Tensor α) (tokens : AnyTensor) :
    Collective α Fault (Tensor UInt32) := do
  tensorStep (argmaxRows (← m.forward hidden tokens))

end Run

end Model

/-- A model whose number format is known at run time. -/
structure AnyModel where
  dtype : DType
  model : Model dtype.Elem Float

namespace AnyModel

/-- Runs all heads in the group of the model. -/
def trace (m : AnyModel) (hidden tokens : AnyTensor) : Except Fault (Trace Float32) :=
  (match hidden.as? m.dtype with
    | some states => m.model.trace states tokens
    | none => m.model.traceForeign hidden.shape tokens).simulate m.model.group

/-- The distribution of every head for every row of the batch. -/
def forward (m : AnyModel) (hidden tokens : AnyTensor) : Except Fault (Tensor Float32) := do
  return (← m.trace hidden tokens).allProbs

/-- The most probable token of every head for every row of the batch. -/
def propose (m : AnyModel) (hidden tokens : AnyTensor) : Except Fault (Tensor UInt32) := do
  (argmaxRows (← m.forward hidden tokens)).mapError fun e => .layer (.whole e)

end AnyModel

end DraftHeads
