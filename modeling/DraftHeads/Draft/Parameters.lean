import DraftHeads.Policy
import DraftHeads.Norm

/-! # The parameters of the heads

A head uses an embedding, a state projection, an output projection and a normaliser. Heads with tied
weights share one of each, except that the first head has a state projection of its own, for it
alone meets the hidden states of the base model. A *slot* says which parameters a head uses.

Every head has an entry in some lists, and a list may not take more than `maxBytes` bytes. Apart
from this limit on each list, memory is taken as unbounded. -/

namespace DraftHeads

/-- The places of the parameters that a head uses. -/
structure Slot where
  embedding : Nat
  stateProjection : Nat
  outputProjection : Nat
  norm : Nat
deriving Repr, DecidableEq

/-- The sizes that the shapes of the parameters are made of. -/
structure Sizes where
  vocab : Nat
  emb : Nat
  inner : Nat
deriving Repr, DecidableEq

/-- The parameters of all heads and the slot of each head. -/
structure Parameters (α π : Type) where
  embeddings : List (Embedding α)
  stateProjections : List (Projection α)
  outputProjections : List (Projection α)
  norms : List (Norm α π)
  slots : List Slot

variable {α π : Type}

/-- Reads an affine normaliser. -/
def Norm.load (width : Nat) (eps : π) (read : Reader α) : Except TensorFault (Norm α π) := do
  let weight ← read "weight" [width]
  let bias ← read "bias" [width]
  return ⟨some (weight, bias), eps⟩

namespace Parameters

/-- The width of the rows that a head's state projection takes. -/
def inputWidth (sizes : Sizes) (head : Nat) : Nat := if head = 0 then sizes.emb else sizes.inner

/-- The reader of the parameters with a word and a number. -/
def numbered (read : Reader α) (word : String) (i : Nat) : Reader α :=
  (read.below word).below (toString i)

/-- Reads a worker's part of the `i`-th embedding. -/
def loadEmbedding (sizes : Sizes) (read : Reader α) (g : Group) (i : Nat) :
    Except LayerFault (Embedding α) :=
  Embedding.load sizes.vocab sizes.inner (numbered read "emb" i) g

/-- Reads a worker's part of the `i`-th state projection. -/
def loadStateProjection (sizes : Sizes) (read : Reader α) (g : Group) (i : Nat) :
    Except LayerFault (Projection α) :=
  Projection.load (inputWidth sizes i) sizes.inner (numbered read "proj" i) g

/-- Reads a worker's part of the `i`-th output projection. -/
def loadOutputProjection (sizes : Sizes) (read : Reader α) (g : Group) (i : Nat) :
    Except LayerFault (Projection α) :=
  Projection.load sizes.inner sizes.vocab (numbered read "head" i) g

/-- Reads the `i`-th normaliser, which every worker has whole. -/
def loadNorm (sizes : Sizes) (eps : π) (read : Reader α) (i : Nat) :
    Except LayerFault (Norm α π) :=
  (Norm.load sizes.inner eps (numbered read "ln" i)).mapError .whole

/-- The slots of heads that share their weights. -/
def tiedSlots (heads : Nat) : List Slot :=
  (List.range heads).map fun i => ⟨0, min i 1, 0, 0⟩

/-- The slots of heads with weights of their own. -/
def untiedSlots (heads : Nat) : List Slot :=
  (List.range heads).map fun i => ⟨i, i, i, i⟩

/-- The number of bytes of a slot. -/
def slotSize : Nat := 32

/-- The number of bytes of an embedding, its entries not counted. -/
def embeddingSize : Nat := 32

/-- The number of bytes of a projection, its entries not counted. -/
def projectionSize : Nat := 24

/-- The number of bytes of a normaliser, its entries not counted. -/
def normSize : Nat := 24

/-- Refuses more heads than a list of slots can have entries. -/
def checkSlots (heads : Nat) : Except LayerFault Unit := (checkBytes heads slotSize).mapError .whole

/-- Refuses more heads than the lists of their parameters can have entries. -/
def checkSingles (heads : Nat) : Except LayerFault Unit :=
  [embeddingSize, projectionSize, projectionSize, normSize].forM fun size =>
    (checkBytes heads size).mapError .whole

/-- Reads the parameters of heads that share their weights. Only after that comes the list of their
slots. -/
def loadTied (heads : Nat) (sizes : Sizes) (eps : π) (read : Reader α) (g : Group) :
    Except LayerFault (Parameters α π) := do
  let embedding ← loadEmbedding sizes read g 0
  let projections ← (List.range (min heads 2)).mapM (loadStateProjection sizes read g)
  let output ← loadOutputProjection sizes read g 0
  let norm ← loadNorm sizes eps read 0
  checkSlots heads
  return ⟨[embedding], projections, [output], [norm], tiedSlots heads⟩

/-- The parameters of one head. -/
structure Single (α π : Type) where
  embedding : Embedding α
  stateProjection : Projection α
  outputProjection : Projection α
  norm : Norm α π

/-- Reads the parameters of one head with weights of its own. -/
def loadSingle (sizes : Sizes) (eps : π) (read : Reader α) (g : Group) (i : Nat) :
    Except LayerFault (Single α π) := do
  return ⟨← loadEmbedding sizes read g i, ← loadStateProjection sizes read g i,
    ← loadOutputProjection sizes read g i, ← loadNorm sizes eps read i⟩

/-- Reads the parameters of a number of heads from the `i`-th one on, one head after the other. -/
def loadSingles (sizes : Sizes) (eps : π) (read : Reader α) (g : Group) :
    (count i : Nat) → Except LayerFault (List (Single α π))
  | 0, _ => .ok []
  | count + 1, i => do
    let single ← loadSingle sizes eps read g i
    return single :: (← loadSingles sizes eps read g count (i + 1))

/-- Reads the parameters of heads with weights of their own, for which there has to be room before
the first of them is read. -/
def loadUntied (heads : Nat) (sizes : Sizes) (eps : π) (read : Reader α) (g : Group) :
    Except LayerFault (Parameters α π) := do
  checkSingles heads
  let singles ← loadSingles sizes eps read g heads 0
  checkSlots heads
  return ⟨singles.map (·.embedding), singles.map (·.stateProjection),
    singles.map (·.outputProjection), singles.map (·.norm), untiedSlots heads⟩

/-- Reads the parameters of a number of heads. -/
def load (tied : Bool) (heads : Nat) (sizes : Sizes) (eps : π) (read : Reader α) (g : Group) :
    Except LayerFault (Parameters α π) :=
  if tied then loadTied heads sizes eps read g else loadUntied heads sizes eps read g

end Parameters

end DraftHeads
