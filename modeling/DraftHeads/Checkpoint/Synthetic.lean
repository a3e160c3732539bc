import DraftHeads.Draft.Model

/-! # Synthetic checkpoints

A checkpoint with smooth weights for any configuration: the entries of a tensor are samples of a
sine wave at steps of the golden section, so that distinct tokens get distinct logits. Each tensor
has its own phase, and projections are scaled by the root of the width of the rows that they take.
-/

namespace DraftHeads

open Number

/-- The golden section. -/
def goldenStep : Float32 := 0.618034

/-- The number of bytes of an entry. -/
def entrySize : Nat := 4

/-- The entries `sin (i · golden section + phase) · scale` in single precision. -/
def wave (shape : List Nat) (phase scale : Float32) : Except TensorFault (Tensor Float32) := do
  checkBytes (entryCount shape) entrySize
  Tensor.ofData shape ((List.range (entryCount shape)).map fun (i : Nat) =>
    singleMap Elementary.sin ((Analytic.ofNat i : Float32) * goldenStep + phase) * scale)

namespace Synthetic

/-- The phase of the `i`-th tensor of a kind. -/
def phase (first i : Nat) : Float32 := Analytic.ofNat first + Analytic.ofNat i

/-- A numerator over the root of a width. -/
def overRoot (x width : Nat) : Float32 :=
  Analytic.ofNat x / Float32.sqrt (Analytic.ofNat width)

/-- A tensor with a name. -/
abbrev Named : Type := String × Tensor Float32

/-- The embedding of the `i`-th head. -/
def embedding (s : Sizes) (i : Nat) : Except TensorFault (List Named) := do
  return [(s!"emb.{i}.weight", ← wave [s.vocab, s.inner] (phase 1 i) 0.5)]

/-- The state projection of the `i`-th head, whose rows are as wide as the states that it takes. -/
def stateProjection (s : Sizes) (i : Nat) : Except TensorFault (List Named) := do
  let width := Parameters.inputWidth s i
  return [(s!"proj.{i}.weight", ← wave [s.inner, width] (phase 10 i) (overRoot 1 width))]

/-- The output projection of the `i`-th head, its entries twice as large as is usual for the width.
-/
def outputProjection (s : Sizes) (i : Nat) : Except TensorFault (List Named) := do
  return [(s!"head.{i}.weight", ← wave [s.vocab, s.inner] (phase 20 i) (overRoot 2 s.inner))]

/-- The weight of the `i`-th normaliser, which is near one, and its bias, which is near zero. -/
def norm (s : Sizes) (i : Nat) : Except TensorFault (List Named) := do
  return [(s!"ln.{i}.weight", (← wave [s.inner] (phase 30 i) 0.1).map (· + 1)),
    (s!"ln.{i}.bias", ← wave [s.inner] (phase 40 i) 0.01)]

/-- The tensors of a kind for a number of heads, under their names in the whole checkpoint. -/
def ofHeads (count : Nat) (kind : Nat → Except TensorFault (List Named)) :
    Except TensorFault (List Named) := do
  let entries := (← (List.range count).mapM kind).flatten
  return entries.map fun entry => ("speculator." ++ entry.1, entry.2)

/-- The tensors of a speculator, one after the other. Heads that share their weights have one tensor
of each kind, but two state projections if there are two heads. -/
def tensors (c : Config) : Except TensorFault (List Named) := do
  let s : Sizes := ⟨c.vocabSize, c.embDim, c.innerDim⟩
  let count := if c.tieWeights then 1 else c.headCount
  let projections := if c.tieWeights then min c.headCount 2 else c.headCount
  return (← ofHeads count (embedding s)) ++ (← ofHeads projections (stateProjection s)) ++
    (← ofHeads count (outputProjection s)) ++ (← ofHeads count (norm s))

/-- The largest number of tensors in a table of names. A table has a power of two of places, which
take 33 bytes each, and seven places of eight are used; with `2 ^ 58` places it would be too large.
-/
def maxNamed : Nat := 7 <<< 54

/-- The tensors of a speculator in a table of their names. -/
def checkpoint (c : Config) : Except TensorFault (List Named) := do
  let entries ← tensors c
  if maxNamed < entries.length then throw .tooLarge
  return entries

/-- The output projection of a base model. -/
def languageHead (c : Config) : Except TensorFault Named := do
  return ("lm_head.weight", ← wave [c.vocabSize, c.embDim] (phase 50 0) (overRoot 1 c.embDim))

end Synthetic

end DraftHeads
