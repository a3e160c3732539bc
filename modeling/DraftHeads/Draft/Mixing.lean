import DraftHeads.Number.Scalar

/-! # Mixing weights

Before each head the state of a row is blended with the embedding of its token. With `n` heads the
state has the weight `2^(-1/(2n))` and the embedding the weight that makes the squares of the two
sum to one; so after `n` blends the square of the weight of the first state is one half. -/

namespace DraftHeads

/-- The weights of state and embedding in a blend. -/
structure MixingWeights (π : Type) where
  state : π
  embed : π

namespace MixingWeights

variable {π : Type} [Analytic π]

/-- The mixing weights of a number of heads. -/
def forHeads (n : Nat) : MixingWeights π :=
  let state : π := Analytic.halfPower (1 / Analytic.ofNat 2 / Analytic.ofNat n)
  ⟨state, Analytic.sqrt (1 - state * state)⟩

/-- What an embedding is multiplied by: its weight times the root of half the width of a state. -/
def embedScale (w : MixingWeights π) (inner : Nat) : π :=
  w.embed * Analytic.sqrt (Analytic.ofNat inner / Analytic.ofNat 2)

end MixingWeights

end DraftHeads
