import DraftHeads.Proofs.Shard.Sharing
import Mathlib.Analysis.SpecialFunctions.Log.Basic
import Mathlib.Analysis.SpecialFunctions.Pow.Real
import Mathlib.Probability.CDF
import Mathlib.Probability.Distributions.Gaussian.Real

/-! # Exact numbers

The real numbers as the numbers of tensors, as the working format and as the parameter format:
nothing is rounded, and every entry is a number. -/

namespace DraftHeads

noncomputable section

instance : Scalar ℝ where
  less x y := decide (x < y)

instance : Analytic ℝ where
  ofNat n := n
  sqrt := Real.sqrt
  exp := Real.exp
  log := Real.log
  halfPower x := 2 ^ (-x)
  isNaN _ := false
  precedes x y := decide (x < y)

instance : Element ℝ ℝ ℝ where
  ofParameter := id
  workOfParameter := id
  widen := id
  narrow := id
  gelu x := x * ProbabilityTheory.cdf (ProbabilityTheory.gaussianReal 0 1) x
  dot? := some innerProduct

end

instance : ExactScalar ℝ := ⟨zero_add, add_zero, mul_one, mul_zero⟩

end DraftHeads
