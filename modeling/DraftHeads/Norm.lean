import DraftHeads.Tensor.AnyFormat

/-! # Root-mean-square normalisation

A row `x` is divided by `√(mean of x² + eps)`; the affine normaliser then multiplies by a weight and
adds a bias, both repeated over the rows. The reduction runs in the working format, its constants
come from the parameter format, and its result goes back to the format of the tensor before the
affine part. -/

namespace DraftHeads

variable {α ω π : Type}

/-- A normaliser with its epsilon and, if it is affine, its weight and bias. -/
structure Norm (α π : Type) where
  affine : Option (Tensor α × Tensor α)
  eps : π

namespace Norm

/-- The normaliser without weight and bias. -/
def plain (eps : π) : Norm α π := ⟨none, eps⟩

variable [Analytic ω] [Analytic π] [Element α ω π]

/-- The mean of the squares of a row. The inverse of the width is a parameter. -/
def meanSquare (α : Type) [Element α ω π] (row : List ω) : ω :=
  (row.map fun x => x * x).foldl (· + ·) 0 *
    Element.workOfParameter α (1 / Analytic.ofNat row.length : π)

/-- What the entries of a row are multiplied by: `1 / √(mean square + eps)`. -/
def rowScale (α : Type) [Element α ω π] (eps : π) (row : List ω) : ω :=
  1 / Analytic.sqrt (meanSquare α row + Element.workOfParameter α eps)

/-- Each row divided by its root mean square. A tensor without axes has no rows to normalise. -/
def scaleRows (eps : π) (xs : Tensor α) : Except TensorFault (Tensor α) :=
  if xs.rank = 0 then .error .shapes
  else
    xs.mapRows (fun row => rowScale α eps (row.map Element.widen))
      (fun scale x => Element.narrow (Element.widen x * scale))

/-- The normaliser applied to the rows of a tensor. -/
def apply (norm : Norm α π) (xs : Tensor α) : Except TensorFault (Tensor α) := do
  let scaled ← scaleRows norm.eps xs
  match norm.affine with
  | none => .ok scaled
  | some (weight, bias) =>
    (← scaled.broadcastWith (· * ·) weight).broadcastWith (· + ·) bias

end Norm

/-- A normaliser whose weight and bias carry their number formats. -/
structure AnyNorm where
  affine : Option (AnyTensor × AnyTensor)
  eps : Float

/-- The normaliser applied to a tensor of any format; weight and bias have to have that format. -/
def AnyNorm.apply (norm : AnyNorm) (xs : AnyTensor) : Except TensorFault AnyTensor := do
  let typed : Norm xs.dtype.Elem Float ←
    match norm.affine with
    | none => .ok (.plain norm.eps)
    | some (weight, bias) =>
      match weight.as? xs.dtype, bias.as? xs.dtype with
      | some w, some b => .ok ⟨some (w, b), norm.eps⟩
      | _, _ => .error .format
  return ⟨xs.dtype, ← typed.apply xs.tensor⟩

end DraftHeads
