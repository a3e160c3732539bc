import DraftHeads.Tensor.Basic

/-! # Distributions over a vocabulary and their best tokens

* `logSoftmax`: the logarithms of the distribution that a row of logits stands for.
* `argmax`: the index of the largest entry of a row, the lowest one among equals; index zero if the
  row starts with what is not a number.
* `ranking`: all indices of a row, larger entries first and equal ones in ascending order.
* `best k`: the `k` best indices, which is the largest entry if there is only one to choose and the
  start of the ranking otherwise.
* `topTokens k`: the same choice in the three ways in which it is made, of which one rests on a
  partial selection (`Selection`). -/

namespace DraftHeads

variable {α ω : Type}

section Softmax

variable [Analytic ω]

/-- The larger of two numbers; what is not a number gives way to the other one. -/
def larger (x y : ω) : ω :=
  if Analytic.isNaN x then y else if Scalar.less x y then y else x

/-- The largest number of a row. -/
def rowMax : List ω → ω
  | [] => 0
  | x :: xs => xs.foldl larger x

/-- The largest number of a row, and the logarithm of the sum of the exponentials of the distances
to it. -/
def logSumExp (row : List ω) : ω × ω :=
  let top := rowMax row
  (top, Analytic.log ((row.map fun x => Analytic.exp (x - top)).foldl (· + ·) 0))

/-- The logarithms of the distributions that the rows of a tensor stand for. -/
def logSoftmax (logits : Tensor ω) : Except TensorFault (Tensor ω) :=
  logits.mapRows logSumExp fun (top, total) x => x - top - total

end Softmax

/-- The index of the largest entry of a row, the first one among equals. -/
def argmax [Scalar α] : List α → Nat
  | [] => 0
  | x :: xs =>
    (xs.foldl (fun (acc : Nat × Nat × α) y =>
      if Scalar.less acc.2.2 y then (acc.1 + 1, acc.1, y) else (acc.1 + 1, acc.2))
      (1, 0, x)).2.1

/-- The index of the largest entry of each row. There has to be an entry at all. -/
def argmaxRows [Scalar α] (t : Tensor α) : Except TensorFault (Tensor UInt32) :=
  if t.rank = 0 ∨ t.data.isEmpty then .error .shapes
  else Tensor.ofData t.lead (t.rows.map fun row => UInt32.ofNat (argmax row))

/-- Does the first entry with its index rank at least as high as the second? -/
def ranksBefore [Analytic ω] (x y : ω × Nat) : Bool :=
  Analytic.precedes y.1 x.1 || (!Analytic.precedes x.1 y.1 && decide (x.2 ≤ y.2))

/-- The indices of a row, larger entries first and equal ones in ascending order. -/
def ranking [Analytic ω] (row : List ω) : List Nat :=
  (row.zipIdx.mergeSort ranksBefore).map Prod.snd

/-- The `k` best indices of a row, best first. -/
def best [Analytic ω] (k : Nat) (row : List ω) : List Nat :=
  if k = 1 then [argmax row] else (ranking row).take k

/-! ### The ways to choose the best indices -/

/-- The comparison puts all items into one line. -/
structure IsLinear (le : α → α → Bool) : Prop where
  total : ∀ x y, (le x y || le y x) = true
  trans : ∀ x y z, le x y = true → le y z = true → le x z = true
  antisymm : ∀ x y, le x y = true → le y x = true → x = y

/-- A partial selection for items that are in line: it moves the items of a list so that at one
place there is the item that belongs there, with no larger ones in front of it and no smaller ones
behind it. -/
structure Selection (α : Type) where
  select : (α → α → Bool) → Nat → List α → List α
  perm : ∀ {le n xs}, IsLinear le → n < xs.length → (select le n xs).Perm xs
  front : ∀ {le n xs y}, IsLinear le → n < xs.length → (select le n xs)[n]? = some y →
    ∀ x ∈ (select le n xs).take n, le x y = true
  back : ∀ {le n xs y}, IsLinear le → n < xs.length → (select le n xs)[n]? = some y →
    ∀ z ∈ (select le n xs).drop (n + 1), le y z = true

section Places

variable [Analytic ω]

/-- Does the place `i` of a row rank at least as high as the place `j`? -/
def indexBefore (row : List ω) (i j : Nat) : Bool := ranksBefore (row.getD i 0, i) (row.getD j 0, j)

/-- The same question for places in thirty-two bits. -/
def placeBefore (row : List ω) (a b : UInt32) : Bool := indexBefore row a.toNat b.toNat

/-- All places of a row, in thirty-two bits. -/
def placesOf (width : Nat) : List UInt32 :=
  (List.range (UInt32.ofNat width).toNat).map UInt32.ofNat

/-- All places, sorted. -/
def allPlaces (row : List ω) : List UInt32 :=
  (placesOf row.length).mergeSort (placeBefore row)

/-- The places that a partial selection puts in front, sorted. -/
def selectedPlaces (s : Selection UInt32) (k : Nat) (row : List ω) : List UInt32 :=
  ((s.select (placeBefore row) (k - 1) (placesOf row.length)).take k).mergeSort (placeBefore row)

/-- The `k` best places of a row. -/
def topPlaces (s : Selection UInt32) (k : Nat) (row : List ω) : List UInt32 :=
  if k < row.length then selectedPlaces s k row else allPlaces row

/-- The `k` best places of the rows of a matrix, best first. The largest entry is searched for if
there is only one to choose. -/
def topTokens (s : Selection UInt32) (k : Nat) (logs : Tensor ω) :
    Except TensorFault (Tensor UInt32) :=
  if k = 1 then do (← argmaxRows logs).reshape (logs.lead ++ [1])
  else
    match logs.shape with
    | [rows, _] => Tensor.ofData [rows, k] (logs.rows.flatMap (topPlaces s k))
    | _ => .error .shapes

end Places

end DraftHeads
