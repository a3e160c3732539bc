import DraftHeads.Number.Scalar

/-! # Tensors

A *tensor* is a shape and the list of its entries in row-major order; the length of the list is the
product of the shape. The list is worked out when an entry is first asked for and then kept, so that
a tensor of zeros takes no room before it is looked at. The *rows* of a tensor run along its last
axis: a tensor of shape `lead ++ [width]` has `entryCount lead` rows of `width` entries.

* `entryCount`: the product of a shape.
* `Tensor.data`: the entries; `Tensor.ext`: a tensor is known by its shape and its entries.
* `Tensor.ofData`, `Tensor.reshape`: a tensor from a list of entries, refused if the number of
  entries does not fit the shape.
* `Tensor.rows`, `Tensor.ofRows`: the rows, and a tensor from its rows.
* `Tensor.concat`: tensors laid end to end along an axis.
* `Tensor.broadcast`: a tensor repeated along the axes where it has one entry. -/

namespace DraftHeads

/-- Why an operation on tensors fails. -/
inductive TensorFault where
  /-- A named tensor is not there. -/
  | missing (name : String)
  /-- A named tensor has another shape than the one asked for. -/
  | misshapen (name : String) (expected actual : List Nat)
  /-- The shapes do not fit the operation. -/
  | shapes
  /-- An index is outside its table. -/
  | index
  /-- The operation is not there for the number formats. -/
  | format
  /-- A file does not hold readable tensors. -/
  | unreadable
  /-- A list would take more bytes than memory has addresses. -/
  | tooLarge
deriving Repr, DecidableEq

/-- The largest number of bytes that a list may take. -/
def maxBytes : Nat := 1 <<< 63 - 1

/-- Refuses a list with a number of entries of some size that would take too many bytes. -/
def checkBytes (entries size : Nat) : Except TensorFault Unit :=
  if maxBytes < entries * size then .error .tooLarge else .ok ()

theorem checkBytes_eq_ok_iff {entries size : Nat} {u : Unit} :
    checkBytes entries size = .ok u ↔ entries * size ≤ maxBytes := by
  unfold checkBytes
  split <;> simp_all

theorem checkBytes_of_lt {entries size : Nat} (h : maxBytes < entries * size) :
    checkBytes entries size = .error .tooLarge := if_pos h

/-- The number of entries of a tensor of some shape, the product of the sizes of its axes. -/
def entryCount : (shape : List Nat) → Nat
  | [] => 1
  | n :: shape => n * entryCount shape

/-- A shape, and the entries in row-major order, which are worked out when they are needed. -/
structure Tensor (α : Type) where
  shape : List Nat
  entries : Thunk (List α)
  size_eq : entries.get.length = entryCount shape

/-- The first `n` pieces of length `width` of a list. -/
def pieces {α : Type} (width : Nat) : Nat → List α → List (List α)
  | 0, _ => []
  | n + 1, xs => xs.take width :: pieces width n (xs.drop width)

namespace Tensor

variable {α β γ : Type}

/-- The entries in row-major order. -/
def data (t : Tensor α) : List α := t.entries.get

theorem length_data (t : Tensor α) : t.data.length = entryCount t.shape := t.size_eq

@[ext] theorem ext {s t : Tensor α} (shape : s.shape = t.shape) (data : s.data = t.data) :
    s = t := by
  cases s
  cases t
  simp only [mk.injEq]
  exact ⟨shape, Thunk.ext data⟩

instance [DecidableEq α] : DecidableEq (Tensor α) := fun s t =>
  decidable_of_iff (s.shape = t.shape ∧ s.data = t.data)
    ⟨fun h => ext h.1 h.2, fun h => h ▸ ⟨rfl, rfl⟩⟩

/-- The tensor with the given shape and entries. -/
def ofData (shape : List Nat) (data : List α) : Except TensorFault (Tensor α) :=
  if h : data.length = entryCount shape then .ok ⟨shape, .pure data, h⟩ else .error .shapes

/-- A tensor with one axis. -/
def ofList (data : List α) : Tensor α := ⟨[data.length], .pure data, (Nat.mul_one _).symm⟩

/-- A tensor with the same entry everywhere. -/
def fill (shape : List Nat) (x : α) : Tensor α :=
  ⟨shape, .mk fun _ => List.replicate (entryCount shape) x, List.length_replicate⟩

/-- The same entries in another shape. -/
def reshape (shape : List Nat) (t : Tensor α) : Except TensorFault (Tensor α) :=
  ofData shape t.data

/-- Each entry mapped on its own. -/
def map (f : α → β) (t : Tensor α) : Tensor β :=
  ⟨t.shape, .mk fun _ => t.data.map f, (List.length_map f).trans t.length_data⟩

/-- Entries of two tensors of one shape combined in pairs. -/
def zipWith (f : α → β → γ) (s : Tensor α) (t : Tensor β) : Except TensorFault (Tensor γ) :=
  if h : s.shape = t.shape then
    .ok ⟨s.shape, .pure (List.zipWith f s.data t.data), by
      change (List.zipWith f s.data t.data).length = _
      rw [List.length_zipWith, s.length_data, t.length_data, h, Nat.min_self]⟩
  else .error .shapes

/-- The number of axes. -/
def rank (t : Tensor α) : Nat := t.shape.length

/-- The axes before the last one. -/
def lead (t : Tensor α) : List Nat := t.shape.dropLast

/-- The size of the last axis, one for a tensor without axes. -/
def width (t : Tensor α) : Nat := t.shape.getLastD 1

/-- The rows along the last axis. -/
def rows (t : Tensor α) : List (List α) := pieces t.width (entryCount t.lead) t.data

/-- The tensor whose rows are given. -/
def ofRows (lead : List Nat) (width : Nat) (rows : List (List α)) :
    Except TensorFault (Tensor α) :=
  ofData (lead ++ [width]) rows.flatten

/-- Each row mapped on its own: `stat` reduces the row, and `f` maps its entries with the result. -/
def mapRows {σ : Type} (stat : List α → σ) (f : σ → α → β) (t : Tensor α) :
    Except TensorFault (Tensor β) :=
  ofData t.shape (t.rows.flatMap fun row => row.map (f (stat row)))

/-- The part of a tensor between two places of the first axis. -/
def slice (start stop : Nat) (t : Tensor α) : Except TensorFault (Tensor α) :=
  match h : t.shape with
  | [] => .error .shapes
  | n :: rest =>
    if inside : start ≤ stop ∧ stop ≤ n then
      .ok ⟨(stop - start) :: rest, .mk fun _ =>
        (t.data.drop (start * entryCount rest)).take ((stop - start) * entryCount rest), by
        change ((t.data.drop _).take _).length = (stop - start) * entryCount rest
        rw [List.length_take, List.length_drop, t.length_data, h, entryCount, ← Nat.sub_mul]
        exact Nat.min_eq_left (Nat.mul_le_mul_right _ (Nat.sub_le_sub_right inside.2 start))⟩
    else .error .shapes

/-- Interleaves the blocks of several lists: the first block of each, the second block of each, and
so on. -/
def interleave : Nat → List (Nat × List α) → List α
  | 0, _ => []
  | n + 1, parts =>
    parts.flatMap (fun p => p.2.take p.1) ++ interleave n (parts.map fun p => (p.1, p.2.drop p.1))

/-- Tensors laid end to end along an axis; their other axes agree. -/
def concat (axis : Nat) : List (Tensor α) → Except TensorFault (Tensor α)
  | [] => .error .shapes
  | t :: ts =>
    if axis < t.shape.length ∧ ∀ s ∈ ts, s.shape.set axis 0 = t.shape.set axis 0 then
      ofData (t.shape.set axis (((t :: ts).map fun s => s.shape.getD axis 0).foldr (· + ·) 0))
        (interleave (entryCount (t.shape.take axis))
          ((t :: ts).map fun s => (entryCount (s.shape.drop axis), s.data)))
    else .error .shapes

/-- The entries of a tensor repeated along the axes where its size is one, so that they fill the
target shape. The two shapes have the same length. -/
def expand : (shape target : List Nat) → List α → List α
  | n :: shape, m :: target, data =>
    let blocks := (pieces (entryCount shape) n data).map (expand shape target)
    if n = m then blocks.flatten else (List.replicate m blocks).flatten.flatten
  | _, _, data => data

/-- The common shape of two shapes written from the last axis: sizes agree, or one of them is
one. -/
def commonShape : List Nat → List Nat → Option (List Nat)
  | [], ms => some ms
  | ns, [] => some ns
  | n :: ns, m :: ms =>
    if n = m ∨ m = 1 then (commonShape ns ms).map (n :: ·)
    else if n = 1 then (commonShape ns ms).map (m :: ·)
    else none

/-- The tensor repeated to a shape with at least as many axes. -/
def broadcast (target : List Nat) (t : Tensor α) : Except TensorFault (Tensor α) :=
  ofData target
    (expand (List.replicate (target.length - t.shape.length) 1 ++ t.shape) target t.data)

/-- Entries of two tensors combined after both are repeated to their common shape. -/
def broadcastWith (f : α → β → γ) (s : Tensor α) (t : Tensor β) :
    Except TensorFault (Tensor γ) := do
  match commonShape s.shape.reverse t.shape.reverse with
  | none => .error .shapes
  | some reversed =>
    let target := reversed.reverse
    zipWith f (← s.broadcast target) (← t.broadcast target)

/-- The matrix product of `x` with the transpose of `w`: each entry is the inner product of a row of
`x` with a row of `w`. A product without entries, or of rows without entries, is zero and looks at
nothing else. That an entry depends on its two rows only, and not on the number of rows beside them,
is assumed of the kernels. -/
def product [Zero α] (dot? : Option (List α → List α → α)) (x w : Tensor α) :
    Except TensorFault (Tensor α) :=
  match x.shape, w.shape with
  | [m, k], [n, k'] =>
    if m = 0 ∨ n = 0 ∨ k = 0 then .ok (fill [m, n] 0)
    else if k ≠ k' then .error .shapes
    else
      match dot? with
      | none => .error .format
      | some dot =>
        let columns := w.rows
        ofRows [m] n (x.rows.map fun row => columns.map (dot row))
  | _, _ => .error .shapes

/-- Each row of a matrix `k` times in a row. -/
def repeatRows (k : Nat) (t : Tensor α) : Except TensorFault (Tensor α) :=
  ofRows [entryCount t.lead * k] t.width (t.rows.flatMap (List.replicate k))

/-- The rows of a table at the given indices. -/
def lookup (table : Tensor α) (indices : List Int) : Except TensorFault (List (List α)) :=
  match table.shape with
  | [_, _] =>
    let rows := table.rows
    indices.mapM fun (i : Int) =>
      match if 0 ≤ i then rows[i.toNat]? else none with
      | some row => .ok row
      | none => .error .index
  | _ => .error .shapes

end Tensor

end DraftHeads
