import DraftHeads.Proofs.Shard.Sharing

/-! # Tensors as lists of blocks

`t.IsStack rest blocks` says that the tensor `t` is made of blocks of the shape `rest`, one after
the other along its first axis. A matrix is such a tensor, with its rows as the blocks.

* `IsStack.slice_eq`: a part of a tensor between two places has the blocks between them.
* `IsStack.concat_eq`: tensors laid end to end along the first axis have the blocks of both. -/

namespace DraftHeads.Tensor

variable {α : Type}

/-- The tensor is made of these blocks, all of one shape. -/
structure IsStack (t : Tensor α) (rest : List Nat) (blocks : List (List α)) : Prop where
  shape : t.shape = blocks.length :: rest
  data : t.data = blocks.flatten
  length : ∀ block ∈ blocks, block.length = entryCount rest

theorem IsMatrix.isStack {t : Tensor α} {w : Nat} {rows : List (List α)} (h : t.IsMatrix w rows) :
    t.IsStack [w] rows :=
  ⟨h.shape, h.data, fun row hrow => by simp [h.length row hrow, entryCount]⟩

theorem IsStack.isMatrix {t : Tensor α} {w : Nat} {rows : List (List α)} (h : t.IsStack [w] rows) :
    t.IsMatrix w rows :=
  ⟨h.shape, h.data, fun row hrow => by simpa [entryCount] using h.length row hrow⟩

namespace IsStack

variable {s t : Tensor α} {rest : List Nat} {xs ys : List (List α)}

theorem unique (hs : s.IsStack rest xs) (ht : t.IsStack rest xs) : s = t :=
  Tensor.ext (hs.shape.trans ht.shape.symm) (hs.data.trans ht.data.symm)

/-- **A part of a tensor between two places** has the blocks between them. -/
theorem slice_eq (h : t.IsStack rest xs) {start stop : Nat} (hle : start ≤ stop)
    (hstop : stop ≤ xs.length) :
    ∃ u, t.slice start stop = .ok u ∧ u.IsStack rest ((xs.drop start).take (stop - start)) := by
  obtain ⟨u, hu⟩ := exists_slice h.shape hle hstop
  obtain ⟨hshape, hdata⟩ := slice_ok h.shape hu
  refine ⟨u, hu, ?_, ?_, fun block hblock =>
    h.length block (List.mem_of_mem_drop (List.mem_of_mem_take hblock))⟩
  · rw [hshape, List.length_take, List.length_drop, Nat.min_eq_left (by omega)]
  · rw [hdata, h.data, drop_flatten_block h.length,
      take_flatten_block fun block hblock => h.length block (List.mem_of_mem_drop hblock)]

theorem slice_one (h : t.IsStack rest xs) {b : Nat} {x : List α} (hx : xs[b]? = some x) :
    ∃ u, t.slice b (b + 1) = .ok u ∧ u.IsStack rest [x] := by
  obtain ⟨hb, rfl⟩ := List.getElem?_eq_some_iff.mp hx
  obtain ⟨u, hu, hstack⟩ := h.slice_eq (Nat.le_succ b) hb
  refine ⟨u, hu, ?_⟩
  rwa [Nat.succ_sub (le_refl b), Nat.sub_self, List.drop_eq_getElem_cons hb, List.take_succ_cons,
    List.take_zero] at hstack

/-- **Tensors laid end to end** have the blocks of both. -/
theorem concat_eq (hs : s.IsStack rest xs) (ht : t.IsStack rest ys) :
    ∃ u, concat 0 [s, t] = .ok u ∧ u.IsStack rest (xs ++ ys) := by
  have hlength : ∀ block ∈ xs ++ ys, block.length = entryCount rest := fun block hblock =>
    (List.mem_append.mp hblock).elim (hs.length block) (ht.length block)
  have hfit : 0 < s.shape.length ∧ ∀ r ∈ [t], r.shape.set 0 0 = s.shape.set 0 0 := by
    rw [hs.shape]
    refine ⟨Nat.succ_pos _, fun r hr => ?_⟩
    rw [List.mem_singleton.mp hr, ht.shape]
    rfl
  have hset : s.shape.set 0 (([s, t].map fun r => r.shape.getD 0 0).foldr (· + ·) 0) =
      (xs ++ ys).length :: rest := by
    simp [hs.shape, ht.shape]
  have hblocks : interleave (entryCount (s.shape.take 0))
      ([s, t].map fun r => (entryCount (r.shape.drop 0), r.data)) = s.data ++ t.data := by
    simp [interleave, entryCount, ← length_data]
  have hsize : (s.data ++ t.data).length = entryCount ((xs ++ ys).length :: rest) := by
    rw [hs.data, ht.data, ← List.flatten_append, length_flatten_block hlength]
    rfl
  obtain ⟨u, hu, hshape, hdata⟩ := ofData_eq hsize
  refine ⟨u, ?_, hshape, by rw [hdata, hs.data, ht.data, List.flatten_append], hlength⟩
  rw [concat, if_pos hfit, hset, hblocks, hu]

end IsStack

end DraftHeads.Tensor
