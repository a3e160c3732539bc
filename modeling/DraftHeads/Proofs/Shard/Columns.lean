import DraftHeads.Proofs.Shard.Sharing

/-! # Columns gathered from all workers

The workers of a group keep the rows of a weight in the order of their ranks. Each of them flattens
a tensor to a matrix, multiplies it by the rows that it keeps, and gathers the columns of all
workers; then the axes before the last one are restored. A worker on its own does the same with the
whole weight, and flattens tensors of three and four axes only.

* `Tensor.exists_product`: the product of a matrix with a weight, with or without entries.
* `Tensor.exists_flat`, `Projection.applyWhole_flat`: the rows of a tensor as a matrix, and the
  product with a whole weight.
* `ColumnShard.lockstep_product`: the workers come to the product that one worker comes to.
* `Projection.gathers_product`: what is read in shares computes the whole projection. -/

namespace DraftHeads

variable {α : Type} {n : Nat}

/-! ### Products of any size -/

namespace Tensor

variable {x w : Tensor α} {rows : List (List α)} {lead : List Nat} {k m outputs : Nat}

section Product

variable [Zero α]

/-- The inner product that a product of rows of `k` entries comes down to: rows without entries give
zero, whatever the format says. -/
def innerOf (k : Nat) (dot : List α → List α → α) : List α → List α → α :=
  if k = 0 then fun _ _ => 0 else dot

/-- A product without entries, or of rows without entries, is zero in every format. -/
theorem product_empty (dot? : Option (List α → List α → α)) (hx : x.shape = [m, k])
    (hw : w.shape = [outputs, k]) (hempty : m = 0 ∨ outputs = 0 ∨ k = 0) :
    product dot? x w = .ok (fill [m, outputs] 0) := by
  simp only [product, hx, hw, if_pos hempty]

/-- **The product of a matrix with a weight** of any size, row by row. -/
theorem exists_product (dot : List α → List α → α) (hx : x.IsMatrix k rows)
    (hw : w.shape = [outputs, k]) :
    ∃ y, product (some dot) x w = .ok y ∧
      y.IsMatrix outputs (rows.map (timesWeight (innerOf k dot) w)) := by
  rcases Nat.eq_zero_or_pos k with rfl | hk
  · refine ⟨_, product_empty _ hx.shape hw (Or.inr (Or.inr rfl)), ?_⟩
    have hrow : timesWeight (innerOf 0 dot) w = fun _ => List.replicate outputs 0 := by
      funext row
      rw [timesWeight, innerOf, if_pos rfl, List.map_const', length_rows hw]
    rw [hrow, List.map_const']
    refine ⟨?_, ?_, fun row hrow => ?_⟩
    · rw [shape_fill, List.length_replicate]
    · rw [data_fill, List.flatten_replicate_replicate]
      simp [entryCount]
    · rw [List.eq_of_mem_replicate hrow, List.length_replicate]
  · rw [innerOf, if_neg (by omega)]
    exact product_eq dot hx hw hk

theorem product_none (hx : x.shape = [m, k]) (hw : w.shape = [outputs, k])
    (hsome : ¬ (m = 0 ∨ outputs = 0 ∨ k = 0)) : product none x w = .error .format := by
  simp only [product, hx, hw, if_neg hsome, ne_eq, not_true_eq_false, if_false]

/-- **All shares of a weight have products with a matrix, or none has.** Those that there are, are
products in a format with inner products. -/
theorem product_cases (dot? : Option (List α → List α → α)) (hx : x.IsMatrix k rows)
    (outputs : Nat) :
    (∃ dot, ∀ (w : Tensor α) (share : Nat), w.shape = [share, k] → (share = 0 ↔ outputs = 0) →
      product dot? x w = product (some dot) x w) ∨
    (dot? = none ∧ ∀ (w : Tensor α) (share : Nat), w.shape = [share, k] →
      (share = 0 ↔ outputs = 0) → product dot? x w = .error .format) := by
  cases dot? with
  | some dot => exact Or.inl ⟨dot, fun _ _ _ _ => rfl⟩
  | none =>
    by_cases hempty : rows.length = 0 ∨ outputs = 0 ∨ k = 0
    · refine Or.inl ⟨fun _ _ => 0, fun w share hw hshare => ?_⟩
      have hempty' : rows.length = 0 ∨ share = 0 ∨ k = 0 := by rwa [hshare]
      rw [product_empty none hx.shape hw hempty', product_empty (some _) hx.shape hw hempty']
    · refine Or.inr ⟨rfl, fun w share hw hshare => product_none hx.shape hw ?_⟩
      rwa [hshare]

end Product

/-! ### Tensors as matrices -/

theorem exists_flat (hx : x.shape = lead ++ [k]) :
    ∃ flat rows, x.reshape [entryCount x.lead, k] = .ok flat ∧ flat.IsMatrix k rows ∧
      rows.length = entryCount lead := by
  have hlead : x.lead = lead := by rw [Tensor.lead, hx, List.dropLast_concat]
  have hsize : x.data.length = entryCount [entryCount lead, k] := by
    rw [x.length_data, hx, entryCount_append]
    simp [entryCount]
  obtain ⟨flat, hflat, hshape, -⟩ := ofData_eq hsize
  exact ⟨flat, flat.rows, by rw [reshape, hlead, hflat], isMatrix_of_shape hshape,
    length_rows hshape⟩

theorem IsMatrix.exists_unflat (hx : x.IsMatrix k rows) (hrows : rows.length = entryCount lead) :
    ∃ y, x.reshape (lead ++ [x.width]) = .ok y ∧ y.shape = lead ++ [k] := by
  have hsize : x.data.length = entryCount (lead ++ [k]) := by
    rw [x.length_data, hx.shape, entryCount_append, hrows]
    simp [entryCount]
  obtain ⟨y, hy, hshape, -⟩ := ofData_eq hsize
  exact ⟨y, by rw [reshape, hx.width_eq, hy], hshape⟩

end Tensor

/-! ### One worker, and all of them -/

section Gather

variable [Zero α] {inputs outputs : Nat} {weight xs flat : Tensor α} {lead : List Nat}
  {rows : List (List α)}

/-- **A worker on its own** flattens the axes before the last one, as far as there are several, and
restores them after the product. -/
theorem Projection.applyWhole_flat (dot? : Option (List α → List α → α))
    (hxs : xs.shape = lead ++ [inputs]) (haxes : lead.length ∈ [1, 2, 3])
    (hflat : xs.reshape [entryCount xs.lead, inputs] = .ok flat) (hm : flat.IsMatrix inputs rows)
    (hweight : weight.shape = [outputs, inputs]) :
    Projection.applyWhole dot? weight xs =
      Tensor.product dot? flat weight >>= fun out => out.reshape (lead ++ [out.width]) := by
  have hlead : xs.lead = lead := by rw [Tensor.lead, hxs, List.dropLast_concat]
  have hwidth : xs.width = inputs := by rw [Tensor.width, hxs, List.getLastD_concat]
  have hrank : xs.rank = lead.length + 1 := by rw [Tensor.rank, hxs, List.length_append]; rfl
  rw [Projection.applyWhole]
  simp only [List.mem_cons, List.not_mem_nil, or_false] at haxes
  rcases haxes with hone | hmany
  · -- the tensor is a matrix already, and so is the product
    obtain ⟨m, rfl⟩ := List.length_eq_one_iff.mp hone
    have hself : flat = xs := by
      have hshape : xs.shape = [entryCount xs.lead, inputs] := by
        rw [hlead, hxs]
        simp [entryCount]
      exact Except.ok.inj (hflat.symm.trans (reshape_eq hshape))
    subst hself
    rw [if_neg (by omega)]
    rcases Tensor.product_cases dot? hm outputs with ⟨dot, hdot⟩ | ⟨-, hnone⟩
    · obtain ⟨y, hy, hym⟩ := Tensor.exists_product dot hm hweight
      rw [hdot weight outputs hweight Iff.rfl, hy]
      have hrows : rows.length = m := (List.cons.inj (hm.shape.symm.trans hxs)).1
      exact (reshape_eq (by rw [hym.shape, hym.width_eq, List.length_map, hrows]; rfl)).symm
    · rw [hnone weight outputs hweight Iff.rfl]
      rfl
  · rw [if_pos (by omega), hwidth, hflat, hlead]
    rfl

/-- A worker whose product fails does not gather. -/
theorem ColumnShard.apply_flat_error {shard : ColumnShard α}
    {dot? : Option (List α → List α → α)} {e : TensorFault}
    (hlast : xs.shape.getLast? = some inputs)
    (hflat : xs.reshape [entryCount xs.lead, inputs] = .ok flat)
    (hown : Tensor.product dot? flat shard.weight = .error e) :
    shard.apply dot? xs = .fail (.tensor e) := by
  unfold ColumnShard.apply
  simp only [hlast, hflat, hown, Except.mapError, Collective.ofExcept_ok, Collective.done_bind]
  rfl

variable [Add α] {weights : Fin n → Tensor α}

/-- **The workers come to the product** with the whole weight, or all of them fail as it does. -/
theorem ColumnShard.lockstep_product (hn : 1 < n) (hweight : weight.shape = [outputs, inputs])
    (divides : n ∣ outputs)
    (slices : ∀ r : Fin n, weight.slice (r * (outputs / n)) ((r + 1) * (outputs / n)) =
      .ok (weights r))
    (dot? : Option (List α → List α → α)) (hxs : xs.shape = lead ++ [inputs])
    (hflat : xs.reshape [entryCount xs.lead, inputs] = .ok flat) (hm : flat.IsMatrix inputs rows) :
    Collective.Lockstep (fun r => (⟨weights r, n, r⟩ : ColumnShard α).apply dot? xs) fun _ =>
      (Tensor.product dot? flat weight >>= fun out => out.reshape (lead ++ [out.width])).mapError
        .tensor := by
  have hlast : xs.shape.getLast? = some inputs := by rw [hxs, List.getLast?_concat]
  have hlead : xs.lead = lead := by rw [Tensor.lead, hxs, List.dropLast_concat]
  have hshape : ∀ r : Fin n, (weights r).shape = [outputs / n, inputs] := fun r => by
    rw [(slice_ok hweight (slices r)).1, Nat.succ_mul, Nat.add_sub_cancel_left]
  have hshare : outputs / n = 0 ↔ outputs = 0 := by
    obtain ⟨q, rfl⟩ := divides
    rw [Nat.mul_div_cancel_left q (by omega), Nat.mul_eq_zero]
    omega
  rcases Tensor.product_cases dot? hm outputs with ⟨dot, hdot⟩ | ⟨-, hnone⟩
  · choose own hown hom using fun r : Fin n => Tensor.exists_product dot hm (hshape r)
    obtain ⟨ys, hys, hym⟩ := Tensor.exists_product dot hm hweight
    have hprogram : ∀ r : Fin n, (⟨weights r, n, r⟩ : ColumnShard α).apply dot? xs = _ :=
      fun r => ColumnShard.apply_flat hn hlast hflat
        ((hdot (weights r) (outputs / n) (hshape r) hshare).trans (hown r))
    have hgather : Tensor.concat 1 (List.ofFn own) = .ok ys :=
      concat_product (by omega) hweight divides slices hom hym
    rw [funext hprogram, hdot weight outputs hweight Iff.rfl, hys, hlead]
    refine .allGather own 1 _ ?_
    rw [hgather]
    exact .ended _
  · have hprogram : ∀ r : Fin n, (⟨weights r, n, r⟩ : ColumnShard α).apply dot? xs =
        .ofExcept (.error (.tensor .format)) := fun r =>
      ColumnShard.apply_flat_error hlast hflat
        (hnone (weights r) (outputs / n) (hshape r) hshare)
    rw [funext hprogram, hnone weight outputs hweight Iff.rfl]
    exact .ended _

/-- **A projection that is read in shares** computes the whole one. The weight is split among two
workers or more that divide its outputs, and the input has two, three or four axes. The workers read
their shares, multiply by them and gather the columns in the order of their ranks; every one of them
comes to what a worker comes to that has the whole weight, which is a tensor with the same leading
axes, unless the format has no inner products. -/
theorem Projection.gathers_product (hn : 1 < n) (divides : n ∣ outputs) {read : Reader α}
    (hread : read "weight" [outputs, inputs] = .ok weight)
    (hweight : weight.shape = [outputs, inputs]) (dot? : Option (List α → List α → α))
    (hxs : xs.shape = lead ++ [inputs]) (haxes : lead.length ∈ [1, 2, 3]) :
    Projection.load inputs outputs read .single = .ok (.whole weight) ∧
    ∃ (shard : Fin n → ColumnShard α) (out : Except TensorFault (Tensor α)),
      (∀ r, ColumnShard.load inputs outputs read (.worker r) = .ok (shard r)) ∧
      (Projection.whole weight).apply dot? xs = .ofExcept (out.mapError .whole) ∧
      Collective.Lockstep (fun r => (shard r).apply dot? xs) (fun _ => out.mapError .tensor) ∧
      (∀ ys, out = .ok ys → ys.shape = lead ++ [outputs]) ∧
      (dot?.isSome → ∃ ys, out = .ok ys) := by
  obtain ⟨flat, rows, hflat, hm, hrows⟩ := Tensor.exists_flat hxs
  choose weights hweights using fun r : Fin n => exists_share hweight divides r.isLt
  have hload : ∀ r : Fin n,
      ColumnShard.load inputs outputs read (.worker r) = .ok ⟨weights r, n, r⟩ := fun r => by
    have hmod : ¬ outputs % n ≠ 0 := not_not.mpr (Nat.mod_eq_zero_of_dvd divides)
    unfold ColumnShard.load ColumnShard.ofWeight
    simp only [Group.worker, if_neg hmod, hread, hweights r]
  have hproduct : ∀ dot, ∃ ys ys', Tensor.product (some dot) flat weight = .ok ys ∧
      ys.reshape (lead ++ [ys.width]) = .ok ys' ∧ ys'.shape = lead ++ [outputs] := fun dot => by
    obtain ⟨ys, hys, hym⟩ := Tensor.exists_product dot hm hweight
    obtain ⟨ys', hys', hshape⟩ := hym.exists_unflat (by rw [List.length_map, hrows])
    exact ⟨ys, ys', hys, hys', hshape⟩
  refine ⟨?_, fun r => ⟨weights r, n, r⟩, _, hload, ?_,
    ColumnShard.lockstep_product hn hweight divides hweights dot? hxs hflat hm, fun ys hys => ?_,
    fun hsome => ?_⟩
  · rw [Projection.load, if_pos (show Group.single.isSingle = true from rfl), hread]
  · rw [Projection.apply, Projection.applyWhole_flat dot? hxs haxes hflat hm hweight]
  · rcases Tensor.product_cases dot? hm outputs with ⟨dot, hdot⟩ | ⟨-, hnone⟩
    · obtain ⟨zs, zs', hzs, hzs', hshape⟩ := hproduct dot
      rw [hdot weight outputs hweight Iff.rfl, hzs] at hys
      obtain rfl : zs' = ys := Except.ok.inj (hzs'.symm.trans hys)
      exact hshape
    · rw [hnone weight outputs hweight Iff.rfl] at hys
      cases hys
  · obtain ⟨dot, rfl⟩ := Option.isSome_iff_exists.mp hsome
    obtain ⟨zs, zs', hzs, hzs', -⟩ := hproduct dot
    exact ⟨zs', by rw [hzs]; exact hzs'⟩

end Gather

/-- The numbers from one to eight in four rows. -/
def fourRows : Tensor Float32 :=
  ⟨[4, 2], .pure ([0x3f800000, 0x40000000, 0x40400000, 0x40800000, 0x40a00000, 0x40c00000,
    0x40e00000, 0x41000000].map fun word : UInt32 => Float32.ofBits word), rfl⟩

/-- Two blocks of one row with the numbers from one to four. -/
def twoBlocks : Tensor Float32 :=
  ⟨[2, 1, 2], .pure ([0x3f800000, 0x40000000, 0x40400000, 0x40800000].map
    fun word : UInt32 => Float32.ofBits word), rfl⟩

/-- Two workers with two columns each, and an input of three axes. -/
theorem Projection.gathers_product_two :
    ∃ (shard : Fin 2 → ColumnShard Float32) (ys : Tensor Float32),
      (∀ r, ColumnShard.load 2 4 (fun _ _ => .ok fourRows) (.worker r) = .ok (shard r)) ∧
      (Projection.whole fourRows).apply Element.dot? twoBlocks = .done ys ∧
      Collective.AllYield (fun r => (shard r).apply Element.dot? twoBlocks) ys ∧
      ys.shape = [2, 1, 4] := by
  obtain ⟨-, shard, out, hload, hwhole, hworkers, hshape, hout⟩ :=
    @Projection.gathers_product Float32 2 _ 2 4 fourRows twoBlocks [2, 1] _ (by decide) (by decide)
      (fun _ _ => .ok fourRows) rfl rfl Element.dot? rfl (by decide)
  obtain ⟨ys, rfl⟩ := hout rfl
  exact ⟨shard, ys, hload, hwhole, hworkers, hshape ys rfl⟩

end DraftHeads
