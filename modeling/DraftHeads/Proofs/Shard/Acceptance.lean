import DraftHeads.Proofs.Shard.Columns

/-! # What a projection takes

A projection turns tensors of shape `lead ++ [inputs]` into tensors of shape `lead ++ [outputs]`. A
worker of a group flattens the axes before the last one, however many there are, so it takes every
tensor with a last axis of the right size. A worker with the whole weight flattens tensors of three
and four axes only and multiplies all others as they are, which works for matrices alone.

* `Tensor.Multiplies`: the rows of a tensor can be multiplied by a weight of some size;
  `Tensor.exists_product_iff`.
* `Projection.applyWhole_eq_ok_iff`, `ColumnShard.simulate_eq_ok_iff`: when a whole projection and a
  worker's share come to a result.
* `Projection.takes_input_iff`: the two of them, as they are read from one checkpoint.
* `Projection.one_axis_refused`: an input that the workers of a group take and a worker on its own
  refuses. -/

namespace DraftHeads

variable {α ε β γ : Type} {n : Nat}

/-! ### Outcomes -/

theorem eq_ok_iff_of_error {x : Except ε β} {e : ε} {p : Prop} {q : β → Prop}
    (h : x = .error e) (hp : ¬ p) : ((∃ y, x = .ok y) ↔ p) ∧ ∀ y, x = .ok y → q y := by
  subst h
  refine ⟨⟨?_, fun hp' => absurd hp' hp⟩, ?_⟩
  · rintro ⟨y, hy⟩
    cases hy
  · intro y hy
    cases hy

theorem bind_eq_ok_iff_of_forall {x : Except ε β} {f : β → Except ε γ} {q : γ → Prop}
    (h : ∀ y, x = .ok y → ∃ z, f y = .ok z ∧ q z) :
    ((∃ z, (x >>= f) = .ok z) ↔ ∃ y, x = .ok y) ∧ ∀ z, (x >>= f) = .ok z → q z := by
  refine ⟨⟨?_, ?_⟩, ?_⟩
  · rintro ⟨z, hz⟩
    obtain ⟨y, hy, -⟩ := bind_eq_ok.mp hz
    exact ⟨y, hy⟩
  · rintro ⟨y, hy⟩
    obtain ⟨z, hz, -⟩ := h y hy
    exact ⟨z, bind_eq_ok.mpr ⟨y, hy, hz⟩⟩
  · intro z hz
    obtain ⟨y, hy, hfy⟩ := bind_eq_ok.mp hz
    obtain ⟨z', hz', hq⟩ := h y hy
    obtain rfl : z' = z := Except.ok.inj (hz'.symm.trans hfy)
    exact hq

/-! ### Shapes -/

theorem entryCount_pos : ∀ {shape : List Nat}, (∀ m ∈ shape, 0 < m) → 0 < entryCount shape
  | [], _ => Nat.zero_lt_one
  | m :: shape, h => by
    rw [List.forall_mem_cons] at h
    exact Nat.mul_pos h.1 (entryCount_pos h.2)

namespace Tensor

variable {x y w : Tensor α} {m k inputs outputs : Nat} {dot? : Option (List α → List α → α)}

theorem shape_eq_lead (h : x.rank ≠ 0) : x.shape = x.lead ++ [x.width] := by
  have hne : x.shape ≠ [] := fun hnil => h (by rw [rank, hnil]; rfl)
  rw [lead, width, List.getLastD_eq_getLast?, List.getLast?_eq_some_getLast hne, Option.getD_some,
    List.dropLast_append_getLast hne]

/-! ### Products -/

/-- The rows of a tensor can be multiplied by a weight of shape `[outputs, inputs]`: they are as
wide as its rows and the format has inner products, or the product has no entries. -/
def Multiplies (dot? : Option (List α → List α → α)) (inputs outputs : Nat) (x : Tensor α) : Prop :=
  outputs = 0 ∨ x.width = inputs ∧ dot?.isSome = true

variable [Zero α]

theorem product_of_rank_ne_two (h : x.rank ≠ 2) : product dot? x w = .error .shapes := by
  unfold product
  split
  · next m k outputs inputs hx hw => exact absurd (by rw [rank, hx]; rfl) h
  · rfl

/-- **When a matrix with entries has a product** with a weight. -/
theorem exists_product_iff (dot? : Option (List α → List α → α)) (hx : x.shape = [m, k])
    (hm : 0 < m) (hk : 0 < k) (hw : w.shape = [outputs, inputs]) :
    (∃ y, product dot? x w = .ok y) ↔ outputs = 0 ∨ k = inputs ∧ dot?.isSome = true := by
  constructor
  · rintro ⟨y, hy⟩
    unfold product at hy
    simp only [hx, hw] at hy
    split_ifs at hy with hempty hwidth
    · exact Or.inl (by omega)
    · refine Or.inr ⟨not_not.mp hwidth, ?_⟩
      cases dot? with
      | none => cases hy
      | some dot => rfl
  · rintro (rfl | ⟨rfl, hdot⟩)
    · refine ⟨fill [m, 0] 0, ?_⟩
      simp only [product, hx, hw, true_or, or_true, if_true]
    · obtain ⟨dot, rfl⟩ := Option.isSome_iff_exists.mp hdot
      obtain ⟨y, hy, -⟩ := exists_product dot (isMatrix_of_shape hx) hw
      exact ⟨y, hy⟩

theorem shape_product (hx : x.shape = [m, k]) (hw : w.shape = [outputs, inputs])
    (h : product dot? x w = .ok y) : y.shape = [m, outputs] := by
  unfold product at h
  simp only [hx, hw] at h
  split_ifs at h with hempty hwidth
  · cases h
    rfl
  · cases dot? with
    | none => cases h
    | some dot =>
      have hwidth' := not_not.mp hwidth
      subst hwidth'
      obtain ⟨z, hz, hzm⟩ := exists_product dot (isMatrix_of_shape hx) hw
      simp only [product, hx, hw, if_neg hempty, ne_eq, not_true_eq_false, if_false] at hz
      obtain rfl : z = y := Except.ok.inj (hz.symm.trans h)
      rw [hzm.shape, List.length_map, length_rows hx]

end Tensor

/-! ### A whole projection -/

theorem Tensor.exists_flat_of_pos {x : Tensor α} (hrank : x.rank ≠ 0)
    (hpos : ∀ m ∈ x.shape, 0 < m) :
    ∃ flat, x.reshape [entryCount x.lead, x.width] = .ok flat ∧
      flat.shape = [entryCount x.lead, x.width] ∧ 0 < entryCount x.lead ∧ 0 < x.width := by
  have hshape := shape_eq_lead hrank
  obtain ⟨flat, rows, hflat, hm, hrows⟩ := exists_flat hshape
  rw [hshape] at hpos
  refine ⟨flat, hflat, ?_, entryCount_pos fun m hm => hpos m (List.mem_append_left _ hm),
    hpos _ (List.mem_append_right _ (List.mem_singleton_self _))⟩
  rw [hm.shape, hrows]

theorem Tensor.exists_unflat_of_shape {y : Tensor α} {lead : List Nat} {k : Nat}
    (hy : y.shape = [entryCount lead, k]) :
    ∃ z, y.reshape (lead ++ [y.width]) = .ok z ∧ z.shape = lead ++ [k] :=
  (isMatrix_of_shape hy).exists_unflat (length_rows hy)

/-! ### Gathering -/

theorem exists_gatherCopies {g : Group} {t : Tensor α} {m q : Nat} (hg : 1 < g.world)
    (ht : t.shape = [m, q]) (gathers : g.Gathers) :
    ∃ u, Collective.gatherCopies g 1 t = .ok u ∧ u.shape = [m, g.world * q] := by
  have hm := Tensor.isMatrix_of_shape ht
  rw [← List.map_id t.rows] at hm
  obtain ⟨u, hu, hum⟩ := gatherCopies_eq hg hm gathers
  refine ⟨u, hu, ?_⟩
  rw [hum.shape, List.length_map, Tensor.length_rows ht]

theorem exists_gatherCopies_iff {g : Group} {t : Tensor α} {m q : Nat} (hg : 1 < g.world)
    (ht : t.shape = [m, q]) : (∃ u, Collective.gatherCopies g 1 t = .ok u) ↔ g.Gathers := by
  constructor
  · rintro ⟨u, hu⟩
    exact gathers_of_gatherCopies hg hu
  · intro gathers
    obtain ⟨u, hu, -⟩ := exists_gatherCopies hg ht gathers
    exact ⟨u, hu⟩

theorem shape_gatherCopies {g : Group} {t u : Tensor α} {m q : Nat} (hg : 1 < g.world)
    (ht : t.shape = [m, q]) (h : Collective.gatherCopies g 1 t = .ok u) :
    u.shape = [m, g.world * q] := by
  obtain ⟨v, hv, hshape⟩ := exists_gatherCopies hg ht (gathers_of_gatherCopies hg h)
  obtain rfl : v = u := Except.ok.inj (hv.symm.trans h)
  exact hshape

section Takes

variable [Zero α] {inputs outputs : Nat} {weight xs ys : Tensor α}
  (dot? : Option (List α → List α → α))

theorem Tensor.flatProduct_eq_ok_iff {flat : Tensor α}
    (hflat : flat.shape = [entryCount xs.lead, xs.width]) (hrows : 0 < entryCount xs.lead)
    (hwidth : 0 < xs.width) (hweight : weight.shape = [outputs, inputs]) :
    ((∃ ys, (product dot? flat weight >>= fun out =>
        out.reshape (xs.lead ++ [out.width])) = .ok ys) ↔ xs.Multiplies dot? inputs outputs) ∧
    ∀ ys, (product dot? flat weight >>= fun out => out.reshape (xs.lead ++ [out.width])) = .ok ys →
      ys.shape = xs.lead ++ [outputs] := by
  rw [Multiplies, ← exists_product_iff dot? hflat hrows hwidth hweight]
  exact bind_eq_ok_iff_of_forall fun out hout =>
    exists_unflat_of_shape (shape_product hflat hweight hout)

/-- **When a whole projection comes to a result**, and which shape it has. -/
theorem Projection.applyWhole_eq_ok_iff (hweight : weight.shape = [outputs, inputs])
    (hpos : ∀ m ∈ xs.shape, 0 < m) :
    ((∃ ys, applyWhole dot? weight xs = .ok ys) ↔
      xs.rank ∈ [2, 3, 4] ∧ xs.Multiplies dot? inputs outputs) ∧
    ∀ ys, applyWhole dot? weight xs = .ok ys → ys.shape = xs.lead ++ [outputs] := by
  by_cases hmany : xs.rank = 3 ∨ xs.rank = 4
  · -- the axes before the last one are flattened and restored
    obtain ⟨flat, hflat, hshape, hrows, hwidth⟩ := Tensor.exists_flat_of_pos (by omega) hpos
    have heq : applyWhole dot? weight xs =
        Tensor.product dot? flat weight >>= fun out => out.reshape (xs.lead ++ [out.width]) := by
      rw [applyWhole, if_pos hmany, hflat]
      rfl
    obtain ⟨hiff, hout⟩ := Tensor.flatProduct_eq_ok_iff dot? hshape hrows hwidth hweight
    have hrank : xs.rank ∈ [2, 3, 4] := by
      simp only [List.mem_cons, List.not_mem_nil, or_false]
      omega
    rw [heq]
    exact ⟨hiff.trans (and_iff_right hrank).symm, hout⟩
  rw [applyWhole, if_neg hmany]
  by_cases htwo : xs.rank = 2
  · -- a matrix is multiplied as it is
    obtain ⟨m, hlead⟩ : ∃ m, xs.lead = [m] := List.length_eq_one_iff.mp (by
      rw [Tensor.lead, List.length_dropLast]
      exact Nat.pred_eq_succ_iff.mpr htwo)
    have hshape := Tensor.shape_eq_lead (x := xs) (by omega)
    rw [hlead] at hshape ⊢
    rw [hshape] at hpos
    have hiff := Tensor.exists_product_iff dot? hshape (hpos m (by simp))
      (hpos xs.width (by simp)) hweight
    exact ⟨hiff.trans (and_iff_right (by rw [htwo]; simp)).symm,
      fun ys hys => Tensor.shape_product hshape hweight hys⟩
  · -- nothing else has a product
    rw [Tensor.product_of_rank_ne_two htwo]
    refine eq_ok_iff_of_error rfl ?_
    rintro ⟨hrank, -⟩
    simp only [List.mem_cons, List.not_mem_nil, or_false] at hrank
    omega

/-! ### A worker's share -/

theorem ColumnShard.apply_of_rank_eq_zero {shard : ColumnShard α} {m : Nat}
    (hweight : shard.weight.shape = [m, inputs]) (hrank : xs.rank = 0) :
    shard.apply dot? xs = .fail (.shape [inputs] []) := by
  have hlast : xs.shape.getLast? = none := by rw [List.length_eq_zero_iff.mp hrank]; rfl
  have hinputs : shard.weight.shape[1]? = some inputs := by rw [hweight]; rfl
  unfold apply
  simp only [hlast, hinputs]

/-- **When a worker's share comes to a result**, in a group that repeats its products. -/
theorem ColumnShard.simulate_eq_ok_iff {g : Group} {shard : ColumnShard α} (shared : 1 < g.world)
    (hworld : shard.world = g.world) (divides : g.world ∣ outputs)
    (hweight : shard.weight.shape = [outputs / g.world, inputs]) (hpos : ∀ m ∈ xs.shape, 0 < m) :
    ((∃ ys, (shard.apply dot? xs).simulate g = .ok ys) ↔
      xs.rank ≠ 0 ∧ xs.Multiplies dot? inputs outputs ∧ g.Gathers) ∧
    ∀ ys, (shard.apply dot? xs).simulate g = .ok ys → ys.shape = xs.lead ++ [outputs] := by
  by_cases hrank : xs.rank = 0
  · rw [apply_of_rank_eq_zero dot? hweight hrank]
    exact eq_ok_iff_of_error rfl fun h => h.1 hrank
  obtain ⟨flat, hflat, hshape, hrows, hwidth⟩ := Tensor.exists_flat_of_pos hrank hpos
  have hlast : xs.shape.getLast? = some xs.width := by
    rw [Tensor.shape_eq_lead hrank, List.getLast?_concat]
  have hshare : outputs / g.world = 0 ↔ outputs = 0 := by
    obtain ⟨q, rfl⟩ := divides
    rw [Nat.mul_div_cancel_left q (by omega), Nat.mul_eq_zero]
    omega
  have hmultiplies : (∃ own, Tensor.product dot? flat shard.weight = .ok own) ↔
      xs.Multiplies dot? inputs outputs := by
    rw [Tensor.exists_product_iff dot? hshape hrows hwidth hweight, hshare, Tensor.Multiplies]
  cases hown : Tensor.product dot? flat shard.weight with
  | error e =>
    have hnone : ¬ xs.Multiplies dot? inputs outputs := fun h => by
      obtain ⟨own, hown'⟩ := hmultiplies.mpr h
      rw [hown] at hown'
      cases hown'
    rw [apply_flat_error hlast hflat hown]
    exact eq_ok_iff_of_error rfl fun h => hnone h.2.1
  | ok own =>
    have hownShape := Tensor.shape_product hshape hweight hown
    have hprogram : (shard.apply dot? xs).simulate g =
        (Collective.gatherCopies g 1 own).mapError .tensor >>= fun out =>
          (out.reshape (xs.lead ++ [out.width])).mapError .tensor := by
      rw [apply_flat (by omega) hlast hflat hown, Collective.simulate, Collective.simulate_bind,
        Collective.simulate_ofExcept]
      simp only [Collective.simulate_ofExcept]
    have hgathers :
        (∃ out, (Collective.gatherCopies g 1 own).mapError ShardFault.tensor = .ok out) ↔
          g.Gathers := by
      simp only [mapError_eq_ok]
      exact exists_gatherCopies_iff shared hownShape
    have hrestored : ∀ out, (Collective.gatherCopies g 1 own).mapError ShardFault.tensor = .ok out →
        ∃ ys, (out.reshape (xs.lead ++ [out.width])).mapError ShardFault.tensor = .ok ys ∧
          ys.shape = xs.lead ++ [outputs] := by
      intro out hout
      have hshape := shape_gatherCopies shared hownShape (mapError_eq_ok.mp hout)
      rw [Nat.mul_div_cancel' divides] at hshape
      obtain ⟨ys, hys, hysShape⟩ := Tensor.exists_unflat_of_shape hshape
      exact ⟨ys, mapError_eq_ok.mpr hys, hysShape⟩
    obtain ⟨hiff, hout⟩ := bind_eq_ok_iff_of_forall hrestored
    rw [hprogram, hiff, hgathers]
    exact ⟨⟨fun gathers => ⟨hrank, hmultiplies.mp ⟨own, hown⟩, gathers⟩, fun h => h.2.2⟩, hout⟩

/-! ### Both, as they are read -/

/-- The projection comes to a result, in a group that repeats the worker's own products. -/
def Projection.Takes (dot? : Option (List α → List α → α)) (g : Group) (p : Projection α)
    (xs : Tensor α) : Prop := ∃ ys, (p.apply dot? xs).simulate g = .ok ys

/-- **What a projection takes.** The weight is split among two workers or more that divide its
outputs. A worker with the whole weight takes what has rows of the right size and two, three or four
axes; a worker with a share of it takes what has rows of the right size, however many axes there
are, if the group can gather. Every result has the axes of the input before the last one, and as
many columns as the weight has outputs. -/
theorem Projection.takes_input_iff (hn : 1 < n) (divides : n ∣ outputs) {read : Reader α}
    (hread : read "weight" [outputs, inputs] = .ok weight)
    (hweight : weight.shape = [outputs, inputs]) (dot? : Option (List α → List α → α))
    (hpos : ∀ m ∈ xs.shape, 0 < m) :
    Projection.load inputs outputs read .single = .ok (.whole weight) ∧
    ∃ share : Fin n → Projection α,
      (∀ r, Projection.load inputs outputs read (.worker r) = .ok (share r)) ∧
      ((Projection.whole weight).Takes dot? .single xs ↔
        xs.rank ∈ [2, 3, 4] ∧ xs.Multiplies dot? inputs outputs) ∧
      (∀ r, (share r).Takes dot? (.worker r) xs ↔
        xs.rank ≠ 0 ∧ xs.Multiplies dot? inputs outputs ∧
          n * Collective.referenceSize ≤ maxBytes) ∧
      (∀ ys, ((Projection.whole weight).apply dot? xs).simulate .single = .ok ys →
        ys.shape = xs.lead ++ [outputs]) ∧
      ∀ r ys, ((share r).apply dot? xs).simulate (.worker r) = .ok ys →
        ys.shape = xs.lead ++ [outputs] := by
  choose shard hshard hworld hshare using fun r : Fin n =>
    ColumnShard.exists_load (g := .worker r) hread hweight divides
  have hwhole := Projection.applyWhole_eq_ok_iff dot? hweight hpos
  have hshares := fun r : Fin n =>
    ColumnShard.simulate_eq_ok_iff dot? hn (hworld r) divides (hshare r) hpos
  refine ⟨?_, fun r => .column (shard r), fun r => ?_, ?_, fun r => ?_, fun ys hys => ?_,
    fun r ys hys => ?_⟩
  · rw [load, if_pos (show Group.single.isSingle = true from rfl), hread]
  · rw [load, if_neg (Group.isSingle_worker hn r), hshard]
  · simp only [Takes, apply, Collective.simulate_ofExcept, mapError_eq_ok]
    exact hwhole.1
  · have hgathers : (Group.worker r).Gathers ↔ n * Collective.referenceSize ≤ maxBytes :=
      or_iff_right (show ¬ n = 1 by omega)
    simp only [Takes, apply, Collective.simulate_mapFault_eq_ok]
    rw [(hshares r).1, hgathers]
  · rw [apply, Collective.simulate_ofExcept, mapError_eq_ok] at hys
    exact hwhole.2 ys hys
  · rw [apply, Collective.simulate_mapFault_eq_ok] at hys
    exact (hshares r).2 ys hys

end Takes

/-- Ones in a single row without a leading axis. -/
def oneAxis : Tensor Float32 := .ofList [1, 1]

/-- Two workers, and an input of three axes: both ways it gets one more axis of four columns. -/
theorem Projection.takes_input_iff_two :
    ∃ share : Fin 2 → Projection Float32,
      Projection.load 2 4 (fun _ _ => .ok fourRows) .single = .ok (.whole fourRows) ∧
      (∀ r, Projection.load 2 4 (fun _ _ => .ok fourRows) (.worker r) = .ok (share r)) ∧
      (∃ ys, ((Projection.whole fourRows).apply Element.dot? twoBlocks).simulate .single = .ok ys ∧
        ys.shape = [2, 1, 4]) ∧
      ∀ r, ∃ ys, ((share r).apply Element.dot? twoBlocks).simulate (.worker r) = .ok ys ∧
        ys.shape = [2, 1, 4] := by
  obtain ⟨hload, share, hshare, hwhole, hworkers, hwholeShape, hshape⟩ :=
    @Projection.takes_input_iff Float32 2 _ 2 4 fourRows twoBlocks (by decide) (by decide)
      (fun _ _ => .ok fourRows) rfl rfl Element.dot? (by decide)
  have hmultiplies : twoBlocks.Multiplies Element.dot? 2 4 := Or.inr ⟨rfl, rfl⟩
  refine ⟨share, hload, hshare, ?_, fun r => ?_⟩
  · obtain ⟨ys, hys⟩ := hwhole.mpr ⟨by decide, hmultiplies⟩
    exact ⟨ys, hys, hwholeShape ys hys⟩
  · obtain ⟨ys, hys⟩ := (hworkers r).mpr ⟨by decide, hmultiplies, by decide⟩
    exact ⟨ys, hys, hshape r ys hys⟩

/-- **A single row without a leading axis**: the workers of a group take it, and a worker with the
whole weight refuses it. -/
theorem Projection.one_axis_refused :
    ((Projection.whole fourRows).apply Element.dot? oneAxis).simulate .single =
      .error (.whole .shapes) ∧
    ∃ share : Fin 2 → Projection Float32,
      (∀ r, Projection.load 2 4 (fun _ _ => .ok fourRows) (.worker r) = .ok (share r)) ∧
      ∀ r, ∃ ys, ((share r).apply Element.dot? oneAxis).simulate (.worker r) = .ok ys ∧
        ys.shape = [4] := by
  choose shard hshard hworld hshare using fun r : Fin 2 =>
    @ColumnShard.exists_load _ (.worker r) (fun _ _ => .ok fourRows) 2 4 fourRows rfl rfl
      (by decide : (2 : Nat) ∣ 4)
  have hgathers : 2 * Collective.referenceSize ≤ maxBytes := by decide
  refine ⟨rfl, fun r => .column (shard r), fun r => ?_, fun r => ?_⟩
  · rw [load, if_neg (Group.isSingle_worker (by decide) r), hshard]
  · obtain ⟨htakes, hshape⟩ := @ColumnShard.simulate_eq_ok_iff _ _ 2 4 oneAxis Element.dot?
      (.worker r) _ Nat.one_lt_two (hworld r) (by decide : (2 : Nat) ∣ 4) (hshare r) (by decide)
    obtain ⟨ys, hys⟩ := htakes.mpr ⟨by decide, Or.inr ⟨rfl, rfl⟩, Or.inr hgathers⟩
    exact ⟨ys, by rw [apply, Collective.simulate_mapFault_eq_ok, hys], hshape ys hys⟩

end DraftHeads
