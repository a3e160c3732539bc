import DraftHeads.Proofs.Shard.Layer
import DraftHeads.Proofs.Shard.Lockstep

/-! # Shares of a layer

The workers of a group that hold the shares of one layer do in lockstep what a worker does that has
the whole layer, if numbers are exact.

* `ExactScalar`: the laws of exact numbers that this rests on.
* `Projection.SharedBy`, `Embedding.SharedBy`: a whole layer and the shares of the workers; what one
  worker can read whole, the workers of a group can read in shares (`Projection.load_shared`,
  `Embedding.load_shared`).
* `Projection.exists_load`, `Projection.load_eq_error`, `Embedding.exists_load`: what one worker of
  a group reads of such a layer, and when it cannot.
* `Projection.SharedBy.allYield`: the columns of the workers make the product.
* `Embedding.SharedBy.allYield`: the rows of the workers add up to the rows of the table. -/

namespace DraftHeads

variable {α β : Type} {n : Nat}

/-- The laws of exact numbers that a sum of shares rests on. -/
class ExactScalar (α : Type) [Zero α] [One α] [Add α] [Mul α] : Prop where
  zero_add : ∀ x : α, 0 + x = x
  add_zero : ∀ x : α, x + 0 = x
  mul_one : ∀ x : α, x * 1 = x
  mul_zero : ∀ x : α, x * 0 = 0

/-- One of the workers of a group. -/
def Group.worker (r : Fin n) : Group := ⟨r, n, r.isLt⟩

/-! ### Parts of a matrix -/

theorem drop_flatten_block {w : Nat} : ∀ {rows : List (List α)}, (∀ row ∈ rows, row.length = w) →
    ∀ i : Nat, rows.flatten.drop (i * w) = (rows.drop i).flatten
  | _, _, 0 => by simp
  | [], _, i + 1 => by simp
  | row :: rows, h, i + 1 => by
    have hrow : row.length = w := h row (by simp)
    rw [List.flatten_cons, Nat.succ_mul, Nat.add_comm, ← List.drop_drop, List.drop_left' hrow,
      drop_flatten_block (fun r hr => h r (List.mem_cons_of_mem row hr)) i, List.drop_succ_cons]

theorem take_flatten_block {w : Nat} : ∀ {rows : List (List α)}, (∀ row ∈ rows, row.length = w) →
    ∀ i : Nat, rows.flatten.take (i * w) = (rows.take i).flatten
  | _, _, 0 => by simp
  | [], _, i + 1 => by simp
  | row :: rows, h, i + 1 => by
    have hrow : row.length = w := h row (by simp)
    have hmin : (row ++ rows.flatten).take (i * w + w) = row ++ rows.flatten.take (i * w) := by
      rw [List.take_append, hrow, Nat.add_sub_cancel, List.take_of_length_le (by omega)]
    rw [List.flatten_cons, Nat.succ_mul, hmin,
      take_flatten_block (fun r hr => h r (List.mem_cons_of_mem row hr)) i, List.take_succ_cons,
      List.flatten_cons]

theorem slice_isMatrix {start stop w : Nat} {t u : Tensor α} {rows : List (List α)}
    (ht : t.IsMatrix w rows) (hstop : stop ≤ rows.length) (h : t.slice start stop = .ok u) :
    u.IsMatrix w ((rows.drop start).take (stop - start)) := by
  obtain ⟨hshape, hdata⟩ := slice_ok ht.shape h
  have hlen : ∀ row ∈ (rows.drop start).take (stop - start), row.length = w := fun row hrow =>
    ht.length row (List.mem_of_mem_drop (List.mem_of_mem_take hrow))
  have hwidth : entryCount [w] = w := by simp [entryCount]
  refine ⟨?_, ?_, hlen⟩
  · rw [hshape, List.length_take, List.length_drop, Nat.min_eq_left (by omega)]
  · rw [hdata, hwidth, ht.data, drop_flatten_block ht.length,
      take_flatten_block fun row hrow => ht.length row (List.mem_of_mem_drop hrow)]

theorem exists_slice {start stop m : Nat} {t : Tensor α} {rest : List Nat}
    (ht : t.shape = m :: rest) (hle : start ≤ stop) (hstop : stop ≤ m) :
    ∃ u, t.slice start stop = .ok u := by
  unfold Tensor.slice
  split
  · next hshape => rw [ht] at hshape; cases hshape
  · next m' rest' hshape =>
    obtain ⟨rfl, rfl⟩ := List.cons.inj (hshape.symm.trans ht)
    exact ⟨_, dif_pos ⟨hle, hstop⟩⟩

theorem exists_share {t : Tensor α} {m world rank : Nat} {rest : List Nat}
    (ht : t.shape = m :: rest) (divides : world ∣ m) (hrank : rank < world) :
    ∃ u, t.slice (rank * (m / world)) ((rank + 1) * (m / world)) = .ok u := by
  refine exists_slice ht (Nat.mul_le_mul_right _ (Nat.le_succ rank)) ?_
  calc (rank + 1) * (m / world) ≤ world * (m / world) := Nat.mul_le_mul_right _ hrank
    _ = m := Nat.mul_div_cancel' divides

theorem Tensor.IsMatrix.unique {t u : Tensor α} {w : Nat} {rows : List (List α)}
    (ht : t.IsMatrix w rows) (hu : u.IsMatrix w rows) : t = u :=
  Tensor.ext (ht.shape.trans hu.shape.symm) (ht.data.trans hu.data.symm)

theorem pieces_eq_ofFn (w : Nat) : ∀ (n : Nat) (xs : List α),
    pieces w n xs = List.ofFn fun r : Fin n => (xs.drop (r * w)).take w
  | 0, _ => rfl
  | n + 1, xs => by
    rw [pieces, List.ofFn_succ, pieces_eq_ofFn w n (xs.drop w)]
    simp only [Fin.val_zero, Nat.zero_mul, List.drop_zero, Fin.val_succ, List.drop_drop,
      Nat.succ_mul, Nat.add_comm]

/-! ### Projections -/

/-- A whole projection and the shares of the workers: each of them has as many rows of the weight,
and they are in the order of the ranks. -/
inductive Projection.SharedBy (inputs outputs : Nat) : Projection α → (Fin n → Projection α) → Prop
  | mk (weight : Tensor α) (weights : Fin n → Tensor α) (shape : weight.shape = [outputs, inputs])
    (divides : n ∣ outputs)
    (slices : ∀ r : Fin n, weight.slice (r * (outputs / n)) ((r + 1) * (outputs / n)) =
      .ok (weights r)) :
    SharedBy inputs outputs (.whole weight) fun r => .column ⟨weights r, n, r⟩

theorem Projection.SharedBy.fits {inputs outputs : Nat} {p : Projection α}
    {shares : Fin n → Projection α} (h : p.SharedBy inputs outputs shares) :
    p.Fits .single inputs outputs := by
  obtain ⟨weight, weights, shape, divides, slices⟩ := h
  exact .whole weight rfl shape

theorem Group.isSingle_worker (hn : 1 < n) (r : Fin n) : ¬ (worker r).isSingle = true := by
  rw [Group.isSingle_iff]
  change ¬ n = 1
  omega

/-- **A projection that one worker can read whole** the workers of a group can read in shares. -/
theorem Projection.load_shared (hn : 1 < n) {inputs outputs : Nat} (divides : n ∣ outputs)
    {read : Reader α} (lawful : read.Lawful) {p : Projection α}
    (h : Projection.load inputs outputs read .single = .ok p) :
    ∃ shares : Fin n → Projection α, p.SharedBy inputs outputs shares ∧
      ∀ r, Projection.load inputs outputs read (.worker r) = .ok (shares r) := by
  obtain ⟨weight, hread, rfl⟩ := Projection.load_single h
  have hshape := lawful _ _ _ hread
  choose weights hweights using fun r : Fin n => exists_share hshape divides r.isLt
  refine ⟨fun r => .column ⟨weights r, n, r⟩, .mk weight weights hshape divides hweights,
    fun r => ?_⟩
  have hmod : ¬ outputs % n ≠ 0 := not_not.mpr (Nat.mod_eq_zero_of_dvd divides)
  have hload : ColumnShard.load inputs outputs read (.worker r) = .ok ⟨weights r, n, r⟩ := by
    unfold ColumnShard.load ColumnShard.ofWeight
    simp only [Group.worker, if_neg hmod, hread, hweights r]
  rw [Projection.load, if_neg (Group.isSingle_worker hn r), hload]

theorem ColumnShard.exists_load {g : Group} {read : Reader α} {inputs outputs : Nat}
    {full : Tensor α} (hread : read "weight" [outputs, inputs] = .ok full)
    (hshape : full.shape = [outputs, inputs]) (divides : g.world ∣ outputs) :
    ∃ shard, ColumnShard.load inputs outputs read g = .ok shard ∧ shard.world = g.world ∧
      shard.weight.shape = [outputs / g.world, inputs] := by
  obtain ⟨part, hpart⟩ := exists_share hshape divides g.rank_lt
  have hmod : ¬ outputs % g.world ≠ 0 := not_not.mpr (Nat.mod_eq_zero_of_dvd divides)
  refine ⟨⟨part, g.world, g.rank⟩, ?_, rfl, ?_⟩
  · simp only [load, if_neg hmod, hread, ofWeight, hpart]
  · rw [(slice_ok hshape hpart).1, Nat.succ_mul, Nat.add_sub_cancel_left]

theorem Projection.exists_load {g : Group} {read : Reader α} {inputs outputs : Nat}
    {full : Tensor α} (hread : read "weight" [outputs, inputs] = .ok full)
    (hshape : full.shape = [outputs, inputs]) (divides : g.world ∣ outputs) :
    ∃ p, Projection.load inputs outputs read g = .ok p := by
  unfold Projection.load
  split_ifs with hsingle
  · exact ⟨.whole full, by rw [hread]⟩
  · obtain ⟨shard, hload, -⟩ := ColumnShard.exists_load hread hshape divides
    exact ⟨.column shard, by rw [hload]⟩

/-- **A projection that cannot be split** is refused for that reason, and for no other one if one
worker can read it. -/
theorem Projection.load_eq_error {g : Group} {read : Reader α} {inputs outputs : Nat}
    {full : Tensor α} (hread : read "weight" [outputs, inputs] = .ok full)
    (hshape : full.shape = [outputs, inputs]) {e : LayerFault}
    (h : Projection.load inputs outputs read g = .error e) :
    ¬ g.world ∣ outputs ∧ e = .sharded .columnLoad (.indivisible outputs g.world) := by
  have hdvd : ¬ g.world ∣ outputs := fun divides => by
    obtain ⟨p, hp⟩ := Projection.exists_load hread hshape divides
    rw [hp] at h
    cases h
  have hsingle : ¬ g.isSingle = true := fun hone => by
    rw [g.isSingle_iff] at hone
    exact hdvd (hone ▸ Nat.one_dvd outputs)
  have hmod : outputs % g.world ≠ 0 := fun hzero => hdvd (Nat.dvd_of_mod_eq_zero hzero)
  rw [Projection.load, if_neg hsingle, ColumnShard.load, if_pos hmod] at h
  exact ⟨hdvd, (Except.error.inj h).symm⟩

theorem flatMap_timesWeight {dot : List α → List α → α} {inputs outputs : Nat} {weight : Tensor α}
    {weights : Fin n → Tensor α} (hshape : weight.shape = [outputs, inputs]) (divides : n ∣ outputs)
    (slices : ∀ r : Fin n, weight.slice (r * (outputs / n)) ((r + 1) * (outputs / n)) =
      .ok (weights r)) (x : List α) :
    (List.ofFn fun r => Tensor.timesWeight dot (weights r) x).flatten =
      Tensor.timesWeight dot weight x := by
  have hm := Tensor.isMatrix_of_shape hshape
  have hlen : weight.rows.length = n * (outputs / n) := by
    rw [Tensor.length_rows hshape, Nat.mul_div_cancel' divides]
  have hrows : ∀ r : Fin n, (weights r).rows =
      (weight.rows.drop (r * (outputs / n))).take (outputs / n) := fun r => by
    have hle : (r + 1) * (outputs / n) ≤ weight.rows.length := by
      rw [hlen]; exact Nat.mul_le_mul_right _ r.isLt
    have := (slice_isMatrix hm hle (slices r)).rows_eq
    rwa [Nat.succ_mul, Nat.add_sub_cancel_left] at this
  have hmap : (List.ofFn fun r => Tensor.timesWeight dot (weights r) x) =
      (pieces (outputs / n) n weight.rows).map (List.map (dot x)) := by
    rw [pieces_eq_ofFn, List.map_ofFn]
    congr 1
    funext r
    rw [Tensor.timesWeight, hrows]
    rfl
  rw [hmap, ← List.map_flatten, flatten_pieces hlen]
  rfl

theorem concat_product {dot : List α → List α → α} {inputs outputs : Nat} {weight : Tensor α}
    {weights : Fin n → Tensor α} (hn : n ≠ 0) (hshape : weight.shape = [outputs, inputs])
    (divides : n ∣ outputs) (slices : ∀ r : Fin n,
      weight.slice (r * (outputs / n)) ((r + 1) * (outputs / n)) = .ok (weights r))
    {rows : List (List α)} {own : Fin n → Tensor α} {ys : Tensor α}
    (hown : ∀ r, (own r).IsMatrix (outputs / n) (rows.map (Tensor.timesWeight dot (weights r))))
    (hys : ys.IsMatrix outputs (rows.map (Tensor.timesWeight dot weight))) :
    Tensor.concat 1 (List.ofFn own) = .ok ys := by
  have hparts : ∀ q ∈ List.ofFn fun r => (own r, Tensor.timesWeight dot (weights r)),
      q.1.IsMatrix (outputs / n) (rows.map q.2) := fun q hq => by
    obtain ⟨r, rfl⟩ := List.mem_ofFn.mp hq
    exact hown r
  obtain ⟨u, hu, hum⟩ := Tensor.concat_eq (mt List.ofFn_eq_nil_iff.mp hn) hparts
  rw [List.map_ofFn] at hu
  rw [List.length_ofFn, Nat.mul_div_cancel' divides] at hum
  have hrow : ∀ x ∈ rows,
      ((List.ofFn fun r => (own r, Tensor.timesWeight dot (weights r))).flatMap fun q => q.2 x) =
        Tensor.timesWeight dot weight x := fun x _ => by
    rw [List.flatMap_def, List.map_ofFn]
    exact flatMap_timesWeight hshape divides slices x
  rw [List.map_congr_left hrow] at hum
  rw [← hum.unique hys]
  exact hu

/-- **The columns of the workers make the product.** -/
theorem Projection.SharedBy.allYield [Zero α] [Add α] (hn : 1 < n) {inputs outputs : Nat}
    {p : Projection α} {shares : Fin n → Projection α} (h : p.SharedBy inputs outputs shares)
    {dot : List α → List α → α} {xs ys : Tensor α} {rows : List (List α)}
    (hxs : xs.IsMatrix inputs rows) (hin : 0 < inputs)
    (hys : (p.apply (some dot) xs).simulate .single = .ok ys) :
    Collective.AllYield (fun r => (shares r).apply (some dot) xs) ys := by
  have fits := h.fits
  obtain ⟨weight, weights, shape, divides, slices⟩ := h
  obtain ⟨ys', hys', hym⟩ := Projection.simulate_apply fits (Or.inl rfl) dot hxs hin
  obtain rfl : ys' = ys := Except.ok.inj (hys'.symm.trans hys)
  have hwidth : ∀ r : Fin n, (weights r).shape = [outputs / n, inputs] := fun r => by
    rw [(slice_ok shape (slices r)).1, Nat.succ_mul, Nat.add_sub_cancel_left]
  choose own hown hom using fun r : Fin n => Tensor.product_eq dot hxs (hwidth r) hin
  have hprogram : ∀ r, (⟨weights r, n, r⟩ : ColumnShard α).apply (some dot) xs = _ := fun r =>
    ColumnShard.apply_eq hn hxs (hown r)
  have hgather : Tensor.concat 1 (List.ofFn own) = .ok ys' :=
    concat_product (by omega) shape divides slices hom hym
  unfold Projection.apply
  simp only [hprogram]
  refine Collective.AllYield.mapFault (.allGather own 1 _ ?_) _
  rw [hgather]
  exact Collective.AllYield.ofExcept (by rw [reshape_product hxs hym]; rfl)

/-! ### Sums of rows -/

section Sums

variable [Zero α] [One α] [Add α] [Mul α]

/-- Rows added entry by entry. -/
def sumRows : List (List α) → List α
  | [] => []
  | x :: xs => xs.foldl (List.zipWith (· + ·)) x

omit [Zero α] [One α] [Mul α] in
theorem foldlM_zipWith_eq {ρ : Type} {w : Nat} {l : List ρ} :
    ∀ {parts : List (Tensor α × (ρ → List α))} {t : Tensor α} {f : ρ → List α},
      t.IsMatrix w (l.map f) → (∀ p ∈ parts, p.1.IsMatrix w (l.map p.2)) →
        ∃ u, (parts.map Prod.fst).foldlM (Tensor.zipWith (· + ·)) t = .ok u ∧
          u.IsMatrix w (l.map fun x =>
            (parts.map fun p => p.2 x).foldl (List.zipWith (· + ·)) (f x))
  | [], t, f, ht, _ => ⟨t, rfl, ht⟩
  | p :: parts, t, f, ht, h => by
    obtain ⟨s, hs, hsm⟩ := Tensor.zipWith_eq (· + ·) ht (h p (by simp)) (by simp)
    rw [Tensor.zipWith_map_map] at hsm
    obtain ⟨u, hu, hum⟩ := foldlM_zipWith_eq hsm fun q hq => h q (List.mem_cons_of_mem p hq)
    refine ⟨u, ?_, hum⟩
    rw [List.map_cons, List.foldlM_cons, hs]
    exact hu

omit [Zero α] [One α] [Mul α] in
/-- **Matrices added**: the rows for each `x` are added. -/
theorem addAll_eq {ρ : Type} {w : Nat} {l : List ρ} {parts : List (Tensor α × (ρ → List α))}
    (hne : parts ≠ []) (h : ∀ p ∈ parts, p.1.IsMatrix w (l.map p.2)) :
    ∃ u, Tensor.addAll (parts.map Prod.fst) = .ok u ∧
      u.IsMatrix w (l.map fun x => sumRows (parts.map fun p => p.2 x)) := by
  obtain ⟨p, parts, rfl⟩ := List.exists_cons_of_ne_nil hne
  exact foldlM_zipWith_eq (h p (by simp)) fun q hq => h q (List.mem_cons_of_mem p hq)

variable [ExactScalar α]

theorem zipWith_zeros (x : List α) : List.zipWith (· + ·) x (List.replicate x.length 0) = x := by
  induction x with
  | nil => rfl
  | cons a x ih =>
    rw [List.length_cons, List.replicate_succ, List.zipWith_cons_cons, ExactScalar.add_zero, ih]

theorem zeros_zipWith (x : List α) : List.zipWith (· + ·) (List.replicate x.length 0) x = x := by
  induction x with
  | nil => rfl
  | cons a x ih =>
    rw [List.length_cons, List.replicate_succ, List.zipWith_cons_cons, ExactScalar.zero_add, ih]

theorem foldl_zipWith_zeros {x : List α} : ∀ {ys : List (List α)},
    (∀ y ∈ ys, y = List.replicate x.length 0) → ys.foldl (List.zipWith (· + ·)) x = x
  | [], _ => rfl
  | y :: ys, h => by
    rw [List.foldl_cons, h y (by simp), zipWith_zeros,
      foldl_zipWith_zeros fun z hz => h z (List.mem_cons_of_mem y hz)]

theorem foldl_zipWith_single {x : List α} : ∀ {ys : List (List α)} {i : Nat}, i < ys.length →
    (∀ j (hj : j < ys.length), ys[j] = if j = i then x else List.replicate x.length 0) →
      ys.foldl (List.zipWith (· + ·)) (List.replicate x.length 0) = x
  | y :: ys, 0, _, h => by
    have hy : y = x := h 0 (by simp)
    rw [List.foldl_cons, hy, zeros_zipWith]
    refine foldl_zipWith_zeros fun z hz => ?_
    obtain ⟨j, hj, rfl⟩ := List.getElem_of_mem hz
    exact h (j + 1) (by simpa using hj)
  | y :: ys, i + 1, hi, h => by
    have hy : y = List.replicate x.length 0 := h 0 (by simp)
    have hzero : List.zipWith (· + ·) (List.replicate x.length (0 : α))
        (List.replicate x.length 0) = List.replicate x.length 0 := by
      simpa using zipWith_zeros (List.replicate x.length (0 : α))
    rw [List.foldl_cons, hy, hzero]
    refine foldl_zipWith_single (i := i) (by simpa using hi) fun j hj => ?_
    have := h (j + 1) (by simpa using hj)
    simpa using this

theorem sumRows_single {x : List α} {ys : List (List α)} {i : Nat} (hi : i < ys.length)
    (h : ∀ j (hj : j < ys.length), ys[j] = if j = i then x else List.replicate x.length 0) :
    sumRows ys = x := by
  cases ys with
  | nil => simp at hi
  | cons y ys =>
    have hlen : y.length = x.length := by
      rw [show y = _ from h 0 (by simp)]
      split_ifs
      · rfl
      · exact List.length_replicate
    have hsum : sumRows (y :: ys) =
        (y :: ys).foldl (List.zipWith (· + ·)) (List.replicate x.length 0) := by
      rw [sumRows, List.foldl_cons, ← hlen, zeros_zipWith]
    rw [hsum]
    exact foldl_zipWith_single hi h

end Sums

/-! ### Embeddings -/

/-- A whole embedding and the shares of the workers: each of them has as many rows of the table, and
they are in the order of the ranks. -/
inductive Embedding.SharedBy (vocab hidden : Nat) : Embedding α → (Fin n → Embedding α) → Prop
  | mk (table : Tensor α) (tables : Fin n → Tensor α) (shape : table.shape = [vocab, hidden])
    (divides : n ∣ vocab)
    (slices : ∀ r : Fin n, table.slice (r * (vocab / n)) ((r + 1) * (vocab / n)) = .ok (tables r)) :
    SharedBy vocab hidden (.whole hidden table) fun r =>
      .vocabulary ⟨tables r, n, r * (vocab / n), (r + 1) * (vocab / n)⟩

theorem Embedding.SharedBy.fits {vocab hidden : Nat} {e : Embedding α}
    {shares : Fin n → Embedding α} (h : e.SharedBy vocab hidden shares) :
    e.Fits .single vocab hidden := by
  obtain ⟨table, tables, shape, divides, slices⟩ := h
  exact .whole table rfl shape

/-- **An embedding that one worker can read whole** the workers of a group can read in shares. -/
theorem Embedding.load_shared (hn : 1 < n) {vocab hidden : Nat} (divides : n ∣ vocab)
    (hword : vocab < wordCount) {read : Reader α} (lawful : read.Lawful) {e : Embedding α}
    (h : Embedding.load vocab hidden read .single = .ok e) :
    ∃ shares : Fin n → Embedding α, e.SharedBy vocab hidden shares ∧
      ∀ r, Embedding.load vocab hidden read (.worker r) = .ok (shares r) := by
  obtain ⟨table, hread, rfl⟩ := Embedding.load_single h
  have hshape := lawful _ _ _ hread
  choose tables htables using fun r : Fin n => exists_share hshape divides r.isLt
  refine ⟨_, .mk table tables hshape divides htables, fun r => ?_⟩
  have hworld : ¬ n = 0 := by omega
  have hle : r * (vocab / n) ≤ (r + 1) * (vocab / n) := Nat.mul_le_mul_right _ (Nat.le_succ r)
  have hload : VocabularyShard.load vocab hidden read (.worker r) =
      .ok ⟨tables r, n, r * (vocab / n), (r + 1) * (vocab / n)⟩ := by
    unfold VocabularyShard.load VocabularyShard.ofTable
    simp only [Group.worker, hread, hshape, if_neg hworld,
      vocabularyRange_of_dvd divides r.isLt hword, Nat.max_eq_right hle, htables r]
  rw [Embedding.load, if_neg (Group.isSingle_worker hn r), hload]

/-- A worker reads its part of an embedding, be it empty. -/
theorem Embedding.exists_load {g : Group} {read : Reader α} {vocab hidden : Nat}
    {full : Tensor α} (hread : read "weight" [vocab, hidden] = .ok full)
    (hshape : full.shape = [vocab, hidden]) :
    ∃ e, Embedding.load vocab hidden read g = .ok e := by
  unfold Embedding.load
  split_ifs with hsingle
  · exact ⟨.whole hidden full, by rw [hread]⟩
  · have hworld : ¬ g.world = 0 := by
      have := g.rank_lt
      omega
    have hle : max (vocabularyRange vocab g.world g.rank).1
        (vocabularyRange vocab g.world g.rank).2 ≤ vocab :=
      max_le (Nat.min_le_right _ _) (Nat.min_le_right _ _)
    obtain ⟨part, hpart⟩ := exists_slice hshape (le_max_left _ _) hle
    refine ⟨.vocabulary ⟨part, g.world, (vocabularyRange vocab g.world g.rank).1,
      (vocabularyRange vocab g.world g.rank).2⟩, ?_⟩
    simp only [VocabularyShard.load, hread, VocabularyShard.ofTable, hshape, if_neg hworld, hpart]

section Lookup

variable [Zero α] [One α] [Add α] [Mul α] [ExactScalar α]

/-- **A worker gives the rows of its own tokens**, and zeros for the tokens of the others. -/
theorem VocabularyShard.row_eq {vocab hidden q r : Nat} {table part : Tensor α}
    (hshape : table.shape = [vocab, hidden]) (hq : 0 < q) (hvocab : (r + 1) * q ≤ vocab)
    (hhalf : 2 * q ≤ wordCount) (slice : table.slice (r * q) ((r + 1) * q) = .ok part)
    (world : Nat) (t : UInt32) :
    (⟨part, world, r * q, (r + 1) * q⟩ : VocabularyShard α).row t =
      if r = t.toNat / q then table.tableRow t.toNat else List.replicate hidden 0 := by
  have hcount : (r + 1) * q = r * q + q := Nat.succ_mul r q
  have hm := Tensor.isMatrix_of_shape hshape
  have hrows : part.rows = (table.rows.drop (r * q)).take q := by
    have := (slice_isMatrix hm (by rwa [Tensor.length_rows hshape]) slice).rows_eq
    rwa [hcount, Nat.add_sub_cancel_left] at this
  have hpart : part.shape = [(r + 1) * q - r * q, hidden] := (slice_ok hshape slice).1
  set shard : VocabularyShard α := ⟨part, world, r * q, (r + 1) * q⟩ with hshard
  have howner : r = t.toNat / q ↔ r * q ≤ t.toNat ∧ t.toNat < r * q + q := by
    rw [eq_comm, Nat.div_eq_iff hq]
    omega
  have howns : shard.owns t.toNat = true ↔ r = t.toNat / q := by
    rw [howner, VocabularyShard.owns, decide_eq_true_iff, hshard]
    dsimp only
    omega
  rw [VocabularyShard.row]
  by_cases hr : r = t.toNat / q
  · -- the token is one of the worker's own, so its place is the distance to the first of them
    obtain ⟨hle, hlt⟩ := howner.mp hr
    have hlocal : shard.localRow t.toNat = (t.toNat - r * q : Nat) := by
      have hbmod : ((t.toNat : Int) - (r * q : Nat)).bmod wordCount =
          (t.toNat : Int) - (r * q : Nat) :=
        Int.bmod_eq_of_le_mul_two (by omega) (by omega)
      have hplaces : (placeCount : Int) = 2 ^ 32 := rfl
      have ht := t.toNat_lt
      simp only [VocabularyShard.localRow, hshard, hbmod, hcount, hplaces]
      omega
    have hone : (fun x : α => x * if shard.owns t.toNat = true then 1 else 0) = id :=
      funext fun x => by rw [if_pos (howns.mpr hr), ExactScalar.mul_one]; rfl
    have hget : part.rows[t.toNat - r * q]? = table.rows[t.toNat]? := by
      rw [hrows, List.getElem?_take, if_pos (by omega), List.getElem?_drop,
        Nat.add_sub_cancel' hle]
    rw [hone, List.map_id, if_pos hr, hlocal, Tensor.tableRow, Tensor.tableRow, Int.toNat_natCast,
      Int.toNat_natCast, List.getD_eq_getElem?_getD, List.getD_eq_getElem?_getD]
    exact congrArg (Option.getD · []) hget
  · have hzero : (fun x : α => x * if shard.owns t.toNat = true then 1 else 0) = fun _ => 0 :=
      funext fun x => by rw [if_neg (mt howns.mp hr), ExactScalar.mul_zero]
    have hmem := shard.localRow_mem (by simp only [hshard]; omega) t.toNat
    rw [hzero, List.map_const', Tensor.length_tableRow hpart hmem.2, if_neg hr]

theorem sumRows_shares {vocab hidden : Nat} {table : Tensor α} {tables : Fin n → Tensor α}
    (hn : 1 < n) (hpos : 0 < vocab) (hword : vocab < wordCount) (divides : n ∣ vocab)
    (hshape : table.shape = [vocab, hidden])
    (slices : ∀ r : Fin n, table.slice (r * (vocab / n)) ((r + 1) * (vocab / n)) = .ok (tables r))
    {t : UInt32} (ht : t.toNat < vocab) :
    sumRows (List.ofFn fun r : Fin n => (⟨tables r, n, r * (vocab / n), (r + 1) * (vocab / n)⟩ :
      VocabularyShard α).row t) = table.tableRow t.toNat := by
  obtain ⟨q, rfl⟩ := divides
  have hq : 0 < q := Nat.pos_of_mul_pos_left hpos
  have hdiv : n * q / n = q := Nat.mul_div_cancel_left q (by omega)
  have hhalf : 2 * q ≤ wordCount := le_trans (Nat.mul_le_mul_right q hn) hword.le
  rw [hdiv] at slices ⊢
  have hlen : (table.tableRow t.toNat).length = hidden := Tensor.length_tableRow hshape ht
  have howner : t.toNat / q < n := Nat.div_lt_of_lt_mul (Nat.mul_comm n q ▸ ht)
  refine sumRows_single (i := t.toNat / q) (by rwa [List.length_ofFn]) fun j hj => ?_
  rw [List.length_ofFn] at hj
  rw [List.getElem_ofFn, hlen]
  exact VocabularyShard.row_eq hshape hq (Nat.mul_le_mul_right q hj) hhalf (slices ⟨j, hj⟩) n t

theorem addAll_rows {vocab hidden : Nat} {table : Tensor α} {tables : Fin n → Tensor α}
    (hn : 1 < n) (hpos : 0 < vocab) (hword : vocab < wordCount) (divides : n ∣ vocab)
    (hshape : table.shape = [vocab, hidden])
    (slices : ∀ r : Fin n, table.slice (r * (vocab / n)) ((r + 1) * (vocab / n)) = .ok (tables r))
    {tokens : List UInt32} (hlt : ∀ t ∈ tokens, t.toNat < vocab) {own : Fin n → Tensor α}
    (hown : ∀ r, (own r).IsMatrix hidden (tokens.map (⟨tables r, n, r * (vocab / n),
      (r + 1) * (vocab / n)⟩ : VocabularyShard α).row))
    {zs : Tensor α} (hzs : zs.IsMatrix hidden (tokens.map (Embedding.whole hidden table).row)) :
    Tensor.addAll (List.ofFn own) = .ok zs := by
  set shard : Fin n → VocabularyShard α := fun r =>
    ⟨tables r, n, r * (vocab / n), (r + 1) * (vocab / n)⟩
  have hparts : ∀ p ∈ List.ofFn fun r => (own r, (shard r).row),
      p.1.IsMatrix hidden (tokens.map p.2) := fun p hp => by
    obtain ⟨r, rfl⟩ := List.mem_ofFn.mp hp
    exact hown r
  obtain ⟨u, hu, hum⟩ := addAll_eq (mt List.ofFn_eq_nil_iff.mp (by omega)) hparts
  have hrow : ∀ t ∈ tokens, sumRows ((List.ofFn fun r => (own r, (shard r).row)).map
      fun p => p.2 t) = (Embedding.whole hidden table).row t := fun t ht => by
    rw [List.map_ofFn]
    exact sumRows_shares hn hpos hword divides hshape slices (hlt t ht)
  rw [List.map_ofFn] at hu
  rw [List.map_congr_left hrow] at hum
  rw [← hum.unique hzs]
  exact hu

/-- **The rows of the workers add up to the rows of the table.** -/
theorem Embedding.SharedBy.allYield (hn : 1 < n) {vocab hidden : Nat} (hpos : 0 < vocab)
    (hword : vocab < wordCount) {e : Embedding α} {shares : Fin n → Embedding α}
    (h : e.SharedBy vocab hidden shares) {tokens : Tensor UInt32} {m : Nat}
    (htokens : tokens.shape = [m]) (hlt : ∀ t ∈ tokens.data, t.toNat < vocab) {zs : Tensor α}
    (hzs : (e.apply ⟨.u32, tokens⟩).simulate .single = .ok zs) :
    Collective.AllYield (fun r => (shares r).apply ⟨.u32, tokens⟩) zs := by
  have fits := h.fits
  obtain ⟨table, tables, shape, divides, slices⟩ := h
  obtain ⟨zs', hzs', hzm⟩ := Embedding.simulate_apply fits ⟨hpos, hword, Nat.one_dvd vocab⟩ htokens
    hlt
  obtain rfl : zs' = zs := Except.ok.inj (hzs'.symm.trans hzs)
  have hshare : 0 < vocab / n := Nat.div_pos (Nat.le_of_dvd hpos divides) (by omega)
  set shard : Fin n → VocabularyShard α := fun r =>
    ⟨tables r, n, r * (vocab / n), (r + 1) * (vocab / n)⟩ with hshard
  have hrange : ∀ r, (shard r).start < (shard r).stop := fun r => by
    simp only [hshard, Nat.succ_mul]
    omega
  have hwidth : ∀ r, (shard r).table.shape = [(shard r).stop - (shard r).start, hidden] :=
    fun r => (slice_ok shape (slices r)).1
  have hrows : ∀ r, ∀ row ∈ tokens.data.map (shard r).row, row.length = hidden := by
    intro r row hrow
    obtain ⟨t, -, rfl⟩ := List.mem_map.mp hrow
    rw [VocabularyShard.row, List.length_map]
    exact Tensor.length_tableRow (hwidth r) ((shard r).localRow_mem (hrange r) _).2
  choose own hown hom using fun r =>
    Tensor.ofRows_eq (n := tokens.data.length) (List.length_map _) (hrows r)
  have hprogram : ∀ r, (shard r).apply ⟨.u32, tokens⟩ = _ := fun r =>
    (shard r).apply_eq hn (hrange r) (hwidth r) (hown r)
  have hsum : Tensor.addAll (List.ofFn own) = .ok zs' :=
    addAll_rows hn hpos hword divides shape slices hlt hom hzm
  change Collective.AllYield
    (fun r => ((shard r).apply ⟨.u32, tokens⟩).mapFault (LayerFault.sharded .vocabulary)) zs'
  simp only [hprogram]
  refine Collective.AllYield.mapFault (.allReduce own _ ?_) _
  rw [hsum]
  exact Collective.AllYield.ofExcept (by rw [reshape_tokens htokens hzm]; rfl)

end Lookup

end DraftHeads
