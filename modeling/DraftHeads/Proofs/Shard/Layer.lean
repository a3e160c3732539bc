import DraftHeads.Proofs.Shard.Collective
import DraftHeads.Proofs.Tensor.Matrix
import DraftHeads.Shard.Layer

/-! # Layers, row by row

What a layer that was read from a checkpoint does to the rows of a matrix. The group repeats a
worker's own tensors, so a whole layer and a worker's share of one are treated alike.

* `Projection.Fits`, `Embedding.Fits`: what a layer looks like after it was read for some sizes
  (`Projection.load_fits`, `Embedding.load_fits`).
* `Projection.row`, `Embedding.row`: the row that a layer makes of a row, and of a token.
* `Projection.simulate_apply`, `Embedding.simulate_apply`: a layer makes these rows, and it does not
  fail. -/

namespace DraftHeads

variable {α : Type}

/-- A reader gives no tensor of another shape than the one that is asked for. -/
def Reader.Lawful (read : Reader α) : Prop :=
  ∀ name shape t, read name shape = .ok t → t.shape = shape

theorem Reader.Lawful.below {read : Reader α} (h : read.Lawful) (word : String) :
    (read.below word).Lawful :=
  fun name shape t ht => h (word ++ "." ++ name) shape t ht

/-! ### Local work -/

theorem reshape_eq {t : Tensor α} {shape : List Nat} (h : t.shape = shape) :
    t.reshape shape = .ok t := by
  subst h
  obtain ⟨u, hu, hshape, hdata⟩ := Tensor.ofData_eq t.length_data
  rw [Tensor.reshape, hu]
  exact congrArg Except.ok (Tensor.ext hshape hdata)

theorem slice_ok {start stop : Nat} {t u : Tensor α} {n : Nat} {rest : List Nat}
    (ht : t.shape = n :: rest) (h : t.slice start stop = .ok u) :
    u.shape = (stop - start) :: rest ∧
      u.data = (t.data.drop (start * entryCount rest)).take ((stop - start) * entryCount rest) := by
  unfold Tensor.slice at h
  split at h
  · cases h
  · next m rest' hshape =>
    obtain ⟨rfl, rfl⟩ := List.cons.inj (hshape.symm.trans ht)
    split at h
    · cases h; exact ⟨rfl, rfl⟩
    · cases h

/-! ### Projections -/

/-- The worker's part of the product, repeated for every worker. -/
def ColumnShard.row (dot : List α → List α → α) (shard : ColumnShard α) (x : List α) : List α :=
  (List.replicate shard.world (Tensor.timesWeight dot shard.weight x)).flatten

/-- The row that a projection makes of a row. -/
def Projection.row (dot : List α → List α → α) : Projection α → List α → List α
  | .whole weight, x => Tensor.timesWeight dot weight x
  | .column shard, x => shard.row dot x

/-- A projection from `inputs` to `outputs` entries, whole or a worker's share. -/
inductive Projection.Fits (g : Group) (inputs outputs : Nat) : Projection α → Prop
  | whole (weight : Tensor α) (single : g.world = 1) (shape : weight.shape = [outputs, inputs]) :
    Fits g inputs outputs (.whole weight)
  | column (shard : ColumnShard α) (shared : 1 < g.world) (world : shard.world = g.world)
    (divides : g.world ∣ outputs) (shape : shard.weight.shape = [outputs / g.world, inputs]) :
    Fits g inputs outputs (.column shard)

theorem Group.isSingle_iff (g : Group) : g.isSingle = true ↔ g.world = 1 := by
  simp [Group.isSingle]

theorem Group.one_lt_of_not_single {g : Group} (h : ¬ g.isSingle = true) : 1 < g.world := by
  have := g.rank_lt
  rw [g.isSingle_iff] at h
  omega

theorem ColumnShard.load_ok {inputs outputs : Nat} {read : Reader α} {g : Group}
    {shard : ColumnShard α} (h : ColumnShard.load inputs outputs read g = .ok shard) :
    outputs % g.world = 0 ∧ shard.world = g.world ∧
      ∃ full, read "weight" [outputs, inputs] = .ok full ∧
        full.slice (g.rank * (outputs / g.world)) ((g.rank + 1) * (outputs / g.world)) =
          .ok shard.weight := by
  unfold ColumnShard.load at h
  split_ifs at h with hdiv
  cases hread : read "weight" [outputs, inputs] with
  | error e => rw [hread] at h; cases h
  | ok full =>
    rw [hread] at h
    simp only [ColumnShard.ofWeight] at h
    split at h
    · next weight hslice => cases h; exact ⟨not_not.mp hdiv, rfl, full, rfl, hslice⟩
    · cases h

theorem Projection.load_fits {inputs outputs : Nat} {read : Reader α} {g : Group}
    (lawful : read.Lawful) {p : Projection α} (h : Projection.load inputs outputs read g = .ok p) :
    p.Fits g inputs outputs := by
  unfold Projection.load at h
  split_ifs at h with hsingle
  · cases hread : read "weight" [outputs, inputs] with
    | error e => rw [hread] at h; cases h
    | ok weight =>
      rw [hread] at h
      cases h
      exact .whole weight (g.isSingle_iff.mp hsingle) (lawful _ _ _ hread)
  · cases hload : ColumnShard.load inputs outputs read g with
    | error e => rw [hload] at h; cases h
    | ok shard =>
      rw [hload] at h
      cases h
      obtain ⟨hdiv, hworld, full, hread, hslice⟩ := ColumnShard.load_ok hload
      refine .column shard (Group.one_lt_of_not_single hsingle) hworld
        (Nat.dvd_of_mod_eq_zero hdiv) ?_
      rw [(slice_ok (lawful _ _ _ hread) hslice).1, ← Nat.sub_mul, Nat.add_sub_cancel_left,
        Nat.one_mul]

theorem Projection.load_single {inputs outputs : Nat} {read : Reader α} {p : Projection α}
    (h : Projection.load inputs outputs read .single = .ok p) :
    ∃ weight, read "weight" [outputs, inputs] = .ok weight ∧ p = .whole weight := by
  rw [Projection.load, if_pos (show Group.single.isSingle = true from rfl)] at h
  cases hread : read "weight" [outputs, inputs] with
  | error e => rw [hread] at h; cases h
  | ok weight =>
    rw [hread] at h
    exact ⟨weight, rfl, (Except.ok.inj h).symm⟩

theorem Projection.Fits.length_row {g : Group} {inputs outputs : Nat} {p : Projection α}
    (h : p.Fits g inputs outputs) (dot : List α → List α → α) (x : List α) :
    (p.row dot x).length = outputs := by
  cases h with
  | whole weight single shape =>
    rw [Projection.row, Tensor.length_timesWeight, Tensor.length_rows shape]
  | column shard shared world divides shape =>
    have hlen : ∀ y ∈ List.replicate shard.world (Tensor.timesWeight dot shard.weight x),
        y.length = outputs / g.world := fun y hy => by
      rw [List.eq_of_mem_replicate hy, Tensor.length_timesWeight, Tensor.length_rows shape]
    rw [Projection.row, ColumnShard.row, length_flatten_block hlen, List.length_replicate, world,
      Nat.mul_div_cancel' divides]

theorem Projection.Fits.world_dvd {g : Group} {inputs outputs : Nat} {p : Projection α}
    (h : p.Fits g inputs outputs) : g.world ∣ outputs := by
  cases h with
  | whole weight single shape => rw [single]; exact Nat.one_dvd outputs
  | column shard shared world divides shape => exact divides

/-- The group can gather: a worker on its own has nothing to gather, and the list of the tensors of
all workers must not take too many bytes. -/
def Group.Gathers (g : Group) : Prop := g.world = 1 ∨ g.world * Collective.referenceSize ≤ maxBytes

theorem gathers_of_gatherCopies {g : Group} {t u : Tensor α} {axis : Nat} (hg : 1 < g.world)
    (h : Collective.gatherCopies g axis t = .ok u) : g.Gathers := by
  have hsingle : ¬ g.isSingle = true := by rw [g.isSingle_iff]; omega
  rw [Collective.gatherCopies, if_neg hsingle] at h
  refine Or.inr (Nat.not_lt.mp fun hbytes => ?_)
  rw [checkBytes, if_pos hbytes] at h
  cases h

theorem gatherCopies_eq {g : Group} {t : Tensor α} {n : Nat} {l : List (List α)}
    {f : List α → List α} (hg : 1 < g.world) (ht : t.IsMatrix n (l.map f)) (gathers : g.Gathers) :
    ∃ u, Collective.gatherCopies g 1 t = .ok u ∧
      u.IsMatrix (g.world * n) (l.map fun x => (List.replicate g.world (f x)).flatten) := by
  have hne : List.replicate g.world (t, f) ≠ [] := by
    intro h; have := congrArg List.length h; simp at this; omega
  obtain ⟨u, hu, hum⟩ := Tensor.concat_eq hne fun p hp => by
    rw [List.eq_of_mem_replicate hp]; exact ht
  rw [List.map_replicate] at hu
  rw [List.length_replicate] at hum
  have hbytes : ¬ maxBytes < g.world * Collective.referenceSize := by
    rcases gathers with h | h <;> omega
  have hsingle : ¬ g.isSingle = true := by rw [g.isSingle_iff]; omega
  refine ⟨u, ?_, ?_⟩
  · rw [Collective.gatherCopies, if_neg hsingle, checkBytes, if_neg hbytes]
    exact hu
  · simpa [List.flatMap_def] using hum

theorem reshape_product {inputs outputs : Nat} {xs ys : Tensor α} {rows : List (List α)}
    {f : List α → List α} (hxs : xs.IsMatrix inputs rows) (hys : ys.IsMatrix outputs (rows.map f)) :
    ys.reshape (xs.lead ++ [ys.width]) = .ok ys :=
  reshape_eq (by rw [hxs.lead_eq, hys.width_eq, hys.shape, List.length_map]; rfl)

/-- **A worker gathers its own product** with those of the others. The rows are flattened to a
matrix before, and the axes before the last one are restored at the end. -/
theorem ColumnShard.apply_flat [Zero α] {shard : ColumnShard α} (shared : 1 < shard.world)
    {dot? : Option (List α → List α → α)} {inputs : Nat} {xs flat own : Tensor α}
    (hlast : xs.shape.getLast? = some inputs)
    (hflat : xs.reshape [entryCount xs.lead, inputs] = .ok flat)
    (hown : Tensor.product dot? flat shard.weight = .ok own) :
    shard.apply dot? xs =
      .allGather own 1 fun out => .ofExcept (out.mapError .tensor) >>= fun out =>
        .ofExcept ((out.reshape (xs.lead ++ [out.width])).mapError .tensor) := by
  unfold ColumnShard.apply
  simp only [hlast, hflat, hown, Except.mapError, Collective.ofExcept_ok, Collective.done_bind,
    if_pos shared]
  rfl

theorem ColumnShard.apply_eq [Zero α] {shard : ColumnShard α} (shared : 1 < shard.world)
    {dot : List α → List α → α} {inputs : Nat} {xs own : Tensor α} {rows : List (List α)}
    (hxs : xs.IsMatrix inputs rows)
    (hown : Tensor.product (some dot) xs shard.weight = .ok own) :
    shard.apply (some dot) xs =
      .allGather own 1 fun out => .ofExcept (out.mapError .tensor) >>= fun out =>
        .ofExcept ((out.reshape (xs.lead ++ [out.width])).mapError .tensor) := by
  have hlast : xs.shape.getLast? = some inputs := by rw [hxs.shape]; rfl
  have hflat : xs.reshape [entryCount xs.lead, inputs] = .ok xs :=
    reshape_eq (by rw [hxs.lead_eq, hxs.shape]; simp [entryCount])
  exact ColumnShard.apply_flat shared hlast hflat hown

theorem Projection.simulate_apply [Zero α] {g : Group} {inputs outputs : Nat} {p : Projection α}
    (h : p.Fits g inputs outputs) (gathers : g.Gathers) (dot : List α → List α → α)
    {xs : Tensor α} {rows : List (List α)} (hxs : xs.IsMatrix inputs rows) (hin : 0 < inputs) :
    ∃ ys, (p.apply (some dot) xs).simulate g = .ok ys ∧
      ys.IsMatrix outputs (rows.map (p.row dot)) := by
  cases h with
  | whole weight single shape =>
    obtain ⟨ys, hys, hm⟩ := Tensor.product_eq dot hxs shape hin
    refine ⟨ys, ?_, hm⟩
    have hrank : ¬ (xs.rank = 3 ∨ xs.rank = 4) := by rw [hxs.rank_eq]; omega
    rw [Projection.apply, Projection.applyWhole, if_neg hrank, hys]
    rfl
  | column shard shared world divides shape =>
    obtain ⟨own, hown, hm⟩ := Tensor.product_eq dot hxs shape hin
    obtain ⟨ys, hys, hym⟩ := gatherCopies_eq shared hm gathers
    rw [Nat.mul_div_cancel' divides] at hym
    refine ⟨ys, ?_, ?_⟩
    · rw [Projection.apply, Collective.simulate_mapFault_eq_ok,
        ColumnShard.apply_eq (by rwa [world]) hxs hown, Collective.simulate, hys]
      refine Collective.simulate_bind_eq_ok.mpr ⟨ys, Collective.simulate_ofExcept g _, ?_⟩
      rw [reshape_product hxs hym]
      exact Collective.simulate_ofExcept g _
    · have hrow : Projection.row dot (.column shard) = fun x =>
          (List.replicate g.world (Tensor.timesWeight dot shard.weight x)).flatten :=
        funext fun x => by rw [Projection.row, ColumnShard.row, world]
      rw [hrow]
      exact hym

theorem Projection.exists_dot_of_simulate [Zero α] {g : Group} {inputs outputs : Nat}
    {p : Projection α} (h : p.Fits g inputs outputs) {dot? : Option (List α → List α → α)}
    {xs ys : Tensor α} {rows : List (List α)} (hxs : xs.IsMatrix inputs rows) (hrows : rows ≠ [])
    (hin : 0 < inputs) (hout : 0 < outputs) (hys : (p.apply dot? xs).simulate g = .ok ys) :
    (∃ dot, dot? = some dot) ∧ g.Gathers := by
  cases h with
  | whole weight single shape =>
    have hrank : ¬ (xs.rank = 3 ∨ xs.rank = 4) := by rw [hxs.rank_eq]; omega
    rw [Projection.apply, Projection.applyWhole, if_neg hrank, Collective.simulate_ofExcept,
      mapError_eq_ok] at hys
    exact ⟨Tensor.exists_dot_of_product hxs hrows shape hout hin hys, Or.inl single⟩
  | column shard shared world divides shape =>
    have hlast : xs.shape.getLast? = some inputs := by rw [hxs.shape]; rfl
    have hflat : xs.reshape [entryCount xs.lead, inputs] = .ok xs :=
      reshape_eq (by rw [hxs.lead_eq, hxs.shape]; simp [entryCount])
    have hshare : 0 < outputs / g.world :=
      Nat.div_pos (Nat.le_of_dvd hout divides) (by omega)
    rw [Projection.apply, Collective.simulate_mapFault_eq_ok, ColumnShard.apply, hlast] at hys
    simp only [hflat, Except.mapError, Collective.ofExcept_ok, Collective.done_bind, world,
      if_pos shared] at hys
    obtain ⟨own, hown, hys⟩ := Collective.simulate_bind_eq_ok.mp hys
    obtain ⟨out, hgather, -⟩ := Collective.simulate_bind_eq_ok.mp hys
    rw [Collective.simulate_ofExcept] at hown
    refine ⟨?_, ?_⟩
    · cases hprod : Tensor.product dot? xs shard.weight with
      | error e => rw [hprod] at hown; cases hown
      | ok y => exact Tensor.exists_dot_of_product hxs hrows shape hshare hin hprod
    · rw [Collective.simulate, Collective.simulate_ofExcept] at hgather
      cases hcopies : Collective.gatherCopies g 1 own with
      | error e => rw [hcopies] at hgather; cases hgather
      | ok u => exact gathers_of_gatherCopies shared hcopies

/-! ### Embeddings -/

/-- The tokens of a head as the integers that a look-up takes. -/
def tokenIndices (tokens : Tensor UInt32) : List Int := tokens.data.map fun t => (t.toNat : Int)

theorem integers_u32 (tokens : Tensor UInt32) :
    ∃ ids, (⟨.u32, tokens⟩ : AnyTensor).integers? = some ids ∧ ids.shape = tokens.shape ∧
      ids.data = tokenIndices tokens := ⟨_, rfl, rfl, rfl⟩

theorem toInt_convert_u32 (t : UInt32) :
    Int64.toInt (DType.convert .u32 .i64 t) = (t.toNat : Int) := by
  have ht := t.toNat_lt
  change (Int64.ofInt (t.toNat : Int)).toInt = _
  rw [Int64.toInt_ofInt_of_le]
  · simp
  · simp; omega

theorem cast_u32_i64 (tokens : Tensor UInt32) :
    (((⟨.u32, tokens⟩ : AnyTensor).cast .i64).map Int64.toInt).data = tokenIndices tokens := by
  change (tokens.map (DType.convert .u32 .i64)).data.map Int64.toInt = _
  rw [Tensor.data_map, List.map_map]
  exact List.map_congr_left fun t _ => toInt_convert_u32 t

/-- The worker's row for a token, zero if the token is not its own. -/
def VocabularyShard.row [Zero α] [One α] [Mul α] (shard : VocabularyShard α) (token : UInt32) :
    List α :=
  (shard.table.tableRow (shard.localRow token.toNat)).map
    (· * if shard.owns token.toNat then 1 else 0)

/-- The row of a token. -/
def Embedding.row [Zero α] [One α] [Mul α] : Embedding α → UInt32 → List α
  | .whole _ table, t => table.tableRow t.toNat
  | .vocabulary shard, t => shard.row t

/-- An embedding for `vocab` tokens, whole or a worker's share. -/
inductive Embedding.Fits (g : Group) (vocab hidden : Nat) : Embedding α → Prop
  | whole (table : Tensor α) (single : g.world = 1) (shape : table.shape = [vocab, hidden]) :
    Fits g vocab hidden (.whole hidden table)
  | vocabulary (shard : VocabularyShard α) (shared : 1 < g.world) (world : shard.world = g.world)
    (range : (shard.start, shard.stop) = vocabularyRange vocab g.world g.rank)
    (shape : shard.table.shape = [shard.stop - shard.start, hidden]) :
    Fits g vocab hidden (.vocabulary shard)

theorem VocabularyShard.load_ok {vocab hidden : Nat} {read : Reader α} {g : Group}
    (lawful : read.Lawful) {shard : VocabularyShard α}
    (h : VocabularyShard.load vocab hidden read g = .ok shard) :
    shard.world = g.world ∧ (shard.start, shard.stop) = vocabularyRange vocab g.world g.rank ∧
      ∃ full, read "weight" [vocab, hidden] = .ok full ∧
        full.slice shard.start (max shard.start shard.stop) = .ok shard.table := by
  unfold VocabularyShard.load at h
  cases hread : read "weight" [vocab, hidden] with
  | error e => rw [hread] at h; cases h
  | ok full =>
    rw [hread] at h
    have hworld : g.world ≠ 0 := by have := g.rank_lt; omega
    simp only [VocabularyShard.ofTable, lawful _ _ _ hread, if_neg hworld] at h
    split at h
    · next table hslice => cases h; exact ⟨rfl, rfl, full, rfl, hslice⟩
    · cases h

theorem Embedding.load_fits {vocab hidden : Nat} {read : Reader α} {g : Group}
    (lawful : read.Lawful) {e : Embedding α} (h : Embedding.load vocab hidden read g = .ok e) :
    e.Fits g vocab hidden := by
  unfold Embedding.load at h
  split_ifs at h with hsingle
  · cases hread : read "weight" [vocab, hidden] with
    | error e => rw [hread] at h; cases h
    | ok table =>
      rw [hread] at h
      cases h
      exact .whole table (g.isSingle_iff.mp hsingle) (lawful _ _ _ hread)
  · cases hload : VocabularyShard.load vocab hidden read g with
    | error e => rw [hload] at h; cases h
    | ok shard =>
      rw [hload] at h
      cases h
      obtain ⟨hworld, hrange, full, hread, hslice⟩ := VocabularyShard.load_ok lawful hload
      refine .vocabulary shard (Group.one_lt_of_not_single hsingle) hworld hrange ?_
      rw [(slice_ok (lawful _ _ _ hread) hslice).1]
      congr 1
      omega

theorem Embedding.load_single {vocab hidden : Nat} {read : Reader α} {e : Embedding α}
    (h : Embedding.load vocab hidden read .single = .ok e) :
    ∃ table, read "weight" [vocab, hidden] = .ok table ∧ e = .whole hidden table := by
  rw [Embedding.load, if_pos (show Group.single.isSingle = true from rfl)] at h
  cases hread : read "weight" [vocab, hidden] with
  | error e => rw [hread] at h; cases h
  | ok table =>
    rw [hread] at h
    exact ⟨table, rfl, (Except.ok.inj h).symm⟩

theorem rowsPerWorker_of_dvd {vocab world : Nat} (hdvd : world ∣ vocab) (hpos : 0 < world) :
    rowsPerWorker vocab world = vocab / world := by
  obtain ⟨q, rfl⟩ := hdvd
  rw [rowsPerWorker, Nat.add_sub_assoc hpos, Nat.mul_add_div hpos, Nat.div_eq_of_lt (by omega),
    Nat.add_zero, Nat.mul_div_cancel_left q hpos]

theorem vocabularyRange_of_dvd {vocab world rank : Nat} (hdvd : world ∣ vocab)
    (hrank : rank < world) (hword : vocab < wordCount) :
    vocabularyRange vocab world rank =
      (rank * (vocab / world), (rank + 1) * (vocab / world)) := by
  have hshare := rowsPerWorker_of_dvd hdvd (by omega)
  obtain ⟨q, rfl⟩ := hdvd
  have hpos : 0 < world := by omega
  rw [Nat.mul_div_cancel_left q hpos] at hshare
  have hle : (rank + 1) * q ≤ world * q := Nat.mul_le_mul_right q hrank
  have hle' : rank * q ≤ (rank + 1) * q := Nat.mul_le_mul_right q (Nat.le_succ rank)
  rw [vocabularyRange, hshare, Nat.mul_div_cancel_left q hpos]
  simp only [Nat.mod_eq_of_lt (lt_of_le_of_lt hle hword),
    Nat.mod_eq_of_lt (lt_of_le_of_lt (le_trans hle' hle) hword), Nat.min_eq_left hle,
    Nat.min_eq_left (le_trans hle' hle)]

variable {g : Group} {vocab hidden : Nat}

theorem VocabularyShard.localRow_mem {shard : VocabularyShard α} (h : shard.start < shard.stop)
    (token : Int) : 0 ≤ shard.localRow token ∧
      (shard.localRow token).toNat < shard.stop - shard.start := by
  have hplaces : (placeCount : Int) = 2 ^ 32 := rfl
  simp only [VocabularyShard.localRow, hplaces]
  omega

/-- Can the embedding look the token up? A worker's share has a row for every token. -/
def Embedding.Takes (vocab : Nat) : Embedding α → UInt32 → Prop
  | .whole _ _, t => t.toNat < vocab
  | .vocabulary _, _ => True

theorem Embedding.takes_of_lt {e : Embedding α} {t : UInt32} (h : t.toNat < vocab) :
    e.Takes vocab t := by
  cases e with
  | whole hidden table => exact h
  | vocabulary shard => trivial

theorem Embedding.Fits.takes_iff {e : Embedding α} (h : e.Fits .single vocab hidden) {t : UInt32} :
    e.Takes vocab t ↔ t.toNat < vocab := by
  cases h with
  | whole table single shape => exact Iff.rfl
  | vocabulary shard shared world range shape => exact absurd shared (lt_irrefl 1)

/-- The group splits a vocabulary into parts of the same size, none of them empty. -/
structure Group.Splits (g : Group) (vocab : Nat) : Prop where
  pos : 0 < vocab
  word : vocab < wordCount
  divides : g.world ∣ vocab

theorem Group.Splits.share_pos (h : g.Splits vocab) : 0 < vocab / g.world :=
  Nat.div_pos (Nat.le_of_dvd h.pos h.divides) (by have := g.rank_lt; omega)

theorem Group.Splits.range_eq {start stop : Nat} (h : g.Splits vocab)
    (range : (start, stop) = vocabularyRange vocab g.world g.rank) :
    start = g.rank * (vocab / g.world) ∧ stop = start + vocab / g.world := by
  rw [vocabularyRange_of_dvd h.divides g.rank_lt h.word, Prod.mk.injEq] at range
  exact ⟨range.1, by rw [range.1, range.2, Nat.succ_mul]⟩

section Lookup

variable [Zero α] [One α] [Mul α]

theorem VocabularyShard.partialRows_eq {shard : VocabularyShard α} (h : shard.start < shard.stop)
    (hshape : shard.table.shape = [shard.stop - shard.start, hidden]) (tokens : List UInt32) :
    shard.partialRows (tokens.map fun t => (t.toNat : Int)) = .ok (tokens.map shard.row) := by
  have hlook : shard.table.lookup ((tokens.map fun t => (t.toNat : Int)).map shard.localRow) =
      .ok (((tokens.map fun t => (t.toNat : Int)).map shard.localRow).map shard.table.tableRow) :=
    (Tensor.lookup_eq_ok_iff hshape).mpr ⟨fun i hi => by
      obtain ⟨t, -, rfl⟩ := List.mem_map.mp hi
      exact shard.localRow_mem h t, rfl⟩
  rw [VocabularyShard.partialRows, hlook]
  change Except.ok _ = Except.ok _
  rw [List.map_map, List.map_map, List.zip_map', List.map_map]
  rfl

omit [Zero α] [One α] [Mul α] in
theorem reshape_tokens {tokens : Tensor UInt32} {n : Nat} (hshape : tokens.shape = [n])
    {zs : Tensor α} {f : UInt32 → List α} (hzs : zs.IsMatrix hidden (tokens.data.map f)) :
    zs.reshape ((⟨.u32, tokens⟩ : AnyTensor).shape ++ [hidden]) = .ok zs := by
  have hn : tokens.data.length = n := by rw [tokens.length_data, hshape]; simp [entryCount]
  exact reshape_eq
    (by rw [hzs.shape, List.length_map, hn]; exact congrArg (· ++ [hidden]) hshape.symm)

/-- **A worker adds its own rows** to those of the others. -/
theorem VocabularyShard.apply_eq {shard : VocabularyShard α} (shared : 1 < shard.world)
    (h : shard.start < shard.stop) (hshape : shard.table.shape = [shard.stop - shard.start, hidden])
    {tokens : Tensor UInt32} {own : Tensor α}
    (hown : Tensor.ofRows [tokens.data.length] hidden (tokens.data.map shard.row) = .ok own) :
    shard.apply ⟨.u32, tokens⟩ =
      .allReduce own fun sum => .ofExcept (sum.mapError .tensor) >>= fun sum =>
        .ofExcept ((sum.reshape ((⟨.u32, tokens⟩ : AnyTensor).shape ++ [hidden])).mapError
          .tensor) := by
  have hcols : shard.table.shape[1]? = some hidden := by rw [hshape]; rfl
  have hworld : ¬ shard.world = 1 := by omega
  have hids := cast_u32_i64 tokens
  have hpart := shard.partialRows_eq h hshape tokens.data
  unfold VocabularyShard.apply
  simp only [hcols, hworld, if_false, hids, tokenIndices, hpart, Except.mapError,
    Collective.ofExcept_ok, Collective.done_bind, List.length_map, hown]
  rfl

theorem Embedding.length_row {e : Embedding α} (h : e.Fits g vocab hidden)
    (splits : g.Splits vocab) {t : UInt32} (ht : e.Takes vocab t) : (e.row t).length = hidden := by
  cases h with
  | whole table single shape => exact Tensor.length_tableRow shape ht
  | vocabulary shard shared world range shape =>
    have hlt : shard.start < shard.stop := by
      have := splits.share_pos
      have := (splits.range_eq range).2
      omega
    rw [Embedding.row, VocabularyShard.row, List.length_map]
    exact Tensor.length_tableRow shape (shard.localRow_mem hlt _).2

theorem Embedding.simulate_apply {e : Embedding α} (h : e.Fits g vocab hidden)
    (splits : g.Splits vocab) {tokens : Tensor UInt32} {n : Nat} (hshape : tokens.shape = [n])
    (takes : ∀ t ∈ tokens.data, e.Takes vocab t) :
    ∃ zs, (e.apply ⟨.u32, tokens⟩).simulate g = .ok zs ∧
      zs.IsMatrix hidden (tokens.data.map e.row) := by
  have hn : tokens.data.length = n := by rw [tokens.length_data, hshape]; simp [entryCount]
  have hrows : ∀ row ∈ tokens.data.map e.row, row.length = hidden := fun row hrow => by
    obtain ⟨t, ht, rfl⟩ := List.mem_map.mp hrow
    exact Embedding.length_row h splits (takes t ht)
  obtain ⟨zs, hzs, hm⟩ := Tensor.ofRows_eq (n := n) (by rw [List.length_map, hn]) hrows
  refine ⟨zs, ?_, hm⟩
  cases h with
  | whole table single shape =>
    have hlook : table.lookup (tokenIndices tokens) =
        .ok ((tokenIndices tokens).map table.tableRow) :=
      (Tensor.lookup_eq_ok_iff shape).mpr ⟨fun i hi => by
        obtain ⟨t, ht, rfl⟩ := List.mem_map.mp hi
        exact ⟨Int.natCast_nonneg _, takes t ht⟩, rfl⟩
    obtain ⟨ids, hids, hidShape, hidData⟩ := integers_u32 tokens
    rw [Embedding.apply, Collective.simulate_ofExcept, mapError_eq_ok, Embedding.applyWhole, hids]
    simp only [hidShape, hidData, hlook]
    rw [tokenIndices, List.map_map, hshape]
    exact hzs
  | vocabulary shard shared world range shape =>
    have hlt : shard.start < shard.stop := by
      have := splits.share_pos
      have := (splits.range_eq range).2
      omega
    have hown : Tensor.ofRows [tokens.data.length] hidden (tokens.data.map shard.row) = .ok zs := by
      rw [hn]
      exact hzs
    rw [Embedding.apply, Collective.simulate_mapFault_eq_ok,
      VocabularyShard.apply_eq (by rwa [world]) hlt shape hown, Collective.simulate]
    refine Collective.simulate_bind_eq_ok.mpr ⟨zs, Collective.simulate_ofExcept g _, ?_⟩
    rw [reshape_tokens hshape hm]
    exact Collective.simulate_ofExcept g _

theorem Embedding.simulate_apply_error {e : Embedding α} (h : e.Fits g vocab hidden)
    {tokens : Tensor UInt32} (hout : ∃ t ∈ tokens.data, ¬ e.Takes vocab t) :
    (e.apply ⟨.u32, tokens⟩).simulate g = .error (.whole .index) := by
  obtain ⟨t, ht, hnot⟩ := hout
  cases h with
  | whole table single shape =>
    have hlook : table.lookup (tokenIndices tokens) = .error .index :=
      Tensor.lookup_eq_error shape ⟨t.toNat, List.mem_map_of_mem ht, fun hin => hnot hin.2⟩
    obtain ⟨ids, hids, -, hidData⟩ := integers_u32 tokens
    rw [Embedding.apply, Collective.simulate_ofExcept, Embedding.applyWhole, hids]
    simp only [hidData, hlook]
    rfl
  | vocabulary shard shared world range shape => exact absurd trivial hnot

theorem Embedding.takes_of_simulate {e : Embedding α} (h : e.Fits g vocab hidden)
    {tokens : Tensor UInt32} {zs : Tensor α}
    (hzs : (e.apply ⟨.u32, tokens⟩).simulate g = .ok zs) : ∀ t ∈ tokens.data, e.Takes vocab t := by
  cases h with
  | whole table single shape =>
    obtain ⟨ids, hids, hidShape, hidData⟩ := integers_u32 tokens
    rw [Embedding.apply, Collective.simulate_ofExcept, mapError_eq_ok, Embedding.applyWhole, hids]
      at hzs
    obtain ⟨rows, hrows, -⟩ := bind_eq_ok.mp hzs
    rw [hidData] at hrows
    have hall := ((Tensor.lookup_eq_ok_iff shape).mp hrows).1
    exact fun t ht => (hall t.toNat (List.mem_map_of_mem ht)).2
  | vocabulary shard shared world range shape => exact fun _ _ => trivial

end Lookup

end DraftHeads
