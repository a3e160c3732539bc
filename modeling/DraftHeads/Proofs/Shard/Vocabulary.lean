import DraftHeads.Proofs.Number.Masks
import DraftHeads.Proofs.Shard.Sharing
import Mathlib.Data.List.Forall2

/-! # Look-ups in a split table

The workers of a group that split a table along the vocabulary, evenly or not, look tokens up
together; the ranges of the last workers can be shorter than the others, or empty.

* `vocabularyRange_of_lt`: the range of a worker, which is empty unless the worker `Keeps` rows.
* `sumRows_masked`: rows of zeros and one other row add up to that row.
* `rowAt_owner`, `rowAt_foreign`: a worker gives the row of its own token, and zeros for all others.
* `lookup_shares`: the workers with rows hand in parts that add up to the rows of the whole table;
  a worker without rows cannot look anything up. -/

namespace DraftHeads

/-! ### Sums of masked rows -/

section Sums

variable {α : Type} [Zero α] [One α] [Add α] [Mul α] {IsFinite IsZero : α → Prop}

/-- Rows with the same numbers up to the signs of zeros. -/
abbrev SameRow (IsZero : α → Prop) : List α → List α → Prop :=
  List.Forall₂ (SameUpToZero IsZero)

variable (laws : Maskable IsFinite IsZero)
include laws

theorem Maskable.add_isZero {x z : α} (hx : IsZero x) (hz : IsZero z) : IsZero (x + z) := by
  rcases laws.add_zero (laws.finite_of_zero hx) hz with h | ⟨h, -⟩
  · rwa [h]
  · exact h

theorem Maskable.same_add_zero {a x z : α} (hx : IsFinite x) (h : SameUpToZero IsZero a x)
    (hz : IsZero z) : SameUpToZero IsZero (a + z) x := by
  rcases h with rfl | ⟨ha, hx'⟩
  · exact laws.add_zero hx hz
  · exact Or.inr ⟨laws.add_isZero ha hz, hx'⟩

theorem zipWith_isZero : ∀ {x z : List α}, (∀ a ∈ x, IsZero a) → (∀ a ∈ z, IsZero a) →
    ∀ a ∈ List.zipWith (· + ·) x z, IsZero a
  | [], _, _, _, a, ha => by simp at ha
  | _ :: _, [], _, _, a, ha => by simp at ha
  | x :: xs, z :: zs, hx, hz, a, ha => by
    rw [List.forall_mem_cons] at hx hz
    rcases List.mem_cons.mp ha with rfl | ha
    · exact laws.add_isZero hx.1 hz.1
    · exact zipWith_isZero hx.2 hz.2 a ha

theorem sameRow_zipWith_zeros : ∀ {y x z : List α}, SameRow IsZero y x → (∀ a ∈ x, IsFinite a) →
    z.length = x.length → (∀ a ∈ z, IsZero a) → SameRow IsZero (List.zipWith (· + ·) y z) x
  | [], [], _, _, _, _, _ => by simp
  | _ :: _, _ :: _, [], _, _, hlen, _ => by simp at hlen
  | y :: ys, x :: xs, z :: zs, h, hx, hlen, hz => by
    rw [List.forall_mem_cons] at hx hz
    obtain ⟨h, hs⟩ := List.forall₂_cons.mp h
    exact .cons (laws.same_add_zero hx.1 h hz.1)
      (sameRow_zipWith_zeros hs hx.2 (Nat.succ.inj hlen) hz.2)

theorem zeros_zipWith_sameRow : ∀ {z x : List α}, (∀ a ∈ z, IsZero a) → (∀ a ∈ x, IsFinite a) →
    z.length = x.length → SameRow IsZero (List.zipWith (· + ·) z x) x
  | [], [], _, _, _ => by simp
  | z :: zs, x :: xs, hz, hx, hlen => by
    rw [List.forall_mem_cons] at hx hz
    exact .cons (laws.zero_add hx.1 hz.1) (zeros_zipWith_sameRow hz.2 hx.2 (Nat.succ.inj hlen))

theorem sameRow_foldl : ∀ {zs : List (List α)} {y x : List α}, SameRow IsZero y x →
    (∀ a ∈ x, IsFinite a) → (∀ z ∈ zs, z.length = x.length ∧ ∀ a ∈ z, IsZero a) →
      SameRow IsZero (zs.foldl (List.zipWith (· + ·)) y) x
  | [], _, _, h, _, _ => h
  | z :: zs, y, x, h, hx, hz => by
    rw [List.forall_mem_cons] at hz
    rw [List.foldl_cons]
    exact sameRow_foldl (sameRow_zipWith_zeros laws h hx hz.1.1 hz.1.2) hx hz.2

theorem zeros_foldl : ∀ {zs : List (List α)} {y : List α} {n : Nat},
    y.length = n ∧ (∀ a ∈ y, IsZero a) → (∀ z ∈ zs, z.length = n ∧ ∀ a ∈ z, IsZero a) →
      (zs.foldl (List.zipWith (· + ·)) y).length = n ∧
        ∀ a ∈ zs.foldl (List.zipWith (· + ·)) y, IsZero a
  | [], _, _, hy, _ => hy
  | z :: zs, y, n, hy, hz => by
    rw [List.forall_mem_cons] at hz
    rw [List.foldl_cons]
    refine zeros_foldl ⟨?_, zipWith_isZero laws hy.2 hz.1.2⟩ hz.2
    rw [List.length_zipWith, hy.1, hz.1.1, Nat.min_self]

/-- **Rows of zeros and one other row add up to that row.** -/
theorem sumRows_masked {before after : List (List α)} {x : List α} (hx : ∀ a ∈ x, IsFinite a)
    (hbefore : ∀ z ∈ before, z.length = x.length ∧ ∀ a ∈ z, IsZero a)
    (hafter : ∀ z ∈ after, z.length = x.length ∧ ∀ a ∈ z, IsZero a) :
    SameRow IsZero (sumRows (before ++ x :: after)) x := by
  cases before with
  | nil =>
    have hself : SameRow IsZero x x := List.forall₂_same.mpr fun _ _ => Or.inl rfl
    exact sameRow_foldl laws hself hx hafter
  | cons z zs =>
    rw [List.forall_mem_cons] at hbefore
    obtain ⟨hlen, hzero⟩ := zeros_foldl laws hbefore.1 hbefore.2
    rw [List.cons_append, sumRows, List.foldl_append, List.foldl_cons]
    exact sameRow_foldl laws (zeros_zipWith_sameRow laws hzero hx hlen) hx hafter

end Sums

/-! ### Ranges -/

/-- Does the worker keep a row of the table? -/
def Keeps (vocab world rank : Nat) : Prop := rank * rowsPerWorker vocab world < vocab

instance (vocab world rank : Nat) : Decidable (Keeps vocab world rank) :=
  inferInstanceAs (Decidable (_ < _))

variable {vocab hidden world rank : Nat}

theorem le_mul_rowsPerWorker (hworld : 0 < world) : vocab ≤ world * rowsPerWorker vocab world := by
  have hdiv := Nat.div_add_mod (vocab + world - 1) world
  have hmod := Nat.mod_lt (vocab + world - 1) hworld
  rw [rowsPerWorker]
  omega

theorem mul_rowsPerWorker_le (hworld : 0 < world) :
    world * rowsPerWorker vocab world + 1 ≤ vocab + world := by
  have hdiv := Nat.div_add_mod (vocab + world - 1) world
  rw [rowsPerWorker]
  omega

theorem vocabularyRange_of_lt (hlt : (rank + 1) * rowsPerWorker vocab world < wordCount) :
    vocabularyRange vocab world rank = (min (rank * rowsPerWorker vocab world) vocab,
      min ((rank + 1) * rowsPerWorker vocab world) vocab) := by
  have hle : rank * rowsPerWorker vocab world ≤ (rank + 1) * rowsPerWorker vocab world :=
    Nat.mul_le_mul_right _ (Nat.le_succ rank)
  rw [vocabularyRange]
  simp only [Nat.mod_eq_of_lt hlt, Nat.mod_eq_of_lt (hle.trans_lt hlt)]

/-- The end of a range can be counted if the table and the group are not too large. -/
theorem succ_mul_rowsPerWorker_lt (hvocab : vocab ≤ maxBytes) (hword : world < wordCount)
    (hrank : rank < world) : (rank + 1) * rowsPerWorker vocab world < wordCount := by
  have hle : (rank + 1) * rowsPerWorker vocab world ≤ world * rowsPerWorker vocab world :=
    Nat.mul_le_mul_right _ hrank
  have hbytes : maxBytes < 2 ^ 63 := by decide
  have hcount : wordCount = 2 ^ 64 := rfl
  have hsum : world * rowsPerWorker vocab world + 1 ≤ vocab + world :=
    mul_rowsPerWorker_le (by omega)
  rcases Nat.lt_or_ge vocab world with h | h
  · -- every worker has one row at most
    have hone : rowsPerWorker vocab world ≤ 1 := by
      rw [rowsPerWorker]
      exact Nat.lt_succ_iff.mp ((Nat.div_lt_iff_lt_mul (by omega)).mpr (by omega))
    have := Nat.mul_le_mul_left (rank + 1) hone
    omega
  · omega

theorem rowsPerWorker_pos (hworld : 0 < world) (hvocab : 0 < vocab) :
    0 < rowsPerWorker vocab world :=
  Nat.pos_of_ne_zero fun hzero => by
    have : vocab ≤ world * rowsPerWorker vocab world := le_mul_rowsPerWorker hworld
    rw [hzero] at this
    omega

theorem owner_iff (hworld : 0 < world) {t : Nat} (ht : t < vocab) :
    rank = t / rowsPerWorker vocab world ↔ min (rank * rowsPerWorker vocab world) vocab ≤ t ∧
      t < min ((rank + 1) * rowsPerWorker vocab world) vocab := by
  have hshare := rowsPerWorker_pos hworld (Nat.zero_lt_of_lt ht)
  rw [eq_comm, Nat.div_eq_iff hshare, Nat.succ_mul]
  omega

theorem owner_keeps (hworld : 0 < world) {t : Nat} (ht : t < vocab) :
    t / rowsPerWorker vocab world < world ∧ Keeps vocab world (t / rowsPerWorker vocab world) := by
  have hle : vocab ≤ world * rowsPerWorker vocab world := le_mul_rowsPerWorker hworld
  refine ⟨Nat.div_lt_of_lt_mul (by rw [Nat.mul_comm]; omega), ?_⟩
  exact (Nat.div_mul_le_self t _).trans_lt ht

/-! ### Shares -/

namespace VocabularyShard

variable {α : Type} {table : Tensor α} {shard : VocabularyShard α}

/-- What a worker keeps of a table. -/
structure IsShare (table : Tensor α) (vocab hidden world rank : Nat) (shard : VocabularyShard α) :
    Prop where
  world_eq : shard.world = world
  start_eq : shard.start = min (rank * rowsPerWorker vocab world) vocab
  stop_eq : shard.stop = min ((rank + 1) * rowsPerWorker vocab world) vocab
  shape : shard.table.shape = [shard.stop - shard.start, hidden]
  rows : shard.table.rows = (table.rows.drop shard.start).take (shard.stop - shard.start)
  subset : shard.table.data ⊆ table.data

theorem exists_ofTable {rest : List Nat} (hshape : table.shape = vocab :: rest)
    (hworld : 0 < world) (hlt : (rank + 1) * rowsPerWorker vocab world < wordCount) :
    ∃ part, ofTable table world rank =
        .ok ⟨part, world, min (rank * rowsPerWorker vocab world) vocab,
          min ((rank + 1) * rowsPerWorker vocab world) vocab⟩ ∧
      table.slice (min (rank * rowsPerWorker vocab world) vocab)
        (min ((rank + 1) * rowsPerWorker vocab world) vocab) = .ok part := by
  have hle : min (rank * rowsPerWorker vocab world) vocab ≤
      min ((rank + 1) * rowsPerWorker vocab world) vocab :=
    min_le_min_right _ (Nat.mul_le_mul_right _ (Nat.le_succ rank))
  obtain ⟨part, hpart⟩ := exists_slice hshape hle (min_le_right _ _)
  refine ⟨part, ?_, hpart⟩
  unfold ofTable
  simp only [hshape, if_neg hworld.ne', vocabularyRange_of_lt hlt, Nat.max_eq_right hle, hpart]

theorem exists_share (hshape : table.shape = [vocab, hidden]) (hvocab : vocab ≤ maxBytes)
    (hword : world < wordCount) (hrank : rank < world) :
    ∃ shard, ofTable table world rank = .ok shard ∧
      shard.IsShare table vocab hidden world rank := by
  obtain ⟨part, htable, hpart⟩ := exists_ofTable hshape (by omega : 0 < world)
    (succ_mul_rowsPerWorker_lt hvocab hword hrank)
  obtain ⟨hpartShape, hpartData⟩ := slice_ok hshape hpart
  refine ⟨_, htable, rfl, rfl, rfl, hpartShape, ?_, ?_⟩
  · have hrows := Tensor.length_rows hshape
    exact (slice_isMatrix (Tensor.isMatrix_of_shape hshape) (by omega) hpart).rows_eq
  · rw [hpartData]
    exact fun x hx => List.mem_of_mem_drop (List.mem_of_mem_take hx)

theorem IsShare.start_lt_iff (h : shard.IsShare table vocab hidden world rank)
    (hworld : 0 < world) : shard.start < shard.stop ↔ Keeps vocab world rank := by
  rw [h.start_eq, h.stop_eq, Keeps, Nat.succ_mul]
  constructor
  · omega
  · intro hkeeps
    have : 0 < rowsPerWorker vocab world := rowsPerWorker_pos hworld (by omega)
    omega

theorem mem_tableRow {n : Nat} (hshape : table.shape = [n, hidden]) {i : Int} (hi : i.toNat < n)
    {a : α} (ha : a ∈ table.tableRow i) : a ∈ table.data := by
  have hm := Tensor.isMatrix_of_shape hshape
  rw [Tensor.tableRow, List.getD_eq_getElem _ _ (by rwa [Tensor.length_rows hshape])] at ha
  rw [hm.data]
  exact List.mem_flatten_of_mem (List.getElem_mem _) ha

/-- **The row that a worker looks up for a token** is the one at the place in its range that is
nearest to the token, as long as places are told apart. -/
theorem IsShare.tableRow_localRow (h : shard.IsShare table vocab hidden world rank)
    (hlt : shard.start < shard.stop) (hvocab : vocab ≤ maxBytes)
    (hplaces : rowsPerWorker vocab world ≤ placeCount) {t : Nat} (ht : t < vocab) :
    shard.table.tableRow (shard.localRow t) =
      table.tableRow (min (max t shard.start) (shard.stop - 1) : Nat) := by
  have hbytes : maxBytes < 2 ^ 63 := by decide
  have hcount : wordCount = 2 ^ 64 := rfl
  have hstop : shard.stop ≤ vocab := by rw [h.stop_eq]; exact min_le_right _ _
  have hrange : shard.stop - shard.start ≤ placeCount := by
    rw [h.start_eq, h.stop_eq, Nat.succ_mul]
    omega
  set place : Nat := min (max t shard.start) (shard.stop - 1) with hplace
  have hlocal : shard.localRow t = (place - shard.start : Nat) := by
    have hbmod : ((t : Int) - shard.start).bmod wordCount = (t : Int) - shard.start :=
      Int.bmod_eq_of_le_mul_two (by omega) (by omega)
    rw [localRow, hbmod]
    rw [Int.emod_eq_of_lt (by omega) (by omega)]
    omega
  rw [hlocal, Tensor.tableRow, Tensor.tableRow, Int.toNat_natCast, Int.toNat_natCast,
    List.getD_eq_getElem?_getD, List.getD_eq_getElem?_getD, h.rows, List.getElem?_take,
    if_pos (by omega), List.getElem?_drop, Nat.add_sub_cancel' (by omega)]

section Rows

variable [Zero α] [One α] [Mul α]

/-- The worker's row for a token, masked if the token is not its own. -/
def rowAt (shard : VocabularyShard α) (token : Int) : List α :=
  (shard.table.tableRow (shard.localRow token)).map (· * if shard.owns token then 1 else 0)

theorem IsShare.partialRows_eq (h : shard.IsShare table vocab hidden world rank)
    (hlt : shard.start < shard.stop) (tokens : List Int) :
    shard.partialRows tokens = .ok (tokens.map shard.rowAt) := by
  have hlook : shard.table.lookup (tokens.map shard.localRow) =
      .ok ((tokens.map shard.localRow).map shard.table.tableRow) :=
    (Tensor.lookup_eq_ok_iff h.shape).mpr ⟨fun i hi => by
      obtain ⟨t, -, rfl⟩ := List.mem_map.mp hi
      exact shard.localRow_mem hlt t, rfl⟩
  have hzip : tokens.zip ((tokens.map shard.localRow).map shard.table.tableRow) =
      tokens.map fun t => (t, shard.table.tableRow (shard.localRow t)) := by
    rw [List.map_map]
    simpa using List.zip_map' (f := id) (g := shard.table.tableRow ∘ shard.localRow) (l := tokens)
  rw [partialRows, hlook]
  change Except.ok _ = Except.ok _
  rw [hzip, List.map_map]
  rfl

theorem IsShare.length_rowAt (h : shard.IsShare table vocab hidden world rank)
    (hlt : shard.start < shard.stop) (token : Int) : (shard.rowAt token).length = hidden := by
  rw [rowAt, List.length_map, Tensor.length_tableRow h.shape (shard.localRow_mem hlt token).2]

theorem IsShare.partialRows_eq_error (h : shard.IsShare table vocab hidden world rank)
    (hle : shard.stop ≤ shard.start) {tokens : List Int} (hne : tokens ≠ []) :
    shard.partialRows tokens = .error .index := by
  obtain ⟨t, tokens, rfl⟩ := List.exists_cons_of_ne_nil hne
  have hlook : shard.table.lookup ((t :: tokens).map shard.localRow) = .error .index :=
    Tensor.lookup_eq_error h.shape ⟨shard.localRow t, by simp, by omega⟩
  rw [partialRows, hlook]
  rfl

variable [Add α] {IsFinite IsZero : α → Prop} (laws : Maskable IsFinite IsZero)
include laws

theorem IsShare.rowAt_owner (h : shard.IsShare table vocab hidden world rank) (hworld : 0 < world)
    (hshape : table.shape = [vocab, hidden]) (hvocab : vocab ≤ maxBytes)
    (hplaces : rowsPerWorker vocab world ≤ placeCount) (hfinite : ∀ a ∈ table.data, IsFinite a)
    {t : Nat} (ht : t < vocab) (howner : rank = t / rowsPerWorker vocab world) :
    shard.rowAt t = table.tableRow t := by
  obtain ⟨hle, hlt⟩ := (owner_iff hworld ht).mp howner
  rw [← h.start_eq] at hle
  rw [← h.stop_eq] at hlt
  have howns : shard.owns t = true := decide_eq_true ⟨by omega, by omega⟩
  have hplace : min (max t shard.start) (shard.stop - 1) = t := by omega
  rw [rowAt, h.tableRow_localRow (by omega) hvocab hplaces ht, hplace, if_pos howns]
  refine (List.map_congr_left fun a ha => ?_).trans (List.map_id _)
  exact laws.mul_one (hfinite a (mem_tableRow hshape (by rwa [Int.toNat_natCast]) ha))

/-- **A worker gives zeros** for what is no token of its own, be it a token at all. -/
theorem IsShare.rowAt_foreign (h : shard.IsShare table vocab hidden world rank)
    (hlt : shard.start < shard.stop) (hfinite : ∀ a ∈ table.data, IsFinite a) {i : Int}
    (howns : ¬ shard.owns i = true) :
    (shard.rowAt i).length = hidden ∧ ∀ a ∈ shard.rowAt i, IsZero a := by
  have hplace := (shard.localRow_mem hlt i).2
  refine ⟨h.length_rowAt hlt i, fun a ha => ?_⟩
  rw [rowAt, if_neg howns] at ha
  obtain ⟨x, hx, rfl⟩ := List.mem_map.mp ha
  exact laws.mul_zero (hfinite x (h.subset (mem_tableRow h.shape hplace hx)))

theorem IsShare.rowAt_other (h : shard.IsShare table vocab hidden world rank) (hworld : 0 < world)
    (hkeeps : Keeps vocab world rank) (hfinite : ∀ a ∈ table.data, IsFinite a) {t : Nat}
    (ht : t < vocab) (howner : rank ≠ t / rowsPerWorker vocab world) :
    (shard.rowAt t).length = hidden ∧ ∀ a ∈ shard.rowAt t, IsZero a := by
  refine h.rowAt_foreign laws ((h.start_lt_iff hworld).mpr hkeeps) hfinite fun howns => ?_
  have := of_decide_eq_true howns
  exact howner ((owner_iff hworld ht).mpr (by rw [← h.start_eq, ← h.stop_eq]; omega))

end Rows

/-! ### Look-ups -/

theorem toInt_convert_u8 (t : UInt8) :
    Int64.toInt (DType.convert .u8 .i64 t) = (t.toNat : Int) := by
  have ht := t.toNat_lt
  change (Int64.ofInt (t.toNat : Int)).toInt = _
  rw [Int64.toInt_ofInt_of_le]
  · simp
  · simp; omega

theorem cast_of_integers? {tokens : AnyTensor} {ids : Tensor Int}
    (h : tokens.integers? = some ids) : ids.shape = tokens.shape ∧
      ((tokens.cast .i64).map Int64.toInt).data = ids.data := by
  obtain ⟨d, t⟩ := tokens
  cases d with
  | u8 =>
    cases h
    refine ⟨rfl, ?_⟩
    change (t.map (DType.convert .u8 .i64)).data.map Int64.toInt = _
    rw [Tensor.data_map, List.map_map]
    exact List.map_congr_left fun x _ => toInt_convert_u8 x
  | u32 =>
    cases h
    refine ⟨rfl, ?_⟩
    change (t.map (DType.convert .u32 .i64)).data.map Int64.toInt = _
    rw [Tensor.data_map, List.map_map]
    exact List.map_congr_left fun x _ => toInt_convert_u32 x
  | i64 =>
    cases h
    exact ⟨rfl, rfl⟩
  | f16 => cases h
  | bf16 => cases h
  | f32 => cases h
  | f64 => cases h

variable [Zero α] [One α] [Mul α]

/-- What a worker does after its part is handed in: it puts the sum into the shape of the tokens. -/
def afterSum (shape : List Nat) (out : Except TensorFault (Tensor α)) :
    Collective α ShardFault (Tensor α) :=
  .ofExcept (out.mapError .tensor) >>= fun sum =>
    .ofExcept ((sum.reshape shape).mapError .tensor)

omit [Zero α] [One α] [Mul α] in
theorem IsShare.table_eq (h : shard.IsShare table vocab hidden 1 0)
    (hshape : table.shape = [vocab, hidden]) : shard.table = table := by
  have hstart : shard.start = 0 := by rw [h.start_eq, Nat.zero_mul, Nat.zero_min]
  have hstop : shard.stop = vocab := by
    rw [h.stop_eq, rowsPerWorker]
    simp
  refine Tensor.IsMatrix.unique (w := hidden) (Tensor.isMatrix_of_shape h.shape) ?_
  rw [h.rows, hstart, hstop, List.drop_zero, Nat.sub_zero,
    List.take_of_length_le (Tensor.length_rows hshape).le]
  exact Tensor.isMatrix_of_shape hshape

theorem IsShare.apply_single (h : shard.IsShare table vocab hidden world rank) (hone : world = 1)
    (hrank : rank < world) (hshape : table.shape = [vocab, hidden]) {tokens : AnyTensor}
    {ids : Tensor Int} (hids : tokens.integers? = some ids) {rows : List (List α)}
    {whole : Tensor α} (hlook : table.lookup ids.data = .ok rows)
    (hwhole : Tensor.ofRows ids.shape hidden rows = .ok whole) :
    shard.apply tokens = .done whole := by
  subst hone
  obtain rfl : rank = 0 := by omega
  have hcols : table.shape[1]? = some hidden := by rw [hshape]; rfl
  unfold VocabularyShard.apply
  simp only [h.table_eq hshape, hcols, h.world_eq, if_true, hids, hlook, Except.mapError,
    Collective.ofExcept_ok, Collective.done_bind, hwhole]

theorem IsShare.apply_eq (h : shard.IsShare table vocab hidden world rank) (hmany : world ≠ 1)
    (hlt : shard.start < shard.stop) {tokens : AnyTensor} {ids : Tensor Int}
    (hids : tokens.integers? = some ids) {own : Tensor α}
    (hown : Tensor.ofRows [ids.data.length] hidden (ids.data.map shard.rowAt) = .ok own) :
    shard.apply tokens = .allReduce own (afterSum (tokens.shape ++ [hidden])) := by
  have hcols : shard.table.shape[1]? = some hidden := by rw [h.shape]; rfl
  have hworld : ¬ shard.world = 1 := by rwa [h.world_eq]
  obtain ⟨-, hcast⟩ := cast_of_integers? hids
  unfold VocabularyShard.apply
  simp only [hcols, hworld, if_false, hcast, h.partialRows_eq hlt, Except.mapError,
    Collective.ofExcept_ok, Collective.done_bind, hown]
  rfl

/-- **A worker without rows** cannot look anything up. -/
theorem IsShare.apply_eq_fail (h : shard.IsShare table vocab hidden world rank) (hmany : world ≠ 1)
    (hle : shard.stop ≤ shard.start) {tokens : AnyTensor} {ids : Tensor Int}
    (hids : tokens.integers? = some ids) (hne : ids.data ≠ []) :
    shard.apply tokens = .fail (.tensor .index) := by
  have hcols : shard.table.shape[1]? = some hidden := by rw [h.shape]; rfl
  have hworld : ¬ shard.world = 1 := by rwa [h.world_eq]
  obtain ⟨-, hcast⟩ := cast_of_integers? hids
  unfold VocabularyShard.apply
  simp only [hcols, hworld, if_false, hcast, h.partialRows_eq_error hle hne, Except.mapError]
  rfl

end VocabularyShard

/-! ### Groups -/

/-- The workers that keep rows, in the order of the ranks. -/
def keepers (vocab world : Nat) : List (Fin world) :=
  (List.finRange world).filter fun r => Keeps vocab world r

theorem mem_keepers {r : Fin world} : r ∈ keepers vocab world ↔ Keeps vocab world r := by
  simp [keepers]

theorem nodup_keepers : (keepers vocab world).Nodup := (List.nodup_finRange world).filter _

theorem keepers_eq_finRange (hall : ∀ r : Fin world, Keeps vocab world r) :
    keepers vocab world = List.finRange world :=
  List.filter_eq_self.mpr fun r _ => decide_eq_true (hall r)

theorem exists_split_of_nodup {β : Type} {l : List β} (hnodup : l.Nodup) {a : β} (ha : a ∈ l) :
    ∃ before after, l = before ++ a :: after ∧ (∀ b ∈ before, b ≠ a) ∧ ∀ b ∈ after, b ≠ a := by
  obtain ⟨before, after, rfl⟩ := List.append_of_mem ha
  rw [List.nodup_middle, List.nodup_cons, List.mem_append] at hnodup
  refine ⟨before, after, rfl, fun b hb heq => ?_, fun b hb heq => ?_⟩
  · exact hnodup.1 (Or.inl (heq ▸ hb))
  · exact hnodup.1 (Or.inr (heq ▸ hb))

section Group

variable {α : Type} [Zero α] [One α] [Add α] [Mul α] {IsFinite IsZero : α → Prop}
  {table : Tensor α} {shard : Fin world → VocabularyShard α}

/-- **The rows that the workers give for a token** add up to its row of the table. -/
theorem sumRows_keepers (laws : Maskable IsFinite IsZero)
    (hshares : ∀ r, (shard r).IsShare table vocab hidden world r) (hworld : 0 < world)
    (hshape : table.shape = [vocab, hidden]) (hvocab : vocab ≤ maxBytes)
    (hplaces : rowsPerWorker vocab world ≤ placeCount) (hfinite : ∀ a ∈ table.data, IsFinite a)
    {t : Nat} (ht : t < vocab) :
    SameRow IsZero (sumRows ((keepers vocab world).map fun r => (shard r).rowAt t))
      (table.tableRow t) := by
  obtain ⟨howner, hkeeps⟩ := owner_keeps hworld ht
  set owner : Fin world := ⟨t / rowsPerWorker vocab world, howner⟩
  obtain ⟨before, after, hsplit, hbefore, hafter⟩ :=
    exists_split_of_nodup nodup_keepers (mem_keepers (r := owner).mpr hkeeps)
  have hmem : (t : Int).toNat < vocab := by rwa [Int.toNat_natCast]
  have hother : ∀ r ∈ keepers vocab world, r ≠ owner →
      ((shard r).rowAt t).length = (table.tableRow t).length ∧
        ∀ a ∈ (shard r).rowAt t, IsZero a := fun r hr hne => by
    rw [Tensor.length_tableRow hshape hmem]
    exact (hshares r).rowAt_other laws hworld (mem_keepers.mp hr) hfinite ht
      fun heq => hne (Fin.ext heq)
  rw [hsplit] at hother ⊢
  rw [List.map_append, List.map_cons,
    (hshares owner).rowAt_owner laws hworld hshape hvocab hplaces hfinite ht rfl]
  refine sumRows_masked laws (fun a ha => hfinite a (VocabularyShard.mem_tableRow hshape hmem ha))
    (fun z hz => ?_) fun z hz => ?_
  · obtain ⟨r, hr, rfl⟩ := List.mem_map.mp hz
    exact hother r (by simp [hr]) (hbefore r hr)
  · obtain ⟨r, hr, rfl⟩ := List.mem_map.mp hz
    exact hother r (by simp [hr]) (hafter r hr)

theorem exists_addAll (hkeeper : keepers vocab world ≠ []) {ids : List Int}
    {own : Fin world → Tensor α} (hown : ∀ r : Fin world, Keeps vocab world r →
      (own r).IsMatrix hidden (ids.map (shard r).rowAt)) :
    ∃ sum, Tensor.addAll ((keepers vocab world).map own) = .ok sum ∧
      sum.IsMatrix hidden
        (ids.map fun i => sumRows ((keepers vocab world).map fun r => (shard r).rowAt i)) := by
  have hparts : ∀ p ∈ (keepers vocab world).map fun r => (own r, (shard r).rowAt),
      p.1.IsMatrix hidden (ids.map p.2) := fun p hp => by
    obtain ⟨r, hr, rfl⟩ := List.mem_map.mp hp
    exact hown r (mem_keepers.mp hr)
  obtain ⟨sum, hsum, hm⟩ := addAll_eq (by simpa using hkeeper) hparts
  simp only [List.map_map] at hsum hm
  exact ⟨sum, hsum, hm⟩

theorem addAll_keepers (laws : Maskable IsFinite IsZero)
    (hshares : ∀ r, (shard r).IsShare table vocab hidden world r) (hworld : 0 < world)
    (hshape : table.shape = [vocab, hidden]) (hvocab : vocab ≤ maxBytes)
    (hplaces : rowsPerWorker vocab world ≤ placeCount) (hfinite : ∀ a ∈ table.data, IsFinite a)
    {ids : List Int} (hne : ids ≠ []) (hin : ∀ i ∈ ids, 0 ≤ i ∧ i < vocab)
    {own : Fin world → Tensor α}
    (hown : ∀ r : Fin world,
      Keeps vocab world r → (own r).IsMatrix hidden (ids.map (shard r).rowAt)) :
    ∃ sum, Tensor.addAll ((keepers vocab world).map own) = .ok sum ∧
      sum.data.length = ids.length * hidden ∧
      SameRow IsZero sum.data (ids.map table.tableRow).flatten := by
  have hnat : ∀ i ∈ ids, ∃ t : Nat, i = t ∧ t < vocab := fun i hi =>
    ⟨i.toNat, by have := hin i hi; omega, by have := hin i hi; omega⟩
  have hkeeper : keepers vocab world ≠ [] := by
    obtain ⟨i, rest, rfl⟩ := List.exists_cons_of_ne_nil hne
    obtain ⟨t, rfl, ht⟩ := hnat i (by simp)
    obtain ⟨hlt, hkeeps⟩ := owner_keeps hworld ht
    exact List.ne_nil_of_mem (mem_keepers (r := ⟨_, hlt⟩).mpr hkeeps)
  obtain ⟨sum, hsum, hm⟩ := exists_addAll hkeeper hown
  refine ⟨sum, hsum, ?_, ?_⟩
  · rw [sum.length_data, hm.shape, List.length_map]
    simp [entryCount]
  · rw [hm.data]
    refine List.rel_flatten ?_
    rw [List.forall₂_map_left_iff, List.forall₂_map_right_iff]
    refine List.forall₂_same.mpr fun i hi => ?_
    obtain ⟨t, rfl, ht⟩ := hnat i hi
    exact sumRows_keepers laws hshares hworld hshape hvocab hplaces hfinite ht

end Group

section Lookup

variable {d : DType} {table : Tensor d.Elem} {tokens : AnyTensor} {ids : Tensor Int}

theorem exists_lookup (hshape : table.shape = [vocab, hidden]) (hids : tokens.integers? = some ids)
    (hin : ∀ i ∈ ids.data, 0 ≤ i ∧ i < vocab) :
    ∃ whole, (Embedding.whole hidden table).apply tokens = .done whole ∧
      table.lookup ids.data = .ok (ids.data.map table.tableRow) ∧
      Tensor.ofRows ids.shape hidden (ids.data.map table.tableRow) = .ok whole ∧
      whole.shape = tokens.shape ++ [hidden] ∧
      whole.data = (ids.data.map table.tableRow).flatten := by
  have hmem : ∀ i ∈ ids.data, 0 ≤ i ∧ i.toNat < vocab := fun i hi => by
    have := hin i hi
    omega
  have hlen :
      (ids.data.map table.tableRow).flatten.length = entryCount (ids.shape ++ [hidden]) := by
    rw [length_flatten_block (k := hidden), List.length_map, ids.length_data, entryCount_append]
    intro row hrow
    obtain ⟨i, hi, rfl⟩ := List.mem_map.mp hrow
    exact Tensor.length_tableRow hshape (hmem i hi).2
  obtain ⟨whole, hofData, hwholeShape, hdata⟩ := Tensor.ofData_eq hlen
  have hwhole : Tensor.ofRows ids.shape hidden (ids.data.map table.tableRow) = .ok whole := hofData
  have hlook := (Tensor.lookup_eq_ok_iff hshape).mpr ⟨hmem, rfl⟩
  refine ⟨whole, ?_, hlook, hwhole, ?_, hdata⟩
  · rw [Embedding.apply, Embedding.applyWhole, hids]
    change Collective.ofExcept ((table.lookup ids.data >>= Tensor.ofRows ids.shape hidden).mapError
      LayerFault.whole) = _
    rw [hlook]
    change Collective.ofExcept ((Tensor.ofRows ids.shape hidden _).mapError LayerFault.whole) = _
    rw [hwhole]
    rfl
  · rw [hwholeShape, (VocabularyShard.cast_of_integers? hids).1]

theorem VocabularyShard.IsShare.exists_own {shard : VocabularyShard d.Elem}
    (h : shard.IsShare table vocab hidden world rank) (hlt : shard.start < shard.stop)
    (is : List Int) :
    ∃ own, Tensor.ofRows [is.length] hidden (is.map shard.rowAt) = .ok own ∧
      own.IsMatrix hidden (is.map shard.rowAt) :=
  Tensor.ofRows_eq (List.length_map shard.rowAt) fun row hrow => by
    obtain ⟨i, -, rfl⟩ := List.mem_map.mp hrow
    exact h.length_rowAt hlt i

theorem allYield_of_keeps {shard : Fin world → VocabularyShard d.Elem}
    {own : Fin world → Tensor d.Elem} {sum out : Tensor d.Elem} {outShape : List Nat}
    (happly : ∀ r, (shard r).apply tokens = .allReduce (own r) (VocabularyShard.afterSum outShape))
    (hall : ∀ r : Fin world, Keeps vocab world r)
    (hsum : Tensor.addAll ((keepers vocab world).map own) = .ok sum)
    (hafter : VocabularyShard.afterSum outShape (.ok sum) = .done out) :
    Collective.AllYield (fun r => (shard r).apply tokens) out := by
  have heq : (keepers vocab world).map own = List.ofFn own := by
    rw [keepers_eq_finRange hall, List.ofFn_eq_map]
  rw [heq] at hsum
  rw [funext happly]
  refine .allReduce own _ ?_
  rw [hsum, hafter]
  exact Collective.AllYield.done out

/-- **A table that is split** along the vocabulary, evenly or not, and the whole one. A worker that
keeps rows hands in a part, and the parts add up to the rows that the whole table gives, up to the
signs of zeros. A worker without rows fails, unless it is the only one. -/
theorem lookup_shares (hshape : table.shape = [vocab, hidden]) (hvocab : vocab ≤ maxBytes)
    (hfinite : ∀ x ∈ table.data, d.IsFinite x) (hworld : 0 < world) (hword : world < wordCount)
    (hplaces : world = 1 ∨ rowsPerWorker vocab world ≤ placeCount)
    (hids : tokens.integers? = some ids) (hne : ids.data ≠ [])
    (hin : ∀ i ∈ ids.data, 0 ≤ i ∧ i < vocab) :
    ∃ (whole : Tensor d.Elem) (shard : Fin world → VocabularyShard d.Elem),
      (Embedding.whole hidden table).apply tokens = .done whole ∧
      whole.shape = tokens.shape ++ [hidden] ∧
      (∀ r : Fin world, VocabularyShard.ofTable table world r = .ok (shard r)) ∧
      (world = 1 → ∀ r, (shard r).apply tokens = .done whole) ∧
      (world ≠ 1 →
        (∀ r : Fin world, ¬ Keeps vocab world r →
          (shard r).apply tokens = .fail (.tensor .index)) ∧
        ∃ (own : Fin world → Tensor d.Elem) (sum out : Tensor d.Elem),
          (∀ r : Fin world, Keeps vocab world r → ∃ next,
            (shard r).apply tokens = .allReduce (own r) next ∧ next (.ok sum) = .done out) ∧
          Tensor.addAll ((keepers vocab world).map own) = .ok sum ∧
          out.shape = tokens.shape ++ [hidden] ∧ SameRow d.IsZero out.data whole.data ∧
          ((∀ r : Fin world, Keeps vocab world r) →
            Collective.AllYield (fun r => (shard r).apply tokens) out)) := by
  choose shard hshard hshares using fun r : Fin world =>
    VocabularyShard.exists_share hshape hvocab hword r.isLt
  obtain ⟨whole, happlyWhole, hlook, hwhole, hwholeShape, hdata⟩ := exists_lookup hshape hids hin
  refine ⟨whole, shard, happlyWhole, hwholeShape, hshard,
    fun hone r => (hshares r).apply_single hone r.isLt hshape hids hlook hwhole, fun hmany => ?_⟩
  have hlt : ∀ r : Fin world, (shard r).start < (shard r).stop ↔ Keeps vocab world r :=
    fun r => (hshares r).start_lt_iff hworld
  have hparts : ∀ r : Fin world, ∃ own : Tensor d.Elem, Keeps vocab world r →
      Tensor.ofRows [ids.data.length] hidden (ids.data.map (shard r).rowAt) = .ok own ∧
        own.IsMatrix hidden (ids.data.map (shard r).rowAt) := fun r => by
    by_cases hkeeps : Keeps vocab world r
    · obtain ⟨own, hown⟩ := (hshares r).exists_own ((hlt r).mpr hkeeps) ids.data
      exact ⟨own, fun _ => hown⟩
    · -- a worker without rows hands nothing in, so any tensor stands for its part
      exact ⟨table, fun h => absurd h hkeeps⟩
  choose own hown using hparts
  obtain ⟨sum, hsum, hlen, hsame⟩ := addAll_keepers d.maskable hshares hworld hshape hvocab
    (hplaces.resolve_left hmany) hfinite hne hin fun r hkeeps => (hown r hkeeps).2
  have hsize : sum.data.length = entryCount (tokens.shape ++ [hidden]) := by
    rw [hlen, ids.length_data, (VocabularyShard.cast_of_integers? hids).1, entryCount_append]
  obtain ⟨out, hout, houtShape, houtData⟩ := Tensor.ofData_eq hsize
  have hafter : VocabularyShard.afterSum (tokens.shape ++ [hidden]) (.ok sum) = .done out := by
    change Collective.ofExcept ((sum.reshape _).mapError ShardFault.tensor) = _
    rw [Tensor.reshape, hout]
    rfl
  have happly : ∀ r : Fin world, Keeps vocab world r → (shard r).apply tokens =
      .allReduce (own r) (VocabularyShard.afterSum (tokens.shape ++ [hidden])) :=
    fun r hkeeps => (hshares r).apply_eq hmany ((hlt r).mpr hkeeps) hids (hown r hkeeps).1
  refine ⟨fun r hkeeps => (hshares r).apply_eq_fail hmany ?_ hids hne, own, sum, out,
    fun r hkeeps => ⟨_, happly r hkeeps, hafter⟩, hsum, houtShape, ?_,
    fun hall => allYield_of_keeps (fun r => happly r (hall r)) hall hsum hafter⟩
  · exact Nat.not_lt.mp (mt (hlt r).mp hkeeps)
  · rw [houtData, hdata]
    exact hsame

end Lookup

/-- The numbers from one to five in five rows. -/
def fiveRows : Tensor (DType.Elem .f32) :=
  ⟨[5, 1], .pure ([0x3f800000, 0x40000000, 0x40400000, 0x40800000, 0x40a00000].map
    fun word : UInt32 => Float32.ofBits word), rfl⟩

/-- The tokens of the last row and of the first one. -/
def twoTokens : AnyTensor := ⟨.u32, ⟨[2, 1], .pure [4, 0], rfl⟩⟩

/-- Five rows among four workers: three of them keep rows, and the last one cannot look up. -/
theorem lookup_shares_uneven :
    ∃ (whole : Tensor Float32) (shard : Fin 4 → VocabularyShard Float32),
      (Embedding.whole 1 fiveRows).apply twoTokens = .done whole ∧ whole.shape = [2, 1, 1] ∧
      (∀ r : Fin 4, VocabularyShard.ofTable fiveRows 4 r = .ok (shard r)) ∧
      (shard 3).apply twoTokens = .fail (.tensor .index) ∧
      ∃ (own : Fin 4 → Tensor Float32) (sum out : Tensor Float32),
        (∀ r < 3, ∃ next, (shard r).apply twoTokens = .allReduce (own r) next ∧
          next (.ok sum) = .done out) ∧
        Tensor.addAll [own 0, own 1, own 2] = .ok sum ∧ out.shape = [2, 1, 1] ∧
        SameRow (DType.IsZero .f32) out.data whole.data := by
  have hfinite : ∀ x ∈ fiveRows.data, DType.IsFinite .f32 x := by
    change ∀ x ∈ List.map _ _, _
    simp only [List.forall_mem_map, List.forall_mem_cons]
    exact ⟨⟨_, _, _, rfl⟩, ⟨_, _, _, rfl⟩, ⟨_, _, _, rfl⟩, ⟨_, _, _, rfl⟩, ⟨_, _, _, rfl⟩, by simp⟩
  obtain ⟨whole, shard, hwhole, hshape, hshard, -, hmany⟩ :=
    @lookup_shares 5 1 4 .f32 fiveRows twoTokens _ rfl (by decide) hfinite (by decide) (by decide)
      (Or.inr (by decide)) rfl (by decide) (by decide)
  obtain ⟨hfail, own, sum, out, hkeep, hsum, houtShape, hsame, -⟩ := hmany (by decide)
  refine ⟨whole, shard, hwhole, hshape, hshard, hfail 3 (by decide), own, sum, out,
    fun r hr => hkeep r ?_, hsum, houtShape, hsame⟩
  revert hr
  revert r
  decide

/-- The fourth of four workers has none of five rows, and cannot look up tokens of the table. -/
theorem fourth_of_five_fails : ∃ shard, VocabularyShard.ofTable fiveRows 4 3 = .ok shard ∧
    shard.start = 5 ∧ shard.stop = 5 ∧ shard.apply twoTokens = .fail (.tensor .index) :=
  ⟨_, rfl, rfl, rfl, rfl⟩

end DraftHeads
