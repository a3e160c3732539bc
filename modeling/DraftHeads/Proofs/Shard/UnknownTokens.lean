import DraftHeads.Proofs.Shard.Vocabulary

/-! # Tokens that are in no table

A whole table refuses an index that is not one of its places. The workers of a group that split the
table evenly take any integer: each of them decides by its range whether a token is its own, moves
all others to a place of its range and masks what it finds there. So an integer that is no token
gets a row of zeros, which is the sum of the masked rows of all workers.

* `IsUnknown`: an integer that is no token; `IsShare.not_owns`: it is no worker's own.
* `IsAnswer`: what the workers answer to an integer, token or not; `sumRows_isAnswer`.
* `lookup_unknown`: a whole table fails, and the workers of a group come to rows of zeros. -/

namespace DraftHeads

variable {vocab hidden world rank : Nat} {d : DType} {table : Tensor d.Elem} {tokens : AnyTensor}
  {ids : Tensor Int} {shard : Fin world → VocabularyShard d.Elem} {i : Int}

/-- An integer that is no token of a vocabulary. -/
def IsUnknown (vocab : Nat) (i : Int) : Prop := ¬ (0 ≤ i ∧ i < vocab)

/-- **What the workers answer to an integer**, if the numbers of the table are finite: up to the
signs of zeros, the row of a token, and zeros for what is no token. A worker can tell its tokens
apart as long as it has a place for each. -/
structure IsAnswer (table : Tensor d.Elem) (vocab hidden world : Nat) (i : Int)
    (row : List d.Elem) : Prop where
  length : row.length = hidden
  known : ¬ IsUnknown vocab i → rowsPerWorker vocab world ≤ placeCount →
    SameRow d.IsZero row (table.tableRow i)
  unknown : IsUnknown vocab i → ∀ x ∈ row, d.IsZero x

/-! ### One worker -/

theorem Tensor.lookup_isUnknown (hshape : table.shape = [vocab, hidden])
    (hunknown : ∃ i ∈ ids.data, IsUnknown vocab i) : table.lookup ids.data = .error .index := by
  obtain ⟨i, hi, hout⟩ := hunknown
  exact Tensor.lookup_eq_error hshape ⟨i, hi, fun h => hout ⟨h.1, by omega⟩⟩

theorem VocabularyShard.IsShare.not_owns {shard : VocabularyShard d.Elem}
    (h : shard.IsShare table vocab hidden world rank) (hi : IsUnknown vocab i) :
    ¬ shard.owns i = true := by
  intro howns
  have hrange := of_decide_eq_true howns
  have hstop : shard.stop ≤ vocab := by rw [h.stop_eq]; exact min_le_right _ _
  exact hi ⟨by omega, by omega⟩

/-- **A worker on its own** refuses what is no token. -/
theorem VocabularyShard.IsShare.apply_single_fail {shard : VocabularyShard d.Elem}
    (h : shard.IsShare table vocab hidden 1 0) (hshape : table.shape = [vocab, hidden])
    (hids : tokens.integers? = some ids) (hunknown : ∃ i ∈ ids.data, IsUnknown vocab i) :
    shard.apply tokens = .fail (.tensor .index) := by
  have hcols : table.shape[1]? = some hidden := by rw [hshape]; rfl
  unfold VocabularyShard.apply
  simp only [h.table_eq hshape, hcols, h.world_eq, if_true, hids,
    Tensor.lookup_isUnknown hshape hunknown, Except.mapError]
  rfl

/-- **A whole table** refuses what is no token. -/
theorem Embedding.whole_apply_fail (hshape : table.shape = [vocab, hidden])
    (hids : tokens.integers? = some ids) (hunknown : ∃ i ∈ ids.data, IsUnknown vocab i) :
    (Embedding.whole hidden table).apply tokens = .fail (.whole .index) := by
  rw [Embedding.apply, Embedding.applyWhole, hids]
  simp only [Tensor.lookup_isUnknown hshape hunknown]
  rfl

/-! ### All workers -/

theorem keeps_of_dvd (divides : world ∣ vocab) (hvocab : 0 < vocab) (r : Fin world) :
    Keeps vocab world r := by
  have hpos : 0 < world := Nat.zero_lt_of_lt r.isLt
  obtain ⟨q, rfl⟩ := divides
  rw [Keeps, rowsPerWorker_of_dvd (Dvd.intro q rfl) hpos, Nat.mul_div_cancel_left q hpos]
  exact Nat.mul_lt_mul_of_pos_right r.isLt (Nat.pos_of_mul_pos_left hvocab)

/-- **The rows of all workers add up** to the answer. -/
theorem sumRows_isAnswer (hshares : ∀ r, (shard r).IsShare table vocab hidden world r)
    (hworld : 0 < world) (hshape : table.shape = [vocab, hidden]) (hvocab : vocab ≤ maxBytes)
    (hkeeper : keepers vocab world ≠ []) (hfinite : ∀ x ∈ table.data, d.IsFinite x)
    (hlen : (sumRows ((keepers vocab world).map fun r => (shard r).rowAt i)).length = hidden) :
    IsAnswer table vocab hidden world i
      (sumRows ((keepers vocab world).map fun r => (shard r).rowAt i)) where
  length := hlen
  known hknown hplaces := by
    obtain ⟨hle, hlt⟩ := not_not.mp hknown
    lift i to Nat using hle
    exact sumRows_keepers d.maskable hshares hworld hshape hvocab hplaces hfinite (by omega)
  unknown hunknown := by
    have hzero : ∀ r ∈ keepers vocab world,
        ((shard r).rowAt i).length = hidden ∧ ∀ x ∈ (shard r).rowAt i, d.IsZero x :=
      fun r hr => (hshares r).rowAt_foreign d.maskable
        (((hshares r).start_lt_iff hworld).mpr (mem_keepers.mp hr)) hfinite
        ((hshares r).not_owns hunknown)
    obtain ⟨r, rest, hrest⟩ := List.exists_cons_of_ne_nil hkeeper
    rw [hrest, List.forall_mem_cons] at hzero
    rw [hrest, List.map_cons]
    exact (zeros_foldl d.maskable hzero.1 fun z hz => by
      obtain ⟨s, hs, rfl⟩ := List.mem_map.mp hz
      exact hzero.2 s hs).2

/-- **What the workers hand in and what they get**, whatever the table holds: each of them hands in
its rows of the integers, and all get the sums of these. -/
theorem exists_parts (hshares : ∀ r, (shard r).IsShare table vocab hidden world r)
    (hworld : 1 < world) (hpos : 0 < vocab) (divides : world ∣ vocab)
    (hids : tokens.integers? = some ids) :
    ∃ (own : Fin world → Tensor d.Elem) (sum out : Tensor d.Elem),
      (∀ r, ∃ next, (shard r).apply tokens = .allReduce (own r) next) ∧
      (∀ r, (own r).IsMatrix hidden (ids.data.map (shard r).rowAt)) ∧
      Tensor.addAll (List.ofFn own) = .ok sum ∧
      sum.IsMatrix hidden
        (ids.data.map fun i => sumRows ((List.finRange world).map fun r => (shard r).rowAt i)) ∧
      Collective.AllYield (fun r => (shard r).apply tokens) out ∧
      out.shape = tokens.shape ++ [hidden] ∧ out.data = sum.data := by
  have hall := keeps_of_dvd divides hpos
  have hkeeper : keepers vocab world ≠ [] :=
    List.ne_nil_of_mem (mem_keepers (r := ⟨0, by omega⟩).mpr (hall _))
  have hlt : ∀ r, (shard r).start < (shard r).stop := fun r =>
    ((hshares r).start_lt_iff (by omega)).mpr (hall r)
  choose own hown hom using fun r => (hshares r).exists_own (hlt r) ids.data
  obtain ⟨sum, hsum, hm⟩ := exists_addAll hkeeper fun r _ => hom r
  have hsize : sum.data.length = entryCount (tokens.shape ++ [hidden]) := by
    rw [sum.length_data, hm.shape, List.length_map, ids.length_data,
      (VocabularyShard.cast_of_integers? hids).1, entryCount_append]
    simp [entryCount]
  obtain ⟨out, hout, houtShape, houtData⟩ := Tensor.ofData_eq hsize
  have hafter : VocabularyShard.afterSum (tokens.shape ++ [hidden]) (.ok sum) = .done out := by
    change Collective.ofExcept ((sum.reshape _).mapError ShardFault.tensor) = _
    rw [Tensor.reshape, hout]
    rfl
  have happly := fun r => (hshares r).apply_eq (by omega) (hlt r) hids (hown r)
  have hyield := allYield_of_keeps happly hall hsum hafter
  rw [keepers_eq_finRange hall] at hsum hm
  refine ⟨own, sum, out, fun r => ⟨_, happly r⟩, hom, ?_, hm, hyield, houtShape, houtData⟩
  rwa [List.ofFn_eq_map]

/-- **The workers take any integers.** Each of them hands in a part, and all get the sum. -/
theorem lookup_any (hshares : ∀ r, (shard r).IsShare table vocab hidden world r)
    (hworld : 1 < world) (hshape : table.shape = [vocab, hidden]) (hvocab : vocab ≤ maxBytes)
    (hpos : 0 < vocab) (divides : world ∣ vocab) (hids : tokens.integers? = some ids) :
    ∃ (out : Tensor d.Elem) (rows : List (List d.Elem)),
      Collective.AllYield (fun r => (shard r).apply tokens) out ∧
      out.shape = tokens.shape ++ [hidden] ∧ out.data = rows.flatten ∧
      ((∀ x ∈ table.data, d.IsFinite x) →
        List.Forall₂ (IsAnswer table vocab hidden world) ids.data rows) := by
  have hall := keeps_of_dvd divides hpos
  have hkeeper : keepers vocab world ≠ [] :=
    List.ne_nil_of_mem (mem_keepers (r := ⟨0, by omega⟩).mpr (hall _))
  obtain ⟨own, sum, out, -, -, -, hm, hyield, houtShape, houtData⟩ :=
    exists_parts hshares hworld hpos divides hids
  rw [← keepers_eq_finRange hall] at hm
  refine ⟨out, _, hyield, houtShape, houtData.trans hm.data, fun hfinite => ?_⟩
  rw [List.forall₂_map_right_iff]
  refine List.forall₂_same.mpr fun i hi => ?_
  exact sumRows_isAnswer hshares (by omega) hshape hvocab hkeeper hfinite
    (hm.length _ (List.mem_map_of_mem hi))

/-- **An integer that is no token.** The whole table fails, as does a worker on its own. The workers
of a group that splits the table evenly get their shares; if the table has rows then all of them
come to one tensor, in which every integer that is no token has a row of zeros. -/
theorem lookup_unknown (hshape : table.shape = [vocab, hidden]) (hvocab : vocab ≤ maxBytes)
    (hworld : 1 < world) (hword : world < wordCount) (divides : world ∣ vocab)
    (hids : tokens.integers? = some ids) (hunknown : ∃ i ∈ ids.data, IsUnknown vocab i) :
    (Embedding.whole hidden table).apply tokens = .fail (.whole .index) ∧
    (∃ alone, VocabularyShard.ofTable table 1 0 = .ok alone ∧
      alone.apply tokens = .fail (.tensor .index)) ∧
    ∃ shard : Fin world → VocabularyShard d.Elem,
      (∀ r : Fin world, VocabularyShard.ofTable table world r = .ok (shard r)) ∧
      (vocab = 0 → ∀ r, (shard r).apply tokens = .fail (.tensor .index)) ∧
      (0 < vocab → ∃ (out : Tensor d.Elem) (rows : List (List d.Elem)),
        Collective.AllYield (fun r => (shard r).apply tokens) out ∧
        out.shape = tokens.shape ++ [hidden] ∧ out.data = rows.flatten ∧
        ((∀ x ∈ table.data, d.IsFinite x) →
          List.Forall₂ (IsAnswer table vocab hidden world) ids.data rows)) := by
  obtain ⟨alone, halone, hshare⟩ :=
    VocabularyShard.exists_share hshape hvocab (show 1 < wordCount by decide) Nat.zero_lt_one
  choose shard hshard hshares using fun r : Fin world =>
    VocabularyShard.exists_share hshape hvocab hword r.isLt
  refine ⟨Embedding.whole_apply_fail hshape hids hunknown,
    ⟨alone, halone, hshare.apply_single_fail hshape hids hunknown⟩, shard, hshard,
    fun hzero r => ?_, fun hpos => lookup_any hshares hworld hshape hvocab hpos divides hids⟩
  obtain ⟨i, hi, -⟩ := hunknown
  refine (hshares r).apply_eq_fail (by omega) ?_ hids (List.ne_nil_of_mem hi)
  rw [(hshares r).stop_eq, hzero, Nat.min_zero]
  exact Nat.zero_le _

/-- One and two in two rows. -/
def twoRows : Tensor (DType.Elem .f32) :=
  ⟨[2, 1], .pure ([0x3f800000, 0x40000000].map fun word : UInt32 => Float32.ofBits word), rfl⟩

theorem isFinite_twoRows : ∀ x ∈ twoRows.data, DType.IsFinite .f32 x := by
  change ∀ x ∈ List.map _ _, _
  simp only [List.forall_mem_map, List.forall_mem_cons]
  exact ⟨⟨_, _, _, rfl⟩, ⟨_, _, _, rfl⟩, by simp⟩

/-- Two workers with a row each, the token of the second row, and two integers that are none. -/
theorem lookup_unknown_two :
    ∃ (shard : Fin 2 → VocabularyShard Float32) (out : Tensor Float32) (x y z : List Float32),
      (∀ r : Fin 2, VocabularyShard.ofTable twoRows 2 r = .ok (shard r)) ∧
      (Embedding.whole 1 twoRows).apply ⟨.i64, .ofList [1, 2, -1]⟩ = .fail (.whole .index) ∧
      Collective.AllYield (fun r => (shard r).apply ⟨.i64, .ofList [1, 2, -1]⟩) out ∧
      out.shape = [3, 1] ∧ out.data = x ++ y ++ z ∧ SameRow (DType.IsZero .f32) x [2] ∧
      (∀ a ∈ y, DType.IsZero .f32 a) ∧ ∀ a ∈ z, DType.IsZero .f32 a := by
  obtain ⟨hwhole, -, shard, hshard, -, hyield⟩ :=
    @lookup_unknown 2 1 2 .f32 twoRows ⟨.i64, .ofList [1, 2, -1]⟩ _ rfl (by decide) (by decide)
      (by decide) (by decide) rfl ⟨-1, by decide, fun h => absurd h.1 (by decide)⟩
  obtain ⟨out, rows, hout, hshape, hdata, hanswers⟩ := hyield (by decide)
  obtain _ | ⟨hx, hrest⟩ := hanswers isFinite_twoRows
  obtain _ | ⟨hy, hrest⟩ := hrest
  obtain _ | ⟨hz, hrest⟩ := hrest
  obtain _ | _ := hrest
  refine ⟨shard, out, _, _, _, hshard, hwhole, hout, hshape, by simpa using hdata, ?_, ?_, ?_⟩
  · exact hx.known (not_not.mpr (by decide)) (by decide)
  · exact hy.unknown fun h => absurd h.2 (by decide)
  · exact hz.unknown fun h => absurd h.1 (by decide)

/-- The workers of a group come to a row of zeros for the first integer after the tokens, which the
whole table refuses. -/
theorem exists_row_of_unknown :
    (Embedding.whole 1 twoRows).apply ⟨.u32, .ofList [2]⟩ = .fail (.whole .index) ∧
    ∃ (shard : Fin 2 → VocabularyShard Float32) (out : Tensor Float32),
      (∀ r : Fin 2, VocabularyShard.ofTable twoRows 2 r = .ok (shard r)) ∧
      Collective.AllYield (fun r => (shard r).apply ⟨.u32, .ofList [2]⟩) out ∧
      out.shape = [1, 1] ∧ ∀ x ∈ out.data, DType.IsZero .f32 x := by
  choose shard hshard hshares using fun r : Fin 2 =>
    VocabularyShard.exists_share (show twoRows.shape = [2, 1] from rfl) (by decide)
      (show 2 < wordCount by decide) r.isLt
  have hids : (⟨.u32, .ofList [2]⟩ : AnyTensor).integers? = some _ := rfl
  obtain ⟨out, rows, hout, hshape, hdata, hanswers⟩ :=
    lookup_any hshares (by decide) rfl (by decide) (by decide) (by decide) hids
  obtain _ | ⟨hrow, hrest⟩ := hanswers isFinite_twoRows
  obtain _ | _ := hrest
  have hunknown : IsUnknown 2 2 := fun h => absurd h.2 (by decide)
  refine ⟨Embedding.whole_apply_fail rfl hids ⟨2, by decide, hunknown⟩, shard, out, hshard, hout,
    hshape, fun x hx => ?_⟩
  rw [hdata] at hx
  exact hrow.unknown hunknown x (by simpa using hx)

end DraftHeads
