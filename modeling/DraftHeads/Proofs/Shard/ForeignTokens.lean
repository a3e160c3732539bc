import DraftHeads.Proofs.Number.LeakyMasks
import DraftHeads.Proofs.Shard.UnknownTokens

/-! # Tokens of other workers

For a token of another worker a worker looks up the row of its range that is nearest to the token
and multiplies it by zero. That gives zeros where the row is finite. What is infinite or not a
number in that row, which the token has nothing to do with, is not a number in the product, and
neither is the sum over all workers there.

* `Tensor.entry`, `VocabularyShard.lookedUp`: the number in a row and a column of a table, and the
  one that a worker looks up for a token.
* `VocabularyShard.entry_rowAt_owner`, `VocabularyShard.entry_rowAt_foreign`: what a worker hands in
  for its own tokens and for those of others.
* `entry_sum`: what the workers get, in one column.
* `IsLeakyColumn`, `lookup_foreign`: a table of single precision numbers, whatever it holds.
* `infinity_leaks`: an infinite number of one row in the look-up of another. -/

namespace DraftHeads

variable {vocab hidden world rank : Nat}

section Entries

variable {α : Type} [Zero α]

/-- The number in a row and a column of a table. -/
def Tensor.entry (table : Tensor α) (i : Int) (j : Nat) : α := (table.tableRow i).getD j 0

/-- The number that a worker looks up for a token in a column. -/
def VocabularyShard.lookedUp (shard : VocabularyShard α) (token : Int) (j : Nat) : α :=
  shard.table.entry (shard.localRow token) j

omit [Zero α] in
theorem Tensor.IsMatrix.tableRow_eq {β : Type} {t : Tensor α} {w k : Nat} {l : List β}
    {f : β → List α} (h : t.IsMatrix w (l.map f)) {x : β} (hx : l[k]? = some x) :
    t.tableRow k = f x := by
  rw [tableRow, h.rows_eq, Int.toNat_natCast, List.getD_eq_getElem?_getD, List.getElem?_map, hx]
  rfl

variable [Add α]

theorem getD_zipWith_add {x y : List α} {j : Nat} (hx : j < x.length) (hy : j < y.length) :
    (List.zipWith (· + ·) x y).getD j 0 = x.getD j 0 + y.getD j 0 := by
  have hxy : j < (List.zipWith (· + ·) x y).length := by
    rw [List.length_zipWith]
    omega
  rw [List.getD_eq_getElem _ _ hx, List.getD_eq_getElem _ _ hy, List.getD_eq_getElem _ _ hxy,
    List.getElem_zipWith]

theorem getD_foldl_zipWith {j : Nat} : ∀ {zs : List (List α)} {y : List α}, j < y.length →
    (∀ z ∈ zs, z.length = y.length) → (zs.foldl (List.zipWith (· + ·)) y).getD j 0 =
      (zs.map (·.getD j 0)).foldl (· + ·) (y.getD j 0)
  | [], _, _, _ => rfl
  | z :: zs, y, hj, hz => by
    rw [List.forall_mem_cons] at hz
    have hlen : (List.zipWith (· + ·) y z).length = y.length := by
      rw [List.length_zipWith, hz.1, Nat.min_self]
    rw [List.foldl_cons, getD_foldl_zipWith (hlen ▸ hj) (fun w hw => (hz.2 w hw).trans hlen.symm),
      getD_zipWith_add hj (hz.1 ▸ hj), List.map_cons, List.foldl_cons]

theorem getD_sumRows {rows : List (List α)} {j : Nat} (hlen : ∀ row ∈ rows, row.length = hidden)
    (hj : j < hidden) : (sumRows rows).getD j 0 = sumOf (rows.map (·.getD j 0)) := by
  cases rows with
  | nil => rfl
  | cons y zs =>
    rw [List.forall_mem_cons] at hlen
    exact getD_foldl_zipWith (hlen.1 ▸ hj) fun z hz => (hlen.2 z hz).trans hlen.1.symm

end Entries

section Laws

variable {α : Type} [Zero α] [One α] [Add α] [Mul α] {IsFinite IsZero IsNaN : α → Prop}
  {table : Tensor α} {j : Nat} {i : Int} (laws : LeakyMask IsFinite IsZero IsNaN)

namespace VocabularyShard

variable {shard : VocabularyShard α}

/-! ### One worker -/

omit [Add α] in
theorem IsShare.entry_rowAt (h : shard.IsShare table vocab hidden world rank)
    (hlt : shard.start < shard.stop) (hj : j < hidden) :
    (shard.rowAt i).getD j 0 = shard.lookedUp i j * if shard.owns i then 1 else 0 := by
  have hlen : (shard.table.tableRow (shard.localRow i)).length = hidden :=
    Tensor.length_tableRow h.shape (shard.localRow_mem hlt i).2
  rw [lookedUp, Tensor.entry, List.getD_eq_getElem _ _ (by rwa [h.length_rowAt hlt]),
    List.getD_eq_getElem _ _ (by rwa [hlen])]
  exact List.getElem_map _

include laws

theorem IsShare.entry_rowAt_owner (h : shard.IsShare table vocab hidden world rank)
    (hlt : shard.start < shard.stop) (howns : shard.owns i = true) (hj : j < hidden) :
    (shard.rowAt i).getD j 0 = shard.lookedUp i j := by
  rw [h.entry_rowAt hlt hj, if_pos howns, laws.mul_one]

/-- **A worker gives a zero for what is finite** in the row that it looks up for a token of another
worker, and what is not a number for everything else. -/
theorem IsShare.entry_rowAt_foreign (h : shard.IsShare table vocab hidden world rank)
    (hlt : shard.start < shard.stop) (howns : ¬ shard.owns i = true) (hj : j < hidden) :
    (IsFinite (shard.lookedUp i j) → IsZero ((shard.rowAt i).getD j 0)) ∧
      (¬ IsFinite (shard.lookedUp i j) → IsNaN ((shard.rowAt i).getD j 0)) := by
  rw [h.entry_rowAt hlt hj, if_neg howns]
  exact ⟨laws.mul_zero, laws.mul_zero_isNaN⟩

end VocabularyShard

/-! ### All workers -/

include laws

/-- **What the workers get in one column.** It is what the owner of the token gives, up to the sign
of a zero, if everything that the others look up there is finite, and not a number otherwise. -/
theorem entry_sum {shard : Fin world → VocabularyShard α}
    (hshares : ∀ r, (shard r).IsShare table vocab hidden world r)
    (hlt : ∀ r, (shard r).start < (shard r).stop) {owner : Fin world}
    (hothers : ∀ r ≠ owner, ¬ (shard r).owns i = true) (hj : j < hidden) :
    ((∀ r ≠ owner, IsFinite ((shard r).lookedUp i j)) →
      SameUpToZero IsZero
        ((sumRows ((List.finRange world).map fun r => (shard r).rowAt i)).getD j 0)
        (((shard owner).rowAt i).getD j 0)) ∧
    ((∃ r ≠ owner, ¬ IsFinite ((shard r).lookedUp i j)) →
      IsNaN ((sumRows ((List.finRange world).map fun r => (shard r).rowAt i)).getD j 0)) := by
  have hcolumn : (sumRows ((List.finRange world).map fun r => (shard r).rowAt i)).getD j 0 =
      sumOf ((List.finRange world).map fun r => ((shard r).rowAt i).getD j 0) := by
    rw [getD_sumRows (fun row hrow => ?_) hj, List.map_map]
    · rfl
    · obtain ⟨r, -, rfl⟩ := List.mem_map.mp hrow
      exact (hshares r).length_rowAt (hlt r) i
  have hforeign := fun r (hr : r ≠ owner) =>
    (hshares r).entry_rowAt_foreign laws (hlt r) (hothers r hr) hj
  rw [hcolumn]
  constructor
  · intro hfinite
    obtain ⟨before, after, hsplit, hbefore, hafter⟩ :=
      exists_split_of_nodup (List.nodup_finRange world) (List.mem_finRange owner)
    rw [hsplit, List.map_append, List.map_cons]
    refine laws.sumOf_masked (fun z hz => ?_) fun z hz => ?_
    · obtain ⟨r, hr, rfl⟩ := List.mem_map.mp hz
      exact (hforeign r (hbefore r hr)).1 (hfinite r (hbefore r hr))
    · obtain ⟨r, hr, rfl⟩ := List.mem_map.mp hz
      exact (hforeign r (hafter r hr)).1 (hfinite r (hafter r hr))
  · rintro ⟨r, hr, hleak⟩
    exact laws.sumOf_isNaN (List.mem_map_of_mem (List.mem_finRange r)) ((hforeign r hr).2 hleak)

end Laws

/-! ### Single precision -/

/-- **What becomes of a token in one column** of a table, finite or not. The token `t` is the `k`th
one of the tensor that is looked up. A worker looks up the row of its range that is nearest to `t`,
if it has a place for each row. Where that is finite all workers but the owner hand in a zero, and
what is not a number elsewhere. The owner hands in what it looks up. The sum is what the owner hands
in, up to the sign of a zero, if all that the others look up is finite, and not a number
otherwise. -/
structure IsLeakyColumn {d : DType} (table : Tensor d.Elem)
    (shard : Fin world → VocabularyShard d.Elem) (own : Fin world → Tensor d.Elem)
    (sum : Tensor d.Elem) (vocab k t j : Nat) (owner : Fin world) : Prop where
  lookedUp_eq : rowsPerWorker vocab world ≤ placeCount → ∀ r, (shard r).lookedUp t j =
    table.entry (min (max t (shard r).start) ((shard r).stop - 1) : Nat) j
  lookedUp_owner : rowsPerWorker vocab world ≤ placeCount →
    (shard owner).lookedUp t j = table.entry t j
  owner_eq : (own owner).entry k j = (shard owner).lookedUp t j
  isZero_other : ∀ r ≠ owner, d.IsFinite ((shard r).lookedUp t j) → d.IsZero ((own r).entry k j)
  isNaN_other : ∀ r ≠ owner, ¬ d.IsFinite ((shard r).lookedUp t j) → d.IsNaN ((own r).entry k j)
  sum_same : (∀ r ≠ owner, d.IsFinite ((shard r).lookedUp t j)) →
    SameUpToZero d.IsZero (sum.entry k j) ((own owner).entry k j)
  sum_isNaN : (∃ r ≠ owner, ¬ d.IsFinite ((shard r).lookedUp t j)) → d.IsNaN (sum.entry k j)

theorem isLeakyColumn {d : DType} (laws : LeakyMask d.IsFinite d.IsZero d.IsNaN)
    {table : Tensor d.Elem} {ids : Tensor Int} {shard : Fin world → VocabularyShard d.Elem}
    {own : Fin world → Tensor d.Elem} {sum : Tensor d.Elem} {k t j : Nat}
    (hshares : ∀ r, (shard r).IsShare table vocab hidden world r)
    (hlt : ∀ r, (shard r).start < (shard r).stop) (hvocab : vocab ≤ maxBytes)
    (hown : ∀ r, (own r).IsMatrix hidden (ids.data.map (shard r).rowAt))
    (hsum : sum.IsMatrix hidden
      (ids.data.map fun i => sumRows ((List.finRange world).map fun r => (shard r).rowAt i)))
    (hk : ids.data[k]? = some (t : Int)) (ht : t < vocab) {owner : Fin world}
    (howns : ∀ r, (shard r).owns t = true ↔ r = owner) (hj : j < hidden) :
    IsLeakyColumn table shard own sum vocab k t j owner := by
  have hentry : ∀ r, (own r).entry k j = ((shard r).rowAt t).getD j 0 := fun r => by
    rw [Tensor.entry, (hown r).tableRow_eq hk]
  have hsumEntry : sum.entry k j = _ := congrArg (·.getD j 0) (hsum.tableRow_eq hk)
  have hplace : rowsPerWorker vocab world ≤ placeCount → ∀ r, (shard r).lookedUp t j =
      table.entry (min (max t (shard r).start) ((shard r).stop - 1) : Nat) j :=
    fun hplaces r => congrArg (·.getD j 0)
      ((hshares r).tableRow_localRow (hlt r) hvocab hplaces ht)
  have hothers : ∀ r ≠ owner, ¬ (shard r).owns t = true := fun r hr => mt (howns r).mp hr
  have hforeign := fun r (hr : r ≠ owner) =>
    (hshares r).entry_rowAt_foreign laws (hlt r) (hothers r hr) hj
  obtain ⟨hsame, hleak⟩ := entry_sum laws hshares hlt hothers hj
  refine ⟨hplace, fun hplaces => ?_, ?_, fun r hr => ?_, fun r hr => ?_, ?_, ?_⟩
  · have hrange := of_decide_eq_true ((howns owner).mpr rfl)
    have hnearest : min (max t (shard owner).start) ((shard owner).stop - 1) = t := by omega
    rw [hplace hplaces, hnearest]
  · rw [hentry]
    exact (hshares owner).entry_rowAt_owner laws (hlt _) ((howns owner).mpr rfl) hj
  · rw [hentry]
    exact (hforeign r hr).1
  · rw [hentry]
    exact (hforeign r hr).2
  · rw [hsumEntry, hentry]
    exact hsame
  · rw [hsumEntry]
    exact hleak

/-- **A table of single precision numbers, whatever it holds,** that the workers of a group split
evenly. All of them hand in a part and get the sum of the parts in the shape of the tokens. Each
token has an owner, and every column of its row is leaky. -/
theorem lookup_foreign {table : Tensor (DType.Elem .f32)} {tokens : AnyTensor} {ids : Tensor Int}
    (hshape : table.shape = [vocab, hidden]) (hpos : 0 < vocab) (hvocab : vocab ≤ maxBytes)
    (hworld : 1 < world) (divides : world ∣ vocab) (hids : tokens.integers? = some ids) :
    ∃ (shard : Fin world → VocabularyShard (DType.Elem .f32))
      (own : Fin world → Tensor (DType.Elem .f32)) (sum out : Tensor (DType.Elem .f32)),
      (∀ r : Fin world, VocabularyShard.ofTable table world r = .ok (shard r)) ∧
      (∀ r, ∃ next, (shard r).apply tokens = .allReduce (own r) next) ∧
      (∀ r, (own r).shape = [ids.data.length, hidden]) ∧
      Tensor.addAll (List.ofFn own) = .ok sum ∧
      Collective.AllYield (fun r => (shard r).apply tokens) out ∧
      out.shape = tokens.shape ++ [hidden] ∧ out.data = sum.data ∧
      ∀ k t : Nat, ids.data[k]? = some (t : Int) → t < vocab → ∃ owner : Fin world,
        (owner : Nat) = t / (vocab / world) ∧ (∀ r, (shard r).owns t = true ↔ r = owner) ∧
        ∀ j < hidden, IsLeakyColumn table shard own sum vocab k t j owner := by
  have hworld' : 0 < world := by omega
  have hword : world < wordCount := by
    have hbytes : maxBytes < wordCount := by decide
    have := Nat.le_of_dvd hpos divides
    omega
  choose shard hshard hshares using fun r : Fin world =>
    VocabularyShard.exists_share hshape hvocab hword r.isLt
  obtain ⟨own, sum, out, happly, hown, hsum, hm, hyield, houtShape, houtData⟩ :=
    exists_parts hshares hworld hpos divides hids
  have hlt : ∀ r, (shard r).start < (shard r).stop := fun r =>
    ((hshares r).start_lt_iff hworld').mpr (keeps_of_dvd divides hpos r)
  refine ⟨shard, own, sum, out, hshard, happly, fun r => ?_, hsum, hyield, houtShape, houtData,
    fun k t hk ht => ?_⟩
  · rw [(hown r).shape, List.length_map]
  · have howns : ∀ r : Fin world, (shard r).owns t = true ↔
        r = ⟨t / rowsPerWorker vocab world, (owner_keeps hworld' ht).1⟩ := fun r => by
      rw [Fin.ext_iff, owner_iff hworld' ht, ← (hshares r).start_eq, ← (hshares r).stop_eq,
        VocabularyShard.owns, decide_eq_true_iff, Nat.cast_le, Nat.cast_lt]
    exact ⟨_, congrArg (t / ·) (rowsPerWorker_of_dvd divides hworld'), howns, fun j hj =>
      isLeakyColumn Number.leakyMask_single hshares hlt hvocab hown hm hk ht howns hj⟩

/-- An infinite number and one in two rows. -/
def infiniteRow : Tensor (DType.Elem .f32) :=
  ⟨[2, 1], .pure ([0x7f800000, 0x3f800000].map fun word : UInt32 => Float32.ofBits word), rfl⟩

/-- The tokens of the second row and of the first one. -/
def secondAndFirst : AnyTensor := ⟨.u32, ⟨[2], .pure [1, 0], rfl⟩⟩

theorem not_isFinite_infiniteRow : ¬ DType.IsFinite .f32 (infiniteRow.entry 0 0) := by
  rintro ⟨s, m, e, h⟩
  change Number.Datum.infinite false = _ at h
  cases h

/-- Two workers with a row each: the infinite number of the first row is what they get for the first
token, and what they get for the second one is not a number. -/
theorem lookup_foreign_two :
    ∃ (shard : Fin 2 → VocabularyShard (DType.Elem .f32)) (own : Fin 2 → Tensor (DType.Elem .f32))
      (sum : Tensor (DType.Elem .f32)),
      (∀ r : Fin 2, VocabularyShard.ofTable infiniteRow 2 r = .ok (shard r)) ∧
      (∀ r, ∃ next, (shard r).apply secondAndFirst = .allReduce (own r) next) ∧
      Tensor.addAll [own 0, own 1] = .ok sum ∧
      DType.IsNaN .f32 ((own 0).entry 0 0) ∧ DType.IsNaN .f32 (sum.entry 0 0) ∧
      DType.IsZero .f32 ((own 1).entry 1 0) ∧
      SameUpToZero (DType.IsZero .f32) (sum.entry 1 0) (infiniteRow.entry 0 0) := by
  obtain ⟨shard, own, sum, out, hshard, happly, -, hsum, -, -, -, htokens⟩ :=
    @lookup_foreign 2 1 2 infiniteRow secondAndFirst _ rfl (by decide) (by decide) (by decide)
      (by decide) rfl
  have hfirst : shard 0 = _ := Except.ok.inj ((hshard 0).symm.trans rfl)
  have hsecond : shard 1 = _ := Except.ok.inj ((hshard 1).symm.trans rfl)
  obtain ⟨owner, howner, -, hcolumn⟩ := htokens 0 1 rfl (by decide)
  obtain rfl : owner = 1 := Fin.ext howner
  obtain ⟨owner, howner, -, hcolumn'⟩ := htokens 1 0 rfl (by decide)
  obtain rfl : owner = 0 := Fin.ext howner
  have h := hcolumn 0 (by decide)
  have h' := hcolumn' 0 (by decide)
  have hleak : ¬ DType.IsFinite .f32 ((shard 0).lookedUp 1 0) := by
    rw [hfirst]
    exact not_isFinite_infiniteRow
  have hkeep : ∀ r : Fin 2, r ≠ 0 → DType.IsFinite .f32 ((shard r).lookedUp 0 0) := fun r hr => by
    obtain rfl : r = 1 := Fin.eq_one_of_ne_zero r hr
    rw [hsecond]
    exact ⟨_, _, _, rfl⟩
  refine ⟨shard, own, sum, hshard, happly, hsum, h.isNaN_other 0 (by decide) hleak,
    h.sum_isNaN ⟨0, by decide, hleak⟩, h'.isZero_other 1 (by decide) (hkeep 1 (by decide)), ?_⟩
  have hsame := h'.sum_same hkeep
  rwa [h'.owner_eq, h'.lookedUp_owner (by decide)] at hsame

/-- **An infinite number leaks** from the first row into the look-up of the second one: the worker
that does not own the second token hands in what is not a number, and so is the sum. -/
theorem infinity_leaks :
    ∃ (first second : VocabularyShard Float32) (own other sum : Tensor Float32)
      (next next' : Except TensorFault (Tensor Float32) →
        Collective Float32 ShardFault (Tensor Float32)) (x y : Float32),
      VocabularyShard.ofTable infiniteRow 2 0 = .ok first ∧
      VocabularyShard.ofTable infiniteRow 2 1 = .ok second ∧
      first.owns 1 = false ∧ second.owns 1 = true ∧
      first.apply ⟨.u32, .ofList [1]⟩ = .allReduce own next ∧
      second.apply ⟨.u32, .ofList [1]⟩ = .allReduce other next' ∧
      own.data = [x] ∧ DType.IsNaN .f32 x ∧
      Tensor.addAll [own, other] = .ok sum ∧ sum.data = [y] ∧ DType.IsNaN .f32 y :=
  ⟨_, _, _, _, _, _, _, _, _, rfl, rfl, rfl, rfl, rfl, rfl, rfl, ⟨_, rfl⟩, rfl, rfl, _, rfl⟩

end DraftHeads
