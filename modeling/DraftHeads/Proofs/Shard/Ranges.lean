import DraftHeads.Proofs.Shard.Vocabulary
import Mathlib.Algebra.Order.Floor.Div

/-! # The ranges of a group

The workers of a group keep `⌈vocab / world⌉` rows of a table each, one worker after another, until
the table ends; the workers after that keep none.

* `IsPartition`: ranges that cut the numbers below a bound into consecutive pieces.
* `isPartition_range`: the ranges of a group cut the rows of a table into such pieces.
* `VocabularyShard.exists_partition`: every worker gets its piece of a table, and each row has the
  one owner that its place tells. -/

namespace DraftHeads

variable {vocab world rank : Nat}

/-- Ranges that cut the numbers below a bound into consecutive pieces, the longer ones first. -/
structure IsPartition (bound : Nat) (start stop : Fin world → Nat) : Prop where
  start_le_stop : ∀ r, start r ≤ stop r
  stop_le : ∀ r, stop r ≤ bound
  start_first : ∀ r, r.val = 0 → start r = 0
  start_next : ∀ r s, s.val = r.val + 1 → start s = stop r
  stop_last : ∀ r, r.val + 1 = world → stop r = bound
  existsUnique : ∀ t < bound, ∃! r, start r ≤ t ∧ t < stop r
  antitone : Antitone fun r => stop r - start r

/-! ### Ranges -/

theorem rowsPerWorker_eq_ceilDiv : rowsPerWorker vocab world = vocab ⌈/⌉ world :=
  (Nat.ceilDiv_eq_add_pred_div vocab world).symm

theorem mul_rowsPerWorker_lt (hworld : 0 < world) (hcount : vocab + world < wordCount)
    (hrank : rank ≤ world) : rank * rowsPerWorker vocab world < wordCount := by
  have hle : rank * rowsPerWorker vocab world ≤ world * rowsPerWorker vocab world :=
    Nat.mul_le_mul_right _ hrank
  have hsum : world * rowsPerWorker vocab world + 1 ≤ vocab + world := mul_rowsPerWorker_le hworld
  omega

/-- The number of rows in a range: a full share, or what is left of the table. -/
theorem length_range (share rank : Nat) :
    min ((rank + 1) * share) vocab - min (rank * share) vocab =
      min share (vocab - rank * share) := by
  rw [Nat.succ_mul]
  omega

theorem range_empty_iff (hworld : 0 < world) :
    min (rank * rowsPerWorker vocab world) vocab =
      min ((rank + 1) * rowsPerWorker vocab world) vocab ↔
      vocab ≤ rank * rowsPerWorker vocab world := by
  rw [Nat.succ_mul]
  constructor
  · intro hempty
    by_contra hkeeps
    have : 0 < rowsPerWorker vocab world := rowsPerWorker_pos hworld (by omega)
    omega
  · omega

/-- **The ranges of a group** cut the rows of a table into consecutive pieces. -/
theorem isPartition_range (hworld : 0 < world) :
    IsPartition vocab (fun r : Fin world => min (r * rowsPerWorker vocab world) vocab)
      fun r => min ((r + 1) * rowsPerWorker vocab world) vocab where
  start_le_stop r := min_le_min_right _ (Nat.mul_le_mul_right _ (Nat.le_succ r))
  stop_le r := min_le_right _ _
  start_first r hr := by rw [hr, Nat.zero_mul, Nat.zero_min]
  start_next r s hs := by rw [hs]
  stop_last r hr := by rw [hr, min_eq_right (le_mul_rowsPerWorker hworld)]
  existsUnique t ht := by
    refine ⟨⟨t / rowsPerWorker vocab world, (owner_keeps hworld ht).1⟩, ?_, fun r hr => ?_⟩
    · exact (owner_iff hworld ht).mp rfl
    · exact Fin.ext ((owner_iff hworld ht).mpr hr)
  antitone r s hrs := by
    have hle : (r : Nat) * rowsPerWorker vocab world ≤ s * rowsPerWorker vocab world :=
      Nat.mul_le_mul_right _ hrs
    simp only [length_range]
    omega

/-! ### Shares -/

namespace VocabularyShard

variable {α : Type} {table : Tensor α} {rest : List Nat}

/-- **The workers of a group partition a table**, if its rows and the workers can be counted
together. No product of a rank and a share is too large to be counted, every worker gets the rows of
its range, the ranges are a partition, each row has the one owner that its place tells, and a worker
has no rows just if the full shares before it reach the end of the table. -/
theorem exists_partition (hworld : 0 < world) (hcount : vocab + world < wordCount)
    (hshape : table.shape = vocab :: rest) :
    (∀ rank ≤ world, rank * (vocab ⌈/⌉ world) < wordCount) ∧
    ∃ shard : Fin world → VocabularyShard α,
      (∀ r : Fin world, ofTable table world r = .ok (shard r)) ∧
      (∀ r, (shard r).table.shape = ((shard r).stop - (shard r).start) :: rest) ∧
      IsPartition vocab (fun r => (shard r).start) (fun r => (shard r).stop) ∧
      (∀ t < vocab, ∃ owner : Fin world, (owner : Nat) = t / (vocab ⌈/⌉ world) ∧
        ∀ r, (shard r).owns t = true ↔ r = owner) ∧
      ∀ r, (shard r).start = (shard r).stop ↔ vocab ≤ r * (vocab ⌈/⌉ world) := by
  simp only [← rowsPerWorker_eq_ceilDiv]
  have hlt : ∀ rank ≤ world, rank * rowsPerWorker vocab world < wordCount :=
    fun rank hrank => mul_rowsPerWorker_lt hworld hcount hrank
  choose part hpart hslice using fun r : Fin world =>
    exists_ofTable hshape hworld (hlt (r + 1) r.isLt)
  refine ⟨hlt, _, hpart, fun r => (slice_ok hshape (hslice r)).1, isPartition_range hworld,
    fun t ht => ⟨⟨_, (owner_keeps hworld ht).1⟩, rfl, fun r => ?_⟩, fun r => range_empty_iff hworld⟩
  rw [Fin.ext_iff, owner_iff hworld ht, owns, decide_eq_true_iff, Nat.cast_le, Nat.cast_lt]

/-- Five rows among four workers: two rows for two of them, one for the next, none for the last. -/
theorem exists_partition_uneven : ∃ shard : Fin 4 → VocabularyShard Float32,
    (∀ r : Fin 4, ofTable fiveRows 4 r = .ok (shard r)) ∧
    IsPartition 5 (fun r => (shard r).start) (fun r => (shard r).stop) ∧
    (∀ r, (shard r).owns 4 = true ↔ r = 2) ∧
    ∀ r, (shard r).start = (shard r).stop ↔ r = 3 := by
  obtain ⟨-, shard, hshard, -, hpart, howner, hempty⟩ :=
    @exists_partition 5 4 Float32 fiveRows [1] (by decide) (by decide) rfl
  refine ⟨shard, hshard, hpart, fun r => ?_, fun r => ?_⟩
  · obtain ⟨owner, howner, howns⟩ := howner 4 (by decide)
    obtain rfl : owner = 2 := Fin.ext howner
    exact howns r
  · rw [hempty]
    revert r
    decide

end VocabularyShard

end DraftHeads
