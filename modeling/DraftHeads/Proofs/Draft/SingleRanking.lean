import DraftHeads.Proofs.Draft.Ranking
import DraftHeads.Proofs.Number.Elementary

/-! # Distributions in single precision

The logarithms of a distribution in single precision are all numbers, none of them the negative
zero, or none of them is a number. Then both ways to compare agree.

* `sum_atLeast`, `sum_atLeast_two`: sums of numbers that are not negative.
* `rowMax_spec`: the largest number of a row.
* `logDistribution_proper`: the entries of a distribution.
* `LawfulRanking Float32`: the order of the single format. -/

namespace DraftHeads

open Number
open Float.Model (UnpackedFloat)
open Float.Model.UnpackedFloat

/-! ### Sums -/

theorem unpacked_zero : unpacked 0 = .zero .positive := rfl

theorem sum_notANumber : ∀ {xs : List Float32} {acc : Float32},
    (unpacked acc = .notANumber ∨ ∃ x ∈ xs, unpacked x = .notANumber) →
      unpacked (xs.foldl (· + ·) acc) = .notANumber
  | [], acc, h => by simpa using h
  | x :: xs, acc, h => by
    rw [List.foldl_cons]
    have hnext : unpacked (acc + x) = .notANumber ∨ ∃ y ∈ xs, unpacked y = .notANumber := by
      rcases h with h | ⟨y, hy, h⟩
      · exact Or.inl (notANumber_add (Or.inl h))
      · rcases List.mem_cons.mp hy with rfl | hy
        · exact Or.inl (notANumber_add (Or.inr h))
        · exact Or.inr ⟨y, hy, h⟩
    have ih := sum_notANumber hnext
    exact ih

theorem nonNeg_add {x y : Float32} (hx : NonNeg (unpacked x)) (hy : NonNeg (unpacked y)) :
    NonNeg (unpacked (x + y)) :=
  hx.add hy (canonical_unpacked x) (canonical_unpacked y)

theorem sum_nonNeg : ∀ {xs : List Float32} {acc : Float32}, NonNeg (unpacked acc) →
    (∀ x ∈ xs, NonNeg (unpacked x)) → NonNeg (unpacked (xs.foldl (· + ·) acc))
  | [], _, hacc, _ => hacc
  | x :: xs, _, hacc, h => by
    rw [List.foldl_cons]
    have ih := sum_nonNeg (nonNeg_add hacc (h x (by simp)))
      fun y hy => h y (List.mem_cons_of_mem x hy)
    exact ih

/-- **A sum is at least what one of its terms is at least**, if no term is negative. -/
theorem sum_atLeast {k : Int} : ∀ {xs : List Float32} {acc : Float32}, NonNeg (unpacked acc) →
    (∀ x ∈ xs, NonNeg (unpacked x)) →
      (AtLeast k (unpacked acc) ∨ ∃ x ∈ xs, AtLeast k (unpacked x)) →
        AtLeast k (unpacked (xs.foldl (· + ·) acc))
  | [], acc, _, _, h => by simpa using h
  | x :: xs, acc, hacc, hall, h => by
    have hx := hall x (by simp)
    have hnext : AtLeast k (unpacked (acc + x)) ∨ ∃ y ∈ xs, AtLeast k (unpacked y) := by
      rcases h with h | ⟨y, hy, h⟩
      · exact Or.inl (h.add (canonical_unpacked acc) (canonical_unpacked x) hx)
      · rcases List.mem_cons.mp hy with rfl | hy
        · exact Or.inl (h.add_right (canonical_unpacked y) (canonical_unpacked acc) hacc)
        · exact Or.inr ⟨y, hy, h⟩
    rw [List.foldl_cons]
    have ih := sum_atLeast (nonNeg_add hacc hx)
      (fun y hy => hall y (List.mem_cons_of_mem x hy)) hnext
    exact ih

theorem sum_atLeast_succ {k : Int} : ∀ {xs : List Float32} {acc : Float32},
    AtLeast k (unpacked acc) → (∀ x ∈ xs, NonNeg (unpacked x)) →
      (∃ x ∈ xs, AtLeast k (unpacked x)) → AtLeast (k + 1) (unpacked (xs.foldl (· + ·) acc))
  | x :: xs, acc, hacc, hall, ⟨y, hy, h⟩ => by
    have hx := hall x (by simp)
    have hxs : ∀ y ∈ xs, NonNeg (unpacked y) := fun y hy => hall y (List.mem_cons_of_mem x hy)
    rw [List.foldl_cons]
    rcases List.mem_cons.mp hy with rfl | hy
    · have hnext : AtLeast (k + 1) (unpacked (acc + y)) :=
        hacc.add_both h (canonical_unpacked acc) (canonical_unpacked y)
      have hsum := sum_atLeast (nonNeg_add hacc.nonNeg hx) hxs (Or.inl hnext)
      exact hsum
    · have hnext : AtLeast k (unpacked (acc + x)) :=
        hacc.add (canonical_unpacked acc) (canonical_unpacked x) hx
      have ih := sum_atLeast_succ hnext hxs ⟨y, hy, h⟩
      exact ih

/-- **A sum with two terms that are at least one** is at least two. -/
theorem sum_atLeast_two {xs ys : List Float32} {x y : Float32}
    (hall : ∀ z ∈ xs ++ x :: ys, NonNeg (unpacked z)) (hx : AtLeast 1 (unpacked x))
    (hy : AtLeast 1 (unpacked y)) (hmem : y ∈ xs ∨ y ∈ ys) :
    AtLeast 2 (unpacked ((xs ++ x :: ys).foldl (· + ·) 0)) := by
  have hzero : NonNeg (unpacked 0) := Or.inl unpacked_zero
  have hxs : ∀ z ∈ xs, NonNeg (unpacked z) := fun z hz => hall z (List.mem_append_left _ hz)
  have hys : ∀ z ∈ x :: ys, NonNeg (unpacked z) := fun z hz => hall z (List.mem_append_right _ hz)
  have hsum := sum_nonNeg hzero hxs
  rw [List.foldl_append]
  rcases hmem with hmem | hmem
  · have hfirst := sum_atLeast hzero hxs (Or.inr ⟨y, hmem, hy⟩)
    exact sum_atLeast_succ (k := 1) hfirst hys ⟨x, by simp, hx⟩
  · rw [List.foldl_cons]
    have hnext : AtLeast 1 (unpacked (xs.foldl (· + ·) 0 + x)) :=
      hx.add_right (canonical_unpacked x) (canonical_unpacked _) hsum
    have hlast := sum_atLeast_succ hnext (fun z hz => hys z (List.mem_cons_of_mem x hz))
      ⟨y, hmem, hy⟩
    exact hlast

/-! ### The largest number -/

theorem larger_eq {x y : Float32} (hx : unpacked x ≠ .notANumber) (hy : unpacked y ≠ .notANumber) :
    larger x y = if key (unpacked x) < key (unpacked y) then y else x := by
  have hnan : Analytic.isNaN x = false := by
    change (unpacked x).isNaN = false
    cases h : unpacked x with
    | notANumber => exact absurd h hx
    | infinity s => rfl
    | zero s => rfl
    | finite s m e hm => rfl
  have hlt := lt_iff_key (canonical_unpacked x) (inRange_unpacked x) (canonical_unpacked y)
    (inRange_unpacked y) hx hy
  rw [larger, hnan, if_neg Bool.false_ne_true, less_eq_lt]
  exact if_congr hlt rfl rfl

theorem foldl_larger : ∀ {xs : List Float32} {top : Float32}, unpacked top ≠ .notANumber →
    (∀ x ∈ xs, unpacked x ≠ .notANumber) → (xs.foldl larger top = top ∨ xs.foldl larger top ∈ xs) ∧
      key (unpacked top) ≤ key (unpacked (xs.foldl larger top)) ∧
        ∀ x ∈ xs, key (unpacked x) ≤ key (unpacked (xs.foldl larger top))
  | [], top, _, _ => ⟨Or.inl rfl, le_rfl, by simp⟩
  | x :: xs, top, htop, hall => by
    have hx := hall x (by simp)
    have hxs : ∀ y ∈ xs, unpacked y ≠ .notANumber := fun y hy => hall y (List.mem_cons_of_mem x hy)
    rw [List.foldl_cons, larger_eq htop hx]
    split_ifs with hlt
    · obtain ⟨hmem, hle, hle'⟩ := foldl_larger hx hxs
      refine ⟨Or.inr ?_, hlt.le.trans hle, fun y hy => ?_⟩
      · rcases hmem with hmem | hmem
        · rw [hmem]
          exact List.mem_cons_self
        · exact List.mem_cons_of_mem x hmem
      · rcases List.mem_cons.mp hy with rfl | hy
        · exact hle
        · exact hle' y hy
    · obtain ⟨hmem, hle, hle'⟩ := foldl_larger htop hxs
      refine ⟨hmem.imp id (List.mem_cons_of_mem x), hle, fun y hy => ?_⟩
      rcases List.mem_cons.mp hy with rfl | hy
      · exact (not_lt.mp hlt).trans hle
      · exact hle' y hy

theorem rowMax_spec {row : List Float32} (hrow : row ≠ [])
    (h : ∀ x ∈ row, unpacked x ≠ .notANumber) :
    rowMax row ∈ row ∧ ∀ x ∈ row, key (unpacked x) ≤ key (unpacked (rowMax row)) := by
  obtain ⟨x, xs, rfl⟩ := List.exists_cons_of_ne_nil hrow
  obtain ⟨hmem, hle, hle'⟩ := foldl_larger (h x (by simp))
    fun y hy => h y (List.mem_cons_of_mem x hy)
  refine ⟨?_, fun y hy => ?_⟩
  · rcases hmem with hmem | hmem
    · change xs.foldl larger x ∈ x :: xs
      rw [hmem]
      exact List.mem_cons_self
    · exact List.mem_cons_of_mem x hmem
  · rcases List.mem_cons.mp hy with rfl | hy
    · exact hle
    · exact hle' y hy

/-! ### Distributions -/

/-- The exponentials of the distances to the largest number of a row. -/
def exponentials (row : List Float32) : List Float32 :=
  row.map fun x => Analytic.exp (x - rowMax row)

theorem logDistribution_eq (row : List Float32) : logDistribution row =
    row.map fun x => x - rowMax row - Analytic.log ((exponentials row).foldl (· + ·) 0) := rfl

theorem sub_self_eq (u : UnpackedFloat) :
    settle (sub binary32 u u) = .zero .positive ∨ settle (sub binary32 u u) = .notANumber := by
  cases u with
  | notANumber => exact Or.inr settle_notANumber
  | infinity s => cases s <;> exact Or.inr settle_notANumber
  | zero s => cases s <;> exact Or.inl (settle_zero _)
  | finite s m e hm =>
    rw [sub_finite, Int.sub_self]
    exact Or.inl (settle_zero _)

theorem logDistribution_notANumber {row : List Float32}
    (h : ∃ x ∈ row, unpacked (x - rowMax row) = .notANumber) :
    ∀ y ∈ logDistribution row, unpacked y = .notANumber := by
  obtain ⟨x, hx, h⟩ := h
  have hexp : ∃ y ∈ exponentials row, unpacked y = .notANumber :=
    ⟨_, List.mem_map_of_mem hx, exp_notANumber h⟩
  intro y hy
  rw [logDistribution_eq] at hy
  obtain ⟨z, -, rfl⟩ := List.mem_map.mp hy
  exact notANumber_sub (Or.inr (log_notANumber (sum_notANumber (Or.inr hexp))))

section Numbers

variable {row : List Float32} (hrow : ∀ x ∈ row, unpacked (x - rowMax row) ≠ .notANumber)

include hrow

theorem number_of_sub {x : Float32} (hx : x ∈ row) : unpacked x ≠ .notANumber :=
  fun h => hrow x hx (notANumber_sub (Or.inl h))

theorem exponentials_nonNeg : ∀ y ∈ exponentials row, NonNeg (unpacked y) := by
  intro y hy
  obtain ⟨x, hx, rfl⟩ := List.mem_map.mp hy
  exact exp_nonNeg (hrow x hx)

theorem sub_rowMax_cases {x : Float32} (hx : x ∈ row) :
    (unpacked (x - rowMax row) = .zero .negative ∧ unpacked x = .zero .negative ∧
      unpacked (rowMax row) = .zero .positive) ∨
    unpacked (x - rowMax row) = .zero .positive ∨ Signed .negative (unpacked (x - rowMax row)) := by
  obtain ⟨hmem, hle⟩ := rowMax_spec (List.ne_nil_of_mem hx) fun y hy => number_of_sub hrow hy
  have hdifference := difference_sub (canonical_unpacked x) (inRange_unpacked x)
    (canonical_unpacked (rowMax row)) (inRange_unpacked (rowMax row)) (number_of_sub hrow hx)
    (number_of_sub hrow hmem)
  rw [← unpacked_sub] at hdifference
  cases hdifference with
  | notANumber h => exact absurd h (hrow x hx)
  | negativeZero h hu hv => exact Or.inl ⟨h, hu, hv⟩
  | zero h => exact Or.inr (Or.inl h)
  | signed s h hs =>
    rw [hs (hle x hx)] at h
    exact Or.inr (Or.inr h)

theorem exp_rowMax (hne : row ≠ []) :
    AtLeast 1 (unpacked (Analytic.exp (rowMax row - rowMax row))) := by
  obtain ⟨hmem, -⟩ := rowMax_spec hne fun y hy => number_of_sub hrow hy
  rcases sub_self_eq (unpacked (rowMax row)) with h | h
  · exact exp_zero (x := rowMax row - rowMax row) h
  · exact absurd h (hrow _ hmem)

theorem log_exponentials_nonNeg (hne : row ≠ []) :
    NonNeg (unpacked (Analytic.log ((exponentials row).foldl (· + ·) 0))) := by
  obtain ⟨hmem, -⟩ := rowMax_spec hne fun y hy => number_of_sub hrow hy
  exact log_nonNeg (sum_atLeast (Or.inl unpacked_zero) (exponentials_nonNeg hrow)
    (Or.inr ⟨_, List.mem_map_of_mem hmem, exp_rowMax hrow hne⟩))

/-- It is positive if the row has both zeros as largest numbers. -/
theorem log_exponentials_signed {x : Float32} (hx : x ∈ row)
    (h : unpacked (x - rowMax row) = .zero .negative) (hne : x ≠ rowMax row) :
    Signed .positive (unpacked (Analytic.log ((exponentials row).foldl (· + ·) 0))) := by
  obtain ⟨hmem, -⟩ := rowMax_spec (List.ne_nil_of_mem hx) fun y hy => number_of_sub hrow hy
  obtain ⟨xs, ys, heq⟩ := List.append_of_mem hx
  have hsplit : ∀ y, y ∈ row → y ∈ xs ∨ y = x ∨ y ∈ ys := fun y hy => by
    rwa [heq, List.mem_append, List.mem_cons] at hy
  have hexp : exponentials row = xs.map (fun x => Analytic.exp (x - rowMax row)) ++
      Analytic.exp (x - rowMax row) :: ys.map (fun x => Analytic.exp (x - rowMax row)) :=
    (congrArg (List.map fun x => Analytic.exp (x - rowMax row)) heq).trans List.map_append
  have hall := exponentials_nonNeg hrow
  rw [hexp] at hall ⊢
  refine log_signed (sum_atLeast_two hall (exp_zero h)
    (exp_rowMax hrow (List.ne_nil_of_mem hx)) ?_)
  rcases hsplit _ hmem with hmem | hmem | hmem
  · exact Or.inl (List.mem_map_of_mem hmem)
  · exact absurd hmem.symm hne
  · exact Or.inr (List.mem_map_of_mem hmem)

/-- **The entries of a distribution are proper numbers**, if the distances to the largest one are
numbers. -/
theorem proper_logDistribution : ∀ y ∈ logDistribution row, Proper y := by
  intro y hy
  rw [logDistribution_eq] at hy
  obtain ⟨x, hx, rfl⟩ := List.mem_map.mp hy
  have htotal := log_exponentials_nonNeg hrow (List.ne_nil_of_mem hx)
  have hdistance := sub_rowMax_cases hrow hx
  have hsigned := log_exponentials_signed hrow hx
  generalize hd : x - rowMax row = d at hdistance hsigned ⊢
  generalize Analytic.log ((exponentials row).foldl (· + ·) 0) = t at htotal hsigned ⊢
  have hdifference := difference_sub (canonical_unpacked d) (inRange_unpacked d)
    (canonical_unpacked t) (inRange_unpacked t) (hd ▸ hrow x hx) htotal.ne_notANumber
  rw [← unpacked_sub] at hdifference
  cases hdifference with
  | notANumber _ s h h' =>
    -- an infinite distance is negative, an infinite logarithm is not
    rw [h] at hdistance
    rw [h'] at htotal
    rcases hdistance with ⟨hd, -⟩ | hd | hd
    · cases hd
    · cases hd
    · rcases htotal with ht | ht
      · cases ht
      · cases hd.eq_of_infinity.trans ht.eq_of_infinity.symm
  | negativeZero _ h h' =>
    -- both zeros are in the row, so the sum is at least two
    rw [h] at hdistance
    rcases hdistance with ⟨-, hx, htop⟩ | hd | hd
    · refine absurd h' ((hsigned h fun heq => ?_).ne_zero _)
      rw [← heq, hx] at htop
      cases htop
    · cases hd
    · exact absurd rfl (hd.ne_zero _)
  | zero h => exact proper_of_zero h
  | signed s h => exact proper_of_signed h

end Numbers

/-- **The entries of a distribution** are proper numbers, or none of them is a number. -/
theorem logDistribution_proper (row : List Float32) :
    (∀ y ∈ logDistribution row, unpacked y = .notANumber) ∨
      ∀ y ∈ logDistribution row, Proper y := by
  by_cases h : ∃ x ∈ row, unpacked (x - rowMax row) = .notANumber
  · exact Or.inl (logDistribution_notANumber h)
  · refine Or.inr (proper_logDistribution fun x hx hnan => h ⟨x, hx, hnan⟩)

theorem precedes_iff {x y : Float32} : Analytic.precedes x y = true ↔
    Format.single.rank x.toBits.toNat < Format.single.rank y.toBits.toNat :=
  decide_eq_true_iff

/-- **The order of the single format.** -/
instance : LawfulRanking Float32 where
  asymm x y h := by
    rw [precedes_iff] at h
    rw [← Bool.not_eq_true, precedes_iff]
    omega
  negTrans x y z hxy hyz := by
    rw [← Bool.not_eq_true, precedes_iff] at *
    omega
  less_eq row x hx y hy := by
    rcases logDistribution_proper row with h | h
    · have hbits : x.toBits = y.toBits :=
        (toBits_of_notANumber (h x hx)).trans (toBits_of_notANumber (h y hy)).symm
      have hprec : Analytic.precedes x y = false := by
        rw [← Bool.not_eq_true, precedes_iff, hbits]
        exact Nat.lt_irrefl _
      rw [hprec, less_eq_lt, h x hx]
      cases unpacked y <;> rfl
    · exact less_eq_precedes (h x hx) (h y hy)

end DraftHeads
