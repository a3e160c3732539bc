import DraftHeads.Proofs.Draft.Ranking
import DraftHeads.Proofs.Number.Single

/-! # The largest entry of a row

The search for the largest entry of a row of any single precision numbers: infinities, zeros of both
signs and what is not a number among them.

* `less_iff`: when a number is less than another.
* `Leads`: an entry is the lowest of the largest entries of a row; `Leads.unique`: there is one.
* `leads_argmax`: the search finds it. -/

namespace DraftHeads

open Number

theorem isNaN_iff {x : Float32} : Analytic.isNaN x = true ↔ unpacked x = .notANumber := by
  change (unpacked x).isNaN = true ↔ _
  cases unpacked x with
  | notANumber => exact iff_of_true rfl rfl
  | infinity s => exact iff_of_false Bool.false_ne_true nofun
  | zero s => exact iff_of_false Bool.false_ne_true nofun
  | finite s m e hm => exact iff_of_false Bool.false_ne_true nofun

theorem less_iff {x y : Float32} : Scalar.less x y = true ↔
    unpacked x ≠ .notANumber ∧ unpacked y ≠ .notANumber ∧ key (unpacked x) < key (unpacked y) := by
  rw [less_eq_lt]
  by_cases hx : unpacked x = .notANumber
  · rw [hx]
    exact iff_of_false (by cases unpacked y <;> exact Bool.false_ne_true) (fun h => h.1 rfl)
  · by_cases hy : unpacked y = .notANumber
    · rw [hy]
      refine iff_of_false ?_ (fun h => h.2.1 rfl)
      cases unpacked x <;> exact Bool.false_ne_true
    · rw [lt_iff_key (canonical_unpacked x) (inRange_unpacked x) (canonical_unpacked y)
        (inRange_unpacked y) hx hy]
      simp [hx, hy]

/-- The entry `x` at the place `i` of a row is the lowest of the largest entries. What is not a
number is passed over, but for the first entry, with which the search begins. -/
structure Leads (row : List Float32) (i : Nat) (x : Float32) : Prop where
  entry : row[i]? = some x
  largest : ∀ y ∈ row, Scalar.less x y = false
  lowest : ∀ j < i, ∀ y, row[j]? = some y →
    Scalar.less y x = true ∨ 0 < j ∧ Analytic.isNaN y = true

namespace Leads

variable {row : List Float32} {i : Nat} {x y : Float32}

theorem single (x : Float32) : Leads [x] 0 x where
  entry := rfl
  largest := fun y hy => by
    obtain rfl := List.mem_singleton.mp hy
    rw [← Bool.not_eq_true, less_iff]
    exact fun h => lt_irrefl _ h.2.2
  lowest := fun j hj => by omega

theorem append_of_not_less (h : Leads row i x) (hless : Scalar.less x y = false) :
    Leads (row ++ [y]) i x := by
  have hi := (List.getElem?_eq_some_iff.mp h.entry).1
  refine ⟨?_, fun z hz => ?_, fun j hj z hz => ?_⟩
  · rw [List.getElem?_append_left hi, h.entry]
  · rcases List.mem_append.mp hz with hz | hz
    · exact h.largest z hz
    · rw [List.mem_singleton.mp hz, hless]
  · rw [List.getElem?_append_left (by omega)] at hz
    exact h.lowest j hj z hz

theorem append_of_less (h : Leads row i x) (hless : Scalar.less x y = true) :
    Leads (row ++ [y]) row.length y := by
  obtain ⟨hx, hy, hlt⟩ := less_iff.mp hless
  have hsmaller : ∀ z ∈ row, unpacked z ≠ .notANumber → key (unpacked z) < key (unpacked y) :=
    fun z hz hnumber => by
      have hnot := h.largest z hz
      rw [← Bool.not_eq_true, less_iff] at hnot
      by_contra hge
      exact hnot ⟨hx, hnumber, by omega⟩
  refine ⟨by simp, fun z hz => ?_, fun j hj z hz => ?_⟩
  · rw [← Bool.not_eq_true, less_iff]
    rintro ⟨-, hnumber, hlt'⟩
    rcases List.mem_append.mp hz with hz | hz
    · have := hsmaller z hz hnumber
      omega
    · rw [List.mem_singleton.mp hz] at hlt'
      omega
  · rw [List.getElem?_append_left hj] at hz
    by_cases hnumber : unpacked z = .notANumber
    · -- the search began with a number, for it was overtaken
      have hpos : 0 < j := by
        by_contra hzero
        obtain rfl : j = 0 := by omega
        rcases Nat.eq_zero_or_pos i with rfl | hi
        · obtain rfl := Option.some.inj (h.entry.symm.trans hz)
          exact hx hnumber
        · rcases h.lowest 0 hi z hz with hless' | ⟨hlt', -⟩
          · exact (less_iff.mp hless').1 hnumber
          · omega
      exact Or.inr ⟨hpos, isNaN_iff.mpr hnumber⟩
    · exact Or.inl (less_iff.mpr ⟨hnumber, hy, hsmaller z (List.mem_of_getElem? hz) hnumber⟩)

theorem number (h : Leads row i x) (hi : 0 < i) : unpacked x ≠ .notANumber := by
  have hfirst : 0 < row.length := by
    have := (List.getElem?_eq_some_iff.mp h.entry).1
    omega
  rcases h.lowest 0 hi _ (List.getElem?_eq_getElem hfirst) with hless | ⟨hlt, -⟩
  · exact (less_iff.mp hless).2.1
  · omega

theorem not_lt {j : Nat} (hx : Leads row i x) (hy : Leads row j y) : ¬ i < j := by
  intro hlt
  rcases hy.lowest i hlt x hx.entry with hless | ⟨hi, hnan⟩
  · rw [hx.largest y (List.mem_of_getElem? hy.entry)] at hless
    cases hless
  · exact hx.number hi (isNaN_iff.mp hnan)

theorem unique {j : Nat} (hx : Leads row i x) (hy : Leads row j y) : i = j :=
  le_antisymm (Nat.not_lt.mp (hy.not_lt hx)) (Nat.not_lt.mp (hx.not_lt hy))

theorem step (h : Leads row i x) (y : Float32) :
    Leads (row ++ [y]) (argmaxStep (row.length, i, x) y).2.1
      (argmaxStep (row.length, i, x) y).2.2 := by
  unfold argmaxStep
  split_ifs with hless
  · exact h.append_of_less hless
  · exact h.append_of_not_less (Bool.not_eq_true _ ▸ hless)

theorem foldl : ∀ {xs row : List Float32} {i : Nat} {x : Float32}, Leads row i x →
    Leads (row ++ xs) (xs.foldl argmaxStep (row.length, i, x)).2.1
      (xs.foldl argmaxStep (row.length, i, x)).2.2
  | [], row, i, x, h => by rwa [List.append_nil]
  | y :: xs, row, i, x, h => by
    have hstep : argmaxStep (row.length, i, x) y = ((row ++ [y]).length,
        (argmaxStep (row.length, i, x) y).2.1, (argmaxStep (row.length, i, x) y).2.2) := by
      rw [List.length_append, List.length_singleton]
      unfold argmaxStep
      split_ifs <;> rfl
    rw [List.append_cons, List.foldl_cons, hstep]
    exact (h.step y).foldl

end Leads

/-- **The search finds the lowest of the largest entries.** -/
theorem leads_argmax {row : List Float32} (hrow : row ≠ []) : ∃ x, Leads row (argmax row) x := by
  obtain ⟨x, xs, rfl⟩ := List.exists_cons_of_ne_nil hrow
  exact ⟨_, (Leads.single x).foldl⟩

/-- Of two zeros the first one counts, whatever their signs are. -/
example : argmax [(0 : Float32), Float32.ofBits 0x80000000] = 0 := by decide

end DraftHeads
