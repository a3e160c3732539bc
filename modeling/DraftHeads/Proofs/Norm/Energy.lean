import Mathlib.Analysis.SpecialFunctions.Pow.Real
import DraftHeads.Proofs.Draft.Row
import DraftHeads.Proofs.Number.Real

/-! # The energy of normalised rows

The *energy* of a row is the mean of its squares. In exact numbers the plain normaliser divides a
row of energy `m` by `√(m + eps)`, whatever the other rows are.

* `Tensor.mapRows_rows`: rows are mapped one by one, whatever the axes before the last one.
* `energy`, `energy_map_mul`: a row that is multiplied by a number.
* `Norm.unitRow`, `Norm.plain_rows`: what the plain normaliser makes of a row.
* `Norm.energy_unitRow`: the energy becomes `m / (m + eps)`.
* `Norm.one_sub_one_div_sqrt_le`, `Norm.abs_one_div_sqrt_sub_one_le`: how far the factors are from
  one.
* `Norm.plain_energy`: the normaliser applied once and twice. -/

namespace DraftHeads

/-! ### Rows of a tensor -/

namespace Tensor

variable {α β σ : Type} {t : Tensor α}

theorem length_data_rows (h : t.rank ≠ 0) : t.data.length = entryCount t.lead * t.width := by
  have hne : t.shape ≠ [] := List.ne_nil_of_length_pos (Nat.pos_of_ne_zero h)
  have hshape : t.lead ++ [t.width] = t.shape := by
    rw [lead, width, List.getLastD_eq_getLast?, List.getLast?_eq_some_getLast hne, Option.getD_some,
      List.dropLast_append_getLast]
  rw [t.length_data, ← hshape, entryCount_append]

theorem length_of_mem_rows (h : t.rank ≠ 0) : ∀ row ∈ t.rows, row.length = t.width :=
  length_of_mem_pieces (length_data_rows h)

/-- **Each row is mapped** with what its reduction gives, whatever the axes before the last one. -/
theorem mapRows_rows (stat : List α → σ) (f : σ → α → β) (h : t.rank ≠ 0) :
    ∃ u, t.mapRows stat f = .ok u ∧ u.shape = t.shape ∧
      u.rows = t.rows.map fun row => row.map (f (stat row)) := by
  have hmap : ∀ row ∈ t.rows.map fun row => row.map (f (stat row)), row.length = t.width := by
    intro row hrow
    obtain ⟨r, hr, rfl⟩ := List.mem_map.mp hrow
    rw [List.length_map, length_of_mem_rows h r hr]
  have hcount : (t.rows.map fun row => row.map (f (stat row))).length = entryCount t.lead := by
    rw [List.length_map, rows, length_pieces]
  have hsize : (t.rows.flatMap fun row => row.map (f (stat row))).length = entryCount t.shape := by
    rw [List.flatMap_def, length_flatten_block hmap, hcount, ← length_data_rows h, t.length_data]
  obtain ⟨u, hu, hshape, hdata⟩ := ofData_eq hsize
  refine ⟨u, hu, hshape, ?_⟩
  have hrows : u.rows = pieces t.width (entryCount t.lead) u.data := by
    rw [rows, width, lead, hshape, width, lead]
  rw [hrows, hdata, List.flatMap_def, ← hcount, pieces_flatten hmap]

end Tensor

/-! ### Energies -/

/-- The mean of the squares of a row. -/
noncomputable def energy (row : List ℝ) : ℝ := (row.map (· ^ 2)).sum / row.length

section Energy

variable {row : List ℝ}

theorem energy_nonneg (row : List ℝ) : 0 ≤ energy row := by
  refine div_nonneg (List.sum_nonneg fun y hy => ?_) (Nat.cast_nonneg _)
  obtain ⟨x, -, rfl⟩ := List.mem_map.mp hy
  exact sq_nonneg x

theorem energy_pos (h : ∃ x ∈ row, x ≠ 0) : 0 < energy row := by
  obtain ⟨x, hx, hne⟩ := h
  have hsum : x ^ 2 ≤ (row.map (· ^ 2)).sum := by
    refine List.single_le_sum (fun y hy => ?_) _ (List.mem_map_of_mem hx)
    obtain ⟨z, -, rfl⟩ := List.mem_map.mp hy
    exact sq_nonneg z
  have hlen : 0 < row.length := List.length_pos_of_mem hx
  exact div_pos (lt_of_lt_of_le (by positivity) hsum) (Nat.cast_pos.mpr hlen)

theorem energy_map_mul (c : ℝ) (row : List ℝ) :
    energy (row.map (c * ·)) = c ^ 2 * energy row := by
  have hsum : ((row.map (c * ·)).map (· ^ 2)).sum = c ^ 2 * (row.map (· ^ 2)).sum := by
    rw [List.map_map, ← List.sum_map_mul_left]
    exact congrArg List.sum (List.map_congr_left fun x _ => mul_pow c x 2)
  rw [energy, energy, hsum, List.length_map, mul_div_assoc]

end Energy

namespace Norm

theorem meanSquare_eq (row : List ℝ) : meanSquare ℝ row = energy row := by
  have hsum : (row.map fun x => x * x).foldl (· + ·) 0 = (row.map (· ^ 2)).sum := by
    rw [← List.sum_eq_foldl]
    exact congrArg List.sum (List.map_congr_left fun x _ => (sq x).symm)
  change (row.map fun x => x * x).foldl (· + ·) 0 * (1 / (row.length : ℝ)) = _
  rw [hsum, mul_one_div, energy]

/-- The row divided by the root of its energy, with an epsilon added to the energy. -/
noncomputable def unitRow (eps : ℝ) (row : List ℝ) : List ℝ :=
  row.map (· / √(energy row + eps))

theorem scaledRow_eq (eps : ℝ) (row : List ℝ) : scaledRow eps row = unitRow eps row := by
  have hwiden : row.map (Element.widen : ℝ → ℝ) = row := List.map_id row
  refine List.map_congr_left fun x _ => ?_
  rw [hwiden]
  change x * (1 / √(meanSquare ℝ row + eps)) = _
  rw [meanSquare_eq, mul_one_div]

/-- **The plain normaliser** divides each row by the root of its energy. -/
theorem plain_rows (eps : ℝ) {xs : Tensor ℝ} (h : xs.rank ≠ 0) :
    ∃ ys, (plain eps : Norm ℝ ℝ).apply xs = .ok ys ∧ ys.shape = xs.shape ∧
      ys.rows = xs.rows.map (unitRow eps) := by
  obtain ⟨ys, hys, hshape, hrows⟩ := Tensor.mapRows_rows
    (fun row : List ℝ => rowScale ℝ eps (row.map Element.widen))
    (fun (scale : ℝ) (x : ℝ) => (Element.narrow (Element.widen x * scale) : ℝ)) h
  refine ⟨ys, ?_, hshape, hrows.trans (List.map_congr_left fun row _ => scaledRow_eq eps row)⟩
  rw [apply, scaleRows, plain, if_neg h, hys]
  rfl

section Unit

variable {row : List ℝ} {eps : ℝ}

/-- **The energy of a normalised row.** -/
theorem energy_unitRow (h : 0 < energy row + eps) :
    energy (unitRow eps row) = energy row / (energy row + eps) := by
  have hmul : unitRow eps row = row.map ((√(energy row + eps))⁻¹ * ·) :=
    List.map_congr_left fun x _ => div_eq_inv_mul x _
  rw [hmul, energy_map_mul, inv_pow, Real.sq_sqrt h.le, inv_mul_eq_div]

end Unit

/-! ### Factors close to one -/

section Factors

variable {e m eps : ℝ}

theorem one_sub_one_div_sqrt_le (he : 0 ≤ e) :
    0 ≤ 1 - 1 / √(1 + e) ∧ 1 - 1 / √(1 + e) ≤ e / 2 := by
  have hone : 1 ≤ √(1 + e) := Real.one_le_sqrt.mpr (by linarith)
  have hpos : 0 < √(1 + e) := by linarith
  have hle : √(1 + e) ≤ 1 + e / 2 := Real.sqrt_one_add_le (by linarith)
  constructor
  · rw [sub_nonneg, div_le_one hpos]
    exact hone
  · have hfactor : (1 - e / 2) * √(1 + e) ≤ 1 := by
      rcases le_total 0 (1 - e / 2) with h | h
      · calc (1 - e / 2) * √(1 + e) ≤ (1 - e / 2) * (1 + e / 2) := mul_le_mul_of_nonneg_left hle h
          _ = 1 - (e / 2) ^ 2 := by ring
          _ ≤ 1 := sub_le_self 1 (sq_nonneg _)
      · linarith [mul_nonpos_of_nonpos_of_nonneg h hpos.le]
    have hdiv := (le_div_iff₀ hpos).mpr hfactor
    linarith

/-- **The factor of a second normalisation** of a row of energy `m`. -/
theorem abs_one_div_sqrt_sub_one_le (hm : 0 < m) (heps : 0 < eps) :
    |1 / √(m / (m + eps) + eps) - 1| ≤ eps + eps / m := by
  have hadd : 0 < m + eps := by linarith
  have hquot : m / (m + eps) ≤ 1 := (div_le_one hadd).mpr (by linarith)
  have hratio : 0 < eps / m := div_pos heps hm
  set s := m / (m + eps) + eps with hs
  have hspos : 0 < s := by positivity
  rcases le_total 1 s with h | h
  · -- the epsilon outweighs what the first normalisation left out
    obtain ⟨hlow, hhigh⟩ := one_sub_one_div_sqrt_le (e := s - 1) (by linarith)
    rw [add_sub_cancel] at hlow hhigh
    rw [abs_sub_comm, abs_of_nonneg hlow]
    linarith
  · have hone : 1 ≤ s * (1 + eps / m) := by
      have hsplit : s * (1 + eps / m) = 1 + eps * (1 + eps / m) := by
        rw [hs]
        field_simp
      rw [hsplit]
      nlinarith
    have hroot : 1 ≤ √s * √(1 + eps / m) := by
      rw [← Real.sqrt_mul hspos.le]
      exact Real.one_le_sqrt.mpr hone
    have hfactor : 1 / √s ≤ √(1 + eps / m) := by
      rw [div_le_iff₀ (Real.sqrt_pos.mpr hspos), mul_comm]
      exact hroot
    have hhigh : √(1 + eps / m) ≤ 1 + eps / m / 2 := Real.sqrt_one_add_le (by linarith)
    have hlow : 1 ≤ 1 / √s := by
      rw [le_div_iff₀ (Real.sqrt_pos.mpr hspos), one_mul]
      exact Real.sqrt_le_one.mpr h
    rw [abs_of_nonneg (by linarith)]
    linarith

end Factors

/-! ### The plain normaliser -/

/-- **The plain normaliser has bounded energy, and applied again it does next to nothing.** It maps
each row of energy `m` on its own to the row divided by `√(m + eps)`, of energy `m / (m + eps)`,
which is below one. An entry `x` of a row of energy one changes by at most `eps / 2 * |x|`. The
second application multiplies the row by a factor that is at most `eps + eps / m` away from one. -/
theorem plain_energy {eps : ℝ} (heps : 0 < eps) {xs : Tensor ℝ} {lead : List ℕ} {width : ℕ}
    (hshape : xs.shape = lead ++ [width]) :
    ∃ ys zs, (plain eps : Norm ℝ ℝ).apply xs = .ok ys ∧ (plain eps : Norm ℝ ℝ).apply ys = .ok zs ∧
      ys.shape = xs.shape ∧ zs.shape = xs.shape ∧
      ys.rows = xs.rows.map (fun row => row.map (· / √(energy row + eps))) ∧
      zs.rows = List.zipWith (fun row y =>
        y.map (· * (1 / √(energy row / (energy row + eps) + eps)))) xs.rows ys.rows ∧
      ∀ row ∈ xs.rows,
        let m := energy row
        let y := row.map (· / √(m + eps))
        row.length = width ∧ energy y = m / (m + eps) ∧ energy y < 1 ∧
        (m = 1 → ∀ x ∈ row, |x / √(m + eps) - x| ≤ eps / 2 * |x|) ∧
        (0 < m → |1 / √(m / (m + eps) + eps) - 1| ≤ eps + eps / m) := by
  have hrank : xs.rank ≠ 0 := by simp [Tensor.rank, hshape]
  have hwidth : xs.width = width := by simp [Tensor.width, hshape]
  have hpos : ∀ row : List ℝ, 0 < energy row + eps := fun row =>
    add_pos_of_nonneg_of_pos (energy_nonneg row) heps
  obtain ⟨ys, hys, hyshape, hyrows⟩ := plain_rows eps hrank
  have hyrank : ys.rank ≠ 0 := by
    rw [Tensor.rank, hyshape]
    exact hrank
  obtain ⟨zs, hzs, hzshape, hzrows⟩ := plain_rows eps hyrank
  refine ⟨ys, zs, hys, hzs, hyshape, hzshape.trans hyshape, hyrows, ?_, fun row hrow => ?_⟩
  · rw [hzrows, hyrows, List.map_map, List.zipWith_map_right, List.zipWith_self]
    refine List.map_congr_left fun row _ => ?_
    have hagain : unitRow eps (unitRow eps row) =
        (unitRow eps row).map (· / √(energy row / (energy row + eps) + eps)) := by
      rw [unitRow, energy_unitRow (hpos row)]
    rw [Function.comp, hagain]
    exact List.map_congr_left fun y _ => (mul_one_div y _).symm
  · intro m y
    have henergy : energy y = m / (m + eps) := energy_unitRow (hpos row)
    refine ⟨(Tensor.length_of_mem_rows hrank row hrow).trans hwidth, henergy, ?_, fun hm x _ => ?_,
      fun hm => abs_one_div_sqrt_sub_one_le hm heps⟩
    · rw [henergy, div_lt_one (hpos row)]
      exact lt_add_of_pos_right m heps
    · obtain ⟨hlow, hhigh⟩ := one_sub_one_div_sqrt_le heps.le
      have hchange : x / √(m + eps) - x = -((1 - 1 / √(1 + eps)) * x) := by
        rw [hm]
        ring
      rw [hchange, abs_neg, abs_mul, abs_of_nonneg hlow]
      exact mul_le_mul_of_nonneg_right hhigh (abs_nonneg x)

/-- Two rows with an axis of one entry between them. -/
def pairRows : Tensor ℝ := ⟨[2, 1, 2], .pure [3, 4, 1, 1], rfl⟩

/-- Rows of the energies `25 / 2` and one, with an epsilon of a quarter. -/
theorem plain_energy_quarter : (0 : ℝ) < 1 / 4 ∧ pairRows.shape = [2, 1] ++ [2] ∧
    ∃ ys zs, (plain (1 / 4 : ℝ) : Norm ℝ ℝ).apply pairRows = .ok ys ∧
      (plain (1 / 4 : ℝ) : Norm ℝ ℝ).apply ys = .ok zs ∧ ys.shape = [2, 1, 2] ∧
      zs.shape = [2, 1, 2] ∧ ys.rows.map energy = [50 / 51, 4 / 5] ∧
      |1 / √(1 + 1 / 4) - 1| ≤ (1 / 4 / 2 : ℝ) ∧
      |1 / √(50 / 51 + 1 / 4) - 1| ≤ (1 / 4 + 1 / 4 / (25 / 2) : ℝ) := by
  obtain ⟨ys, zs, hys, hzs, hyshape, hzshape, hyrows, -, hall⟩ :=
    @plain_energy (1 / 4) (by norm_num) pairRows [2, 1] 2 rfl
  have hrows : pairRows.rows = [[3, 4], [1, 1]] := rfl
  rw [hrows] at hyrows hall
  have hlarge : energy [3, 4] = 25 / 2 := by norm_num [energy]
  have hunit : energy [1, 1] = 1 := by norm_num [energy]
  obtain ⟨-, hfirst, -, -, hagain⟩ := hall [3, 4] (by simp)
  obtain ⟨-, hsecond, -, hchange, -⟩ := hall [1, 1] (by simp)
  have hquot : (25 / 2 / (25 / 2 + 1 / 4) : ℝ) = 50 / 51 := by norm_num
  refine ⟨by norm_num, rfl, ys, zs, hys, hzs, hyshape, hzshape, ?_, ?_, ?_⟩
  · rw [hyrows, List.map_map, List.map_cons, List.map_singleton, Function.comp, Function.comp,
      hfirst, hsecond, hlarge, hunit]
    norm_num
  · have hone := hchange hunit 1 (by simp)
    rwa [hunit, abs_one, mul_one] at hone
  · have hbound := hagain (by rw [hlarge]; norm_num)
    rwa [hlarge, hquot] at hbound

end Norm

end DraftHeads
