import Mathlib.Analysis.SpecialFunctions.Pow.Real
import DraftHeads.Proofs.Draft.Shares
import DraftHeads.Proofs.Norm.Energy

/-! # Rescaled hidden states

A model that normalises its hidden states without an epsilon does not see how large they are: in
exact numbers each of them may be multiplied by a positive factor of its own.

* `Norm.unitRow_map_mul`: a row and the row multiplied by a factor have one normalised row.
* `Tensor.Rescaled`: rows with a factor for each; `Tensor.Rescaled.apply_eq`: the normaliser makes
  the same of them.
* `Model.trace_rescaled`: a run on them is the same run. -/

namespace DraftHeads

theorem Norm.unitRow_map_mul {c : ℝ} (hc : 0 < c) (row : List ℝ) :
    unitRow 0 (row.map (c * ·)) = unitRow 0 row := by
  have hroot : √(energy (row.map (c * ·)) + 0) = c * √(energy row + 0) := by
    rw [energy_map_mul, add_zero, add_zero, Real.sqrt_mul (sq_nonneg c), Real.sqrt_sq hc.le]
  rw [unitRow, unitRow, hroot, List.map_map]
  exact List.map_congr_left fun x _ => mul_div_mul_left x _ hc.ne'

namespace Tensor

/-- The rows of a tensor are those of another, each multiplied by a positive factor of its own. -/
structure Rescaled (factors : List ℝ) (xs ys : Tensor ℝ) : Prop where
  shape : ys.shape = xs.shape
  count : factors.length = xs.rows.length
  positive : ∀ c ∈ factors, 0 < c
  rows : ys.rows = List.zipWith (fun c row => row.map (c * ·)) factors xs.rows

namespace Rescaled

variable {factors : List ℝ} {xs ys : Tensor ℝ}

theorem nonzero (h : Rescaled factors xs ys) (hxs : ∀ row ∈ xs.rows, ∃ x ∈ row, x ≠ 0) :
    ∀ row ∈ ys.rows, ∃ x ∈ row, x ≠ 0 := by
  intro row hrow
  rw [h.rows] at hrow
  obtain ⟨i, hi, rfl⟩ := List.getElem_of_mem hrow
  rw [List.getElem_zipWith]
  obtain ⟨x, hx, hne⟩ := hxs _ (List.getElem_mem (List.lt_length_right_of_zipWith hi))
  exact ⟨_, List.mem_map_of_mem hx, mul_ne_zero (h.positive _ (List.getElem_mem _)).ne' hne⟩

theorem map_unitRow (h : Rescaled factors xs ys) :
    ys.rows.map (Norm.unitRow 0) = xs.rows.map (Norm.unitRow 0) := by
  refine List.ext_getElem ?_ fun i hi hi' => ?_
  · rw [List.length_map, List.length_map, h.rows, List.length_zipWith, h.count, Nat.min_self]
  · simp only [List.getElem_map, h.rows, List.getElem_zipWith]
    exact Norm.unitRow_map_mul (h.positive _ (List.getElem_mem _)) _

theorem apply_eq (h : Rescaled factors xs ys) :
    (Norm.plain 0 : Norm ℝ ℝ).apply ys = (Norm.plain 0 : Norm ℝ ℝ).apply xs := by
  have hflat : ∀ t : Tensor ℝ, (t.rows.flatMap fun row => row.map fun x =>
      (Element.narrow (Element.widen x * (Norm.rowScale ℝ (0 : ℝ)
        (row.map Element.widen) : ℝ)) : ℝ)) = (t.rows.map (Norm.unitRow 0)).flatten := fun t => by
    rw [List.flatMap_def]
    exact congrArg List.flatten
      (List.map_congr_left fun row _ => Norm.scaledRow_eq 0 row)
  have hscale : Norm.scaleRows (0 : ℝ) ys = Norm.scaleRows (0 : ℝ) xs := by
    rw [Norm.scaleRows, Norm.scaleRows, rank, rank, h.shape]
    refine congrArg (ite _ _) ?_
    rw [mapRows, mapRows, hflat, hflat, h.map_unitRow, h.shape]
  rw [Norm.apply, Norm.apply]
  exact congrArg (· >>= _) hscale

end Rescaled

end Tensor

namespace Model

variable {c : Config} {policy : Policy ℝ} {read : Reader ℝ} {g : Group} {m : Model ℝ ℝ}

theorem trace_congr {norm : Norm ℝ ℝ} (hnorm : m.inputNorm = some norm) {xs ys : Tensor ℝ}
    (hshape : ys.shape = xs.shape) (happly : norm.apply ys = norm.apply xs) (tokens : AnyTensor) :
    m.trace ys tokens = m.trace xs tokens := by
  unfold trace
  simp only [hnorm, hshape, happly]

/-- **The magnitude of the hidden states is irrelevant** to a model that normalises them without an
epsilon. Each of them may be multiplied by a positive factor of its own: the run stays the same,
whatever the tokens are and whatever the group is in which it runs. No hidden state is divided by
zero, and there is a trace if the tokens are tokens of the vocabulary. After the first normaliser
there is no difference left, so a normaliser of a later head divides by the same in both runs. -/
theorem trace_rescaled (lawful : read.Lawful) (hbuild : build c policy read g = .ok m)
    (hscale : c.scaleInput = true) (heps : policy.normEps = 0) {ks : List ℕ}
    (branches : m.Branches ks) {hidden hidden' : Tensor ℝ} {factors : List ℝ}
    (rescaled : hidden.Rescaled factors hidden')
    (hnonzero : ∀ row ∈ hidden.rows, ∃ x ∈ row, x ≠ 0) (tokens : AnyTensor) :
    (∀ row ∈ hidden.rows ++ hidden'.rows, 0 < energy row) ∧
    (m.withBranching ks).trace hidden' tokens = (m.withBranching ks).trace hidden tokens ∧
    (g.Gathers → c.vocabSize < wordCount → ∀ (batch : ℕ) (ids : Tensor Int),
      Inputs (sizesOf c) batch hidden.shape tokens ids →
        ∃ tr, ((m.withBranching ks).trace hidden tokens).simulate g = .ok tr ∧
          ((m.withBranching ks).trace hidden' tokens).simulate g = .ok tr) := by
  have hnorm : (m.withBranching ks).inputNorm = some (.plain 0) := by
    obtain ⟨-, -, p, -, rfl⟩ := build_eq_ok_iff.mp hbuild
    exact (if_pos hscale).trans (by rw [heps])
  have htrace := trace_congr hnorm rescaled.shape rescaled.apply_eq tokens
  refine ⟨fun row hrow => ?_, htrace, fun gathers hword batch ids inputs => ?_⟩
  · rcases List.mem_append.mp hrow with hrow | hrow
    · exact energy_pos (hnonzero row hrow)
    · exact energy_pos (rescaled.nonzero hnonzero row hrow)
  · have hsizes : m.sizes = sizesOf c := sizes_of_build hbuild
    rw [← hsizes] at inputs
    have wired := build_wired lawful hbuild
    have hword : m.sizes.vocab < wordCount := by
      rw [hsizes]
      exact hword
    obtain ⟨tr, htr, -⟩ := simulate_trace (m := m.withBranching ks) rfl (wired.splits hword) gathers
      (wired.withBranching ks) (inputs.ready branches) inputs.batch_pos
      fun _ _ t ht => Embedding.takes_of_lt (inputs.token_lt t ht)
    exact ⟨tr, htr, htrace ▸ htr⟩

theorem lawful_counting : counting.Lawful := fun _ _ t h => by cases h; rfl

theorem exists_build_counting
    (hplan : checkPlan c (policy.headCount c) policy.branching? = .ok ())
    (hbytes : policy.headCount c * Parameters.slotSize ≤ maxBytes) :
    ∃ m, build c policy counting .single = .ok m :=
  exists_build_iff.mpr ⟨hplan, hbytes, fun _ _ =>
    ⟨⟨.whole _ _, .whole _, .whole _, ⟨some (_, _), _⟩⟩, rfl, rfl, rfl, rfl⟩⟩

/-- Two hidden states, one three times and one twice as large as a row of ones. -/
noncomputable def unequalStates : Tensor ℝ := ⟨[2, 3], .pure ([3, 3, 3, 2, 2, 2].map Nat.cast), rfl⟩

/-- A run with three and two candidates on hidden states of different sizes, and on rows of ones. -/
theorem trace_rescaled_three : ∃ m : Model ℝ ℝ,
    build (.mk 4 3 2 2 false true []) ⟨none, none, 0, 0⟩ counting .single = .ok m ∧
    Tensor.Rescaled [3, 2] (Tensor.fill [2, 3] 1) unequalStates ∧
    ∃ tr, ((m.withBranching [3, 2]).trace (Tensor.fill [2, 3] 1)
        ⟨.u32, Tensor.ofList [1, 3]⟩).simulate .single = .ok tr ∧
      ((m.withBranching [3, 2]).trace unequalStates
        ⟨.u32, Tensor.ofList [1, 3]⟩).simulate .single = .ok tr := by
  obtain ⟨m, hm⟩ : ∃ m, build (.mk 4 3 2 2 false true []) ⟨none, none, 0, (0 : ℝ)⟩ counting
      .single = .ok m := exists_build_counting rfl (by decide)
  have branches : m.Branches [3, 2] := (branches_of_build hm).mpr (by decide)
  have hones : (Tensor.fill [2, 3] (1 : ℝ)).rows = [[1, 1, 1], [1, 1, 1]] := rfl
  have hunequal : unequalStates.rows =
      [[3, 3, 3].map Nat.cast, [2, 2, 2].map Nat.cast] := rfl
  have rescaled : Tensor.Rescaled [3, 2] (Tensor.fill [2, 3] 1) unequalStates := by
    refine ⟨rfl, rfl, by simp, ?_⟩
    rw [hones, hunequal]
    simp
  have inputs : Inputs (sizesOf (.mk 4 3 2 2 false true [])) 2 (Tensor.fill [2, 3] (1 : ℝ)).shape
      ⟨.u32, Tensor.ofList [1, 3]⟩ (Tensor.ofList [1, 3]) :=
    ⟨by decide, rfl, rfl, rfl, by decide⟩
  obtain ⟨-, -, hrun⟩ := trace_rescaled lawful_counting hm rfl rfl branches rescaled
    (by rw [hones]; simp) ⟨.u32, Tensor.ofList [1, 3]⟩
  exact ⟨m, hm, rescaled, hrun (Or.inl rfl) (by decide) 2 _ inputs⟩

end Model

end DraftHeads
