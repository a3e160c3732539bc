import DraftHeads.Checkpoint.Weights
import DraftHeads.Proofs.Draft.Inputs

/-! # Shapes of the tensors of a checkpoint

* `Weights.reader_lawful`: whichever the source, a reader gives only tensors of the shape that is
  asked for.
* `Weights.reader_files_eq_missing_iff`: when a tensor is missing. -/

namespace DraftHeads

namespace Weights

theorem fit_eq_ok_iff {d : DType} {name : String} {shape : List Nat} {t : AnyTensor}
    {s : Tensor d.Elem} : fit d name shape t = .ok s ↔ t.shape = shape ∧ t.cast d = s := by
  unfold fit
  split_ifs with h
  · simp [h]
  · simp [h]

theorem reader_lawful (d : DType) (w : Weights) : (w.reader d).Lawful := by
  have hfit : ∀ {name shape t s}, fit d name shape t = .ok s → s.shape = shape := fun h => by
    obtain ⟨hshape, rfl⟩ := fit_eq_ok_iff.mp h
    rw [shape_cast, hshape]
  intro name shape t ht
  cases w with
  | zeros =>
    obtain ⟨_, -, h⟩ := bind_eq_ok.mp ht
    cases h
    rfl
  | memory entries =>
    unfold reader at ht
    dsimp only at ht
    split at ht
    · cases ht
    · exact hfit ht
  | files tables =>
    unfold reader at ht
    dsimp only at ht
    split at ht
    · cases ht
    · obtain ⟨s, -, h⟩ := bind_eq_ok.mp ht
      exact hfit h

theorem load_ne_missing (t : StoredTensor) (name : String) : t.load ≠ .error (.missing name) := by
  have hwords : ∀ (d : DType) (f : Nat → d.Elem), t.ofWords d f ≠ .error (.missing name) := by
    intro d f
    unfold StoredTensor.ofWords Tensor.ofData
    split_ifs <;> simp [bind, Except.bind, pure, Except.pure]
  unfold StoredTensor.load
  split
  all_goals first
    | exact hwords _ _
    | simp

theorem reader_files_eq_missing_iff {d : DType} {tables : List (List StoredTensor)} {name : String}
    {shape : List Nat} :
    (files tables).reader d name shape = .error (.missing name) ↔ find? tables name = none := by
  unfold reader
  dsimp only
  split
  · next hfind => exact iff_of_true rfl hfind
  · next t hfind =>
    refine iff_of_false (fun h => ?_) (by simp [hfind])
    cases hload : t.load with
    | error e =>
      rw [hload] at h
      change Except.error e = _ at h
      exact load_ne_missing t name (hload.trans (congrArg Except.error (Except.error.inj h)))
    | ok s =>
      rw [hload] at h
      change fit d name shape s = _ at h
      unfold fit at h
      split_ifs at h
      cases h

end Weights

end DraftHeads
