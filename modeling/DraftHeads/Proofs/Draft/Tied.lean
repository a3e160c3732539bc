import DraftHeads.Checkpoint.Weights
import DraftHeads.Proofs.Draft.Building
import Mathlib.Tactic.IntervalCases

/-! # Tied and untied weights

A model whose heads share their weights does what a model does whose heads have weights of their
own, all of them copies.

* `Model.Alike`: two models whose slots select the same parameters; `Alike.trace_eq`: they run the
  same programs.
* `UntiedCopy`: a checkpoint that repeats the shared weights for each head.
* `exists_build_tied_iff`, `alike_of_build`: both models are built or neither of them, and they are
  alike. -/

namespace DraftHeads

variable {α ω π : Type}

/-! ### Models that select the same parameters -/

namespace Model

/-- Head by head the slots of two models select the same parameters. -/
def SameHeads (m m' : Model α π) (s s' : Slot) : Prop :=
  ∃ h, m.parameters.single? s = some h ∧ m'.parameters.single? s' = some h

/-- Two models that differ only in the places of their parameters. -/
structure Alike (m m' : Model α π) : Prop where
  heads : m.heads = m'.heads
  inputNorm : m.inputNorm = m'.inputNorm
  mixing : m.mixing = m'.mixing
  embedScale : m.embedScale = m'.embedScale
  branching : m.branching = m'.branching
  sizes : m.sizes = m'.sizes
  group : m.group = m'.group
  slots : List.Forall₂ (SameHeads m m') m.parameters.slots m'.parameters.slots
  first : SameHeads m m' ⟨0, 0, 0, 0⟩ ⟨0, 0, 0, 0⟩

namespace Alike

variable {m m' : Model α π}

theorem withBranching (h : Alike m m') (ks : List Nat) :
    Alike (m.withBranching ks) (m'.withBranching ks) :=
  ⟨h.heads, h.inputNorm, h.mixing, h.embedScale, rfl, h.sizes, h.group, h.slots, h.first⟩

theorem accept_eq (h : Alike m m') (hidden : List Nat) (tokens : AnyTensor) :
    m.accept hidden tokens = m'.accept hidden tokens := by
  unfold accept
  rw [h.branching, h.heads, h.sizes]

variable [Element α ω π] [Analytic ω] [Analytic π]

theorem headOutput_eq (h : Alike m m') {slot slot' : Slot} (same : SameHeads m m' slot slot')
    (state : Tensor α) (tokens : Tensor UInt32) :
    m.headOutput slot state tokens = m'.headOutput slot' state tokens := by
  obtain ⟨s, hs, hs'⟩ := same
  rw [headOutput_of_single? hs, headOutput_of_single? hs', h.mixing, h.embedScale]

theorem runHead_eq (h : Alike m m') {slot slot' : Slot} (same : SameHeads m m' slot slot')
    (batch head k : Nat) (rows : CandidateRows α) :
    m.runHead batch head slot k rows = m'.runHead batch head slot' k rows := by
  unfold runHead
  rw [h.headOutput_eq same]

theorem runHeads_eq (h : Alike m m') (batch : Nat) : ∀ {slots slots' : List Slot},
    List.Forall₂ (SameHeads m m') slots slots' → ∀ (ks : List Nat) (head : Nat)
      (rows : CandidateRows α), m.runHeads batch head (slots.zip ks) rows =
        m'.runHeads batch head (slots'.zip ks) rows
  | [], _, .nil, ks, head, rows => by rw [List.zip_nil_left, runHeads, runHeads]
  | _ :: _, _, .cons _ _, [], head, rows => by
    rw [List.zip_nil_right, List.zip_nil_right, runHeads, runHeads]
  | slot :: slots, slot' :: slots', .cons same hrest, k :: ks, head, rows => by
    rw [List.zip_cons_cons, List.zip_cons_cons, runHeads, runHeads, h.runHead_eq same]
    simp only [runHeads_eq h batch hrest ks]

/-- **Models that select the same parameters run the same program.** -/
theorem trace_eq (h : Alike m m') (hidden : Tensor α) (tokens : AnyTensor) :
    m.trace hidden tokens = m'.trace hidden tokens := by
  unfold trace emptyTrace
  rw [h.accept_eq, h.inputNorm, h.branching, h.sizes, h.heads]
  simp only [h.runHeads_eq _ h.slots]

omit [Analytic π] in
theorem traceForeign_eq (h : Alike m m') (hidden : List Nat) (tokens : AnyTensor) :
    m.traceForeign hidden tokens = m'.traceForeign hidden tokens := by
  obtain ⟨s, hs, hs'⟩ := h.first
  obtain ⟨hemb, hproj, -, -⟩ := Parameters.single?_eq_some.mp hs
  obtain ⟨hemb', hproj', -, -⟩ := Parameters.single?_eq_some.mp hs'
  unfold traceForeign emptyTrace
  rw [h.accept_eq, h.sizes, h.heads, parameter_of_some hemb, parameter_of_some hemb',
    parameter_of_some hproj, parameter_of_some hproj']

end Alike

end Model

/-! ### Copies of weights -/

/-- Two readers give the same tensors; they may say different things of a missing one. -/
def Reader.SameTensors (read read' : Reader α) : Prop :=
  ∀ name shape t, read name shape = .ok t ↔ read' name shape = .ok t

theorem Reader.SameTensors.symm {read read' : Reader α} (h : read.SameTensors read') :
    read'.SameTensors read := fun name shape t => (h name shape t).symm

section Loads

variable {read read' : Reader α} {g : Group}

theorem ColumnShard.load_of_same (same : read.SameTensors read') {inputs outputs : Nat}
    {shard : ColumnShard α} (h : ColumnShard.load inputs outputs read g = .ok shard) :
    ColumnShard.load inputs outputs read' g = .ok shard := by
  unfold ColumnShard.load at h ⊢
  split_ifs at h ⊢
  cases hread : read "weight" [outputs, inputs] with
  | error e => rw [hread] at h; cases h
  | ok full => rw [hread] at h; rw [(same _ _ _).mp hread]; exact h

theorem Projection.load_of_same (same : read.SameTensors read') {inputs outputs : Nat}
    {p : Projection α} (h : Projection.load inputs outputs read g = .ok p) :
    Projection.load inputs outputs read' g = .ok p := by
  unfold Projection.load at h ⊢
  split_ifs at h ⊢
  · cases hread : read "weight" [outputs, inputs] with
    | error e => rw [hread] at h; cases h
    | ok full => rw [hread] at h; rw [(same _ _ _).mp hread]; exact h
  · cases hload : ColumnShard.load inputs outputs read g with
    | error e => rw [hload] at h; cases h
    | ok shard => rw [hload] at h; rw [ColumnShard.load_of_same same hload]; exact h

theorem VocabularyShard.load_of_same (same : read.SameTensors read') {vocab hidden : Nat}
    {shard : VocabularyShard α} (h : VocabularyShard.load vocab hidden read g = .ok shard) :
    VocabularyShard.load vocab hidden read' g = .ok shard := by
  unfold VocabularyShard.load at h ⊢
  cases hread : read "weight" [vocab, hidden] with
  | error e => rw [hread] at h; cases h
  | ok full => rw [hread] at h; rw [(same _ _ _).mp hread]; exact h

theorem Embedding.load_of_same (same : read.SameTensors read') {vocab hidden : Nat}
    {e : Embedding α} (h : Embedding.load vocab hidden read g = .ok e) :
    Embedding.load vocab hidden read' g = .ok e := by
  unfold Embedding.load at h ⊢
  split_ifs at h ⊢
  · cases hread : read "weight" [vocab, hidden] with
    | error e => rw [hread] at h; cases h
    | ok full => rw [hread] at h; rw [(same _ _ _).mp hread]; exact h
  · cases hload : VocabularyShard.load vocab hidden read g with
    | error e => rw [hload] at h; cases h
    | ok shard => rw [hload] at h; rw [VocabularyShard.load_of_same same hload]; exact h

theorem Norm.load_of_same (same : read.SameTensors read') {width : Nat} {eps : π}
    {norm : Norm α π} (h : Norm.load width eps read = .ok norm) :
    Norm.load width eps read' = .ok norm := by
  obtain ⟨weight, hw, h⟩ := bind_eq_ok.mp h
  obtain ⟨bias, hb, h⟩ := bind_eq_ok.mp h
  exact bind_eq_ok.mpr ⟨weight, (same _ _ _).mp hw, bind_eq_ok.mpr ⟨bias, (same _ _ _).mp hb, h⟩⟩

end Loads

/-- The second checkpoint has the weights that the heads of the first one share, once for each of
`n` heads: every embedding, output projection and normaliser is a copy of the first one, and every
state projection after the first is a copy of the second. -/
structure UntiedCopy (n : Nat) (shared own : Reader α) : Prop where
  embedding : ∀ i < n, (Parameters.numbered own "emb" i).SameTensors
    (Parameters.numbered shared "emb" 0)
  stateProjection : ∀ i < n, (Parameters.numbered own "proj" i).SameTensors
    (Parameters.numbered shared "proj" (min i 1))
  outputProjection : ∀ i < n, (Parameters.numbered own "head" i).SameTensors
    (Parameters.numbered shared "head" 0)
  norm : ∀ i < n, (Parameters.numbered own "ln" i).SameTensors (Parameters.numbered shared "ln" 0)

namespace UntiedCopy

open Parameters

variable {n i : Nat} {shared own : Reader α} {sizes : Sizes} {eps : π} {g : Group}
  {s : Single α π}

/-- **Each head gets the same parameters** from its own weights and from the shared ones. -/
theorem loaded_iff (copy : UntiedCopy n shared own) (hi : i < n) :
    Loaded sizes eps own g ⟨i, i, i, i⟩ s ↔ Loaded sizes eps shared g ⟨0, min i 1, 0, 0⟩ s := by
  have hemb := copy.embedding i hi
  have hproj := copy.stateProjection i hi
  have hout := copy.outputProjection i hi
  have hnorm := copy.norm i hi
  constructor
  · rintro ⟨he, hs, ho, hn⟩
    refine ⟨Embedding.load_of_same hemb he, ?_, Projection.load_of_same hout ho, ?_⟩
    · change Projection.load (inputWidth sizes (min i 1)) _ _ _ = _
      rw [inputWidth_min]
      exact Projection.load_of_same hproj hs
    · exact mapError_eq_ok.mpr (Norm.load_of_same hnorm (mapError_eq_ok.mp hn))
  · rintro ⟨he, hs, ho, hn⟩
    refine ⟨Embedding.load_of_same hemb.symm he, ?_, Projection.load_of_same hout.symm ho, ?_⟩
    · change Projection.load (inputWidth sizes (min i 1)) _ _ _ = _ at hs
      rw [inputWidth_min] at hs
      exact Projection.load_of_same hproj.symm hs
    · exact mapError_eq_ok.mpr (Norm.load_of_same hnorm.symm (mapError_eq_ok.mp hn))

theorem all_loaded_iff (copy : UntiedCopy n shared own) :
    (∀ slot ∈ tiedSlots n, ∃ s : Single α π, Loaded sizes eps shared g slot s) ↔
      ∀ slot ∈ untiedSlots n, ∃ s : Single α π, Loaded sizes eps own g slot s := by
  simp only [tiedSlots, untiedSlots, List.mem_map, List.mem_range, forall_exists_index, and_imp,
    forall_apply_eq_imp_iff₂]
  exact forall₂_congr fun i hi => exists_congr fun s => (copy.loaded_iff hi).symm

end UntiedCopy

/-! ### Models with shared weights and with copies of them -/

/-- The configuration with heads that share their weights, or with heads that do not. -/
def Config.withTied (c : Config) (tied : Bool) : Config := { c with tieWeights := tied }

namespace Model

variable [Analytic π] {c : Config} {policy : Policy π} {g : Group} {shared own : Reader α}
  {m m' : Model α π}

theorem exists_build_tied_iff (copy : UntiedCopy (policy.headCount c) shared own) :
    (∃ m, build (c.withTied true) policy shared g = .ok m) ↔
      ∃ m, build (c.withTied false) policy own g = .ok m := by
  rw [exists_build_iff, exists_build_iff]
  exact and_congr_right fun _ => and_congr_right fun _ => copy.all_loaded_iff

theorem alike_of_build (copy : UntiedCopy (policy.headCount c) shared own)
    (h : build (c.withTied true) policy shared g = .ok m)
    (h' : build (c.withTied false) policy own g = .ok m') : Alike m m' := by
  obtain ⟨hplan, -, p, hp, rfl⟩ := build_eq_ok_iff.mp h
  obtain ⟨-, -, p', hp', rfl⟩ := build_eq_ok_iff.mp h'
  obtain ⟨hslots, hall⟩ := Parameters.load_ok hp
  obtain ⟨hslots', hall'⟩ := Parameters.load_ok hp'
  have hpos : 0 < policy.headCount c := (checkPlan_ok hplan).1
  have hsame : ∀ i < policy.headCount c, ∃ s, p.single? ⟨0, min i 1, 0, 0⟩ = some s ∧
      p'.single? ⟨i, i, i, i⟩ = some s := fun i hi => by
    obtain ⟨s, hs, hsel⟩ := hall ⟨0, min i 1, 0, 0⟩
      (hslots ▸ List.mem_map.mpr ⟨i, List.mem_range.mpr hi, rfl⟩)
    obtain ⟨s', hs', hsel'⟩ := hall' ⟨i, i, i, i⟩
      (hslots' ▸ List.mem_map.mpr ⟨i, List.mem_range.mpr hi, rfl⟩)
    obtain rfl : s' = s := ((copy.loaded_iff hi).mp hs').unique hs
    exact ⟨s', hsel, hsel'⟩
  refine ⟨rfl, rfl, rfl, rfl, rfl, rfl, rfl, ?_, hsame 0 hpos⟩
  change List.Forall₂ _ p.slots p'.slots
  rw [hslots, hslots']
  change List.Forall₂ _ (List.map _ (List.range (policy.headCount c)))
    (List.map _ (List.range (policy.headCount c)))
  rw [List.forall₂_map_left_iff, List.forall₂_map_right_iff, List.forall₂_same]
  exact fun i hi => hsame i (List.mem_range.mp hi)

/-- **Shared weights are as good as copies of them**: both models are built or neither of them, and
for every branching list they run the same program, so that they have the same outcome on hidden
states and tokens of all formats. -/
theorem tied_eq_untied {d : DType} {c : Config} {policy : Policy Float} {g : Group}
    {shared own : Reader d.Elem} (copy : UntiedCopy (policy.headCount c) shared own) :
    ((∃ m, build (c.withTied true) policy shared g = .ok m) ↔
      ∃ m, build (c.withTied false) policy own g = .ok m) ∧
    ∀ m m', build (c.withTied true) policy shared g = .ok m →
      build (c.withTied false) policy own g = .ok m' →
        ∀ (ks : List Nat) (hidden tokens : AnyTensor),
          (∀ states : Tensor d.Elem, (m.withBranching ks).trace states tokens =
            (m'.withBranching ks).trace states tokens) ∧
          AnyModel.trace ⟨d, m.withBranching ks⟩ hidden tokens =
            AnyModel.trace ⟨d, m'.withBranching ks⟩ hidden tokens := by
  refine ⟨exists_build_tied_iff copy, fun m m' h h' ks hidden tokens => ?_⟩
  have alike := (alike_of_build copy h h').withBranching ks
  refine ⟨fun states => alike.trace_eq states tokens, ?_⟩
  unfold AnyModel.trace
  rw [alike.group]
  congr 1
  cases hidden.as? d with
  | some states => exact alike.trace_eq states tokens
  | none => exact alike.traceForeign_eq hidden.shape tokens

/-- A checkpoint in which all tensors are filled with ones but the first state projection, which is
filled with zeros. -/
def onesButFirst : Reader Float32 := fun name shape =>
  .ok (Tensor.fill shape (if name.toList.take 6 = "proj.0".toList then 0 else 1))

theorem onesButFirst_copy : UntiedCopy 3 onesButFirst onesButFirst := by
  have hsame : ∀ (word : String) (i j : Nat), (∀ name shape,
      onesButFirst (word ++ "." ++ (toString i ++ "." ++ name)) shape =
        onesButFirst (word ++ "." ++ (toString j ++ "." ++ name)) shape) →
      (Parameters.numbered onesButFirst word i).SameTensors
        (Parameters.numbered onesButFirst word j) := fun word i j h name shape t => by
    unfold Parameters.numbered Reader.below
    rw [h]
  refine ⟨fun i _ => hsame _ _ _ ?_, fun i hi => hsame _ _ _ ?_, fun i _ => hsame _ _ _ ?_,
    fun i _ => hsame _ _ _ ?_⟩
  · intro name shape; simp [onesButFirst]
  · intro name shape
    interval_cases i
    · rfl
    · rfl
    · have hone : Nat.toDigits 10 1 = ['1'] := rfl
      have htwo : Nat.toDigits 10 2 = ['2'] := rfl
      simp [onesButFirst, hone, htwo]
  · intro name shape; simp [onesButFirst]
  · intro name shape; simp [onesButFirst]

/-- Three heads that share their weights, and three heads with copies of them. -/
theorem tied_eq_untied_three : UntiedCopy 3 onesButFirst onesButFirst ∧
    ∃ m m', build ((Config.mk 5 2 3 3 true true []).withTied true) ⟨none, none, 0, 0⟩ onesButFirst
        .single = .ok m ∧
      build ((Config.mk 5 2 3 3 true true []).withTied false) ⟨none, none, 0, 0⟩ onesButFirst
        .single = .ok m' ∧
      ∀ hidden tokens, AnyModel.trace ⟨.f32, m.withBranching [2, 1, 4]⟩ hidden tokens =
        AnyModel.trace ⟨.f32, m'.withBranching [2, 1, 4]⟩ hidden tokens := by
  obtain ⟨hiff, hall⟩ := @tied_eq_untied .f32 (.mk 5 2 3 3 true true []) ⟨none, none, 0, 0⟩ .single
    _ _ onesButFirst_copy
  obtain ⟨m', hm'⟩ : ∃ m', build ((Config.mk 5 2 3 3 true true []).withTied false)
      ⟨none, none, 0, (0 : Float)⟩ onesButFirst .single = .ok m' :=
    exists_build_iff.mpr ⟨rfl, by decide, fun slot _ =>
      ⟨⟨.whole _ _, .whole _, .whole _, ⟨some (_, _), _⟩⟩, rfl, rfl, rfl, rfl⟩⟩
  obtain ⟨m, hm⟩ := hiff.mpr ⟨m', hm'⟩
  exact ⟨onesButFirst_copy, m, m', hm, hm', fun hidden tokens =>
    (hall m m' hm hm' [2, 1, 4] hidden tokens).2⟩

end Model

end DraftHeads
