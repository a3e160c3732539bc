import DraftHeads.Draft.Model
import DraftHeads.Proofs.Draft.Ranking
import DraftHeads.Proofs.Shard.Layer

/-! # One head on one row

What a head does with one candidate row, a state and a token: `nextState` is the row's new state,
and `rowLogs` are the logarithms of its distribution.

* `Norm.row`, `Norm.apply_eq`: a normaliser works on each row alone.
* `Parameters.single?`: the parameters that a slot selects; `Single.Fits`: what they look like in a
  model that was built.
* `simulate_headOutput`: a head on a matrix of states does with each row what it does with the row
  alone. -/

namespace DraftHeads

variable {α ω π : Type}

/-! ### Normalisers -/

namespace Norm

/-- Weight and bias are vectors of the given width. -/
def Fits (width : Nat) (norm : Norm α π) : Prop :=
  ∀ weight bias, norm.affine = some (weight, bias) → weight.shape = [width] ∧ bias.shape = [width]

theorem fits_plain (width : Nat) (eps : π) : (plain eps : Norm α π).Fits width :=
  fun _ _ h => by cases h

theorem load_fits {width : Nat} {eps : π} {read : Reader α} (lawful : read.Lawful) {norm : Norm α π}
    (h : Norm.load width eps read = .ok norm) : norm.Fits width := by
  obtain ⟨weight, hw, h⟩ := bind_eq_ok.mp h
  obtain ⟨bias, hb, h⟩ := bind_eq_ok.mp h
  cases h
  intro weight' bias' haffine
  cases haffine
  exact ⟨lawful _ _ _ hw, lawful _ _ _ hb⟩

variable [Analytic ω] [Analytic π] [Element α ω π]

/-- A row divided by its root mean square. -/
def scaledRow (eps : π) (row : List α) : List α :=
  let scale : ω := rowScale α eps (row.map Element.widen)
  row.map fun x => Element.narrow (Element.widen x * scale)

/-- The row that a normaliser makes of a row. -/
def row (norm : Norm α π) (row : List α) : List α :=
  match norm.affine with
  | none => scaledRow norm.eps row
  | some (weight, bias) =>
    List.zipWith (· + ·) (List.zipWith (· * ·) (scaledRow norm.eps row) weight.data) bias.data

theorem scaleRows_eq (eps : π) {xs : Tensor α} {w : Nat} {rows : List (List α)}
    (h : xs.IsMatrix w rows) :
    ∃ ys, scaleRows eps xs = .ok ys ∧ ys.IsMatrix w (rows.map (scaledRow eps)) := by
  have hrank : ¬ xs.rank = 0 := by rw [h.rank_eq]; omega
  obtain ⟨ys, hys, hm⟩ := Tensor.mapRows_eq
    (fun row : List α => rowScale α eps (row.map Element.widen))
    (fun (scale : ω) (x : α) => (Element.narrow (Element.widen x * scale) : α)) h
  exact ⟨ys, by rw [scaleRows, if_neg hrank, hys], hm⟩

theorem apply_eq {norm : Norm α π} {xs : Tensor α} {w : Nat} {rows : List (List α)}
    (fits : norm.Fits w) (h : xs.IsMatrix w rows) :
    ∃ ys, norm.apply xs = .ok ys ∧ ys.IsMatrix w (rows.map norm.row) := by
  obtain ⟨scaled, hscaled, hm⟩ := scaleRows_eq norm.eps h
  rw [apply, hscaled]
  cases haffine : norm.affine with
  | none =>
    refine ⟨scaled, rfl, ?_⟩
    have hrow : norm.row = scaledRow norm.eps := funext fun r => by rw [row, haffine]
    rw [hrow]
    exact hm
  | some affine =>
    obtain ⟨weight, bias⟩ := affine
    obtain ⟨hw, hb⟩ := fits weight bias haffine
    obtain ⟨ys, hys, hym⟩ := Tensor.broadcastWith_eq (· * ·) hm hw
    obtain ⟨zs, hzs, hzm⟩ := Tensor.broadcastWith_eq (· + ·) hym hb
    refine ⟨zs, ?_, ?_⟩
    · simp only [bind, Except.bind, hys]
      exact hzs
    · have hrow : norm.row = fun r => List.zipWith (· + ·)
          (List.zipWith (· * ·) (scaledRow norm.eps r) weight.data) bias.data :=
        funext fun r => by rw [row, haffine]
      rw [hrow]
      simpa only [List.map_map, Function.comp_def] using hzm

end Norm

/-! ### Heads -/

/-- The parameters that a slot selects. -/
def Parameters.single? (p : Parameters α π) (slot : Slot) : Option (Single α π) := do
  return ⟨← p.embeddings[slot.embedding]?, ← p.stateProjections[slot.stateProjection]?,
    ← p.outputProjections[slot.outputProjection]?, ← p.norms[slot.norm]?⟩

theorem Parameters.single?_eq_some {p : Parameters α π} {slot : Slot} {h : Single α π} :
    p.single? slot = some h ↔ p.embeddings[slot.embedding]? = some h.embedding ∧
      p.stateProjections[slot.stateProjection]? = some h.stateProjection ∧
      p.outputProjections[slot.outputProjection]? = some h.outputProjection ∧
      p.norms[slot.norm]? = some h.norm := by
  obtain ⟨e, s, o, n⟩ := h
  simp [single?, Option.bind_eq_some_iff]

/-- The parameters of the head at some place fit the sizes. -/
structure Parameters.Single.Fits (g : Group) (sizes : Sizes) (head : Nat) (h : Single α π) :
    Prop where
  embedding : h.embedding.Fits g sizes.vocab sizes.inner
  stateProjection : h.stateProjection.Fits g (inputWidth sizes head) sizes.inner
  outputProjection : h.outputProjection.Fits g sizes.inner sizes.vocab
  norm : h.norm.Fits sizes.inner

namespace Model

variable [Element α ω π] [Analytic ω] [Analytic π]

/-- A candidate row: its state and its token. -/
abbrev CandidateRow (α : Type) : Type := List α × UInt32

section Recurrence

variable (m : Model α π) (dot : List α → List α → α) (h : Parameters.Single α π)
  (x : CandidateRow α)

/-- The blend of a state with the embedding of a token. -/
def blendRow : List α :=
  List.zipWith (fun p e => scaleBy m.mixing.state p + scaleBy m.embedScale e)
    (h.stateProjection.row dot x.1) (h.embedding.row x.2)

/-- The state that a head makes of a candidate row. -/
def nextState : List α := (h.norm.row (m.blendRow dot h x)).map Element.gelu

/-- The logits that a head gives a candidate row. -/
def rowLogits : List α := h.outputProjection.row dot (m.nextState dot h x)

/-- The logarithms of the distribution that a head gives a candidate row. -/
def rowLogs : List ω := logDistribution ((m.rowLogits dot h x).map Element.widen)

end Recurrence

theorem parameter_of_some {β : Type} {xs : List β} {i : Nat} {x : β} (h : xs[i]? = some x) :
    (parameter xs i : Collective α Fault β) = .done x := by
  rw [parameter, h]

@[simp] theorem simulate_tensorStep {β : Type} {g : Group} {r : Except TensorFault β} {y : β} :
    (tensorStep r : Collective α Fault β).simulate g = .ok y ↔ r = .ok y := by
  rw [tensorStep, Collective.simulate_ofExcept, mapError_eq_ok]

@[simp] theorem simulate_layerStep {β : Type} {g : Group} {p : Collective α LayerFault β} {y : β} :
    (layerStep p).simulate g = .ok y ↔ p.simulate g = .ok y :=
  Collective.simulate_mapFault_eq_ok

/-- The sizes that a built model has: nothing is empty. -/
structure Positive (sizes : Sizes) : Prop where
  vocab : 0 < sizes.vocab
  emb : 0 < sizes.emb
  inner : 0 < sizes.inner

theorem Positive.inputWidth {sizes : Sizes} (h : Positive sizes) (head : Nat) :
    0 < Parameters.inputWidth sizes head := by
  unfold Parameters.inputWidth
  split_ifs
  · exact h.emb
  · exact h.inner

section Head

variable {m : Model α π} {g : Group} {dot : List α → List α → α} {slot : Slot} {head : Nat}
  {h : Parameters.Single α π} {rows : List (CandidateRow α)}

theorem length_rowLogs (fits : h.Fits g m.sizes head) (x : CandidateRow α) :
    (m.rowLogs dot h x).length = m.sizes.vocab := by
  rw [rowLogs, length_logDistribution, List.length_map, rowLogits,
    fits.outputProjection.length_row]

/-- The program of a head whose parameters are known. -/
theorem headOutput_of_single? (hslot : m.parameters.single? slot = some h) (state : Tensor α)
    (tokens : Tensor UInt32) : m.headOutput slot state tokens = (do
      let z ← layerStep (h.embedding.apply ⟨.u32, tokens⟩)
      let projected ← layerStep (h.stateProjection.apply Element.dot? state)
      let mixed ← tensorStep (projected.zipWith
        (fun p e => scaleBy m.mixing.state p + scaleBy m.embedScale e) z)
      let next := (← tensorStep (h.norm.apply mixed)).map Element.gelu
      let logits ← layerStep (h.outputProjection.apply Element.dot? next)
      return (next, logits)) := by
  obtain ⟨hemb, hproj, hout, hnorm⟩ := Parameters.single?_eq_some.mp hslot
  rw [headOutput, parameter_of_some hemb, parameter_of_some hproj, parameter_of_some hout,
    parameter_of_some hnorm]
  simp only [Collective.done_bind]

/-- **A head on a matrix of states** gives each candidate row the state and the logits that it gives
the row alone. -/
theorem simulate_headOutput (hdot : (Element.dot? : Option (List α → List α → α)) = some dot)
    (positive : Positive m.sizes) (splits : g.Splits m.sizes.vocab) (gathers : g.Gathers)
    (hslot : m.parameters.single? slot = some h) (fits : h.Fits g m.sizes head)
    {state : Tensor α} {tokens : Tensor UInt32}
    (hstate : state.IsMatrix (Parameters.inputWidth m.sizes head) (rows.map Prod.fst))
    (hshape : tokens.shape = [rows.length]) (hdata : tokens.data = rows.map Prod.snd)
    (takes : ∀ x ∈ rows, h.embedding.Takes m.sizes.vocab x.2) :
    ∃ next logits, (m.headOutput slot state tokens).simulate g = .ok (next, logits) ∧
      next.IsMatrix m.sizes.inner (rows.map (m.nextState dot h)) ∧
      logits.IsMatrix m.sizes.vocab (rows.map (m.rowLogits dot h)) := by
  have htakes : ∀ t ∈ tokens.data, h.embedding.Takes m.sizes.vocab t := fun t ht => by
    rw [hdata] at ht
    obtain ⟨x, hx, rfl⟩ := List.mem_map.mp ht
    exact takes x hx
  obtain ⟨z, hz, hzm⟩ := Embedding.simulate_apply fits.embedding splits hshape htakes
  rw [hdata, List.map_map] at hzm
  obtain ⟨p, hp, hpm⟩ := Projection.simulate_apply fits.stateProjection gathers dot hstate
    (positive.inputWidth head)
  rw [List.map_map] at hpm
  obtain ⟨mixed, hmixed, hmm⟩ := Tensor.zipWith_eq
    (fun p e : α => scaleBy m.mixing.state p + scaleBy m.embedScale e) hpm hzm (by simp)
  rw [Tensor.zipWith_map_map] at hmm
  obtain ⟨normed, hnormed, hnm⟩ := Norm.apply_eq fits.norm hmm
  rw [List.map_map] at hnm
  have hnext := Tensor.map_isMatrix hnm (Element.gelu : α → α)
  rw [List.map_map] at hnext
  obtain ⟨logits, hlogits, hlm⟩ := Projection.simulate_apply fits.outputProjection gathers dot
    hnext positive.inner
  rw [List.map_map] at hlm
  refine ⟨normed.map Element.gelu, logits, ?_, hnext, hlm⟩
  rw [headOutput_of_single? hslot, hdot]
  refine Collective.simulate_bind_eq_ok.mpr ⟨z, simulate_layerStep.mpr hz, ?_⟩
  refine Collective.simulate_bind_eq_ok.mpr ⟨p, simulate_layerStep.mpr hp, ?_⟩
  refine Collective.simulate_bind_eq_ok.mpr ⟨mixed, simulate_tensorStep.mpr hmixed, ?_⟩
  refine Collective.simulate_bind_eq_ok.mpr ⟨normed, simulate_tensorStep.mpr hnormed, ?_⟩
  exact Collective.simulate_bind_eq_ok.mpr ⟨logits, simulate_layerStep.mpr hlogits, rfl⟩

end Head

end Model

end DraftHeads
