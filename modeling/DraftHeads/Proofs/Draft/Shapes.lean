import DraftHeads.Proofs.Draft.Run

/-! # Shapes of a trace

The shapes in a trace follow from the size of the batch, the size of the vocabulary and the
branching list; neither the weights nor the group that runs the heads have a part in them.

* `Trace.Shaped`: a trace of these shapes, all of whose tokens are tokens of the vocabulary;
  `Trace.Shaped.sameShapes`: two of them have the same shapes.
* `Model.Records.shaped`: what heads record has these shapes.
* `Model.simulate_trace_shaped`: so a run that is accepted has such a trace. -/

namespace DraftHeads

variable {α ω π : Type}

/-- A step of a run after heads with the branching factors `before`: a distribution for every
candidate row, and `k` tokens of the vocabulary for each of them. -/
structure HeadStep.Shaped (batch vocab : Nat) (before : List Nat) (k : Nat) (step : HeadStep ω) :
    Prop where
  multiplicity : step.multiplicity = before.prod
  probs : step.probs.shape = [batch * before.prod, vocab]
  candidates : step.candidates.shape = [batch * before.prod * k]
  token_lt : ∀ t ∈ step.candidates.data, t.toNat < vocab

/-- A trace of heads with the branching factors `ks`. -/
structure Trace.Shaped (batch vocab : Nat) (ks : List Nat) (tr : Trace ω) : Prop where
  allProbs : tr.allProbs.shape = [batch, ks.length, vocab]
  count : tr.steps.length = ks.length
  step : ∀ (i k : Nat) (step : HeadStep ω), ks[i]? = some k → tr.steps[i]? = some step →
    step.Shaped batch vocab (ks.take i) k

/-- Two steps with the same multiplicity and the same shapes. -/
structure HeadStep.SameShapes (s t : HeadStep ω) : Prop where
  multiplicity : s.multiplicity = t.multiplicity
  probs : s.probs.shape = t.probs.shape
  candidates : s.candidates.shape = t.candidates.shape

/-- Two traces with the same shapes, step by step. -/
structure Trace.SameShapes (s t : Trace ω) : Prop where
  allProbs : s.allProbs.shape = t.allProbs.shape
  steps : List.Forall₂ HeadStep.SameShapes s.steps t.steps

theorem HeadStep.Shaped.sameShapes {batch vocab k : Nat} {before : List Nat} {s t : HeadStep ω}
    (hs : s.Shaped batch vocab before k) (ht : t.Shaped batch vocab before k) : s.SameShapes t :=
  ⟨hs.multiplicity.trans ht.multiplicity.symm, hs.probs.trans ht.probs.symm,
    hs.candidates.trans ht.candidates.symm⟩

/-- **Batch, vocabulary and branching list decide the shapes.** -/
theorem Trace.Shaped.sameShapes {batch vocab : Nat} {ks : List Nat} {s t : Trace ω}
    (hs : s.Shaped batch vocab ks) (ht : t.Shaped batch vocab ks) : s.SameShapes t := by
  refine ⟨hs.allProbs.trans ht.allProbs.symm, List.forall₂_iff_get.mpr
    ⟨hs.count.trans ht.count.symm, fun i hi hi' => ?_⟩⟩
  have hk : i < ks.length := hs.count ▸ hi
  exact (hs.step i ks[i] _ (List.getElem?_eq_getElem hk) (List.getElem?_eq_getElem hi)).sameShapes
    (ht.step i ks[i] _ (List.getElem?_eq_getElem hk) (List.getElem?_eq_getElem hi'))

namespace Model

variable [Element α ω π] [Analytic ω] [Analytic π] {m : Model α π} {g : Group}
  {dot : List α → List α → α}

omit [Element α ω π] [Analytic ω] [Analytic π] in
theorem Planned.drop {head : Nat} {heads : List (Parameters.Single α π × Nat)}
    (h : m.Planned g head heads) (n : Nat) : m.Planned g (head + n) (heads.drop n) :=
  fun i q hq => by
    rw [List.getElem?_drop] at hq
    rw [Nat.add_assoc]
    exact h (n + i) q hq

/-- **What the heads record** has the shapes that the branching factors give. -/
theorem Records.shaped {heads : List (Parameters.Single α π × Nat)} {rows : List (CandidateRow α)}
    {steps : List (HeadStep ω)} (h : m.Records dot heads 1 rows steps)
    (planned : m.Planned g 0 heads) {i : Nat} {p : Parameters.Single α π × Nat}
    {step : HeadStep ω} (hp : heads[i]? = some p) (hstep : steps[i]? = some step) :
    step.Shaped rows.length m.sizes.vocab ((heads.map Prod.snd).take i) p.2 := by
  obtain ⟨hmult, hprobs, hshape, hdata⟩ := h.record hp hstep
  have hlevel := length_level dot rows (planned.take i)
  rw [List.map_take] at hmult hlevel
  have hplanned : m.Planned g (0 + i) (p :: heads.drop (i + 1)) := by
    obtain ⟨hi, rfl⟩ := List.getElem?_eq_some_iff.mp hp
    rw [← List.drop_eq_getElem_cons hi]
    exact planned.drop i
  refine ⟨by rw [hmult, Nat.one_mul], ?_, by rw [hshape, hlevel], fun t ht => ?_⟩
  · rw [hprobs.shape, List.length_map, hlevel]
  · rw [hdata] at ht
    obtain ⟨x, -, ht⟩ := List.mem_flatMap.mp ht
    rw [← map_snd_children] at ht
    obtain ⟨y, hy, rfl⟩ := List.mem_map.mp ht
    exact token_lt_of_mem_children hplanned hy

variable {batch : Nat} {hidden : Tensor α} {tokens : AnyTensor}

/-- **A run that is accepted** has a trace of the shapes that its branching list gives. -/
theorem simulate_trace_shaped (hdot : (Element.dot? : Option (List α → List α → α)) = some dot)
    (splits : g.Splits m.sizes.vocab) (gathers : g.Gathers) (wired : m.Wired g)
    (ready : m.Ready batch hidden.shape tokens) (hbatch : 0 < batch)
    (takes : ∀ h ∈ m.singles.head?, ∀ t ∈ (tokens.cast .u32).data,
      h.embedding.Takes m.sizes.vocab t) :
    ∃ tr, (m.trace hidden tokens).simulate g = .ok tr ∧
      tr.Shaped batch m.sizes.vocab m.branching := by
  obtain ⟨tr, htr, hrecords, hshape, -, -⟩ :=
    simulate_trace hdot splits gathers wired ready hbatch takes
  have hsingles : m.singles.length = m.branching.length :=
    wired.length_singles.trans ready.count.symm
  refine ⟨tr, htr, by rw [hshape, ready.count], ?_, fun i k step hk hstep => ?_⟩
  · rw [hrecords.length_eq, List.length_zip, hsingles, Nat.min_self]
  · have hi : i < m.singles.length := by
      rw [hsingles]
      exact (List.getElem?_eq_some_iff.mp hk).1
    have hp : (m.singles.zip m.branching)[i]? = some (m.singles[i], k) :=
      List.getElem?_zip_eq_some.mpr ⟨List.getElem?_eq_getElem hi, hk⟩
    have hshaped := hrecords.shaped (wired.planned ready) hp hstep
    rwa [length_startRows ready, wired.map_snd_zip ready] at hshaped

end Model

end DraftHeads
