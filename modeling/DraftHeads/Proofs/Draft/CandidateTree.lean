import DraftHeads.Proofs.Draft.Branching

/-! # The tree of candidate rows

The steps of a run are the levels of a forest: each row of the batch is the root of a tree, and a
row of one level has a child for each of its best tokens. The rows of a level stand in the order of
the tokens that they took, so that the place of a row tells its tokens.

* `CandidateTree`: the multiplicities, distributions and tokens of the steps, by places.
* `Records.candidateTree`: the records of the heads are such a tree. -/

namespace DraftHeads

variable {α ω π : Type}

/-! ### Trees -/

namespace Model

variable [Element α ω π] [Analytic ω] [Analytic π]

/-- **The trace of a run is the tree of its candidate rows.** The rows `start` are the roots, and
the children of a row are its best tokens: with branching factors `k`, the row that took the tokens
of ranks `d` from root `b` on is at place `(b · k₀ + d₀) · k₁ + d₁ …` of its level. -/
structure CandidateTree (m : Model α π) (dot : List α → List α → α) (start : List (CandidateRow α))
    (tr : Trace ω) : Prop where
  /-- There is a level for each head, and the slot of a head selects its parameters. -/
  levels : tr.steps.length = m.heads ∧ m.parameters.slots.length = m.heads ∧
    List.Forall₂ (fun slot s => m.parameters.single? slot = some s) m.parameters.slots m.singles
  /-- The number of rows of a level for each root. -/
  multiplicity : ∀ {i : Nat} {step : HeadStep ω}, tr.steps[i]? = some step →
    step.multiplicity = (m.branching.take i).prod
  shapes : ∀ {i : Nat} {step : HeadStep ω} {k : Nat}, tr.steps[i]? = some step →
    m.branching[i]? = some k →
      step.probs.shape = [start.length * step.multiplicity, m.sizes.vocab] ∧
        step.candidates.shape = [start.length * step.multiplicity * k]
  /-- Every row of a level took tokens of some ranks. -/
  places : ∀ {i : Nat} {step : HeadStep ω}, tr.steps[i]? = some step →
    ∀ r < start.length * step.multiplicity, ∃ b ds, b < start.length ∧
      Ranks (m.branching.take i) ds ∧ place b (m.branching.take i) ds = r
  /-- The distribution of a row, and the tokens that it chose. -/
  rows : ∀ {i : Nat} {step : HeadStep ω}, tr.steps[i]? = some step →
    ∃ s k, m.singles[i]? = some s ∧ m.branching[i]? = some k ∧
      ∀ {b : Nat} {x : CandidateRow α} {ds : List Nat}, start[b]? = some x →
        Ranks (m.branching.take i) ds →
        let logs := m.rowLogs dot s (m.descend dot x ((m.singles.take i).zip ds))
        let r := place b (m.branching.take i) ds
        step.probs.rows[r]? = some (logs.map Analytic.exp) ∧
          ∀ j < k, ∃ t, step.candidates.data[r * k + j]? = some t ∧
            (ranking logs)[j]? = some t.toNat
  /-- What is reported is the first row of a level for each root. -/
  reported : tr.allProbs.shape = [start.length, m.heads, m.sizes.vocab] ∧
    ∀ {i : Nat} {step : HeadStep ω} {b : Nat}, tr.steps[i]? = some step → b < start.length →
      tr.allProbs.rows[b * m.heads + i]? = step.probs.rows[b * step.multiplicity]?

section Tree

variable [LawfulRanking ω] {m : Model α π} {g : Group} {dot : List α → List α → α}
  {start : List (CandidateRow α)} {tr : Trace ω}

theorem Records.row_eq {heads : List (Parameters.Single α π × Nat)} {steps : List (HeadStep ω)}
    (h : m.Records dot heads 1 start steps) (planned : m.Planned g 0 heads)
    (hword : m.sizes.vocab ≤ UInt32.size) {i : Nat} {p : Parameters.Single α π × Nat}
    {step : HeadStep ω} (hp : heads[i]? = some p) (hstep : steps[i]? = some step) {b : Nat}
    {x : CandidateRow α} (hx : start[b]? = some x) {ds : List Nat}
    (hds : Ranks ((heads.take i).map Prod.snd) ds) :
    let logs := m.rowLogs dot p.1 (m.descend dot x (((heads.take i).map Prod.fst).zip ds))
    let r := place b ((heads.take i).map Prod.snd) ds
    step.probs.rows[r]? = some (logs.map Analytic.exp) ∧
      ∀ j < p.2, ∃ t, step.candidates.data[r * p.2 + j]? = some t ∧
        (ranking logs)[j]? = some t.toNat := by
  intro logs r
  have hlevel : (m.level dot (heads.take i) start)[r]? =
      some (m.descend dot x (((heads.take i).map Prod.fst).zip ds)) :=
    getElem?_level (planned.take i) hx hds
  obtain ⟨-, hprobs, -, hdata⟩ := h.record hp hstep
  obtain ⟨fits, hpos, hle⟩ := planned i p hp
  rw [Nat.zero_add] at fits
  refine ⟨?_, fun j hj => ?_⟩
  · rw [hprobs.rows_eq, List.getElem?_map, hlevel]
    rfl
  · have hrow : (m.rowLogits dot p.1 (m.descend dot x
        (((heads.take i).map Prod.fst).zip ds))).map Element.widen ≠ [] := by
      refine List.ne_nil_of_length_pos ?_
      rw [List.length_map, rowLogits, fits.outputProjection.length_row]
      omega
    have hlen : ∀ y ∈ m.level dot (heads.take i) start,
        ((best p.2 (m.rowLogs dot p.1 y)).map UInt32.ofNat).length = p.2 := fun y _ => by
      rw [List.length_map, length_best]
      rwa [length_rowLogs fits]
    have hlogs : logs.length = m.sizes.vocab := length_rowLogs fits _
    have hrank : j < (ranking logs).length := by rw [length_ranking]; omega
    have htoken : (ranking logs)[j] < UInt32.size := by
      have := mem_ranking_lt (List.getElem_mem hrank)
      omega
    have hbest : (best p.2 logs)[j]? = some (ranking logs)[j] := by
      have htake : best p.2 logs = (ranking logs).take p.2 := best_eq_take hrow p.2
      rw [htake, List.getElem?_take, if_pos hj, List.getElem?_eq_getElem hrank]
    refine ⟨UInt32.ofNat (ranking logs)[j], ?_, ?_⟩
    · rw [hdata, getElem?_flatMap_block hlen r j hj, hlevel, Option.bind_some, List.getElem?_map]
      exact congrArg (Option.map UInt32.ofNat) hbest
    · rw [UInt32.toNat_ofNat_of_lt' htoken, List.getElem?_eq_getElem hrank]

/-- **The records of all heads are the tree** of the rows that the first head sees. -/
theorem Records.candidateTree (h : m.Records dot (m.singles.zip m.branching) 1 start tr.steps)
    (wired : m.Wired g) {batch : Nat} {hidden : List Nat} {tokens : AnyTensor}
    (ready : m.Ready batch hidden tokens) (hword : m.sizes.vocab ≤ UInt32.size)
    (hshape : tr.allProbs.shape = [start.length, m.heads, m.sizes.vocab])
    (hrows : tr.allProbs.rows = Model.reported start.length tr.steps) :
    m.CandidateTree dot start tr := by
  have planned := wired.planned ready
  have hsingles := wired.length_singles
  have hbranching := ready.count
  have hlevels : tr.steps.length = m.heads := by
    rw [h.length_eq, List.length_zip, hsingles, hbranching, Nat.min_self]
  have hfst : ∀ i, ((m.singles.zip m.branching).take i).map Prod.fst = m.singles.take i :=
    fun i => by rw [List.map_take, wired.map_fst_zip ready]
  have hsnd : ∀ i, ((m.singles.zip m.branching).take i).map Prod.snd = m.branching.take i :=
    fun i => by rw [List.map_take, wired.map_snd_zip ready]
  have hhead : ∀ {i : Nat} {step : HeadStep ω}, tr.steps[i]? = some step →
      ∃ p, (m.singles.zip m.branching)[i]? = some p := fun hstep => by
    have hi := (List.getElem?_eq_some_iff.mp hstep).1
    rw [h.length_eq] at hi
    exact ⟨_, List.getElem?_eq_getElem hi⟩
  have hmult : ∀ {i : Nat} {step : HeadStep ω}, tr.steps[i]? = some step →
      step.multiplicity = (m.branching.take i).prod := fun {i step} hstep => by
    obtain ⟨p, hp⟩ := hhead hstep
    rw [(h.record hp hstep).multiplicity, hsnd, Nat.one_mul]
  -- left are the shapes of a step, the places of its rows, what is in them, and what is reported
  refine ⟨⟨hlevels, wired.count, wired.selected⟩, hmult, ?_, ?_, ?_, hshape, ?_⟩
  · intro i step k hstep hk
    obtain ⟨p, hp⟩ := hhead hstep
    obtain ⟨-, hprobs, hcandidates, -⟩ := h.record hp hstep
    have hlen := length_level dot start (planned.take i)
    rw [hsnd, ← hmult hstep] at hlen
    obtain rfl : p.2 = k := Option.some.inj ((List.getElem?_zip_eq_some.mp hp).2.symm.trans hk)
    rw [hprobs.shape, List.length_map, hlen, hcandidates, hlen]
    exact ⟨rfl, rfl⟩
  · intro i step hstep r hr
    exact exists_place (hmult hstep ▸ hr)
  · intro i step hstep
    obtain ⟨⟨s, k⟩, hp⟩ := hhead hstep
    obtain ⟨hs, hk⟩ := List.getElem?_zip_eq_some.mp hp
    refine ⟨s, k, hs, hk, fun {b x ds} hx hds => ?_⟩
    have := h.row_eq planned hword hp hstep hx (by rwa [hsnd])
    rwa [hfst, hsnd] at this
  · intro i step b hstep hb
    have hi := (List.getElem?_eq_some_iff.mp hstep).1
    have hmem := List.mem_of_getElem? hstep
    obtain ⟨hpos, hlen, -⟩ := h.stacked planned rfl step hmem
    have hlt : b * step.multiplicity < step.probs.rows.length := by
      rw [hlen]; exact Nat.mul_lt_mul_of_pos_right hb hpos
    rw [hrows, Model.reported, ← hlevels,
      getElem?_flatMap_block (fun _ _ => List.length_map _) b i hi, List.getElem?_range hb,
      Option.bind_some, List.getElem?_map, hstep, Option.map_some, List.getD_eq_getElem _ _ hlt,
      List.getElem?_eq_getElem hlt]

end Tree

/-! ### Runs of built models -/

section Built

variable {d : DType} {c : Config} {policy : Policy Float} {read : Reader d.Elem}
  {m : Model d.Elem Float}

theorem startRows_eq {ks : List Nat} {hidden : Tensor d.Elem} {tokens : AnyTensor}
    {ids : Tensor Int} (h : tokens.integers? = some ids) :
    (m.withBranching ks).startRows hidden tokens =
      (hidden.rows.map m.startState).zip (ids.data.map UInt32.ofInt) := by
  rw [startRows, cast_data_eq h]
  rfl

/-- **The trace of a run on one device** is the tree of its candidate rows, and there is such a
trace for all hidden states and tokens of the vocabulary, if the format of the weights has products
and the hidden states have the same format. -/
theorem exists_trace_candidateTree {dot : List d.Elem → List d.Elem → d.Elem}
    (hdot : (Element.dot? : Option (List d.Elem → List d.Elem → d.Elem)) = some dot)
    (lawful : read.Lawful) (hbuild : build c policy read .single = .ok m)
    (hword : c.vocabSize < UInt32.size) {ks : List Nat} (branches : m.Branches ks) {batch : Nat}
    {hidden : Tensor d.Elem} {tokens : AnyTensor} {ids : Tensor Int}
    (inputs : Inputs (sizesOf c) batch hidden.shape tokens ids) :
    let start := (hidden.rows.map m.startState).zip (ids.data.map UInt32.ofInt)
    start.length = batch ∧ m.heads = policy.headCount c ∧
      ∃ tr, AnyModel.trace ⟨d, m.withBranching ks⟩ ⟨d, hidden⟩ tokens = .ok tr ∧
        (m.withBranching ks).CandidateTree dot start tr := by
  intro start
  have hsizes := sizes_of_build hbuild
  rw [← hsizes] at inputs
  have hvocab : m.sizes.vocab ≤ UInt32.size := by
    rw [hsizes]
    exact hword.le
  have wired := build_wired lawful hbuild
  have wired' := wired.withBranching ks
  have ready := inputs.ready branches
  obtain ⟨tr, htr, hrecords, hshape, -, hrows⟩ := simulate_trace (m := m.withBranching ks) hdot
    (wired.splits (lt_of_le_of_lt hvocab (by decide))) (Or.inl rfl) wired' ready inputs.batch_pos
    fun _ _ t ht => Embedding.takes_of_lt (inputs.token_lt t ht)
  have hlen := length_startRows ready
  rw [startRows_eq inputs.integers] at hrecords hlen
  refine ⟨hlen, heads_of_build hbuild, tr,
    (trace_eq_simulate hbuild ks hidden tokens).trans htr, ?_⟩
  rw [← hlen] at hshape hrows
  exact hrecords.candidateTree wired' ready hvocab hshape hrows

/-- The tree of a run with three and two candidates. -/
theorem exists_trace_candidateTree_two : ∃ m : Model Float32 Float,
    build smallConfig ⟨none, none, 0, 0⟩ (Weights.zeros.reader .f32) .single = .ok m ∧
    ∃ tr, AnyModel.trace ⟨.f32, m.withBranching [3, 2]⟩ ⟨.f32, Tensor.fill [2, 3] 1⟩
        ⟨.i64, Tensor.ofList [1, 3]⟩ = .ok tr ∧
      (m.withBranching [3, 2]).CandidateTree innerProduct
        (((Tensor.fill [2, 3] (1 : Float32)).rows.map m.startState).zip [1, 3]) tr := by
  obtain ⟨m, hm⟩ := exists_build_zeros .f32 none rfl
  have branches : m.Branches [3, 2] := (branches_of_build hm).mpr (by decide)
  have inputs : Inputs (sizesOf smallConfig) 2 (Tensor.fill [2, 3] (1 : Float32)).shape
      ⟨.i64, Tensor.ofList [1, 3]⟩ (Tensor.ofList [1, 3]) := ⟨by decide, rfl, rfl, rfl, by decide⟩
  obtain ⟨-, -, htree⟩ := exists_trace_candidateTree (d := .f32) rfl
    (Weights.zeros.reader_lawful .f32) hm (by decide) branches inputs
  exact ⟨m, hm, htree⟩

/-- A model of a format without products does not run on hidden states of its own format, and a
model of another format does not run on hidden states that are not of its format. -/
theorem not_exists_trace :
    (∃ m : Model (Number.Short .brain) Float,
      build smallConfig ⟨none, none, 0, 0⟩ (Weights.zeros.reader .bf16) .single = .ok m ∧
      m.Branches [1, 1] ∧
      Inputs (sizesOf smallConfig) 1 [1, 3] ⟨.u32, Tensor.ofList [1]⟩ (Tensor.ofList [1]) ∧
      ¬ ∃ tr, AnyModel.trace ⟨.bf16, m.withBranching [1, 1]⟩ ⟨.bf16, Tensor.fill [1, 3] 0⟩
        ⟨.u32, Tensor.ofList [1]⟩ = .ok tr) ∧
    ∃ m : Model Float32 Float,
      build smallConfig ⟨none, none, 0, 0⟩ (Weights.zeros.reader .f32) .single = .ok m ∧
      m.Branches [1, 1] ∧
      ¬ ∃ tr, AnyModel.trace ⟨.f32, m.withBranching [1, 1]⟩ ⟨.f64, Tensor.fill [1, 3] 0⟩
        ⟨.u32, Tensor.ofList [1]⟩ = .ok tr := by
  constructor
  · obtain ⟨m, hm⟩ := exists_build_zeros .bf16 none rfl
    refine ⟨m, hm, (branches_of_build hm).mpr (by decide),
      ⟨by decide, rfl, rfl, rfl, by decide⟩, ?_⟩
    rintro ⟨tr, htr⟩
    have wired := (build_wired (Weights.zeros.reader_lawful .bf16) hm).withBranching [1, 1]
    obtain ⟨batch, ready, ⟨rfl, -⟩ | ⟨-, ⟨dot, hdot⟩, -⟩⟩ :=
      ready_of_simulate_trace wired ((trace_eq_simulate hm _ _ _).symm.trans htr)
    · cases ready.states
    · cases hdot
  · obtain ⟨m, hm⟩ := exists_build_zeros .f32 none rfl
    refine ⟨m, hm, (branches_of_build hm).mpr (by decide), ?_⟩
    rintro ⟨tr, htr⟩
    obtain ⟨ready, -⟩ := ready_of_simulate_traceForeign htr
    cases ready.states

end Built

end Model

end DraftHeads
