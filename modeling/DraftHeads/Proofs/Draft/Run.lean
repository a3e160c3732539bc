import DraftHeads.Proofs.Draft.Inputs
import DraftHeads.Proofs.Draft.Tree

/-! # Runs

A run that is accepted does not fail, whichever the group, and records what its heads saw and chose.

* `simulate_runHead`: one head on the candidate rows; `simulate_runHeads`: all heads.
* `stackBranches_eq`: the distributions of the first branches.
* `simulate_trace`: the trace of a run. -/

namespace DraftHeads

variable {α ω π : Type}

/-- The state and the tokens are those of the given rows, as many for each row of the batch as is
said. -/
structure CandidateRows.Holds (c : CandidateRows α) (batch width : Nat)
    (rows : List (Model.CandidateRow α)) : Prop where
  state : c.state.IsMatrix width (rows.map Prod.fst)
  shape : c.tokens.shape = [rows.length]
  data : c.tokens.data = rows.map Prod.snd
  count : rows.length = batch * c.multiplicity

namespace Model

/-! ### Plans -/

theorem Wired.planned {m : Model α π} {g : Group}
    {batch : Nat} {hidden : List Nat} {tokens : AnyTensor} (wired : m.Wired g)
    (ready : m.Ready batch hidden tokens) :
    m.Planned g 0 (m.singles.zip m.branching) := fun i p hp => by
  obtain ⟨hs, hk⟩ := List.getElem?_zip_eq_some.mp hp
  rw [Nat.zero_add]
  exact ⟨wired.fits i p.1 hs, ready.range p.2 (List.mem_of_getElem? hk)⟩

theorem Wired.map_fst_zip {m : Model α π} {g : Group} {batch : Nat} {hidden : List Nat}
    {tokens : AnyTensor} (wired : m.Wired g) (ready : m.Ready batch hidden tokens) :
    (m.singles.zip m.branching).map Prod.fst = m.singles :=
  List.map_fst_zip (by rw [wired.length_singles, ready.count])

theorem Wired.map_snd_zip {m : Model α π} {g : Group} {batch : Nat} {hidden : List Nat}
    {tokens : AnyTensor} (wired : m.Wired g) (ready : m.Ready batch hidden tokens) :
    (m.singles.zip m.branching).map Prod.snd = m.branching :=
  List.map_snd_zip (by rw [wired.length_singles, ready.count])

/-! ### First branches -/

theorem getElem?_heads_pieces {β : Type} {w : Nat} (hw : 0 < w) : ∀ {n : Nat} {xs : List β},
    xs.length = n * w → ∀ {b : Nat}, b < n →
      ((pieces w n xs).filterMap List.head?)[b]? = xs[b * w]?
  | n + 1, xs, h, b, hb => by
    rw [Nat.succ_mul] at h
    have hne : 0 < xs.length := by omega
    have hhead : (xs.take w).head? = some xs[0] := by
      rw [List.head?_take, if_neg (by omega), List.head?_eq_getElem?, List.getElem?_eq_getElem hne]
    rw [pieces, List.filterMap_cons_some hhead]
    cases b with
    | zero => simp [hne]
    | succ b =>
      rw [List.getElem?_cons_succ, getElem?_heads_pieces hw (by rw [List.length_drop, h]; omega)
        (Nat.lt_of_succ_lt_succ hb), List.getElem?_drop, Nat.succ_mul, Nat.add_comm]

theorem firstBranch_getD {batch b : Nat} {step : HeadStep ω} (hpos : 0 < step.multiplicity)
    (hlen : step.probs.rows.length = batch * step.multiplicity) (hb : b < batch) :
    (firstBranch batch step).getD b [] = step.probs.rows.getD (b * step.multiplicity) [] := by
  rw [List.getD_eq_getElem?_getD, List.getD_eq_getElem?_getD, firstBranch,
    getElem?_heads_pieces hpos hlen hb]

/-- The distributions that are reported: for each row of the batch and each head the distribution of
the first of the rows that come from it. -/
def reported (batch : Nat) (steps : List (HeadStep ω)) : List (List ω) :=
  (List.range batch).flatMap fun b =>
    steps.map fun step => step.probs.rows.getD (b * step.multiplicity) []

theorem stackBranches_eq {batch vocab : Nat} {steps : List (HeadStep ω)}
    (hall : ∀ step ∈ steps, 0 < step.multiplicity ∧
      step.probs.rows.length = batch * step.multiplicity ∧
        ∀ row ∈ step.probs.rows, row.length = vocab) :
    ∃ t, stackBranches batch vocab steps = .ok t ∧ t.shape = [batch, steps.length, vocab] ∧
      t.data = (reported batch steps).flatten ∧ t.rows = reported batch steps := by
  have hdata : ((List.range batch).flatMap fun b =>
      (steps.map (firstBranch batch)).flatMap fun rows => rows.getD b []) =
        (reported batch steps).flatten := by
    rw [reported, ← List.flatMap_id, List.flatMap_assoc]
    refine List.flatMap_congr fun b hb => ?_
    rw [List.flatMap_map, List.flatMap_map]
    refine List.flatMap_congr fun step hstep => ?_
    obtain ⟨hpos, hlen, -⟩ := hall step hstep
    exact firstBranch_getD hpos hlen (List.mem_range.mp hb)
  have hrow : ∀ row ∈ reported batch steps, row.length = vocab := fun row hrow => by
    obtain ⟨b, hb, hmem⟩ := List.mem_flatMap.mp hrow
    obtain ⟨step, hstep, rfl⟩ := List.mem_map.mp hmem
    obtain ⟨hpos, hlen, hwidth⟩ := hall step hstep
    have hlt : b * step.multiplicity < step.probs.rows.length := by
      rw [hlen]; exact Nat.mul_lt_mul_of_pos_right (List.mem_range.mp hb) hpos
    rw [List.getD_eq_getElem _ _ hlt]
    exact hwidth _ (List.getElem_mem hlt)
  have hcount : (reported batch steps).length = batch * steps.length := by
    rw [reported, length_flatMap_block fun _ _ => List.length_map _, List.length_range]
  have hsize : (reported batch steps).flatten.length = entryCount [batch, steps.length, vocab] := by
    rw [length_flatten_block hrow, hcount]; simp [entryCount, Nat.mul_assoc]
  obtain ⟨t, ht, hshape, hd⟩ := Tensor.ofData_eq hsize
  refine ⟨t, ?_, hshape, hd, ?_⟩
  · rw [stackBranches, hdata, ht]
  · have hrows : t.rows = pieces vocab (reported batch steps).length t.data := by
      simp [Tensor.rows, Tensor.width, Tensor.lead, hshape, entryCount, hcount]
    rw [hrows, hd, pieces_flatten hrow]

/-! ### Heads -/

variable [Element α ω π] [Analytic ω] [Analytic π]

section Heads

variable {m : Model α π} {g : Group} {dot : List α → List α → α} {batch : Nat}

/-- **One head on the candidate rows** records what it saw and chose, and hands on the rows that the
best tokens become. -/
theorem simulate_runHead (hdot : (Element.dot? : Option (List α → List α → α)) = some dot)
    (splits : g.Splits m.sizes.vocab) (gathers : g.Gathers) (positive : Positive m.sizes)
    {head : Nat} {slot : Slot} {p : Parameters.Single α π × Nat}
    {heads : List (Parameters.Single α π × Nat)} (planned : m.Planned g head (p :: heads))
    (hslot : m.parameters.single? slot = some p.1) {c : CandidateRows α}
    {rows : List (CandidateRow α)} (holds : c.Holds batch (Parameters.inputWidth m.sizes head) rows)
    (takes : ∀ x ∈ rows, p.1.embedding.Takes m.sizes.vocab x.2) :
    ∃ step next, (m.runHead batch head slot p.2 c).simulate g = .ok (step, next) ∧
      m.Record dot p c.multiplicity rows step ∧ next.multiplicity = c.multiplicity * p.2 ∧
      next.Holds batch m.sizes.inner (rows.flatMap (m.children dot p)) := by
  obtain ⟨fits, hpos, hle⟩ := planned.first
  obtain ⟨next, logits, hrun, hnext, hlogits⟩ := simulate_headOutput hdot positive splits gathers
    hslot fits holds.state holds.shape holds.data takes
  obtain ⟨logs, hlogs, hlm⟩ := logSoftmax_eq (Tensor.map_isMatrix hlogits Element.widen)
  rw [List.map_map, List.map_map] at hlm
  have hrows : logs.rows = rows.map (m.rowLogs dot p.1) := hlm.rows_eq
  have hbest : ∀ x ∈ rows, ((best p.2 (m.rowLogs dot p.1 x)).map UInt32.ofNat).length = p.2 :=
    fun x _ => by
      rw [List.length_map, length_best]
      rwa [length_rowLogs fits]
  have hchosen : (logs.rows.flatMap fun row => (best p.2 row).map UInt32.ofNat) =
      rows.flatMap fun x => (best p.2 (m.rowLogs dot p.1 x)).map UInt32.ofNat := by
    rw [hrows, List.flatMap_map]
  have hsize : (logs.rows.flatMap fun row => (best p.2 row).map UInt32.ofNat).length =
      entryCount [batch * c.multiplicity * p.2] := by
    rw [hchosen, length_flatMap_block hbest, holds.count]
    simp [entryCount]
  obtain ⟨candidates, hcand, hcs, hcd⟩ := Tensor.ofData_eq hsize
  obtain ⟨state, hstate, hsm⟩ := Tensor.repeatRows_eq hnext p.2
  have hchildren : (rows.flatMap (m.children dot p)).length = rows.length * p.2 :=
    length_flatMap_block fun x _ => length_children planned x
  have hfst : (rows.map (m.nextState dot p.1)).flatMap (List.replicate p.2) =
      (rows.flatMap (m.children dot p)).map Prod.fst := by
    rw [List.flatMap_map, List.map_flatMap]
    exact List.flatMap_congr fun x _ => (map_fst_children planned x).symm
  have hsnd : (rows.flatMap fun x => (best p.2 (m.rowLogs dot p.1 x)).map UInt32.ofNat) =
      (rows.flatMap (m.children dot p)).map Prod.snd := by
    rw [List.map_flatMap]
    exact List.flatMap_congr fun x _ => (map_snd_children p x).symm
  -- the program gives what is recorded and what is handed on, and both are about the children
  refine ⟨⟨c.multiplicity, logs.map Analytic.exp, candidates⟩,
    ⟨state, candidates, c.multiplicity * p.2⟩, ?_, ⟨rfl, ?_, ?_, hcd.trans hchosen⟩, rfl,
    ⟨hfst ▸ hsm, ?_, (hcd.trans hchosen).trans hsnd, ?_⟩⟩
  · have hstop : ¬ (c.state.shape[0]? ≠ some (batch * c.multiplicity) ∨
        c.tokens.shape[0]? ≠ some (batch * c.multiplicity)) := by
      rw [holds.state.shape, holds.shape, List.length_map, holds.count]
      simp
    rw [runHead, if_neg hstop]
    refine Collective.simulate_bind_eq_ok.mpr ⟨(next, logits), hrun, ?_⟩
    refine Collective.simulate_bind_eq_ok.mpr ⟨logs, simulate_tensorStep.mpr hlogs, ?_⟩
    refine Collective.simulate_bind_eq_ok.mpr ⟨candidates, simulate_tensorStep.mpr hcand, ?_⟩
    exact Collective.simulate_bind_eq_ok.mpr ⟨state, simulate_tensorStep.mpr hstate, rfl⟩
  · have := Tensor.map_isMatrix hlm (Analytic.exp : ω → ω)
    rwa [List.map_map] at this
  · rw [hcs, holds.count]
  · rw [hcs, hchildren, holds.count]
  · rw [hchildren, holds.count, Nat.mul_assoc]

/-- **All heads**, one after the other, record what they saw and chose. -/
theorem simulate_runHeads (hdot : (Element.dot? : Option (List α → List α → α)) = some dot)
    (splits : g.Splits m.sizes.vocab) (gathers : g.Gathers) (positive : Positive m.sizes) :
    ∀ {plan : List (Slot × Nat)} {heads : List (Parameters.Single α π × Nat)} {head : Nat}
      {c : CandidateRows α} {rows : List (CandidateRow α)},
      List.Forall₂ (fun s p => m.parameters.single? s.1 = some p.1 ∧ s.2 = p.2) plan heads →
        m.Planned g head heads → c.Holds batch (Parameters.inputWidth m.sizes head) rows →
          (∀ p ∈ heads.head?, ∀ x ∈ rows, p.1.embedding.Takes m.sizes.vocab x.2) →
            ∃ steps, (m.runHeads batch head plan c).simulate g = .ok steps ∧
              m.Records dot heads c.multiplicity rows steps
  | [], _, _, c, rows, .nil, _, _, _ => ⟨[], rfl, .nil c.multiplicity rows⟩
  | (slot, k) :: plan, p :: heads, head, c, rows, .cons hs hplan, planned, holds,
      takes => by
    obtain ⟨hslot, rfl⟩ := hs
    obtain ⟨step, next, hrun, hrecord, hmult, hnext⟩ := simulate_runHead hdot splits gathers
      positive planned hslot holds (takes p rfl)
    have hwidth : m.sizes.inner = Parameters.inputWidth m.sizes (head + 1) := by
      simp [Parameters.inputWidth]
    have htokens : ∀ q ∈ heads.head?, ∀ y ∈ rows.flatMap (m.children dot p),
        q.1.embedding.Takes m.sizes.vocab y.2 := fun q _ y hy => by
      obtain ⟨x, -, hyx⟩ := List.mem_flatMap.mp hy
      exact Embedding.takes_of_lt (token_lt_of_mem_children planned hyx)
    obtain ⟨steps, hsteps, hrecords⟩ := simulate_runHeads hdot splits gathers positive hplan
      planned.rest (hwidth ▸ hnext) htokens
    refine ⟨step :: steps, ?_, .cons hrecord (hmult ▸ hrecords)⟩
    rw [runHeads]
    refine Collective.simulate_bind_eq_ok.mpr ⟨(step, next), hrun, ?_⟩
    exact Collective.simulate_bind_eq_ok.mpr ⟨steps, hsteps, rfl⟩

theorem Records.stacked {heads : List (Parameters.Single α π × Nat)} {rows : List (CandidateRow α)}
    {steps : List (HeadStep ω)} (h : m.Records dot heads 1 rows steps)
    (planned : m.Planned g 0 heads) (hrows : rows.length = batch) : ∀ step ∈ steps,
      0 < step.multiplicity ∧ step.probs.rows.length = batch * step.multiplicity ∧
        ∀ row ∈ step.probs.rows, row.length = m.sizes.vocab := fun step hstep => by
  obtain ⟨i, hi, rfl⟩ := List.getElem_of_mem hstep
  have hheads : i < heads.length := h.length_eq ▸ hi
  obtain ⟨hmult, hprobs, -, -⟩ := h.record (List.getElem?_eq_getElem hheads)
    (List.getElem?_eq_getElem hi)
  have hlevel := length_level dot rows (planned.take i)
  rw [hmult, Nat.one_mul, hprobs.rows_eq, List.length_map, hlevel, hrows]
  exact ⟨(planned.take i).prod_pos, rfl, hprobs.length⟩

end Heads

/-! ### Whole runs -/

section Trace

variable (m : Model α π)

/-- The state that a hidden state starts as. -/
def startState (x : List α) : List α :=
  match m.inputNorm with
  | some norm => (norm.row x).map (scaleBy (1 / Analytic.sqrt (Analytic.ofNat 2) : π))
  | none => x

/-- The rows that the first head sees: the hidden states with their tokens. -/
def startRows (hidden : Tensor α) (tokens : AnyTensor) : List (CandidateRow α) :=
  (hidden.rows.map m.startState).zip (tokens.cast .u32).data

variable {m} {g : Group} {dot : List α → List α → α} {batch : Nat} {hidden : Tensor α}
  {tokens : AnyTensor}

theorem length_startRows (ready : m.Ready batch hidden.shape tokens) :
    (m.startRows hidden tokens).length = batch := by
  have htokens : (tokens.cast .u32).data.length = batch := by
    rw [(tokens.cast .u32).length_data, shape_cast, ready.places]; simp [entryCount]
  rw [startRows, List.length_zip, List.length_map, Tensor.length_rows ready.states, htokens,
    Nat.min_self]

theorem exists_start (wired : m.Wired g) (ready : m.Ready batch hidden.shape tokens) :
    ∃ state : Tensor α, state.IsMatrix m.sizes.emb (hidden.rows.map m.startState) ∧
      ∀ {β : Type} (next : Tensor α → Collective α Fault β),
        (match m.inputNorm with
          | some norm => do
            let scaled ← tensorStep (norm.apply hidden)
            let state ← pure (scaled.map (scaleBy (1 / Analytic.sqrt (Analytic.ofNat 2) : π)))
            next state
          | none => do
            let state ← pure hidden
            next state) = next state := by
  have hrows := Tensor.isMatrix_of_shape ready.states
  cases hnorm : m.inputNorm with
  | none =>
    have hstart : m.startState = id := funext fun x => by rw [startState, hnorm]; rfl
    exact ⟨hidden, by rw [hstart, List.map_id]; exact hrows, fun _ => rfl⟩
  | some norm =>
    obtain ⟨scaled, hscaled, hm⟩ := Norm.apply_eq (wired.inputNorm norm hnorm) hrows
    have hstart : m.startState = fun x =>
        (norm.row x).map (scaleBy (1 / Analytic.sqrt (Analytic.ofNat 2) : π)) :=
      funext fun x => by rw [startState, hnorm]
    have hmap := Tensor.map_isMatrix hm
      (scaleBy (1 / Analytic.sqrt (Analytic.ofNat 2) : π) : α → α)
    rw [List.map_map] at hmap
    exact ⟨_, by rw [hstart]; exact hmap, fun _ => by simp only [hscaled]; rfl⟩

theorem startRows_holds (ready : m.Ready batch hidden.shape tokens) {state : Tensor α}
    (hstate : state.IsMatrix m.sizes.emb (hidden.rows.map m.startState)) :
    (⟨state, tokens.cast .u32, 1⟩ : CandidateRows α).Holds batch
      (Parameters.inputWidth m.sizes 0) (m.startRows hidden tokens) := by
  have htokens : (tokens.cast .u32).data.length = batch := by
    rw [(tokens.cast .u32).length_data, shape_cast, ready.places]; simp [entryCount]
  have hrows : (hidden.rows.map m.startState).length = batch := by
    rw [List.length_map, Tensor.length_rows ready.states]
  refine ⟨?_, ?_, ?_, ?_⟩
  · rw [startRows, List.map_fst_zip (by omega)]
    exact hstate
  · rw [shape_cast, ready.places, length_startRows ready]
  · rw [startRows, List.map_snd_zip (by omega)]
  · rw [length_startRows ready, Nat.mul_one]

/-- **A run that is accepted does not fail**: it records what its heads saw and chose, and reports
the distributions of the first branches. -/
theorem simulate_trace (hdot : (Element.dot? : Option (List α → List α → α)) = some dot)
    (splits : g.Splits m.sizes.vocab) (gathers : g.Gathers)
    (wired : m.Wired g) (ready : m.Ready batch hidden.shape tokens) (hbatch : 0 < batch)
    (takes : ∀ h ∈ m.singles.head?, ∀ t ∈ (tokens.cast .u32).data,
      h.embedding.Takes m.sizes.vocab t) :
    ∃ tr, (m.trace hidden tokens).simulate g = .ok tr ∧
      m.Records dot (m.singles.zip m.branching) 1 (m.startRows hidden tokens) tr.steps ∧
      tr.allProbs.shape = [batch, m.heads, m.sizes.vocab] ∧
      tr.allProbs.data = (reported batch tr.steps).flatten ∧
      tr.allProbs.rows = reported batch tr.steps := by
  obtain ⟨state, hm, hrun⟩ := exists_start wired ready
  have planned := wired.planned ready
  have htakes : ∀ p ∈ (m.singles.zip m.branching).head?, ∀ x ∈ m.startRows hidden tokens,
      p.1.embedding.Takes m.sizes.vocab x.2 := fun p hp x hx => by
    rw [List.head?_eq_getElem?] at hp
    have hs := (List.getElem?_zip_eq_some.mp hp).1
    exact takes p.1 (by rw [List.head?_eq_getElem?]; exact hs) x.2 (List.of_mem_zip hx).2
  obtain ⟨steps, hsteps, hrecords⟩ := simulate_runHeads hdot splits gathers wired.positive
    (forall₂_zip wired.selected) planned (startRows_holds ready hm) htakes
  have hlen : steps.length = m.heads := by
    rw [hrecords.length_eq, List.length_zip, wired.length_singles, ready.count, Nat.min_self]
  obtain ⟨all, hall, hshape, hdata, hrows⟩ := stackBranches_eq
    (hrecords.stacked planned (length_startRows ready))
  refine ⟨⟨all, steps⟩, ?_, hrecords, by rw [hshape, hlen], hdata, hrows⟩
  rw [trace, accept_eq_ok_iff.mpr ready]
  simp only [Collective.ofExcept_ok, Collective.done_bind, if_neg hbatch.ne']
  refine (congrArg (Collective.simulate g) (hrun _)).trans ?_
  refine Collective.simulate_bind_eq_ok.mpr ⟨steps, hsteps, ?_⟩
  exact Collective.simulate_bind_eq_ok.mpr ⟨all, simulate_tensorStep.mpr hall, rfl⟩

end Trace

end Model

end DraftHeads
