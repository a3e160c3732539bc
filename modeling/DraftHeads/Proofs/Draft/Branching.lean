import DraftHeads.Proofs.Checkpoint.Weights
import DraftHeads.Proofs.Draft.Run
import DraftHeads.Proofs.Draft.SingleRanking

/-! # Branching and the reported distributions

The distributions that a run reports are those along the first branch: every head sees the row that
took the best token of each head before it. This row does not depend on the branching list.

* `greedy`: the distributions along the first branch.
* `Records.reported_eq`: a run reports these; so two runs report the same.
* `ready_of_simulate_trace`: what is known if a run did not fail.
* `exists_any_allProbs_eq`: a run that does not fail reports the same for every branching list. -/

namespace DraftHeads

variable {α ω π : Type}

namespace Model

variable [Element α ω π] [Analytic ω] [Analytic π]

/-- The distributions along the first branch: after each head the row takes the best token. -/
def greedy (m : Model α π) (dot : List α → List α → α) :
    List (Parameters.Single α π) → CandidateRow α → List (List ω)
  | [], _ => []
  | h :: hs, x => (m.rowLogs dot h x).map Analytic.exp :: greedy m dot hs (m.childRow dot h x 0)

theorem greedy_withBranching (m : Model α π) (ks : List Nat) (dot : List α → List α → α) :
    ∀ (hs : List (Parameters.Single α π)) (x : CandidateRow α),
      (m.withBranching ks).greedy dot hs x = m.greedy dot hs x
  | [], _ => rfl
  | h :: hs, x => congrArg _ (greedy_withBranching m ks dot hs (m.childRow dot h x 0))

section FirstBranch

variable [LawfulRanking ω] {m : Model α π} {g : Group} {dot : List α → List α → α}

/-- **The first of the rows that come from a row** took the best token of every head. -/
theorem Records.firstBranch_eq {heads : List (Parameters.Single α π × Nat)} {multiplicity : Nat}
    {rows : List (CandidateRow α)} {steps : List (HeadStep ω)}
    (h : m.Records dot heads multiplicity rows steps) : ∀ {head : Nat}, m.Planned g head heads →
      ∀ {b : Nat} {x : CandidateRow α}, rows[b * multiplicity]? = some x →
        (steps.map fun step => step.probs.rows.getD (b * step.multiplicity) []) =
          m.greedy dot (heads.map Prod.fst) x := by
  induction h with
  | nil multiplicity rows => intros; rfl
  | @cons p heads multiplicity rows step steps first rest ih =>
    intro head planned b x hx
    have hchild : (rows.flatMap (m.children dot p))[b * (multiplicity * p.2)]? =
        some (m.childRow dot p.1 x 0) := by
      obtain ⟨-, hpos, -⟩ := planned.first
      have := getElem?_flatMap_block (f := m.children dot p) (l := rows)
        (fun y _ => length_children planned y) (b * multiplicity) 0 hpos
      rw [Nat.add_zero, hx, Option.bind_some, children_eq planned, List.getElem?_map,
        List.getElem?_range hpos] at this
      rw [← Nat.mul_assoc, this]
      rfl
    rw [List.map_cons, ih planned.rest hchild, List.map_cons, greedy, first.probs.rows_eq,
      first.multiplicity, List.getD_eq_getElem?_getD, List.getElem?_map, hx]
    rfl

/-- **What a run reports** are the distributions along the first branch of each row. -/
theorem Records.reported_eq {heads : List (Parameters.Single α π × Nat)}
    {rows : List (CandidateRow α)} {steps : List (HeadStep ω)}
    (h : m.Records dot heads 1 rows steps) (planned : m.Planned g 0 heads) :
    reported rows.length steps = rows.flatMap (m.greedy dot (heads.map Prod.fst)) := by
  have hrow : ∀ b ∈ List.range rows.length,
      (steps.map fun step => step.probs.rows.getD (b * step.multiplicity) []) =
        ((rows[b]?).map (m.greedy dot (heads.map Prod.fst))).getD [] := fun b hb => by
    have hlt := List.mem_range.mp hb
    rw [List.getElem?_eq_getElem hlt, Option.map_some, Option.getD_some]
    exact h.firstBranch_eq planned (by rw [Nat.mul_one, List.getElem?_eq_getElem hlt])
  rw [reported, List.flatMap_congr hrow, List.flatMap_def, List.flatMap_def]
  congr 1
  refine List.ext_getElem? fun b => ?_
  rw [List.getElem?_map, List.getElem?_map]
  rcases Nat.lt_or_ge b rows.length with hb | hb
  · rw [List.getElem?_range hb, List.getElem?_eq_getElem hb]
    simp [hb]
  · rw [List.getElem?_eq_none hb, List.getElem?_eq_none (by simpa using hb)]
    rfl

end FirstBranch

/-! ### Runs that did not fail -/

section Inversion

variable {m : Model α π} {g : Group}

/-- What a head needs that did not fail: inner products, a group that can gather, and tokens that
its embedding can look up. -/
theorem exists_dot_of_headOutput (positive : Positive m.sizes) {slot : Slot} {head : Nat}
    {h : Parameters.Single α π} (hslot : m.parameters.single? slot = some h)
    (fits : h.Fits g m.sizes head) {state : Tensor α} {tokens : Tensor UInt32}
    {rows : List (List α)} (hstate : state.IsMatrix (Parameters.inputWidth m.sizes head) rows)
    (hrows : rows ≠ []) {out : Tensor α × Tensor α}
    (hout : (m.headOutput slot state tokens).simulate g = .ok out) :
    (∃ dot, (Element.dot? : Option (List α → List α → α)) = some dot) ∧ g.Gathers ∧
      ∀ t ∈ tokens.data, h.embedding.Takes m.sizes.vocab t := by
  rw [headOutput_of_single? hslot] at hout
  obtain ⟨z, hz, hout⟩ := Collective.simulate_bind_eq_ok.mp hout
  obtain ⟨projected, hp, -⟩ := Collective.simulate_bind_eq_ok.mp hout
  obtain ⟨hdot, gathers⟩ := Projection.exists_dot_of_simulate fits.stateProjection hstate hrows
    (positive.inputWidth head) positive.inner (simulate_layerStep.mp hp)
  exact ⟨hdot, gathers, Embedding.takes_of_simulate fits.embedding (simulate_layerStep.mp hz)⟩

theorem exists_dot_of_runHeads (wired : m.Wired g) {batch : Nat} {state : Tensor α}
    {tokens : Tensor UInt32} {rows : List (List α)} (hstate : state.IsMatrix m.sizes.emb rows)
    (hrows : rows ≠ []) {ks : List Nat} (hks : ks ≠ []) {steps : List (HeadStep ω)}
    (hsteps : (m.runHeads batch 0 (m.parameters.slots.zip ks) ⟨state, tokens, 1⟩).simulate g =
      .ok steps) :
    (∃ dot, (Element.dot? : Option (List α → List α → α)) = some dot) ∧ g.Gathers ∧
      ∀ s ∈ m.singles.head?, ∀ t ∈ tokens.data, s.embedding.Takes m.sizes.vocab t := by
  have hslots : m.parameters.slots ≠ [] := by
    refine List.ne_nil_of_length_pos ?_
    rw [wired.count]
    exact wired.heads_pos
  obtain ⟨slot, slots, hslots⟩ := List.exists_cons_of_ne_nil hslots
  obtain ⟨k, ks, rfl⟩ := List.exists_cons_of_ne_nil hks
  have hselected := wired.selected
  rw [hslots] at hselected
  obtain ⟨s, singles, hs, -, hsingles⟩ := List.forall₂_cons_left_iff.mp hselected
  rw [hslots, List.zip_cons_cons, runHeads] at hsteps
  obtain ⟨⟨step, next⟩, hrun, -⟩ := Collective.simulate_bind_eq_ok.mp hsteps
  unfold runHead at hrun
  dsimp only at hrun
  split_ifs at hrun
  · cases hrun
  · obtain ⟨out, hout, -⟩ := Collective.simulate_bind_eq_ok.mp hrun
    obtain ⟨hdot, gathers, takes⟩ := exists_dot_of_headOutput wired.positive hs
      (wired.fits 0 s (by rw [hsingles]; rfl)) hstate hrows hout
    refine ⟨hdot, gathers, fun s' hs' => ?_⟩
    rw [hsingles] at hs'
    cases hs'
    exact takes

variable {hidden : Tensor α} {tokens : AnyTensor} {tr : Trace ω}

/-- **A run that did not fail** was accepted; and if there were rows, it had what its first head
needs. -/
theorem ready_of_simulate_trace (wired : m.Wired g)
    (h : (m.trace hidden tokens).simulate g = .ok tr) :
    ∃ batch, m.Ready batch hidden.shape tokens ∧ (batch = 0 ∧ tr = m.emptyTrace ∨
      0 < batch ∧ (∃ dot, (Element.dot? : Option (List α → List α → α)) = some dot) ∧ g.Gathers ∧
        ∀ s ∈ m.singles.head?, ∀ t ∈ (tokens.cast .u32).data,
          s.embedding.Takes m.sizes.vocab t) := by
  obtain ⟨batch, haccept, h⟩ := Collective.simulate_bind_eq_ok.mp h
  rw [Collective.simulate_ofExcept] at haccept
  have ready := accept_eq_ok_iff.mp haccept
  refine ⟨batch, ready, ?_⟩
  by_cases hbatch : batch = 0
  · left
    rw [if_pos hbatch] at h
    cases h
    exact ⟨hbatch, rfl⟩
  · right
    rw [if_neg hbatch] at h
    obtain ⟨state, hm, hstart⟩ := exists_start wired ready
    have h := (congrArg (Collective.simulate g) (hstart _)).symm.trans h
    obtain ⟨steps, hsteps, -⟩ := Collective.simulate_bind_eq_ok.mp h
    have hrows : hidden.rows.map m.startState ≠ [] := by
      refine List.ne_nil_of_length_pos ?_
      rw [List.length_map, Tensor.length_rows ready.states]
      omega
    have hks : m.branching ≠ [] := by
      refine List.ne_nil_of_length_pos ?_
      rw [ready.count]
      exact wired.heads_pos
    exact ⟨by omega, exists_dot_of_runHeads wired hm hrows hks hsteps⟩

omit [Analytic π] in
/-- Hidden states of another format than the weights are good for no run but one without rows. -/
theorem ready_of_simulate_traceForeign {shape : List Nat}
    (h : (m.traceForeign shape tokens).simulate g = .ok tr) :
    m.Ready 0 shape tokens ∧ tr = m.emptyTrace := by
  obtain ⟨batch, haccept, h⟩ := Collective.simulate_bind_eq_ok.mp h
  rw [Collective.simulate_ofExcept] at haccept
  have ready := accept_eq_ok_iff.mp haccept
  by_cases hbatch : batch = 0
  · subst hbatch
    cases h
    exact ⟨ready, rfl⟩
  · rw [if_neg hbatch] at h
    obtain ⟨_, -, h⟩ := Collective.simulate_bind_eq_ok.mp h
    obtain ⟨_, -, h⟩ := Collective.simulate_bind_eq_ok.mp h
    obtain ⟨_, -, h⟩ := Collective.simulate_bind_eq_ok.mp h
    obtain ⟨_, -, h⟩ := Collective.simulate_bind_eq_ok.mp h
    cases h

end Inversion

/-! ### Two branching lists -/

section Lists

variable [LawfulRanking ω] {m : Model α π} {g : Group} {ks ks' : List Nat}
  {hidden : Tensor α} {tokens : AnyTensor}

/-- **What a run reports** does not depend on the branching list: the distributions along the first
branch. -/
theorem simulate_trace_greedy {dot : List α → List α → α} {batch : Nat}
    (hdot : (Element.dot? : Option (List α → List α → α)) = some dot) (gathers : g.Gathers)
    (hword : m.sizes.vocab < wordCount) (wired : m.Wired g)
    (ready : (m.withBranching ks).Ready batch hidden.shape tokens) (hbatch : 0 < batch)
    (takes : ∀ h ∈ m.singles.head?, ∀ t ∈ (tokens.cast .u32).data,
      h.embedding.Takes m.sizes.vocab t) :
    ∃ tr, ((m.withBranching ks).trace hidden tokens).simulate g = .ok tr ∧
      tr.allProbs.shape = [batch, m.heads, m.sizes.vocab] ∧
      tr.allProbs.data =
        ((m.startRows hidden tokens).flatMap (m.greedy dot m.singles)).flatten := by
  have wired' := wired.withBranching ks
  obtain ⟨tr, htr, hrecords, hshape, hdata, -⟩ := simulate_trace (m := m.withBranching ks) hdot
    (wired.splits hword) gathers wired' ready hbatch takes
  have hreported := hrecords.reported_eq (wired'.planned ready)
  have hgreedy : (m.withBranching ks).greedy dot (m.withBranching ks).singles =
      m.greedy dot m.singles := funext fun x => greedy_withBranching m ks dot m.singles x
  rw [length_startRows ready, wired'.map_fst_zip ready, hgreedy] at hreported
  exact ⟨tr, htr, hshape, by rw [hdata, hreported]; rfl⟩

theorem exists_allProbs_eq (wired : m.Wired g) (hword : m.sizes.vocab < wordCount)
    (branches : m.Branches ks') {tr : Trace ω}
    (h : ((m.withBranching ks).trace hidden tokens).simulate g = .ok tr) :
    (∃ batch, hidden.shape = [batch, m.sizes.emb] ∧
      tr.allProbs.shape = [batch, m.heads, m.sizes.vocab]) ∧
    ∃ tr', ((m.withBranching ks').trace hidden tokens).simulate g = .ok tr' ∧
      tr'.allProbs = tr.allProbs := by
  obtain ⟨batch, ready, ⟨rfl, rfl⟩ | ⟨hbatch, ⟨dot, hdot⟩, gathers, takes⟩⟩ :=
    ready_of_simulate_trace (wired.withBranching ks) h
  · refine ⟨⟨0, ready.states, rfl⟩, m.emptyTrace, ?_, rfl⟩
    rw [trace, accept_eq_ok_iff.mpr (ready.withBranching branches)]
    rfl
  · obtain ⟨tr₁, htr₁, hshape₁, hdata₁⟩ :=
      simulate_trace_greedy hdot gathers hword wired ready hbatch takes
    obtain ⟨tr₂, htr₂, hshape₂, hdata₂⟩ := simulate_trace_greedy hdot gathers hword wired
      (ready.withBranching branches) hbatch takes
    obtain rfl : tr₁ = tr := Except.ok.inj (htr₁.symm.trans h)
    exact ⟨⟨batch, ready.states, hshape₁⟩, tr₂, htr₂,
      Tensor.ext (hshape₂.trans hshape₁.symm) (hdata₂.trans hdata₁.symm)⟩

end Lists

/-! ### Models of any format -/

section Any

variable {d : DType} {m m' : Model d.Elem Float} {ks ks' : List Nat} {hidden tokens : AnyTensor}

theorem shape_of_as? {t : AnyTensor} {s : Tensor d.Elem} (h : t.as? d = some s) :
    t.shape = s.shape := by
  obtain ⟨e, t⟩ := t
  unfold AnyTensor.as? at h
  split_ifs at h with heq
  obtain rfl : e = d := heq
  cases h
  rfl

theorem exists_any_allProbs_eq (wired : m.Wired m.group) (hword : m.sizes.vocab < wordCount)
    (branches : m.Branches ks') {tr : Trace Float32}
    (h : AnyModel.trace ⟨d, m.withBranching ks⟩ hidden tokens = .ok tr) :
    (∃ batch, hidden.shape = [batch, m.sizes.emb] ∧
      tr.allProbs.shape = [batch, m.heads, m.sizes.vocab]) ∧
    ∃ tr', AnyModel.trace ⟨d, m.withBranching ks'⟩ hidden tokens = .ok tr' ∧
      tr'.allProbs = tr.allProbs := by
  unfold AnyModel.trace at h ⊢
  dsimp only at h ⊢
  cases hstates : hidden.as? d with
  | some states =>
    rw [hstates] at h
    rw [shape_of_as? hstates]
    exact exists_allProbs_eq wired hword branches h
  | none =>
    rw [hstates] at h
    obtain ⟨ready, rfl⟩ := ready_of_simulate_traceForeign h
    refine ⟨⟨0, ready.states, rfl⟩, m.emptyTrace, ?_, rfl⟩
    dsimp only
    rw [traceForeign, accept_eq_ok_iff.mpr (ready.withBranching branches)]
    rfl

theorem forward_eq_ok_iff {t : Tensor Float32} :
    AnyModel.forward ⟨d, m⟩ hidden tokens = .ok t ↔
      ∃ tr, AnyModel.trace ⟨d, m⟩ hidden tokens = .ok tr ∧ tr.allProbs = t := by
  rw [AnyModel.forward, bind_eq_ok]
  exact exists_congr fun tr => and_congr_right fun _ => ⟨Except.ok.inj, congrArg Except.ok⟩

variable {c : Config} {policy : Policy Float} {list? : Option (List Nat)} {read : Reader d.Elem}
  {g : Group}

theorem trace_eq_simulate (h : build c policy read g = .ok m) (ks : List Nat)
    (states : Tensor d.Elem) (tokens : AnyTensor) :
    AnyModel.trace ⟨d, m.withBranching ks⟩ ⟨d, states⟩ tokens =
      ((m.withBranching ks).trace states tokens).simulate g := by
  have hself : AnyTensor.as? d ⟨d, states⟩ = some states := dif_pos rfl
  unfold AnyModel.trace
  rw [hself, ← group_of_build h]
  rfl

theorem withBranching_eq_of_build (h : build c policy read g = .ok m)
    (h' : build c { policy with branching? := list? } read g = .ok m') :
    m'.withBranching ks = m.withBranching ks := by
  obtain ⟨-, -, p, hp, rfl⟩ := build_eq_ok_iff.mp h
  obtain ⟨-, -, p', hp', rfl⟩ := build_eq_ok_iff.mp h'
  obtain rfl : p' = p := Except.ok.inj (hp'.symm.trans hp)
  rfl

theorem branches_replicate_one (wired : m.Wired g) : m.Branches (List.replicate m.heads 1) where
  count := List.length_replicate
  range k hk := by
    obtain rfl := List.eq_of_mem_replicate hk
    exact ⟨Nat.zero_lt_one, wired.positive.vocab⟩

/-- **The branching list does not change what is reported**, whether the policy gives it or it is
set afterwards: a run that does not fail has the same outcome for all lists, among them the one with
a single candidate for every head. -/
theorem forward_eq_ok_iff_greedy (lawful : read.Lawful) (hword : c.vocabSize < UInt32.size)
    (h : build c policy read g = .ok m)
    (h' : build c { policy with branching? := list? } read g = .ok m')
    (branches : m.Branches ks) (branches' : m.Branches ks') (hidden tokens : AnyTensor)
    (t : Tensor Float32) :
    AnyModel.forward ⟨d, m.withBranching ks⟩ hidden tokens = .ok t ↔
      AnyModel.forward ⟨d, m'.withBranching ks'⟩ hidden tokens = .ok t ∧
      AnyModel.forward ⟨d, m.withBranching (List.replicate m.heads 1)⟩ hidden tokens = .ok t ∧
      ∃ batch, hidden.shape = [batch, c.embDim] ∧
        t.shape = [batch, policy.headCount c, c.vocabSize] := by
  have hsizes := sizes_of_build h
  have wired : m.Wired m.group := (group_of_build h).symm ▸ build_wired lawful h
  have hvocab : m.sizes.vocab < wordCount := by
    rw [hsizes]
    exact lt_of_lt_of_le hword (by decide)
  rw [withBranching_eq_of_build h h']
  simp only [forward_eq_ok_iff]
  constructor
  · rintro ⟨tr, htr, rfl⟩
    obtain ⟨⟨batch, hstates, hshape⟩, hother⟩ :=
      exists_any_allProbs_eq wired hvocab branches' htr
    obtain ⟨-, hones⟩ := exists_any_allProbs_eq wired hvocab (branches_replicate_one wired) htr
    rw [hsizes] at hstates
    rw [hsizes, heads_of_build h] at hshape
    exact ⟨hother, hones, batch, hstates, hshape⟩
  · rintro ⟨⟨tr, htr, rfl⟩, -⟩
    exact (exists_any_allProbs_eq wired hvocab branches htr).2

/-- A configuration with two heads and four tokens. -/
def smallConfig : Config := ⟨4, 3, 2, 2, false, true, []⟩

theorem exists_build_zeros (d : DType) (list? : Option (List Nat))
    (h : checkPlan smallConfig 2 list? = .ok ()) :
    ∃ m, build smallConfig ⟨none, list?, 0, (0 : Float)⟩ (Weights.zeros.reader d) .single =
      .ok m := by
  have hbytes : 2 * Parameters.slotSize ≤ maxBytes := by decide
  refine exists_build_iff.mpr ⟨h, hbytes, fun slot hslot => ?_⟩
  have hslot : slot = ⟨0, 0, 0, 0⟩ ∨ slot = ⟨1, 1, 1, 1⟩ := List.mem_pair.mp hslot
  rcases hslot with rfl | rfl <;> cases d <;>
    exact ⟨⟨.whole _ _, .whole _, .whole _, ⟨some (_, _), _⟩⟩, rfl, rfl, rfl, rfl⟩

/-- Two lists for two heads, one of them set afterwards. -/
theorem forward_eq_ok_iff_greedy_two : ∃ m m' : Model Float32 Float,
    build smallConfig ⟨none, none, 0, 0⟩ (Weights.zeros.reader .f32) .single = .ok m ∧
    build smallConfig ⟨none, some [3, 2], 0, 0⟩ (Weights.zeros.reader .f32) .single = .ok m' ∧
    ∃ t, AnyModel.forward ⟨.f32, m.withBranching [1, 4]⟩ ⟨.f32, Tensor.fill [2, 3] 1⟩
        ⟨.u32, Tensor.ofList [1, 3]⟩ = .ok t ∧
      AnyModel.forward ⟨.f32, m'.withBranching [3, 2]⟩ ⟨.f32, Tensor.fill [2, 3] 1⟩
        ⟨.u32, Tensor.ofList [1, 3]⟩ = .ok t := by
  obtain ⟨m, hm⟩ := exists_build_zeros .f32 none rfl
  obtain ⟨m', hm'⟩ := exists_build_zeros .f32 (some [3, 2]) rfl
  have lawful := Weights.zeros.reader_lawful .f32
  have branches : m.Branches [1, 4] := (branches_of_build hm).mpr (by decide)
  have branches' : m.Branches [3, 2] := (branches_of_build hm).mpr (by decide)
  have wired := build_wired lawful hm
  have hsizes := sizes_of_build hm
  have inputs : Inputs m.sizes 2 (Tensor.fill [2, 3] (1 : Float32)).shape
      ⟨.u32, Tensor.ofList [1, 3]⟩ (Tensor.ofList [1, 3]) := by
    rw [hsizes]
    exact ⟨by decide, rfl, rfl, rfl, by decide⟩
  obtain ⟨tr, htr, -⟩ := simulate_trace_greedy rfl (Or.inl rfl) (by rw [hsizes]; decide) wired
    (inputs.ready branches) (by decide) fun _ _ t ht => Embedding.takes_of_lt (inputs.token_lt t ht)
  have hforward : AnyModel.forward ⟨.f32, m.withBranching [1, 4]⟩ ⟨.f32, Tensor.fill [2, 3] 1⟩
      ⟨.u32, Tensor.ofList [1, 3]⟩ = .ok tr.allProbs :=
    forward_eq_ok_iff.mpr ⟨tr, (trace_eq_simulate hm _ _ _).trans htr, rfl⟩
  exact ⟨m, m', hm, hm', tr.allProbs, hforward, ((forward_eq_ok_iff_greedy lawful (by decide) hm hm'
    branches branches' _ _ _).mp hforward).1⟩

end Any

end Model

end DraftHeads
