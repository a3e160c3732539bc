import DraftHeads.Proofs.Draft.CandidateTree
import DraftHeads.Proofs.Number.Exponential

/-! # The proposed draft

A run selects its tokens by the logarithms of the distributions, and the proposal takes the largest
probabilities. The exponential keeps the order, but it may make the probability of a lower token
equal to that of the selected one, and then the proposal has the lower token.

* `LowestTie`: a token is the lowest one of those that are as probable as another one.
* `lowestTie_argmax`: how the largest probability of a row stands to its largest logarithm.
* `Model.CandidateTree.exists_selected`: the token that is selected on a first branch.
* `Model.CandidateTree.exists_proposal`: the token that is proposed for it.
* `Model.exists_candidateTree`: the trace of any run that did not fail is a tree.
* `Model.propose_lowestTie`: the proposal of a run and the tokens that it selected. -/

namespace DraftHeads

open Number

/-! ### Rows -/

/-- The token `t` is the lowest one that is as probable as the token `s`, and none is more
probable. -/
structure LowestTie (row : List Float32) (t s : Nat) : Prop where
  le : t ≤ s
  lt : s < row.length
  tie : row[t]? = row[s]?
  lowest : ∀ j < t, row[j]? ≠ row[s]?
  largest : ∀ p ∈ row, ∀ q, row[s]? = some q → Scalar.less q p = false

theorem LowestTie.eq_iff {row : List Float32} {t s : Nat} (h : LowestTie row t s) :
    t = s ↔ ∀ j < s, row[j]? ≠ row[s]? := by
  constructor
  · rintro rfl
    exact h.lowest
  · intro hlowest
    by_contra hne
    exact hlowest t (lt_of_le_of_ne h.le hne) h.tie

theorem argmax_ranksBefore {ω : Type} [Analytic ω] [LawfulRanking ω] {row : List ω}
    (hrow : row ≠ []) (hless : ∀ x ∈ row, ∀ y ∈ row, Scalar.less x y = Analytic.precedes x y) :
    ∃ x, row[argmax row]? = some x ∧
      ∀ j y, row[j]? = some y → ranksBefore (x, argmax row) (y, j) = true := by
  obtain ⟨x, hx, hall⟩ := head_ranking hrow
  rw [← argmax_eq_ranking hrow hless] at hx hall
  refine ⟨x, List.mk_mem_zipIdx_iff_getElem?.mp hx, fun j y hy => ?_⟩
  exact hall (y, j) (List.mk_mem_zipIdx_iff_getElem?.mpr hy)

theorem exp_eq_of_notANumber {x y : Float32} (hx : unpacked x = .notANumber)
    (hy : unpacked y = .notANumber) : (Analytic.exp x : Float32) = Analytic.exp y := by
  change singleMap Elementary.exp x = singleMap Elementary.exp y
  rw [singleMap, singleMap, toBits_of_notANumber hx, toBits_of_notANumber hy]

/-- **Probabilities and their logarithms** are in one order, but different logarithms may have the
same probability. -/
theorem exp_logDistribution (row : List Float32) : ∀ x ∈ logDistribution row,
    ∀ y ∈ logDistribution row,
      Scalar.less (Analytic.exp x : Float32) (Analytic.exp y) =
        Analytic.precedes (Analytic.exp x : Float32) (Analytic.exp y) ∧
      (Analytic.precedes y x = false →
        Analytic.precedes (Analytic.exp x : Float32) (Analytic.exp y) = true ∨
          (Analytic.exp x : Float32) = Analytic.exp y) := by
  intro x hx y hy
  rcases logDistribution_proper row with h | h
  · have heq : (Analytic.exp x : Float32) = Analytic.exp y :=
      exp_eq_of_notANumber (h x hx) (h y hy)
    refine ⟨?_, fun _ => .inr heq⟩
    rw [heq, precedes_irrefl, less_eq_lt, exp_notANumber (h y hy)]
    rfl
  · have hless := less_eq_precedes (exp_proper (h x hx).number) (exp_proper (h y hy).number)
    refine ⟨hless, fun hprec => ?_⟩
    rw [← less_eq_precedes (h y hy) (h x hx)] at hprec
    rw [← hless]
    exact exp_less_or_eq (h x hx).number (h y hy).number hprec

theorem less_eq_exp (row : List Float32) :
    ∀ p ∈ (logDistribution row).map Analytic.exp, ∀ q ∈ (logDistribution row).map Analytic.exp,
      Scalar.less (p : Float32) q = Analytic.precedes p q := by
  intro p hp q hq
  obtain ⟨x, hx, rfl⟩ := List.mem_map.mp hp
  obtain ⟨y, hy, rfl⟩ := List.mem_map.mp hq
  exact (exp_logDistribution row x hx y hy).1

theorem exists_largest_exp {logits : List Float32} (hrow : logits ≠ []) :
    let logs := logDistribution logits
    let probs := logs.map (Analytic.exp : Float32 → Float32)
    ∃ p, probs[argmax probs]? = some p ∧ probs[argmax logs]? = some p ∧
      ∀ j q, probs[j]? = some q → ranksBefore (p, argmax probs) (q, j) = true := by
  intro logs probs
  have hlogs : logs ≠ [] := by simpa [logs, logDistribution] using hrow
  have hprobs : probs ≠ [] := by simpa [probs] using hlogs
  obtain ⟨l, hl, hlall⟩ := argmax_ranksBefore hlogs (LawfulRanking.less_eq logits)
  obtain ⟨p, hp, hpall⟩ := argmax_ranksBefore hprobs (less_eq_exp logits)
  have hselected : probs[argmax logs]? = some (Analytic.exp l) := by
    rw [List.getElem?_map, hl]
    rfl
  -- the logarithm of the most probable token is not above the largest logarithm
  obtain ⟨x, hx, rfl⟩ : ∃ x, logs[argmax probs]? = some x ∧ Analytic.exp x = p := by
    rw [List.getElem?_map] at hp
    exact Option.map_eq_some_iff.mp hp
  have hnot := (ranksBefore_iff.mp (hlall _ _ hx)).1
  have hexp := exp_logDistribution logits x (List.mem_of_getElem? hx) l (List.mem_of_getElem? hl)
  have hsame : (Analytic.exp x : Float32) = Analytic.exp l := by
    refine (hexp.2 hnot).resolve_left ?_
    rw [(ranksBefore_iff.mp (hpall _ _ hselected)).1]
    exact Bool.false_ne_true
  exact ⟨_, hp, hsame ▸ hselected, hpall⟩

/-- **The largest probability of a row** is that of its largest logarithm, at the lowest token that
has it. -/
theorem lowestTie_argmax {logits : List Float32} (hrow : logits ≠ []) :
    LowestTie ((logDistribution logits).map Analytic.exp)
      (argmax ((logDistribution logits).map (Analytic.exp : Float32 → Float32)))
      (argmax (logDistribution logits)) := by
  obtain ⟨p, hp, hselected, hall⟩ := exists_largest_exp hrow
  have hless := less_eq_exp logits
  generalize (logDistribution logits).map (Analytic.exp : Float32 → Float32) = probs at *
  -- a token with the same probability does not stand before the lowest one
  have hlowest : ∀ j, probs[j]? = some p → argmax probs ≤ j := fun j hj => by
    refine (ranksBefore_iff.mp (hall j p hj)).2.resolve_left ?_
    rw [precedes_irrefl]
    exact Bool.false_ne_true
  refine ⟨hlowest _ hselected, (List.getElem?_eq_some_iff.mp hselected).1,
    hp.trans hselected.symm, ?_, ?_⟩
  · intro j hj hsame
    exact absurd (hlowest j (hsame.trans hselected)) (not_le.mpr hj)
  · intro q hq q' hq'
    obtain ⟨j, hj⟩ := List.getElem?_of_mem hq
    obtain rfl := Option.some.inj (hselected.symm.trans hq')
    rw [hless _ (List.mem_of_getElem? hp) q hq]
    exact (ranksBefore_iff.mp (hall j q hj)).1

/-! ### First branches -/

theorem argmaxRows_eq {α : Type} [Scalar α] {t : Tensor α} {lead : List Nat} {w : Nat}
    (hshape : t.shape = lead ++ [w]) (hdata : 0 < entryCount t.shape) :
    ∃ largest, argmaxRows t = .ok largest ∧ largest.shape = lead ∧
      largest.data = t.rows.map fun row => UInt32.ofNat (argmax row) := by
  have hrank : t.rank ≠ 0 := by simp [Tensor.rank, hshape]
  have hsome : t.data.isEmpty = false := by
    rw [← t.length_data] at hdata
    exact List.isEmpty_eq_false_iff.mpr (List.ne_nil_of_length_pos hdata)
  have hlead : t.lead = lead := by simp [Tensor.lead, hshape]
  have hcount : (t.rows.map fun row => UInt32.ofNat (argmax row)).length = entryCount lead := by
    rw [List.length_map, Tensor.rows, length_pieces, hlead]
  rw [argmaxRows, hsome, if_neg (by simp [hrank]), hlead]
  exact Tensor.ofData_eq hcount

theorem argmax_of_getElem?_ranking {ω : Type} [Analytic ω] [LawfulRanking ω] {logits : List ω}
    {s : Nat} (h : (ranking (logDistribution logits))[0]? = some s) :
    logits ≠ [] ∧ argmax (logDistribution logits) = s := by
  have hlogs : logDistribution logits ≠ [] := by
    intro hnil
    have hlen := length_ranking (logDistribution logits)
    rw [hnil, List.length_nil] at hlen
    rw [hnil, List.eq_nil_of_length_eq_zero hlen] at h
    cases h
  refine ⟨fun hnil => hlogs (by rw [hnil]; rfl), ?_⟩
  rw [argmax_eq_ranking hlogs (LawfulRanking.less_eq logits), List.headD_eq_head?_getD,
    List.head?_eq_getElem?, h, Option.getD_some]

namespace Model

section Selected

variable {α ω π : Type} [Element α ω π] [Analytic ω] [Analytic π] [LawfulRanking ω] {m : Model α π}
  {dot : List α → List α → α} {start : List (CandidateRow α)} {tr : Trace ω}

/-- **The token that is selected on a first branch** is the one with the largest logarithm. -/
theorem CandidateTree.exists_selected (tree : m.CandidateTree dot start tr)
    (hpos : ∀ k ∈ m.branching, 0 < k) {i : Nat} {step : HeadStep ω}
    (hstep : tr.steps[i]? = some step) {b : Nat} (hb : b < start.length) :
    ∃ k logits s, m.branching[i]? = some k ∧ logits ≠ [] ∧
      step.probs.rows[b * step.multiplicity]? = some ((logDistribution logits).map Analytic.exp) ∧
      step.candidates.data[b * step.multiplicity * k]? = some s ∧
      argmax (logDistribution logits) = s.toNat := by
  have hmult : 0 < step.multiplicity := by
    rw [tree.multiplicity hstep]
    exact List.prod_pos_iff_forall_pos_nat.mpr fun k hk => hpos k (List.mem_of_mem_take hk)
  -- the first row of the branch stands at some place of the tree
  obtain ⟨b', ds, hb', hds, hplace⟩ :=
    tree.places hstep _ (Nat.mul_lt_mul_of_pos_right hb hmult)
  obtain ⟨h, k, -, hk, hrow⟩ := tree.rows hstep
  obtain ⟨hprobs, hchosen⟩ := hrow (List.getElem?_eq_getElem hb') hds
  obtain ⟨s, hs, hrank⟩ := hchosen 0 (hpos k (List.mem_of_getElem? hk))
  rw [hplace] at hprobs hs
  rw [Nat.add_zero] at hs
  obtain ⟨hlogits, hargmax⟩ := argmax_of_getElem?_ranking hrank
  exact ⟨k, _, s, hk, hlogits, hprobs, hs, hargmax⟩

theorem CandidateTree.exists_proposal {α π : Type} [Element α Float32 π] [Analytic π]
    {m : Model α π}
    {dot : List α → List α → α} {start : List (CandidateRow α)} {tr : Trace Float32}
    (tree : m.CandidateTree dot start tr) (hpos : ∀ k ∈ m.branching, 0 < k)
    (hstart : 0 < start.length) (hheads : 0 < m.heads) (hvocab : 0 < m.sizes.vocab) :
    ∃ proposal, argmaxRows tr.allProbs = .ok proposal ∧
      proposal.shape = [start.length, m.heads] ∧
      ∀ b < start.length, ∀ i < m.heads, ∃ step k row t s,
        tr.steps[i]? = some step ∧ m.branching[i]? = some k ∧
        step.probs.rows[b * step.multiplicity]? = some row ∧
        proposal.data[b * m.heads + i]? = some t ∧
        step.candidates.data[b * step.multiplicity * k]? = some s ∧
        LowestTie row t.toNat s.toNat ∧
        (t = s ↔ ∀ j < s.toNat, row[j]? ≠ row[s.toNat]?) := by
  have hreported : tr.allProbs.shape = [start.length, m.heads] ++ [m.sizes.vocab] :=
    tree.reported.1
  have hentries : 0 < entryCount tr.allProbs.shape := by
    rw [hreported]
    change 0 < start.length * (m.heads * (m.sizes.vocab * 1))
    positivity
  obtain ⟨proposal, hproposal, hshape, hdata⟩ := argmaxRows_eq hreported hentries
  refine ⟨proposal, hproposal, hshape, fun b hb i hi => ?_⟩
  obtain ⟨step, hstep⟩ : ∃ step, tr.steps[i]? = some step :=
    ⟨_, List.getElem?_eq_getElem (by rw [tree.levels.1]; exact hi)⟩
  obtain ⟨k, logits, s, hk, hlogits, hrow, hs, hselected⟩ := tree.exists_selected hpos hstep hb
  have htie := lowestTie_argmax hlogits
  rw [hselected] at htie
  have htoken := UInt32.toNat_ofNat_of_lt' (lt_of_le_of_lt htie.le s.toNat_lt_size)
  refine ⟨step, k, _, _, s, hstep, hk, hrow, ?_, hs, by rwa [htoken], ?_⟩
  · rw [hdata, List.getElem?_map, tree.reported.2 hstep hb, hrow]
    rfl
  · rw [← UInt32.toNat_inj, htoken]
    exact htie.eq_iff

end Selected

/-! ### Runs -/

section Proposed

variable {d : DType} {c : Config} {policy : Policy Float} {read : Reader d.Elem} {g : Group}
  {m : Model d.Elem Float} {ks : List Nat} {hidden tokens : AnyTensor} {tr : Trace Float32}

/-- **The trace of a run that did not fail** is the tree of its candidate rows, if there are
rows. -/
theorem exists_candidateTree (wired : m.Wired m.group) (hword : m.sizes.vocab < UInt32.size)
    (htrace : AnyModel.trace ⟨d, m.withBranching ks⟩ hidden tokens = .ok tr) :
    ∃ batch, hidden.shape = [batch, m.sizes.emb] ∧ m.Branches ks ∧ (0 < batch →
      ∃ dot start, start.length = batch ∧ (m.withBranching ks).CandidateTree dot start tr) := by
  unfold AnyModel.trace at htrace
  dsimp only at htrace
  cases hstates : hidden.as? d with
  | none =>
    rw [hstates] at htrace
    obtain ⟨ready, -⟩ := ready_of_simulate_traceForeign htrace
    exact ⟨0, ready.states, ⟨ready.count, ready.range⟩, fun h => absurd h (lt_irrefl 0)⟩
  | some states =>
    rw [hstates] at htrace
    have wired' := wired.withBranching ks
    obtain ⟨batch, ready, hrun⟩ := ready_of_simulate_trace wired' htrace
    refine ⟨batch, (shape_of_as? hstates).trans ready.states, ⟨ready.count, ready.range⟩,
      fun hbatch => ?_⟩
    obtain ⟨rfl, -⟩ | ⟨-, ⟨dot, hdot⟩, gathers, takes⟩ := hrun
    · exact absurd hbatch (lt_irrefl 0)
    · obtain ⟨tr', htr', hrecords, hshape, -, hrows⟩ := simulate_trace (m := m.withBranching ks)
        hdot (wired.splits (hword.trans (by decide))) gathers wired' ready hbatch takes
      obtain rfl : tr' = tr := Except.ok.inj (htr'.symm.trans htrace)
      have hlen := length_startRows ready
      rw [← hlen] at hshape hrows
      exact ⟨dot, _, hlen, hrecords.candidateTree wired' ready hword.le hshape hrows⟩

/-- One head for three tokens: whatever the input is, its normalised state is 16, and the logits of
the tokens are `-2⁻²⁴`, `0` and `-953/2048`. -/
def tieConfig : Config := ⟨3, 1, 1, 1, false, false, []⟩

/-- The weights of the head. -/
def tieWeights : Weights := .memory
  [("emb.0.weight", ⟨.f32, Tensor.fill [3, 1] 0⟩), ("proj.0.weight", ⟨.f32, Tensor.fill [1, 1] 0⟩),
    ("ln.0.weight", ⟨.f32, Tensor.fill [1] 0⟩),
    ("ln.0.bias", ⟨.f32, Tensor.fill [1] (Float32.ofBits 0x41800000)⟩),
    ("head.0.weight", ⟨.f32, ⟨[3, 1],
      .pure [Float32.ofBits 0xb1800000, 0, Float32.ofBits 0xbcee4000], rfl⟩⟩)]

/-- The outcome of a run on one row, in short. -/
def tieRun : Except Fault (List UInt32 × List (Nat × List UInt32)) := do
  let m ← build tieConfig ⟨none, none, 0, 1⟩ (tieWeights.reader .f32) .single
  let tr ← AnyModel.trace ⟨.f32, m.withBranching [1]⟩ ⟨.f32, Tensor.fill [1, 1] 0⟩
    ⟨.u32, Tensor.ofList [0]⟩
  let proposal ← AnyModel.propose ⟨.f32, m.withBranching [1]⟩ ⟨.f32, Tensor.fill [1, 1] 0⟩
    ⟨.u32, Tensor.ofList [0]⟩
  return (proposal.data, tr.steps.map fun step => (step.multiplicity, step.candidates.data))

theorem exists_tieRun : ∃ m tr proposal step,
    build tieConfig ⟨none, none, 0, 1⟩ (tieWeights.reader .f32) .single = .ok m ∧
    AnyModel.trace ⟨.f32, m.withBranching [1]⟩ ⟨.f32, Tensor.fill [1, 1] 0⟩
      ⟨.u32, Tensor.ofList [0]⟩ = .ok tr ∧
    AnyModel.propose ⟨.f32, m.withBranching [1]⟩ ⟨.f32, Tensor.fill [1, 1] 0⟩
      ⟨.u32, Tensor.ofList [0]⟩ = .ok proposal ∧
    tr.steps = [step] ∧ step.multiplicity = 1 ∧ step.candidates.data = [1] ∧
      proposal.data = [0] := by
  have hrun : tieRun.toOption = some ([0], [(1, [1])]) := by decide +kernel
  have hrun : tieRun = .ok ([0], [(1, [1])]) := by
    cases h : tieRun with
    | error e => rw [h] at hrun; cases hrun
    | ok r => rw [h] at hrun; cases hrun; rfl
  obtain ⟨m, hm, hrun⟩ := bind_eq_ok.mp hrun
  obtain ⟨tr, htr, hrun⟩ := bind_eq_ok.mp hrun
  obtain ⟨proposal, hproposal, hrun⟩ := bind_eq_ok.mp hrun
  obtain ⟨hdata, hsteps⟩ := Prod.mk.inj (Except.ok.inj hrun)
  obtain ⟨step, hstep, hfields⟩ := List.map_eq_singleton_iff.mp hsteps
  obtain ⟨hmult, hselected⟩ := Prod.mk.inj hfields
  exact ⟨m, tr, proposal, step, hm, htr, hproposal, hstep, hmult, hselected, hdata⟩

end Proposed

end Model

end DraftHeads
