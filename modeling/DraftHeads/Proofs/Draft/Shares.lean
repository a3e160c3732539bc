import DraftHeads.Proofs.Draft.Run
import DraftHeads.Proofs.Number.Real

/-! # Models in shares

The workers of a group that hold the shares of a model do in lockstep what one worker does that has
the whole model, if numbers are exact.

* `Parameters.SharedBy`: the whole parameters of a model and the shares of the workers;
  `build_shared`: if one worker can build a model, every worker of a group can build its share.
* `allYield_headOutput`, `allYield_runHead`, `allYield_runHeads`, `allYield_trace`: the workers
  agree after every head, so they choose the same tokens for the next one. -/

namespace DraftHeads

variable {α ω π : Type} {n : Nat}

namespace Parameters

/-- The parameters of a head and the shares of the workers; each worker has the whole normaliser. -/
structure Single.SharedBy (sizes : Sizes) (head : Nat) (s : Single α π) (ss : Fin n → Single α π) :
    Prop where
  embedding : s.embedding.SharedBy sizes.vocab sizes.inner fun r => (ss r).embedding
  stateProjection :
    s.stateProjection.SharedBy (inputWidth sizes head) sizes.inner fun r => (ss r).stateProjection
  outputProjection :
    s.outputProjection.SharedBy sizes.inner sizes.vocab fun r => (ss r).outputProjection
  norm : ∀ r, (ss r).norm = s.norm

/-- The slots of the heads from some place on select parameters and their shares. -/
def SharedFrom (sizes : Sizes) (p : Parameters α π) (ps : Fin n → Parameters α π) (head : Nat)
    (slots : List Slot) : Prop :=
  ∀ (i : Nat) (slot : Slot), slots[i]? = some slot → ∃ (s : Single α π) (ss : Fin n → Single α π),
    p.single? slot = some s ∧ (∀ r, (ps r).single? slot = some (ss r)) ∧
      s.SharedBy sizes (head + i) ss

theorem SharedFrom.first {sizes : Sizes} {p : Parameters α π} {ps : Fin n → Parameters α π}
    {head : Nat} {slot : Slot} {slots : List Slot}
    (h : SharedFrom sizes p ps head (slot :: slots)) : ∃ (s : Single α π) (ss : Fin n → Single α π),
      p.single? slot = some s ∧ (∀ r, (ps r).single? slot = some (ss r)) ∧
        s.SharedBy sizes head ss :=
  h 0 slot rfl

theorem SharedFrom.rest {sizes : Sizes} {p : Parameters α π} {ps : Fin n → Parameters α π}
    {head : Nat} {slot : Slot} {slots : List Slot}
    (h : SharedFrom sizes p ps head (slot :: slots)) : SharedFrom sizes p ps (head + 1) slots :=
  fun i s hs => by
    have := h (i + 1) s hs
    rwa [← Nat.add_assoc, Nat.add_right_comm] at this

/-- The parameters of all heads and the shares of the workers. -/
structure SharedBy (sizes : Sizes) (p : Parameters α π) (ps : Fin n → Parameters α π) : Prop where
  slots : ∀ r, (ps r).slots = p.slots
  singles : SharedFrom sizes p ps 0 p.slots

/-- **Parameters of a head that one worker can read whole** the workers of a group can read in
shares. -/
theorem Loaded.exists_shared {sizes : Sizes} {eps : π} {read : Reader α} {slot : Slot}
    {s : Single α π} (h : Loaded sizes eps read .single slot s) (lawful : read.Lawful) (hn : 1 < n)
    (hinner : n ∣ sizes.inner) (hvocab : n ∣ sizes.vocab) (hword : sizes.vocab < wordCount)
    {head : Nat} (hwidth : inputWidth sizes slot.stateProjection = inputWidth sizes head) :
    ∃ ss : Fin n → Single α π, s.SharedBy sizes head ss ∧
      ∀ r, Loaded sizes eps read (.worker r) slot (ss r) := by
  obtain ⟨embeddings, hembedding, hes⟩ := Embedding.load_shared hn hvocab hword
    ((lawful.below _).below _) h.embedding
  obtain ⟨projections, hprojection, hps⟩ := Projection.load_shared hn hinner
    ((lawful.below _).below _) h.stateProjection
  obtain ⟨outputs, houtput, hos⟩ := Projection.load_shared hn hvocab
    ((lawful.below _).below _) h.outputProjection
  exact ⟨fun r => ⟨embeddings r, projections r, outputs r, s.norm⟩,
    ⟨hembedding, hwidth ▸ hprojection, houtput, fun _ => rfl⟩,
    fun r => ⟨hes r, hps r, hos r, h.norm⟩⟩

theorem load_shared {tied : Bool} {heads : Nat} (hheads : 0 < heads) {sizes : Sizes} {eps : π}
    {read : Reader α} (lawful : read.Lawful) (hn : 1 < n) (hinner : n ∣ sizes.inner)
    (hvocab : n ∣ sizes.vocab) (hword : sizes.vocab < wordCount) {p : Parameters α π}
    (h : load tied heads sizes eps read .single = .ok p) :
    ∃ ps : Fin n → Parameters α π, p.SharedBy sizes ps ∧
      ∀ r, load tied heads sizes eps read (.worker r) = .ok (ps r) := by
  obtain ⟨hslots, hall⟩ := load_ok h
  have hworkers : ∀ r : Fin n, ∃ q : Parameters α π,
      load tied heads sizes eps read (.worker r) = .ok q := fun r => by
    refine exists_load hheads (slots_le_of_load h) fun slot hslot => ?_
    obtain ⟨s, hs, -⟩ := hall slot (hslots ▸ hslot)
    obtain ⟨ss, -, hss⟩ := hs.exists_shared lawful hn hinner hvocab hword rfl
    exact ⟨ss r, hss r⟩
  choose ps hps using hworkers
  refine ⟨ps, ⟨fun r => (load_ok (hps r)).1.trans hslots.symm, fun i slot hslot => ?_⟩, hps⟩
  have hmem := List.mem_of_getElem? hslot
  obtain ⟨s, hs, hsingle⟩ := hall slot hmem
  obtain ⟨ss, hshared, hss⟩ := hs.exists_shared lawful hn hinner hvocab hword
    (inputWidth_slotsOf (hslots ▸ hslot))
  refine ⟨s, ss, hsingle, fun r => ?_, by rwa [Nat.zero_add]⟩
  obtain ⟨hslots', hall'⟩ := load_ok (hps r)
  obtain ⟨s', hs', hsingle'⟩ := hall' slot (by rw [hslots', ← hslots]; exact hmem)
  rw [hsingle', hs'.unique (hss r)]

end Parameters

namespace Model

/-- The model with a worker's parameters. -/
def share (m : Model α π) (ps : Fin n → Parameters α π) (r : Fin n) : Model α π :=
  { m with parameters := ps r, group := .worker r }

/-- **If one worker can build a model**, every worker of a group can build its share, provided that
the group divides the sizes that are shared. -/
theorem build_shared [Analytic π] {c : Config} {policy : Policy π} {read : Reader α}
    (lawful : read.Lawful) (hn : 1 < n) (hinner : n ∣ c.innerDim) (hvocab : n ∣ c.vocabSize)
    (hword : c.vocabSize < wordCount) {m : Model α π} (h : build c policy read .single = .ok m) :
    ∃ ps : Fin n → Parameters α π, m.parameters.SharedBy m.sizes ps ∧
      ∀ r, build c policy read (.worker r) = .ok (m.share ps r) := by
  obtain ⟨hplan, hbytes, p, hp, rfl⟩ := build_eq_ok_iff.mp h
  obtain ⟨ps, hshared, hps⟩ := Parameters.load_shared (checkPlan_ok hplan).1 lawful hn hinner hvocab
    hword hp
  exact ⟨ps, hshared, fun r => build_eq_ok_iff.mpr ⟨hplan, hbytes, ps r, hps r, rfl⟩⟩

section Run

theorem allYield_layerStep [Add α] {β : Type} {programs : Fin n → Collective α LayerFault β} {y : β}
    (h : Collective.AllYield programs y) :
    Collective.AllYield (fun r => layerStep (programs r)) y :=
  h.mapFault Fault.layer

theorem allYield_tensorStep [Add α] {β : Type} {r : Except TensorFault β} {y : β} (h : r = .ok y) :
    Collective.AllYield (fun _ : Fin n => (tensorStep r : Collective α Fault β)) y :=
  .ofExcept (by rw [h]; rfl)

variable [Element α ω π] [Analytic ω] [Analytic π] [ExactScalar α] {m : Model α π}
  {ps : Fin n → Parameters α π}
  {dot : List α → List α → α} {batch head : Nat} {slot : Slot}

/-- **The workers agree after a head** on its states and its logits. -/
theorem allYield_headOutput (hdot : (Element.dot? : Option (List α → List α → α)) = some dot)
    (hn : 1 < n) (positive : Positive m.sizes) (hword : m.sizes.vocab < wordCount)
    {s : Parameters.Single α π} {ss : Fin n → Parameters.Single α π}
    (hslot : m.parameters.single? slot = some s) (hslots : ∀ r, (ps r).single? slot = some (ss r))
    (shared : s.SharedBy m.sizes head ss) (fits : s.Fits .single m.sizes head) {state : Tensor α}
    {tokens : Tensor UInt32} {rows : List (CandidateRow α)}
    (hstate : state.IsMatrix (Parameters.inputWidth m.sizes head) (rows.map Prod.fst))
    (hshape : tokens.shape = [rows.length]) (hdata : tokens.data = rows.map Prod.snd)
    (hlt : ∀ x ∈ rows, x.2.toNat < m.sizes.vocab) {out : Tensor α × Tensor α}
    (hout : (m.headOutput slot state tokens).simulate .single = .ok out) :
    Collective.AllYield (fun r => (m.share ps r).headOutput slot state tokens) out := by
  have hdivides : Group.single.Splits m.sizes.vocab := ⟨positive.vocab, hword, Nat.one_dvd _⟩
  obtain ⟨next, logits, hrun, hnext, -⟩ := simulate_headOutput hdot positive hdivides (Or.inl rfl)
    hslot fits hstate hshape hdata fun x hx => Embedding.takes_of_lt (hlt x hx)
  obtain rfl : (next, logits) = out := Except.ok.inj (hrun.symm.trans hout)
  rw [headOutput_of_single? hslot, hdot] at hout
  obtain ⟨z, hz, hout⟩ := Collective.simulate_bind_eq_ok.mp hout
  obtain ⟨projected, hp, hout⟩ := Collective.simulate_bind_eq_ok.mp hout
  obtain ⟨mixed, hmixed, hout⟩ := Collective.simulate_bind_eq_ok.mp hout
  obtain ⟨normed, hnormed, hout⟩ := Collective.simulate_bind_eq_ok.mp hout
  obtain ⟨logits', hlogits, hout⟩ := Collective.simulate_bind_eq_ok.mp hout
  obtain ⟨rfl, rfl⟩ := Prod.mk.inj (Except.ok.inj hout)
  have htokens : ∀ t ∈ tokens.data, t.toNat < m.sizes.vocab := fun t ht => by
    rw [hdata] at ht
    obtain ⟨x, hx, rfl⟩ := List.mem_map.mp ht
    exact hlt x hx
  have hprogram : ∀ r, (m.share ps r).headOutput slot state tokens = _ := fun r =>
    headOutput_of_single? (hslots r) state tokens
  simp only [hprogram, hdot, shared.norm]
  refine .bind (allYield_layerStep (shared.embedding.allYield hn positive.vocab hword hshape htokens
    (simulate_layerStep.mp hz))) ?_
  refine .bind (allYield_layerStep (shared.stateProjection.allYield hn hstate
    (positive.inputWidth head) (simulate_layerStep.mp hp))) ?_
  refine .bind (allYield_tensorStep (simulate_tensorStep.mp hmixed)) ?_
  refine .bind (allYield_tensorStep (simulate_tensorStep.mp hnormed)) ?_
  exact .bind (allYield_layerStep (shared.outputProjection.allYield hn hnext positive.inner
    (simulate_layerStep.mp hlogits))) (.done _)

theorem allYield_runHead (hdot : (Element.dot? : Option (List α → List α → α)) = some dot)
    (hn : 1 < n) (positive : Positive m.sizes) (hword : m.sizes.vocab < wordCount) {k : Nat}
    {s : Parameters.Single α π} {ss : Fin n → Parameters.Single α π}
    (hslot : m.parameters.single? slot = some s) (hslots : ∀ r, (ps r).single? slot = some (ss r))
    (shared : s.SharedBy m.sizes head ss) (fits : s.Fits .single m.sizes head)
    {c : CandidateRows α} {rows : List (CandidateRow α)}
    (holds : c.Holds batch (Parameters.inputWidth m.sizes head) rows)
    (hlt : ∀ x ∈ rows, x.2.toNat < m.sizes.vocab) {out : HeadStep ω × CandidateRows α}
    (hout : (m.runHead batch head slot k c).simulate .single = .ok out) :
    Collective.AllYield (fun r => (m.share ps r).runHead batch head slot k c) out := by
  unfold runHead at hout ⊢
  dsimp only at hout ⊢
  split_ifs at hout ⊢
  · cases hout
  · obtain ⟨⟨next, logits⟩, hhead, hout⟩ := Collective.simulate_bind_eq_ok.mp hout
    obtain ⟨logs, hlogs, hout⟩ := Collective.simulate_bind_eq_ok.mp hout
    obtain ⟨candidates, hcandidates, hout⟩ := Collective.simulate_bind_eq_ok.mp hout
    obtain ⟨state, hstate, hout⟩ := Collective.simulate_bind_eq_ok.mp hout
    obtain rfl := Except.ok.inj hout
    refine .bind (allYield_headOutput hdot hn positive hword hslot hslots shared fits holds.state
      holds.shape holds.data hlt hhead) ?_
    refine .bind (allYield_tensorStep (simulate_tensorStep.mp hlogs)) ?_
    refine .bind (allYield_tensorStep (simulate_tensorStep.mp hcandidates)) ?_
    exact .bind (allYield_tensorStep (simulate_tensorStep.mp hstate)) (.done _)

/-- **The workers agree on all heads**: they choose the same tokens after each, so they hand the
same rows to the next. -/
theorem allYield_runHeads (hdot : (Element.dot? : Option (List α → List α → α)) = some dot)
    (hn : 1 < n) (positive : Positive m.sizes) (hword : m.sizes.vocab < wordCount) :
    ∀ {plan : List (Slot × Nat)} {heads : List (Parameters.Single α π × Nat)} {head : Nat}
      {c : CandidateRows α} {rows : List (CandidateRow α)} {steps : List (HeadStep ω)},
      List.Forall₂ (fun s p => m.parameters.single? s.1 = some p.1 ∧ s.2 = p.2) plan heads →
        m.Planned .single head heads →
          m.parameters.SharedFrom m.sizes ps head (plan.map Prod.fst) →
            c.Holds batch (Parameters.inputWidth m.sizes head) rows →
              (∀ x ∈ rows, x.2.toNat < m.sizes.vocab) →
                (m.runHeads batch head plan c).simulate .single = .ok steps →
                  Collective.AllYield
                    (fun r => (m.share ps r).runHeads batch head plan c) steps := by
  intro plan heads head c rows steps hplan
  induction hplan generalizing head c rows steps with
  | nil =>
    intro planned shared holds hlt hsteps
    cases hsteps
    exact .done _
  | @cons s p plan heads hs hplan ih =>
    intro planned shared holds hlt hsteps
    obtain ⟨slot, k⟩ := s
    obtain ⟨hslot, rfl⟩ := hs
    obtain ⟨s, ss, hslot', hslots, hshared⟩ := shared.first
    obtain rfl : p.1 = s := Option.some.inj (hslot.symm.trans hslot')
    have splits : Group.single.Splits m.sizes.vocab := ⟨positive.vocab, hword, Nat.one_dvd _⟩
    obtain ⟨step, next, hrun, -, -, hnext⟩ := simulate_runHead hdot splits (Or.inl rfl) positive
      planned hslot holds fun x hx => Embedding.takes_of_lt (hlt x hx)
    rw [runHeads] at hsteps
    obtain ⟨out, hout, hsteps⟩ := Collective.simulate_bind_eq_ok.mp hsteps
    obtain rfl : (step, next) = out := Except.ok.inj (hrun.symm.trans hout)
    obtain ⟨steps, hrest, hsteps⟩ := Collective.simulate_bind_eq_ok.mp hsteps
    obtain rfl := Except.ok.inj hsteps
    have hwidth : m.sizes.inner = Parameters.inputWidth m.sizes (head + 1) := by
      simp [Parameters.inputWidth]
    have htokens : ∀ y ∈ rows.flatMap (m.children dot p), y.2.toNat < m.sizes.vocab := by
      intro y hy
      obtain ⟨x, -, hyx⟩ := List.mem_flatMap.mp hy
      exact token_lt_of_mem_children planned hyx
    have hlast := ih planned.rest shared.rest (hwidth ▸ hnext) htokens hrest
    simp only [runHeads]
    exact .bind (allYield_runHead hdot hn positive hword hslot hslots hshared planned.first.1 holds
      hlt hout) (.bind hlast (.done _))

variable {hidden : Tensor α} {tokens : AnyTensor} {tr : Trace ω}

/-- **The workers agree on the trace of a run.** -/
theorem allYield_trace (hdot : (Element.dot? : Option (List α → List α → α)) = some dot)
    (hn : 1 < n) (hword : m.sizes.vocab < wordCount) (wired : m.Wired .single)
    (shared : m.parameters.SharedBy m.sizes ps) (ready : m.Ready batch hidden.shape tokens)
    (hbatch : 0 < batch) (hlt : ∀ t ∈ (tokens.cast .u32).data, t.toNat < m.sizes.vocab)
    (htr : (m.trace hidden tokens).simulate .single = .ok tr) :
    Collective.AllYield (fun r => (m.share ps r).trace hidden tokens) tr := by
  obtain ⟨state, hm, hstart⟩ := exists_start wired ready
  have hprogram : ∀ r, (m.share ps r).trace hidden tokens = (do
      let steps ← (m.share ps r).runHeads batch 0 (m.parameters.slots.zip m.branching)
        ⟨state, tokens.cast .u32, 1⟩
      return ⟨← tensorStep (stackBranches batch m.sizes.vocab steps), steps⟩) := fun r => by
    have haccept : (m.share ps r).accept hidden.shape tokens = .ok batch :=
      (accept_eq_ok_iff (m := m)).mpr ready
    rw [trace, haccept]
    simp only [Collective.ofExcept_ok, Collective.done_bind, if_neg hbatch.ne', ← shared.slots r]
    exact hstart _
  rw [trace, accept_eq_ok_iff.mpr ready] at htr
  simp only [Collective.ofExcept_ok, Collective.done_bind, if_neg hbatch.ne'] at htr
  have htr := (congrArg (Collective.simulate .single) (hstart _)).symm.trans htr
  obtain ⟨steps, hsteps, htr⟩ := Collective.simulate_bind_eq_ok.mp htr
  obtain ⟨all, hall, htr⟩ := Collective.simulate_bind_eq_ok.mp htr
  obtain rfl := Except.ok.inj htr
  have hslots : (m.parameters.slots.zip m.branching).map Prod.fst = m.parameters.slots :=
    List.map_fst_zip (by rw [wired.count, ready.count])
  simp only [hprogram]
  refine .bind (allYield_runHeads hdot hn wired.positive hword (forall₂_zip wired.selected)
    (wired.planned ready) (hslots.symm ▸ shared.singles) (startRows_holds ready hm)
    (fun x hx => hlt x.2 (List.of_mem_zip hx).2) hsteps) ?_
  exact .bind (allYield_tensorStep (simulate_tensorStep.mp hall)) (.done _)

end Run

/-- A checkpoint in which the entries of every tensor count up from zero. -/
noncomputable def counting : Reader ℝ := fun _ shape =>
  .ok ⟨shape, .mk fun _ => (List.range (entryCount shape)).map Nat.cast,
    (List.length_map _).trans List.length_range⟩

end Model

end DraftHeads
