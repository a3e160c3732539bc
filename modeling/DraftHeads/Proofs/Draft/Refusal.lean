import DraftHeads.Proofs.Draft.Branching
import DraftHeads.Proofs.Draft.Shapes

/-! # Runs that are refused

A run fails for what is wrong with its inputs and for nothing else.

* `Refused`: what a model refuses, and the fault that it reports; `accept_eq_error_iff`: a model
  refuses these inputs and no others.
* `simulate_trace_error`: a token outside the vocabulary ends a run that was accepted.
* `simulate_trace_eq_ok_iff`, `simulate_trace_eq_error_iff`: when a run succeeds, and when it fails.
* `trace_verdict`: what becomes of a run, whatever the branching lists, the hidden states and the
  tokens are. -/

namespace DraftHeads

variable {α ω π : Type}

namespace Model

/-! ### What a model refuses -/

/-- What a model refuses, and the fault that it reports. A fault is reported only if there is none
of those before it. -/
inductive Refused (m : Model α π) (hidden : List Nat) (tokens : AnyTensor) : Fault → Prop
  | count (count : m.branching.length ≠ m.heads) :
    Refused m hidden tokens (.input (.branchCount m.heads m.branching.length))
  | range (count : m.branching.length = m.heads) (i k : Nat) (entry : m.branching[i]? = some k)
    (outside : k = 0 ∨ m.sizes.vocab < k)
    (first : ∀ k' ∈ m.branching.take i, 0 < k' ∧ k' ≤ m.sizes.vocab) :
    Refused m hidden tokens (.configuration (.branchRange i m.sizes.vocab k))
  | hiddenShape (branches : m.Branches m.branching)
      (states : ∀ batch width, hidden ≠ [batch, width]) :
    Refused m hidden tokens (.input (.hiddenShape m.sizes.emb hidden))
  | hiddenWidth (branches : m.Branches m.branching) (batch width : Nat)
    (states : hidden = [batch, width]) (other : width ≠ m.sizes.emb) :
    Refused m hidden tokens (.input (.hiddenWidth width m.sizes.emb))
  | tokenShape (branches : m.Branches m.branching) (batch : Nat)
    (states : hidden = [batch, m.sizes.emb]) (places : tokens.shape ≠ [batch]) :
    Refused m hidden tokens (.input (.tokenShape batch tokens.shape))
  | tokenFormat (branches : m.Branches m.branching) (batch : Nat)
    (states : hidden = [batch, m.sizes.emb]) (places : tokens.shape = [batch])
    (float : tokens.dtype.isFloat = true) :
    Refused m hidden tokens (.input (.tokenFormat tokens.dtype))

section Accept

variable {m : Model α π} {hidden : List Nat} {tokens : AnyTensor}

theorem checkBranching_eq_error_iff {vocab : Nat} {e : ConfigFault} :
    ∀ {ks : List Nat} {head : Nat}, checkBranching vocab head ks = .error e ↔
      ∃ i k, ks[i]? = some k ∧ (k = 0 ∨ vocab < k) ∧ (∀ k' ∈ ks.take i, 0 < k' ∧ k' ≤ vocab) ∧
        e = .branchRange (head + i) vocab k
  | [], head => by simp [checkBranching]
  | k :: ks, head => by
    have ih : checkBranching vocab (head + 1) ks = .error e ↔ _ := checkBranching_eq_error_iff
    rw [checkBranching]
    constructor
    · intro h
      split_ifs at h with hk
      · cases h
        exact ⟨0, k, rfl, hk, by simp, rfl⟩
      · obtain ⟨i, k', hk', houtside, hfirst, rfl⟩ := ih.mp h
        refine ⟨i + 1, k', hk', houtside, ?_, by rw [Nat.add_assoc, Nat.add_comm 1 i]⟩
        rw [List.take_succ_cons, List.forall_mem_cons]
        exact ⟨by omega, hfirst⟩
    · rintro ⟨i, k', hk', houtside, hfirst, rfl⟩
      cases i with
      | zero =>
        obtain rfl := Option.some.inj hk'
        rw [if_pos houtside]
        rfl
      | succ i =>
        rw [List.take_succ_cons, List.forall_mem_cons] at hfirst
        rw [if_neg (by omega)]
        exact ih.mpr ⟨i, k', hk', houtside, hfirst.2, by rw [Nat.add_assoc, Nat.add_comm 1 i]⟩

theorem accept_of_branches (branches : m.Branches m.branching) : m.accept hidden tokens =
    match hidden with
    | [batch, width] =>
      if width ≠ m.sizes.emb then .error (.input (.hiddenWidth width m.sizes.emb))
      else if tokens.shape ≠ [batch] then .error (.input (.tokenShape batch tokens.shape))
      else if tokens.dtype.isFloat then .error (.input (.tokenFormat tokens.dtype))
      else .ok batch
    | _ => .error (.input (.hiddenShape m.sizes.emb hidden)) := by
  unfold accept
  rw [if_neg (not_not.mpr branches.count), checkBranching_eq_ok_iff.mpr branches.range]
  rfl

theorem Refused.accept_eq {e : Fault} (refused : m.Refused hidden tokens e) :
    m.accept hidden tokens = .error e := by
  cases refused with
  | count count =>
    unfold accept
    rw [if_pos count]
    rfl
  | range count i k entry outside first =>
    have hcheck := checkBranching_eq_error_iff.mpr
      ⟨i, k, entry, outside, first,
        congrArg (ConfigFault.branchRange · _ _) (Nat.zero_add i).symm⟩
    unfold accept
    rw [if_neg (not_not.mpr count), hcheck]
    rfl
  | hiddenShape branches states =>
    rw [accept_of_branches branches]
    split
    · exact absurd rfl (states _ _)
    · rfl
  | hiddenWidth branches batch width states other =>
    subst states
    rw [accept_of_branches branches]
    exact if_pos other
  | tokenShape branches batch states places =>
    subst states
    rw [accept_of_branches branches]
    simp [places]
  | tokenFormat branches batch states places float =>
    subst states
    rw [accept_of_branches branches]
    simp [places, float]

/-- **What a model refuses**, and the fault that it reports. -/
theorem accept_eq_error_iff {e : Fault} :
    m.accept hidden tokens = .error e ↔ m.Refused hidden tokens e := by
  refine ⟨fun h => ?_, Refused.accept_eq⟩
  -- the checks are gone through in their order
  by_cases hcount : m.branching.length = m.heads
  · cases hcheck : checkBranching m.sizes.vocab 0 m.branching with
    | error cause =>
      unfold accept at h
      rw [if_neg (not_not.mpr hcount), hcheck] at h
      cases h
      obtain ⟨i, k, hk, houtside, hfirst, rfl⟩ := checkBranching_eq_error_iff.mp hcheck
      rw [Nat.zero_add]
      exact .range hcount i k hk houtside hfirst
    | ok _ =>
      have branches : m.Branches m.branching := ⟨hcount, checkBranching_eq_ok_iff.mp hcheck⟩
      rw [accept_of_branches branches] at h
      split at h
      · split_ifs at h with hwidth hplaces hfloat
        · cases h
          exact .hiddenWidth branches _ _ rfl hwidth
        · cases h
          exact .tokenShape branches _ (by rw [not_not.mp hwidth]) hplaces
        · cases h
          exact .tokenFormat branches _ (by rw [not_not.mp hwidth]) (not_not.mp hplaces) hfloat
      · next hstates =>
        cases h
        exact .hiddenShape branches hstates
  · unfold accept at h
    rw [if_pos hcount] at h
    cases h
    exact .count hcount

theorem Refused.not_ready {e : Fault} (refused : m.Refused hidden tokens e) {batch : Nat}
    (ready : m.Ready batch hidden tokens) : False := by
  have haccept := accept_eq_ok_iff.mpr ready
  rw [refused.accept_eq] at haccept
  cases haccept

theorem Refused.unique {e e' : Fault} (refused : m.Refused hidden tokens e)
    (refused' : m.Refused hidden tokens e') : e = e' :=
  Except.error.inj (refused.accept_eq.symm.trans refused'.accept_eq)

theorem Ready.batch_eq {batch batch' : Nat} (ready : m.Ready batch hidden tokens)
    (ready' : m.Ready batch' hidden tokens) : batch = batch' :=
  Except.ok.inj ((accept_eq_ok_iff.mpr ready).symm.trans (accept_eq_ok_iff.mpr ready'))

end Accept

/-! ### Tokens outside the vocabulary -/

section Unknown

variable [Element α ω π] [Analytic ω] [Analytic π] {m : Model α π} {g : Group}

theorem simulate_headOutput_error {slot : Slot} {head : Nat} {h : Parameters.Single α π}
    (hslot : m.parameters.single? slot = some h) (fits : h.Fits g m.sizes head) {state : Tensor α}
    {tokens : Tensor UInt32} (hout : ∃ t ∈ tokens.data, ¬ h.embedding.Takes m.sizes.vocab t) :
    (m.headOutput slot state tokens).simulate g = .error (.layer (.whole .index)) := by
  have happly : (layerStep (h.embedding.apply ⟨.u32, tokens⟩)).simulate g =
      .error (.layer (.whole .index)) := by
    rw [layerStep, Collective.simulate_mapFault,
      Embedding.simulate_apply_error fits.embedding hout]
    rfl
  rw [headOutput_of_single? hslot]
  exact Collective.simulate_bind_error happly

/-- **A run whose first head cannot look a token up** fails, although it was accepted. -/
theorem simulate_trace_error {batch : Nat} {hidden : Tensor α} {tokens : AnyTensor}
    (wired : m.Wired g) (ready : m.Ready batch hidden.shape tokens) (hbatch : 0 < batch)
    (hout : ∀ h ∈ m.singles.head?, ∃ t ∈ (tokens.cast .u32).data,
      ¬ h.embedding.Takes m.sizes.vocab t) :
    (m.trace hidden tokens).simulate g = .error (.layer (.whole .index)) := by
  obtain ⟨state, hm, hrun⟩ := exists_start wired ready
  have holds := startRows_holds ready hm
  obtain ⟨slot, slots, hslots⟩ := List.exists_cons_of_ne_nil
    (List.ne_nil_of_length_pos (wired.count.symm ▸ wired.heads_pos))
  obtain ⟨k, ks, hks⟩ := List.exists_cons_of_ne_nil
    (List.ne_nil_of_length_pos (ready.count.symm ▸ wired.heads_pos))
  have hselected := wired.selected
  rw [hslots] at hselected
  obtain ⟨s, singles, hs, -, hsingles⟩ := List.forall₂_cons_left_iff.mp hselected
  have hhead : (m.headOutput slot state (tokens.cast .u32)).simulate g =
      .error (.layer (.whole .index)) := simulate_headOutput_error hs
    (wired.fits 0 s (by rw [hsingles]; rfl)) (hout s (by rw [hsingles]; rfl))
  have hguard : ¬ (state.shape[0]? ≠ some (batch * 1) ∨
      (tokens.cast .u32).shape[0]? ≠ some (batch * 1)) := by
    rw [holds.state.shape, holds.shape, List.length_map, holds.count]
    simp
  rw [trace, accept_eq_ok_iff.mpr ready]
  simp only [Collective.ofExcept_ok, Collective.done_bind, if_neg hbatch.ne']
  refine (congrArg (Collective.simulate g) (hrun _)).trans (Collective.simulate_bind_error ?_)
  rw [hslots, hks, List.zip_cons_cons, runHeads]
  refine Collective.simulate_bind_error ?_
  rw [runHead, if_neg hguard]
  exact Collective.simulate_bind_error hhead

end Unknown

/-! ### What becomes of a run -/

section Cases

variable [Element α ω π] [Analytic ω] [Analytic π] {m : Model α π} {dot : List α → List α → α}
  (hidden : Tensor α) (tokens : AnyTensor)

/-- A run of a worker on its own: the inputs are refused, or there are no rows, or all heads run, or
a token is none of the vocabulary. -/
theorem simulate_trace_cases (hdot : (Element.dot? : Option (List α → List α → α)) = some dot)
    (hword : m.sizes.vocab < wordCount) (wired : m.Wired .single) :
    (∃ e, m.Refused hidden.shape tokens e ∧ (m.trace hidden tokens).simulate .single = .error e) ∨
    ∃ batch, m.Ready batch hidden.shape tokens ∧
      (batch = 0 ∧ (m.trace hidden tokens).simulate .single = .ok m.emptyTrace ∨
      0 < batch ∧ (∀ t ∈ (tokens.cast .u32).data, t.toNat < m.sizes.vocab) ∧
        (∃ tr, (m.trace hidden tokens).simulate .single = .ok tr ∧
          tr.Shaped batch m.sizes.vocab m.branching) ∨
      0 < batch ∧ (∃ t ∈ (tokens.cast .u32).data, m.sizes.vocab ≤ t.toNat) ∧
        (m.trace hidden tokens).simulate .single = .error (.layer (.whole .index))) := by
  cases haccept : m.accept hidden.shape tokens with
  | error e =>
    left
    refine ⟨e, accept_eq_error_iff.mp haccept, ?_⟩
    rw [trace, haccept]
    rfl
  | ok batch =>
    right
    have ready := accept_eq_ok_iff.mp haccept
    refine ⟨batch, ready, ?_⟩
    by_cases hbatch : batch = 0
    · left
      refine ⟨hbatch, ?_⟩
      rw [trace, haccept]
      simp only [Collective.ofExcept_ok, Collective.done_bind, if_pos hbatch]
      rfl
    · right
      have hpos : 0 < batch := by omega
      by_cases hknown : ∀ t ∈ (tokens.cast .u32).data, t.toNat < m.sizes.vocab
      · left
        exact ⟨hpos, hknown, simulate_trace_shaped hdot (wired.splits hword) (Or.inl rfl) wired
          ready hpos fun h _ t ht => Embedding.takes_of_lt (hknown t ht)⟩
      · right
        obtain ⟨t, ht, hle⟩ : ∃ t ∈ (tokens.cast .u32).data, m.sizes.vocab ≤ t.toNat := by
          simpa using hknown
        refine ⟨hpos, ⟨t, ht, hle⟩, simulate_trace_error wired ready hpos fun h hh => ⟨t, ht, ?_⟩⟩
        rw [List.head?_eq_getElem?] at hh
        rw [(wired.fits 0 h hh).embedding.takes_iff]
        omega

/-- **When a run succeeds**, and what its trace looks like then. -/
theorem simulate_trace_eq_ok_iff (hdot : (Element.dot? : Option (List α → List α → α)) = some dot)
    (hword : m.sizes.vocab < wordCount) (wired : m.Wired .single) :
    ((∃ tr, (m.trace hidden tokens).simulate .single = .ok tr) ↔
      ∃ batch, m.Ready batch hidden.shape tokens ∧
        (batch = 0 ∨ ∀ t ∈ (tokens.cast .u32).data, t.toNat < m.sizes.vocab)) ∧
    ∀ tr batch, (m.trace hidden tokens).simulate .single = .ok tr →
      m.Ready batch hidden.shape tokens → batch = 0 ∧ tr = m.emptyTrace ∨
        0 < batch ∧ tr.Shaped batch m.sizes.vocab m.branching := by
  obtain ⟨e, refused, hrun⟩ |
    ⟨batch, ready,
      ⟨hzero, hrun⟩ | ⟨hpos, hknown, tr, hrun, hshaped⟩ | ⟨hpos, ⟨t, ht, hle⟩, hrun⟩⟩ :=
    simulate_trace_cases hidden tokens hdot hword wired <;> rw [hrun]
  · refine ⟨iff_of_false (by rintro ⟨_, h⟩; cases h) ?_, fun _ _ h => by cases h⟩
    rintro ⟨batch, ready, -⟩
    exact refused.not_ready ready
  · refine ⟨iff_of_true ⟨_, rfl⟩ ⟨batch, ready, Or.inl hzero⟩, fun tr batch' h ready' => ?_⟩
    cases h
    exact Or.inl ⟨(ready'.batch_eq ready).trans hzero, rfl⟩
  · refine ⟨iff_of_true ⟨tr, rfl⟩ ⟨batch, ready, Or.inr hknown⟩, fun tr' batch' h ready' => ?_⟩
    cases h
    rw [ready'.batch_eq ready]
    exact Or.inr ⟨hpos, hshaped⟩
  · refine ⟨iff_of_false (by rintro ⟨_, h⟩; cases h) ?_, fun _ _ h => by cases h⟩
    rintro ⟨batch', ready', hzero | hknown⟩
    · rw [ready'.batch_eq ready] at hzero
      omega
    · have := hknown t ht
      omega

/-- **When a run fails**, and how. -/
theorem simulate_trace_eq_error_iff
    (hdot : (Element.dot? : Option (List α → List α → α)) = some dot)
    (hword : m.sizes.vocab < wordCount) (wired : m.Wired .single) {e : Fault} :
    (m.trace hidden tokens).simulate .single = .error e ↔ m.Refused hidden.shape tokens e ∨
      ∃ batch, m.Ready batch hidden.shape tokens ∧ 0 < batch ∧
        (∃ t ∈ (tokens.cast .u32).data, m.sizes.vocab ≤ t.toNat) ∧ e = .layer (.whole .index) := by
  obtain ⟨e', refused, hrun⟩ |
    ⟨batch, ready, ⟨hzero, hrun⟩ | ⟨hpos, hknown, tr, hrun, -⟩ | ⟨hpos, hunknown, hrun⟩⟩ :=
    simulate_trace_cases hidden tokens hdot hword wired <;> rw [hrun]
  · constructor
    · intro h
      cases h
      exact Or.inl refused
    · rintro (refused' | ⟨batch, ready, -⟩)
      · rw [refused.unique refused']
      · exact absurd ready refused.not_ready
  · refine iff_of_false (fun h => by cases h) ?_
    rintro (refused | ⟨batch', ready', hpos, -⟩)
    · exact refused.not_ready ready
    · rw [ready'.batch_eq ready] at hpos
      omega
  · refine iff_of_false (fun h => by cases h) ?_
    rintro (refused | ⟨batch', ready', -, ⟨t, ht, hle⟩, -⟩)
    · exact refused.not_ready ready
    · have := hknown t ht
      omega
  · constructor
    · intro h
      cases h
      exact Or.inr ⟨batch, ready, hpos, hunknown, rfl⟩
    · rintro (refused | ⟨batch', ready', -, -, rfl⟩)
      · exact absurd ready refused.not_ready
      · rfl

end Cases

/-- The model after its branching list was replaced any number of times. -/
def rebranched (m : Model α π) (history : List (List Nat)) : Model α π :=
  history.foldl withBranching m

theorem rebranched_eq : ∀ (history : List (List Nat)) (m : Model α π),
    m.rebranched history = m.withBranching (history.getLastD m.branching)
  | [], m => rfl
  | ks :: history, m => by
    change (m.withBranching ks).rebranched history = _
    rw [rebranched_eq history, List.getLastD_cons]
    rfl

section Built

variable [Analytic π] {c : Config} {policy : Policy π} {read : Reader α} {g : Group}
  {m : Model α π}

omit [Analytic π] in
theorem checkPlan_some_iff {heads : Nat} {list? : Option (List Nat)} {ks : List Nat}
    (h : checkPlan c heads list? = .ok ()) : checkPlan c heads (some ks) = .ok () ↔
      ks.length = heads ∧ ∀ k ∈ ks, 0 < k ∧ k ≤ c.vocabSize := by
  obtain ⟨_, hvalid, -⟩ := bind_eq_ok.mp h
  have hheads := (checkPlan_ok h).1
  unfold checkPlan
  simp only [throw_bind, bind_eq_ok, ite_error_eq_ok, checkBranching_eq_ok_iff, not_not]
  constructor
  · rintro ⟨_, -, -, hlist⟩
    exact hlist
  · exact fun hlist => ⟨(), hvalid, by omega, hlist⟩

theorem exists_build_branching_iff (h : build c policy read g = .ok m) {ks : List Nat} :
    (∃ m', build c { policy with branching? := some ks } read g = .ok m') ↔ m.Branches ks := by
  obtain ⟨hplan, hbytes, p, hp, rfl⟩ := build_eq_ok_iff.mp h
  constructor
  · rintro ⟨m', h'⟩
    obtain ⟨hlist, -⟩ := build_eq_ok_iff.mp h'
    obtain ⟨hcount, hrange⟩ := (checkPlan_some_iff hplan).mp hlist
    exact ⟨hcount, hrange⟩
  · rintro ⟨hcount, hrange⟩
    exact ⟨_, build_eq_ok_iff.mpr
      ⟨(checkPlan_some_iff hplan).mpr ⟨hcount, hrange⟩, hbytes, p, hp, rfl⟩⟩

end Built

section Verdict

/-- What becomes of a run of a model that a worker on its own has built. -/
structure Verdict (c : Config) (policy : Policy Float) (read : Reader Float32)
    (m : Model Float32 Float) (hidden : Tensor Float32) (tokens : AnyTensor)
    (run : Except Fault (Trace Float32)) : Prop where
  /-- A model is built with the branching list if the list fits the heads and the vocabulary. -/
  built_iff : (∃ m', build c { policy with branching? := some m.branching } read .single = .ok m') ↔
    m.branching.length = policy.headCount c ∧ ∀ k ∈ m.branching, 0 < k ∧ k ≤ c.vocabSize
  /-- The run succeeds if a model is built with the branching list, the shapes and the format of the
  inputs are right, and the tokens are tokens of the vocabulary or there are none. -/
  succeeds_iff : (∃ tr, run = .ok tr) ↔
    (∃ m', build c { policy with branching? := some m.branching } read .single = .ok m') ∧
    ∃ batch, hidden.shape = [batch, c.embDim] ∧ tokens.shape = [batch] ∧
      tokens.dtype.isFloat = false ∧
      (batch = 0 ∨ ∀ t ∈ (tokens.cast .u32).data, t.toNat < c.vocabSize)
  /-- It fails for inputs that are refused, and for a token outside the vocabulary if they are
  not. -/
  fails_iff : ∀ e, run = .error e ↔ m.Refused hidden.shape tokens e ∨
    ∃ batch, m.Ready batch hidden.shape tokens ∧ 0 < batch ∧
      (∃ t ∈ (tokens.cast .u32).data, c.vocabSize ≤ t.toNat) ∧ e = .layer (.whole .index)
  /-- No head meets another number of rows than its predecessors left. -/
  rows : ∀ head rows state tokens, run ≠ .error (.input (.candidateRows head rows state tokens))
  /-- No layer meets entries that do not fit a shape, or fails for any other reason than a token. -/
  layers : ∀ e, run = .error (.layer e) → e = .whole .index
  /-- Every head finds its parameters. -/
  slots : m.parameters.slots.length = policy.headCount c ∧
    ∀ slot ∈ m.parameters.slots, ∃ s, m.parameters.single? slot = some s
  /-- A run of all heads hands on tokens of the vocabulary only, and its trace is complete. -/
  complete : ∀ batch tr, run = .ok tr → hidden.shape = [batch, c.embDim] → 0 < batch →
    tr.Shaped batch c.vocabSize m.branching
  empty : ∀ tr, run = .ok tr → hidden.shape = [0, c.embDim] → tr = m.emptyTrace

variable {c : Config} {policy : Policy Float} {read : Reader Float32} {m : Model Float32 Float}

/-- **A run fails only for what is wrong with its inputs.** Whichever branching lists a model was
given one after the other, and whatever the inputs are, a run of the model fails if the last list,
the shapes and the format of the inputs or a token are not as they have to be, and in this order
of precedence; else its trace is complete. -/
theorem trace_verdict (lawful : read.Lawful) (hword : c.vocabSize < UInt32.size)
    (h : build c policy read .single = .ok m) (history : List (List Nat))
    (hidden : Tensor Float32) (tokens : AnyTensor) :
    Verdict c policy read (m.rebranched history) hidden tokens
      (AnyModel.trace ⟨.f32, m.rebranched history⟩ ⟨.f32, hidden⟩ tokens) := by
  rw [rebranched_eq]
  generalize history.getLastD m.branching = ks
  have hrun : AnyModel.trace ⟨.f32, m.withBranching ks⟩ ⟨.f32, hidden⟩ tokens =
      ((m.withBranching ks).trace hidden tokens).simulate .single :=
    trace_eq_simulate (d := .f32) h ks hidden tokens
  have wired := (build_wired lawful h).withBranching ks
  have hsizes : (m.withBranching ks).sizes = sizesOf c := sizes_of_build (m := m) h
  have hword : (m.withBranching ks).sizes.vocab < wordCount := by
    rw [hsizes]
    exact hword.trans (by decide)
  have hbuilt : (∃ m', build c { policy with branching? := some ks } read .single = .ok m') ↔
      m.Branches ks := exists_build_branching_iff h
  have hbranches : m.Branches ks ↔ ks.length = policy.headCount c ∧
      ∀ k ∈ ks, 0 < k ∧ k ≤ c.vocabSize := branches_of_build h
  obtain ⟨hok, htrace⟩ := simulate_trace_eq_ok_iff hidden tokens rfl hword wired
  have herror := fun e => simulate_trace_eq_error_iff hidden tokens (e := e) rfl hword wired
  simp only [← hrun, hsizes] at hok htrace herror
  exact {
    built_iff := hbuilt.trans hbranches
    succeeds_iff := by
      rw [hok]
      constructor
      · rintro ⟨batch, ready, hknown⟩
        refine ⟨hbuilt.mpr ⟨ready.count, ready.range⟩, batch, ?_, ready.places, ready.integers,
          hknown⟩
        rw [ready.states, hsizes]
        rfl
      · rintro ⟨hlist, batch, hstates, hplaces, hinteger, hknown⟩
        obtain ⟨hcount, hrange⟩ := hbuilt.mp hlist
        refine ⟨batch, ⟨hcount, hrange, ?_, hplaces, hinteger⟩, hknown⟩
        rw [hstates, hsizes]
        rfl
    fails_iff := herror
    rows := fun head rows state tokens hfail => by
      rcases (herror _).mp hfail with refused | ⟨_, _, _, _, hfault⟩
      · cases refused
      · cases hfault
    layers := fun e hfail => by
      rcases (herror _).mp hfail with refused | ⟨_, _, _, _, hfault⟩
      · cases refused
      · exact Fault.layer.inj hfault
    slots :=
      ⟨wired.count.trans (heads_of_build (m := m) h), fun slot hslot => wired.exists_single hslot⟩
    complete := fun batch tr htr hstates hpos => by
      obtain ⟨batch', ready, -⟩ := hok.mp ⟨tr, htr⟩
      obtain rfl : batch' = batch := (List.cons.inj (ready.states.symm.trans hstates)).1
      obtain ⟨hzero, -⟩ | ⟨-, hshaped⟩ := htrace tr batch' htr ready
      · omega
      · exact hshaped
    empty := fun tr htr hstates => by
      obtain ⟨batch, ready, -⟩ := hok.mp ⟨tr, htr⟩
      obtain rfl : batch = 0 := (List.cons.inj (ready.states.symm.trans hstates)).1
      obtain ⟨-, hempty⟩ | ⟨hpos, -⟩ := htrace tr 0 htr ready
      · exact hempty
      · exact absurd hpos (lt_irrefl 0) }

/-- The last of two lists counts, and a token outside the vocabulary is found. -/
theorem trace_verdict_two : ∃ m : Model Float32 Float,
    build smallConfig ⟨none, none, 0, 0⟩ (Weights.zeros.reader .f32) .single = .ok m ∧
    (∃ tr, AnyModel.trace ⟨.f32, m.rebranched [[9], [3, 2]]⟩ ⟨.f32, Tensor.fill [2, 3] 1⟩
      ⟨.i64, Tensor.ofList [1, 3]⟩ = .ok tr) ∧
    AnyModel.trace ⟨.f32, m.rebranched [[9], [3, 2]]⟩ ⟨.f32, Tensor.fill [2, 3] 1⟩
      ⟨.i64, Tensor.ofList [1, -1]⟩ = .error (.layer (.whole .index)) ∧
    AnyModel.trace ⟨.f32, m.rebranched [[3, 2], [9]]⟩ ⟨.f32, Tensor.fill [0, 3] 1⟩
      ⟨.i64, Tensor.ofList []⟩ = .error (.input (.branchCount 2 1)) := by
  obtain ⟨m, hm⟩ := exists_build_zeros .f32 none rfl
  have verdict := trace_verdict (Weights.zeros.reader_lawful .f32) (by decide) hm
  have hlist : (m.rebranched [[9], [3, 2]]).branching.length = 2 ∧
      ∀ k ∈ (m.rebranched [[9], [3, 2]]).branching, 0 < k ∧ k ≤ 4 := by
    change [3, 2].length = 2 ∧ ∀ k ∈ [3, 2], 0 < k ∧ k ≤ 4
    decide
  have branches : m.Branches [3, 2] := (branches_of_build hm).mpr hlist
  have hsizes := sizes_of_build hm
  refine ⟨m, hm, ?_, ?_, ?_⟩
  · have hrun := verdict [[9], [3, 2]] (Tensor.fill [2, 3] 1) ⟨.i64, Tensor.ofList [1, 3]⟩
    have inputs : Inputs (sizesOf smallConfig) 2 [2, 3] ⟨.i64, Tensor.ofList [1, 3]⟩
        (Tensor.ofList [1, 3]) := ⟨by decide, rfl, rfl, rfl, by decide⟩
    exact hrun.succeeds_iff.mpr
      ⟨hrun.built_iff.mpr hlist, 2, rfl, rfl, rfl, Or.inr inputs.token_lt⟩
  · have hrun := verdict [[9], [3, 2]] (Tensor.fill [2, 3] 1) ⟨.i64, Tensor.ofList [1, -1]⟩
    have ready : (m.rebranched [[9], [3, 2]]).Ready 2 [2, 3] ⟨.i64, Tensor.ofList [1, -1]⟩ :=
      ⟨branches.count, branches.range, congrArg (fun s => [2, s.emb]) hsizes.symm, rfl, rfl⟩
    have hout : UInt32.ofInt (-1) ∈
        ((⟨.i64, Tensor.ofList [1, -1]⟩ : AnyTensor).cast .u32).data := by
      rw [cast_data_eq (show _ = some (Tensor.ofList [1, -1]) from rfl)]
      exact List.mem_map_of_mem (by decide)
    exact (hrun.fails_iff _).mpr (Or.inr ⟨2, ready, by decide, ⟨_, hout, by decide⟩, rfl⟩)
  · have hrun := verdict [[3, 2], [9]] (Tensor.fill [0, 3] 1) ⟨.i64, Tensor.ofList []⟩
    have hcount : m.heads = 2 := heads_of_build hm
    have hother : 1 ≠ m.heads := by
      rw [hcount]
      decide
    have refused : (m.rebranched [[3, 2], [9]]).Refused [0, 3] ⟨.i64, Tensor.ofList []⟩
        (.input (.branchCount m.heads 1)) := .count hother
    rw [hcount] at refused
    exact (hrun.fails_iff _).mpr (Or.inl refused)

end Verdict

end Model

end DraftHeads
