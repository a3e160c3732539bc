import DraftHeads.Draft.Head
import DraftHeads.Proofs.Draft.Largest
import DraftHeads.Proofs.Draft.Proposal
import DraftHeads.Proofs.Tensor.Stack

/-! # The language model head, row by row

A language model head treats the rows of a batch alone; only whether there is any speculation
depends on their number.

* `Model.draftRow`, `Model.simulate_forward`: the distributions that a speculator reports for a row
  with its token.
* `LanguageHead.OfRows`, `LanguageHead.simulate_forward`: the logits and the draft of a batch are
  those of its rows.
* `LanguageHead.Standalone.draftAlone`, `LanguageHead.Standalone.splitsAt`: a row on its own, and a
  batch in parts; `LanguageHead.forward_rowwise`: both together. -/

namespace DraftHeads

variable {α ω π : Type}

/-! ### The rows of a draft -/

namespace Model

variable [Element α ω π] [Analytic ω] [Analytic π] {m : Model α π} {g : Group}
  {dot : List α → List α → α}

theorem greedy_lengths : ∀ {hs : List (Parameters.Single α π)},
    (∀ h ∈ hs, ∃ head, h.Fits g m.sizes head) → ∀ x : CandidateRow α,
      (m.greedy dot hs x).length = hs.length ∧ ∀ row ∈ m.greedy dot hs x, row.length = m.sizes.vocab
  | [], _, x => ⟨rfl, by simp [greedy]⟩
  | h :: hs, fits, x => by
    obtain ⟨head, hfits⟩ := fits h List.mem_cons_self
    obtain ⟨hcount, hrows⟩ := greedy_lengths
      (fun h' hh' => fits h' (List.mem_cons_of_mem h hh')) (m.childRow dot h x 0)
    refine ⟨by rw [greedy, List.length_cons, hcount, List.length_cons], fun row hrow => ?_⟩
    rcases List.mem_cons.mp hrow with rfl | hrow
    · rw [List.length_map, length_rowLogs hfits]
    · exact hrows row hrow

/-- The distributions that are reported for a hidden state with a token. -/
def draftRow (m : Model α π) (dot : List α → List α → α) (x : List α) (t : UInt32) : List ω :=
  (m.greedy dot m.singles (m.startState x, t)).flatten

theorem length_draftRow (wired : m.Wired g) (x : List α) (t : UInt32) :
    (m.draftRow dot x t).length = entryCount [m.heads, m.sizes.vocab] := by
  have fits : ∀ h ∈ m.singles, ∃ head, h.Fits g m.sizes head := fun h hh => by
    obtain ⟨i, hi⟩ := List.getElem?_of_mem hh
    exact ⟨i, wired.fits i h hi⟩
  obtain ⟨hcount, hrows⟩ : (m.greedy dot m.singles (m.startState x, t)).length = _ ∧ _ :=
    greedy_lengths fits (m.startState x, t)
  rw [draftRow, length_flatten_block hrows, hcount, wired.length_singles]
  simp [entryCount]

/-- **What a speculator reports** for a batch is what it reports for each of its rows. -/
theorem simulate_forward [LawfulRanking ω] {ks : List Nat} {hidden : Tensor α} {tokens : AnyTensor}
    {batch : Nat} (hdot : (Element.dot? : Option (List α → List α → α)) = some dot)
    (gathers : g.Gathers) (hword : m.sizes.vocab < wordCount) (wired : m.Wired g)
    (ready : (m.withBranching ks).Ready batch hidden.shape tokens) (hbatch : 0 < batch)
    (takes : ∀ h ∈ m.singles.head?, ∀ t ∈ (tokens.cast .u32).data,
      h.embedding.Takes m.sizes.vocab t) :
    ∃ d, ((m.withBranching ks).forward hidden tokens).simulate g = .ok d ∧
      d.IsStack [m.heads, m.sizes.vocab]
        (List.zipWith (m.draftRow dot) hidden.rows (tokens.cast .u32).data) := by
  obtain ⟨tr, htr, hshape, hdata⟩ :=
    simulate_trace_greedy hdot gathers hword wired ready hbatch takes
  have hrows : hidden.rows.length = batch := Tensor.length_rows ready.states
  have htokens : (tokens.cast .u32).data.length = batch := by
    rw [(tokens.cast .u32).length_data, shape_cast, ready.places]
    simp [entryCount]
  refine ⟨tr.allProbs, ?_, ?_, ?_, fun block hblock => ?_⟩
  · rw [forward]
    exact Collective.simulate_bind_eq_ok.mpr ⟨tr, htr, rfl⟩
  · rw [hshape, List.length_zipWith, hrows, htokens, Nat.min_self]
  · rw [hdata, startRows, List.flatMap_def, List.flatten_flatten, List.map_map, List.zip_map_left,
      List.map_map, ← List.map_uncurry_zip_eq_zipWith]
    rfl
  · obtain ⟨i, hi, rfl⟩ := List.getElem_of_mem hblock
    rw [List.getElem_zipWith]
    exact length_draftRow wired _ _

theorem any_forward_eq {d : DType} (m : Model d.Elem Float) (states : Tensor d.Elem)
    (tokens : AnyTensor) : AnyModel.forward ⟨d, m⟩ ⟨d, states⟩ tokens =
      (m.forward states tokens).simulate m.group := by
  have hself : AnyTensor.as? d ⟨d, states⟩ = some states := dif_pos rfl
  unfold AnyModel.forward AnyModel.trace
  rw [hself, forward, Collective.simulate_bind]
  rfl

end Model

/-! ### Logits and draft -/

namespace LanguageHead

/-- The projection fits the sizes, and the speculator is wired. -/
structure Wired (g : Group) (h : LanguageHead α π) : Prop where
  speculator : h.speculator.Wired g
  projection : h.projection.Fits g h.speculator.sizes.emb h.speculator.sizes.vocab

theorem load_eq_ok_iff [Analytic π] {c : Config} {policy : Policy π} {read : Reader α} {g : Group}
    {h : LanguageHead α π} : load c policy read g = .ok h ↔
      Model.build c policy (read.below "speculator") g = .ok h.speculator ∧
      Projection.load c.embDim c.vocabSize (read.below "lm_head") g = .ok h.projection ∧
      h.maxBatch = policy.maxBatch := by
  obtain ⟨projection, speculator, maxBatch⟩ := h
  simp only [load, bind_eq_ok, mapError_eq_ok, pure_eq_ok]
  constructor
  · rintro ⟨m, hm, p, hp, heq⟩
    cases heq
    exact ⟨hm, hp, rfl⟩
  · rintro ⟨hm, hp, rfl⟩
    exact ⟨speculator, hm, projection, hp, rfl⟩

theorem load_wired [Analytic π] {c : Config} {policy : Policy π} {read : Reader α} {g : Group}
    {h : LanguageHead α π} (lawful : read.Lawful) (hload : load c policy read g = .ok h) :
    h.Wired g := by
  obtain ⟨hbuild, hprojection, -⟩ := load_eq_ok_iff.mp hload
  refine ⟨Model.build_wired (lawful.below _) hbuild, ?_⟩
  rw [Model.sizes_of_build hbuild]
  exact Projection.load_fits (lawful.below _) hprojection

section Rows

variable (h : LanguageHead Float32 Float) (x : List Float32)

/-- The logits of a row. -/
def logitRow : List Float32 := h.projection.row innerProduct x

/-- The most likely token of a row. -/
def nextToken : UInt32 := UInt32.ofNat (argmax (h.logitRow x))

/-- The distributions of the draft for a row. -/
def draftRow : List Float32 := h.speculator.draftRow innerProduct x (h.nextToken x)

end Rows

variable {h : LanguageHead Float32 Float} {g : Group}

theorem length_logitRow (wired : h.Wired g) (x : List Float32) :
    (h.logitRow x).length = h.speculator.sizes.vocab :=
  wired.projection.length_row innerProduct x

theorem nextToken_lt (wired : h.Wired g) (x : List Float32) :
    (h.nextToken x).toNat < h.speculator.sizes.vocab := by
  have hrow : h.logitRow x ≠ [] := by
    refine List.ne_nil_of_length_pos ?_
    rw [length_logitRow wired]
    exact wired.speculator.positive.vocab
  obtain ⟨y, hy⟩ := leads_argmax hrow
  have hlt := (List.getElem?_eq_some_iff.mp hy.entry).1
  rw [length_logitRow wired] at hlt
  rw [nextToken, UInt32.toNat_ofNat']
  exact lt_of_le_of_lt (Nat.mod_le _ _) hlt

/-- Logits and a draft that are those of some rows. The number of the rows alone decides whether
there is a draft. -/
structure OfRows (h : LanguageHead Float32 Float) (rows : List (List Float32))
    (logits : Tensor Float32) (draft? : Option (Tensor Float32)) : Prop where
  logits : logits.IsMatrix h.speculator.sizes.vocab (rows.map h.logitRow)
  speculates : draft?.isSome = true ↔ rows.length ≤ h.maxBatch
  draft : ∀ draft, draft? = some draft →
    draft.IsStack [h.speculator.heads, h.speculator.sizes.vocab] (rows.map h.draftRow)

theorem exists_draft {ks : List Nat} {hidden logits : Tensor Float32} {batch : Nat}
    (wired : h.Wired g) (gathers : g.Gathers) (hword : h.speculator.sizes.vocab < wordCount)
    (branches : h.speculator.Branches ks) (hshape : hidden.shape = [batch, h.speculator.sizes.emb])
    (hbatch : 0 < batch)
    (hlogits : logits.IsMatrix h.speculator.sizes.vocab (hidden.rows.map h.logitRow)) :
    ∃ tokens draft, argmaxRows logits = .ok tokens ∧
      ((h.speculator.withBranching ks).forward hidden ⟨.u32, tokens⟩).simulate g = .ok draft ∧
      draft.IsStack [h.speculator.heads, h.speculator.sizes.vocab]
        (hidden.rows.map h.draftRow) := by
  have hrows : hidden.rows.length = batch := Tensor.length_rows hshape
  have hlshape : logits.shape = [batch] ++ [h.speculator.sizes.vocab] := by
    rw [hlogits.shape, List.length_map, hrows]
    rfl
  have hentries : 0 < entryCount logits.shape := by
    have := wired.speculator.positive.vocab
    rw [hlshape]
    change 0 < batch * (h.speculator.sizes.vocab * 1)
    positivity
  obtain ⟨tokens, htokens, htshape, htdata⟩ := argmaxRows_eq hlshape hentries
  rw [hlogits.rows_eq, List.map_map] at htdata
  have htdata : tokens.data = hidden.rows.map h.nextToken := htdata
  have ready : (h.speculator.withBranching ks).Ready batch hidden.shape ⟨.u32, tokens⟩ :=
    ⟨branches.count, branches.range, hshape, htshape, rfl⟩
  -- the most likely tokens are tokens of the vocabulary, so the speculator can look them up
  obtain ⟨draft, hdraft, hstack⟩ := Model.simulate_forward rfl gathers hword wired.speculator
    ready hbatch fun e _ t ht => by
      have ht : t ∈ tokens.data := ht
      rw [htdata] at ht
      obtain ⟨x, -, rfl⟩ := List.mem_map.mp ht
      exact Embedding.takes_of_lt (nextToken_lt wired x)
  refine ⟨tokens, draft, htokens, hdraft, ?_⟩
  change draft.IsStack _ (List.zipWith _ hidden.rows tokens.data) at hstack
  rw [htdata, List.zipWith_map_right, List.zipWith_self] at hstack
  exact hstack

/-- **The logits and the draft of a batch** are those of its rows. -/
theorem simulate_forward {ks : List Nat} {hidden : Tensor Float32} {batch : Nat}
    (wired : h.Wired g) (gathers : g.Gathers) (hword : h.speculator.sizes.vocab < wordCount)
    (branches : h.speculator.Branches ks) (hshape : hidden.shape = [batch, h.speculator.sizes.emb])
    (hbatch : 0 < batch) :
    ∃ logits draft?, ((h.withBranching ks).forward hidden).simulate g = .ok ⟨logits, draft?⟩ ∧
      h.OfRows hidden.rows logits draft? := by
  have hrows : hidden.rows.length = batch := Tensor.length_rows hshape
  obtain ⟨logits, hlogits, hlm⟩ := Projection.simulate_apply wired.projection gathers innerProduct
    (Tensor.isMatrix_of_shape hshape) wired.speculator.positive.emb
  have haccept : (h.withBranching ks).accept hidden.shape = .ok batch := by
    unfold accept
    rw [hshape]
    exact if_pos rfl
  have hstep : (Model.layerStep ((h.withBranching ks).projection.apply Element.dot? hidden) :
      Collective Float32 Fault (Tensor Float32)).simulate g = .ok logits :=
    Model.simulate_layerStep.mpr hlogits
  by_cases hlarge : (h.withBranching ks).maxBatch < batch
  · refine ⟨logits, none, ?_, hlm, ?_, fun draft hdraft => by cases hdraft⟩
    · rw [forward, haccept]
      refine Collective.simulate_bind_eq_ok.mpr ⟨batch, rfl, ?_⟩
      refine Collective.simulate_bind_eq_ok.mpr ⟨logits, hstep, ?_⟩
      rw [if_pos hlarge]
      rfl
    · rw [hrows]
      exact iff_of_false Bool.false_ne_true (not_le.mpr hlarge)
  · obtain ⟨tokens, draft, htokens, hdraft, hstack⟩ :=
      exists_draft wired gathers hword branches hshape hbatch hlm
    refine ⟨logits, some draft, ?_, hlm, ?_, fun draft' hdraft' => ?_⟩
    · rw [forward, haccept]
      refine Collective.simulate_bind_eq_ok.mpr ⟨batch, rfl, ?_⟩
      refine Collective.simulate_bind_eq_ok.mpr ⟨logits, hstep, ?_⟩
      rw [if_neg hlarge]
      refine Collective.simulate_bind_eq_ok.mpr ⟨tokens, Model.simulate_tensorStep.mpr htokens, ?_⟩
      exact Collective.simulate_bind_eq_ok.mpr ⟨draft, hdraft, rfl⟩
    · rw [hrows]
      exact iff_of_true rfl (not_lt.mp hlarge)
    · cases hdraft'
      exact hstack

/-- **What is given for two lists of rows**, put together, is what is given for both of them. A
draft for all of the rows is made of drafts for either list. -/
theorem OfRows.concat_eq {xs ys : List (List Float32)} {logits₁ logits₂ logits : Tensor Float32}
    {draft₁? draft₂? draft? : Option (Tensor Float32)} (hx : h.OfRows xs logits₁ draft₁?)
    (hy : h.OfRows ys logits₂ draft₂?) (hxy : h.OfRows (xs ++ ys) logits draft?) :
    Tensor.concat 0 [logits₁, logits₂] = .ok logits ∧
    ∀ draft, draft? = some draft → ∃ draft₁ draft₂, draft₁? = some draft₁ ∧ draft₂? = some draft₂ ∧
      Tensor.concat 0 [draft₁, draft₂] = .ok draft := by
  constructor
  · obtain ⟨u, hu, hstack⟩ := hx.logits.isStack.concat_eq hy.logits.isStack
    rw [← List.map_append] at hstack
    rwa [hxy.logits.isStack.unique hstack]
  · rintro draft rfl
    have hsmall := hxy.speculates.mp rfl
    rw [List.length_append] at hsmall
    obtain ⟨part₁, rfl⟩ := Option.isSome_iff_exists.mp (hx.speculates.mpr (by omega))
    obtain ⟨part₂, rfl⟩ := Option.isSome_iff_exists.mp (hy.speculates.mpr (by omega))
    obtain ⟨u, hu, hstack⟩ := (hx.draft part₁ rfl).concat_eq (hy.draft part₂ rfl)
    rw [← List.map_append] at hstack
    refine ⟨part₁, part₂, rfl, rfl, ?_⟩
    rwa [(hxy.draft draft rfl).unique hstack]

/-! ### Rows alone and batches in parts -/

/-- The draft for a row of a batch is the one for the row alone, with the lowest of the most likely
tokens of its logits. -/
def DraftAlone (m : Model Float32 Float) (hidden logits draft : Tensor Float32) (b : Nat) : Prop :=
  ∃ one part row t x, hidden.slice b (b + 1) = .ok one ∧ draft.slice b (b + 1) = .ok part ∧
    logits.rows[b]? = some row ∧ Leads row t x ∧
    ∀ tokens : AnyTensor, tokens.shape = [1] → tokens.dtype.isFloat = false →
      (tokens.cast .u32).data = [UInt32.ofNat t] →
        AnyModel.forward ⟨.f32, m⟩ ⟨.f32, one⟩ tokens = .ok part

/-- What a head gives for a batch is what it gives for the rows before a place and for those after
it, put together. -/
def SplitsAt (h : LanguageHead Float32 Float) (batch : Nat) (hidden logits : Tensor Float32)
    (draft? : Option (Tensor Float32)) (n : Nat) : Prop :=
  ∃ first second logits₁ logits₂ draft₁? draft₂?,
    hidden.slice 0 n = .ok first ∧ hidden.slice n batch = .ok second ∧
    AnyHead.forward ⟨.f32, h⟩ ⟨.f32, first⟩ = .ok (⟨.f32, logits₁⟩, draft₁?) ∧
    AnyHead.forward ⟨.f32, h⟩ ⟨.f32, second⟩ = .ok (⟨.f32, logits₂⟩, draft₂?) ∧
    Tensor.concat 0 [logits₁, logits₂] = .ok logits ∧
    ∀ draft, draft? = some draft → ∃ draft₁ draft₂, draft₁? = some draft₁ ∧ draft₂? = some draft₂ ∧
      Tensor.concat 0 [draft₁, draft₂] = .ok draft

section Forward

/-- A head on a worker of its own, and a branching list for it. -/
structure Standalone (h : LanguageHead Float32 Float) (ks : List Nat) : Prop where
  wired : h.Wired .single
  group : h.speculator.group = .single
  word : h.speculator.sizes.vocab < wordCount
  branches : h.speculator.Branches ks

variable {ks : List Nat} {batch : Nat} {hidden : Tensor Float32}

theorem Standalone.exists_forward (alone : h.Standalone ks)
    (hshape : hidden.shape = [batch, h.speculator.sizes.emb]) (hbatch : 0 < batch) :
    ∃ logits draft?,
      AnyHead.forward ⟨.f32, h.withBranching ks⟩ ⟨.f32, hidden⟩ = .ok (⟨.f32, logits⟩, draft?) ∧
      h.OfRows hidden.rows logits draft? := by
  obtain ⟨logits, draft?, hrun, hrows⟩ :=
    simulate_forward alone.wired (Or.inl rfl) alone.word alone.branches hshape hbatch
  refine ⟨logits, draft?, ?_, hrows⟩
  have hself : AnyTensor.as? .f32 ⟨.f32, hidden⟩ = some hidden := dif_pos rfl
  have hgroup : (h.withBranching ks).speculator.group = .single := alone.group
  unfold AnyHead.forward
  rw [hself]
  dsimp only
  rw [hgroup, hrun]
  rfl

theorem Standalone.draftAlone (alone : h.Standalone ks)
    (hshape : hidden.shape = [batch, h.speculator.sizes.emb]) {logits draft : Tensor Float32}
    (hrows : h.OfRows hidden.rows logits (some draft)) {b : Nat} (hb : b < batch) :
    DraftAlone (h.withBranching ks).speculator hidden logits draft b := by
  have hlt : b < hidden.rows.length := by rwa [Tensor.length_rows hshape]
  have hx : hidden.rows[b]? = some hidden.rows[b] := List.getElem?_eq_getElem hlt
  generalize hidden.rows[b] = x at hx
  obtain ⟨one, hone, honestack⟩ := (Tensor.isMatrix_of_shape hshape).isStack.slice_one hx
  obtain ⟨part, hpart, hpartstack⟩ := (hrows.draft draft rfl).slice_one (b := b) (x := h.draftRow x)
    (by rw [List.getElem?_map, hx]; rfl)
  have hrow : h.logitRow x ≠ [] := by
    refine List.ne_nil_of_length_pos ?_
    rw [length_logitRow alone.wired]
    exact alone.wired.speculator.positive.vocab
  obtain ⟨y, hleads⟩ := leads_argmax hrow
  refine ⟨one, part, h.logitRow x, argmax (h.logitRow x), y, hone, hpart, ?_, hleads,
    fun tokens hplaces hinteger hdata => ?_⟩
  · rw [hrows.logits.rows_eq, List.getElem?_map, hx]
    rfl
  · have ready : (h.speculator.withBranching ks).Ready 1 one.shape tokens :=
      ⟨alone.branches.count, alone.branches.range, honestack.shape, hplaces, hinteger⟩
    obtain ⟨d, hd, hdstack⟩ := Model.simulate_forward rfl (Or.inl rfl) alone.word
      alone.wired.speculator ready Nat.zero_lt_one fun e _ t ht => by
        rw [hdata] at ht
        obtain rfl := List.mem_singleton.mp ht
        exact Embedding.takes_of_lt (nextToken_lt alone.wired x)
    rw [honestack.isMatrix.rows_eq, hdata] at hdstack
    obtain rfl := hdstack.unique hpartstack
    rw [Model.any_forward_eq]
    change (Model.forward _ one tokens).simulate h.speculator.group = .ok d
    rw [alone.group]
    exact hd

theorem Standalone.exists_part (alone : h.Standalone ks)
    (hshape : hidden.shape = [batch, h.speculator.sizes.emb]) {start stop : Nat}
    (hlt : start < stop) (hstop : stop ≤ batch) :
    ∃ part logits draft?, hidden.slice start stop = .ok part ∧
      AnyHead.forward ⟨.f32, h.withBranching ks⟩ ⟨.f32, part⟩ = .ok (⟨.f32, logits⟩, draft?) ∧
      h.OfRows ((hidden.rows.drop start).take (stop - start)) logits draft? := by
  have hrows : hidden.rows.length = batch := Tensor.length_rows hshape
  obtain ⟨part, hpart, hstack⟩ := (Tensor.isMatrix_of_shape hshape).isStack.slice_eq
    (Nat.le_of_lt hlt) (by rwa [hrows])
  have hpartshape : part.shape = [stop - start, h.speculator.sizes.emb] := by
    rw [hstack.shape, List.length_take, List.length_drop, hrows, Nat.min_eq_left (by omega)]
  obtain ⟨logits, draft?, hrun, hparts⟩ := alone.exists_forward hpartshape (by omega)
  rw [hstack.isMatrix.rows_eq] at hparts
  exact ⟨part, logits, draft?, hpart, hrun, hparts⟩

/-- **A batch in two parts** has the logits and the draft of the whole. -/
theorem Standalone.splitsAt (alone : h.Standalone ks)
    (hshape : hidden.shape = [batch, h.speculator.sizes.emb]) {logits : Tensor Float32}
    {draft? : Option (Tensor Float32)} (hrows : h.OfRows hidden.rows logits draft?) {n : Nat}
    (hn : 0 < n) (hnb : n < batch) :
    SplitsAt (h.withBranching ks) batch hidden logits draft? n := by
  obtain ⟨first, logits₁, draft₁?, hfirst, hrun₁, hrows₁⟩ :=
    alone.exists_part hshape hn (Nat.le_of_lt hnb)
  obtain ⟨second, logits₂, draft₂?, hsecond, hrun₂, hrows₂⟩ :=
    alone.exists_part hshape hnb (le_refl batch)
  have hparts : (hidden.rows.drop 0).take (n - 0) ++ (hidden.rows.drop n).take (batch - n) =
      hidden.rows := by
    rw [List.drop_zero, Nat.sub_zero, List.take_of_length_le (l := hidden.rows.drop n),
      List.take_append_drop]
    rw [List.length_drop, Tensor.length_rows hshape]
  obtain ⟨hlogits, hdraft⟩ := hrows₁.concat_eq hrows₂ (hparts.symm ▸ hrows)
  exact ⟨first, second, logits₁, logits₂, draft₁?, draft₂?, hfirst, hsecond, hrun₁, hrun₂, hlogits,
    hdraft⟩

end Forward

section Rowwise

/-- What a head gives for a batch, in terms of its rows. -/
structure Rowwise (c : Config) (policy : Policy Float) (h : LanguageHead Float32 Float)
    (weight : Tensor Float32) (batch : Nat) (hidden logits : Tensor Float32)
    (draft? : Option (Tensor Float32)) : Prop where
  /-- The logits are the products of the rows with the weight. -/
  products : logits.IsMatrix c.vocabSize (hidden.rows.map (Tensor.timesWeight innerProduct weight))
  /-- The size of the batch alone decides whether there is a draft. -/
  speculates : draft?.isSome = true ↔ batch ≤ policy.maxBatch
  shape : ∀ draft, draft? = some draft → draft.shape = [batch, policy.headCount c, c.vocabSize]
  alone : ∀ draft, draft? = some draft → ∀ b < batch,
    DraftAlone h.speculator hidden logits draft b
  parts : ∀ n, 0 < n → n < batch → SplitsAt h batch hidden logits draft? n

variable {c : Config} {policy : Policy Float} {read : Reader Float32}

end Rowwise

end LanguageHead

end DraftHeads
