import DraftHeads.Proofs.Draft.Building

/-! # Inputs of a run

* `Branches`: a branching list for the heads of a model.
* `Ready`, `accept_eq_ok_iff`: what a model accepts.
* `Inputs`: hidden states and tokens of the vocabulary; `Inputs.ready`: a model accepts them, and
  `Inputs.token_lt`: they are tokens of the vocabulary also in the format that the heads take. -/

namespace DraftHeads

variable {α π : Type}

/-! ### Tokens -/

theorem ofInt_natCast (n : Nat) : UInt32.ofInt (n : Int) = UInt32.ofNat n := by
  apply UInt32.toNat_inj.mp
  rw [UInt32.ofInt, UInt32.toNat_ofNat', UInt32.toNat_ofNat']
  omega

theorem cast_data_eq {tokens : AnyTensor} {ids : Tensor Int} (h : tokens.integers? = some ids) :
    (tokens.cast .u32).data = ids.data.map UInt32.ofInt := by
  obtain ⟨d, t⟩ := tokens
  cases d with
  | u8 =>
    cases h
    simp [AnyTensor.cast, AnyTensor.as?, DType.convert, DType.integer?, DType.ofInteger]
  | u32 =>
    cases h
    have hself : (UInt32.ofInt ∘ fun x : UInt32 => (x.toNat : Int)) = id := funext fun x => by
      rw [Function.comp, ofInt_natCast, UInt32.ofNat_toNat]; rfl
    simp [AnyTensor.cast, AnyTensor.as?, DType.integer?, hself]
  | i64 =>
    cases h
    simp [AnyTensor.cast, AnyTensor.as?, DType.convert, DType.integer?, DType.ofInteger]
  | f16 => cases h
  | bf16 => cases h
  | f32 => cases h
  | f64 => cases h

theorem shape_cast (d : DType) (t : AnyTensor) : (t.cast d).shape = t.shape := by
  obtain ⟨e, t⟩ := t
  unfold AnyTensor.cast AnyTensor.as?
  by_cases h : e = d
  · subst h
    simp [AnyTensor.shape]
  · simp [h, AnyTensor.shape]

theorem integers_shape {tokens : AnyTensor} {ids : Tensor Int} (h : tokens.integers? = some ids) :
    tokens.shape = ids.shape ∧ tokens.dtype.isFloat = false := by
  unfold AnyTensor.integers? at h
  split_ifs at h with hfloat
  cases h
  exact ⟨rfl, Bool.not_eq_true _ ▸ hfloat⟩

namespace Model

/-! ### What a model accepts -/

/-- A branching list for the heads of a model: one factor for each head, between one and the size of
the vocabulary. -/
structure Branches (m : Model α π) (ks : List Nat) : Prop where
  count : ks.length = m.heads
  range : ∀ k ∈ ks, 0 < k ∧ k ≤ m.sizes.vocab

theorem branches_of_build [Analytic π] {c : Config} {policy : Policy π} {read : Reader α}
    {g : Group} {m : Model α π} (h : build c policy read g = .ok m) {ks : List Nat} :
    m.Branches ks ↔ ks.length = policy.headCount c ∧ ∀ k ∈ ks, 0 < k ∧ k ≤ c.vocabSize := by
  obtain ⟨-, -, p, -, rfl⟩ := build_eq_ok_iff.mp h
  exact ⟨fun ⟨count, range⟩ => ⟨count, range⟩, fun ⟨count, range⟩ => ⟨count, range⟩⟩

theorem checkBranching_eq_ok_iff {vocab : Nat} : ∀ {ks : List Nat} {head : Nat},
    checkBranching vocab head ks = .ok () ↔ ∀ k ∈ ks, 0 < k ∧ k ≤ vocab
  | [], head => by simp [checkBranching]
  | k :: ks, head => by
    have ih : checkBranching vocab (head + 1) ks = .ok () ↔ ∀ k ∈ ks, 0 < k ∧ k ≤ vocab :=
      checkBranching_eq_ok_iff
    rw [checkBranching, List.forall_mem_cons, ← ih]
    split_ifs with h
    · constructor
      · intro hok; cases hok
      · intro hok; omega
    · refine ⟨fun hok => ⟨by omega, hok⟩, fun hok => hok.2⟩

/-- The inputs that a model runs on: a branching factor for each head, between one and the size of
the vocabulary, and a hidden state and an integer token for each row of the batch. -/
structure Ready (m : Model α π) (batch : Nat) (hidden : List Nat) (tokens : AnyTensor) : Prop where
  count : m.branching.length = m.heads
  range : ∀ k ∈ m.branching, 0 < k ∧ k ≤ m.sizes.vocab
  states : hidden = [batch, m.sizes.emb]
  places : tokens.shape = [batch]
  integers : tokens.dtype.isFloat = false

/-- **A model accepts the inputs that it is ready for**, and no others. -/
theorem accept_eq_ok_iff {m : Model α π} {hidden : List Nat} {tokens : AnyTensor} {batch : Nat} :
    m.accept hidden tokens = .ok batch ↔ m.Ready batch hidden tokens := by
  unfold accept
  simp only [throw_bind, ite_error_eq_ok, bind_eq_ok, mapError_eq_ok]
  constructor
  · rintro ⟨hcount, _, hrange, haccept⟩
    split at haccept
    · simp only [ite_error_eq_ok, not_not, Bool.not_eq_true, pure_eq_ok] at haccept
      obtain ⟨hwidth, htokens, hfloat, rfl⟩ := haccept
      exact ⟨not_not.mp hcount, checkBranching_eq_ok_iff.mp hrange, by rw [hwidth], htokens, hfloat⟩
    · cases haccept
  · rintro ⟨hcount, hrange, rfl, htokens, hfloat⟩
    refine ⟨not_not.mpr hcount, (), checkBranching_eq_ok_iff.mpr hrange, ?_⟩
    simp [htokens, hfloat]

theorem Wired.withBranching {m : Model α π} {g : Group} (wired : m.Wired g) (ks : List Nat) :
    (m.withBranching ks).Wired g :=
  ⟨wired.heads_pos, wired.positive, wired.inputNorm, wired.count, wired.selects, wired.fits⟩

theorem Ready.withBranching {m : Model α π} {ks ks' : List Nat} {batch : Nat} {hidden : List Nat}
    {tokens : AnyTensor} (ready : (m.withBranching ks).Ready batch hidden tokens)
    (branches : m.Branches ks') : (m.withBranching ks').Ready batch hidden tokens :=
  ⟨branches.count, branches.range, ready.states, ready.places, ready.integers⟩

/-- The inputs of a run on a batch that is not empty: a hidden state for each row, and as its token
an integer that stands for a token of the vocabulary. -/
structure Inputs (sizes : Sizes) (batch : Nat) (hidden : List Nat) (tokens : AnyTensor)
    (ids : Tensor Int) : Prop where
  batch_pos : 0 < batch
  states : hidden = [batch, sizes.emb]
  integers : tokens.integers? = some ids
  places : ids.shape = [batch]
  range : ∀ i ∈ ids.data, 0 ≤ i ∧ i < sizes.vocab

section Inputs

variable {m : Model α π} {sizes : Sizes} {ks : List Nat} {batch : Nat} {hidden : List Nat}
  {tokens : AnyTensor} {ids : Tensor Int}

theorem Inputs.ready (inputs : Inputs m.sizes batch hidden tokens ids) (branches : m.Branches ks) :
    (m.withBranching ks).Ready batch hidden tokens := by
  obtain ⟨hshape, hformat⟩ := integers_shape inputs.integers
  exact ⟨branches.count, branches.range, inputs.states, hshape.trans inputs.places, hformat⟩

theorem Inputs.token_lt (inputs : Inputs sizes batch hidden tokens ids) :
    ∀ t ∈ (tokens.cast .u32).data, t.toNat < sizes.vocab := fun t ht => by
  rw [cast_data_eq inputs.integers] at ht
  obtain ⟨i, hi, rfl⟩ := List.mem_map.mp ht
  obtain ⟨hnonneg, hlt⟩ := inputs.range i hi
  obtain ⟨k, rfl⟩ := Int.eq_ofNat_of_zero_le hnonneg
  rw [ofInt_natCast, UInt32.toNat_ofNat']
  have := Nat.mod_le k (2 ^ 32)
  omega

end Inputs

end Model

end DraftHeads
