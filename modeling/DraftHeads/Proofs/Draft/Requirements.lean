import DraftHeads.Proofs.Draft.Reading
import DraftHeads.Proofs.Draft.Refusal

/-! # What a model is built from

Configuration and policy are checked before any tensor is looked for. After that it is only the
names and the shapes of some tensors that count.

* `Plan`: a configuration and a policy that go together; `Misplanned`: the fault that is reported if
  they do not. `checkPlan_eq_ok_iff` and `checkPlan_eq_error_iff` tell them apart.
* `Parameters.required`: the names and shapes of the tensors of a number of heads, which are those
  of their slots (`Parameters.mem_required_iff`).
* `Parameters.AllUsed`: the slots cover the parameters that were read; `Parameters.load_allUsed`.
* `Model.build_iff_required`: when a model is built from tensors in memory, and what happens if not.
-/

namespace DraftHeads

variable {α π : Type}

/-! ### Plans -/

namespace Model

/-- A configuration and a policy that go together: there is a vocabulary, there are hidden states
and heads, and the branching list has an entry for each head that runs, between one and the size of
the vocabulary. -/
structure Plan (c : Config) (policy : Policy π) : Prop where
  heads : c.headCount ≠ 0
  vocab : c.vocabSize ≠ 0
  emb : c.embDim ≠ 0
  tokens : policy.headCount c ≠ 0
  count : (policy.branching (policy.headCount c)).length = policy.headCount c
  range : ∀ k ∈ policy.branching (policy.headCount c), 0 < k ∧ k ≤ c.vocabSize

/-- What is wrong with a configuration and a policy. A fault is reported only if there is none of
those before it. -/
inductive Misplanned (c : Config) (policy : Policy π) : ConfigFault → Prop
  | noHeads (heads : c.headCount = 0) : Misplanned c policy .noHeads
  | noVocabulary (heads : c.headCount ≠ 0) (vocab : c.vocabSize = 0) :
    Misplanned c policy .noVocabulary
  | noEmbedding (heads : c.headCount ≠ 0) (vocab : c.vocabSize ≠ 0) (emb : c.embDim = 0) :
    Misplanned c policy .noEmbedding
  | noTokens (valid : c.validate = .ok ()) (tokens : policy.headCount c = 0) :
    Misplanned c policy .noTokens
  | branchCount (valid : c.validate = .ok ()) (tokens : policy.headCount c ≠ 0)
    (count : (policy.branching (policy.headCount c)).length ≠ policy.headCount c) :
    Misplanned c policy
      (.branchCount (policy.headCount c) (policy.branching (policy.headCount c)).length)
  | branchRange (valid : c.validate = .ok ()) (tokens : policy.headCount c ≠ 0)
    (count : (policy.branching (policy.headCount c)).length = policy.headCount c) (i k : Nat)
    (entry : (policy.branching (policy.headCount c))[i]? = some k)
    (outside : k = 0 ∨ c.vocabSize < k)
    (first : ∀ k' ∈ (policy.branching (policy.headCount c)).take i, 0 < k' ∧ k' ≤ c.vocabSize) :
    Misplanned c policy (.branchRange i c.vocabSize k)

variable {c : Config} {policy : Policy π}

theorem validate_eq_ok_iff :
    c.validate = .ok () ↔ c.headCount ≠ 0 ∧ c.vocabSize ≠ 0 ∧ c.embDim ≠ 0 := by
  unfold Config.validate
  split_ifs with hheads hvocab hemb <;> simp [*]

theorem checkPlan_eq (valid : c.validate = .ok ()) (tokens : policy.headCount c ≠ 0) :
    checkPlan c (policy.headCount c) policy.branching? =
      if (policy.branching (policy.headCount c)).length ≠ policy.headCount c then
        .error (.branchCount (policy.headCount c) (policy.branching (policy.headCount c)).length)
      else checkBranching c.vocabSize 0 (policy.branching (policy.headCount c)) := by
  unfold checkPlan Policy.branching
  rw [valid, if_neg tokens]
  cases hlist : policy.branching? with
  | none =>
    have hones : checkBranching c.vocabSize 0 (List.replicate (policy.headCount c) 1) = .ok () :=
      checkBranching_eq_ok_iff.mpr fun k hk => by
        have hvocab := (validate_eq_ok_iff.mp valid).2.1
        rw [List.eq_of_mem_replicate hk]
        omega
    rw [Option.getD_none, if_neg (not_not.mpr List.length_replicate), hones]
    rfl
  | some ks => rfl

/-- **A plan passes the checks**, and nothing else does. -/
theorem checkPlan_eq_ok_iff :
    checkPlan c (policy.headCount c) policy.branching? = .ok () ↔ Plan c policy := by
  constructor
  · intro h
    obtain ⟨htokens, -⟩ := checkPlan_ok h
    obtain ⟨_, hvalid, -⟩ := bind_eq_ok.mp h
    rw [checkPlan_eq hvalid htokens.ne', ite_error_eq_ok, checkBranching_eq_ok_iff, not_not] at h
    obtain ⟨hheads, hvocab, hemb⟩ := validate_eq_ok_iff.mp hvalid
    exact ⟨hheads, hvocab, hemb, htokens.ne', h.1, h.2⟩
  · rintro ⟨hheads, hvocab, hemb, htokens, hcount, hrange⟩
    rw [checkPlan_eq (validate_eq_ok_iff.mpr ⟨hheads, hvocab, hemb⟩) htokens, ite_error_eq_ok,
      checkBranching_eq_ok_iff, not_not]
    exact ⟨hcount, hrange⟩

theorem plan_of_none (valid : c.validate = .ok ()) (tokens : policy.headCount c ≠ 0)
    (none : policy.branching? = none) : Plan c policy := by
  refine checkPlan_eq_ok_iff.mp ?_
  unfold checkPlan
  rw [valid, if_neg tokens, none]
  rfl

theorem Misplanned.checkPlan_eq {cause : ConfigFault} (h : Misplanned c policy cause) :
    checkPlan c (policy.headCount c) policy.branching? = .error cause := by
  cases h with
  | noHeads heads =>
    unfold checkPlan Config.validate
    rw [if_pos heads]
    rfl
  | noVocabulary heads vocab =>
    unfold checkPlan Config.validate
    rw [if_neg heads, if_pos vocab]
    rfl
  | noEmbedding heads vocab emb =>
    unfold checkPlan Config.validate
    rw [if_neg heads, if_neg vocab, if_pos emb]
    rfl
  | noTokens valid tokens =>
    unfold checkPlan
    rw [valid, if_pos tokens]
    rfl
  | branchCount valid tokens count => rw [Model.checkPlan_eq valid tokens, if_pos count]
  | branchRange valid tokens count i k entry outside first =>
    rw [Model.checkPlan_eq valid tokens, if_neg (not_not.mpr count)]
    exact checkBranching_eq_error_iff.mpr ⟨i, k, entry, outside, first,
      congrArg (ConfigFault.branchRange · _ _) (Nat.zero_add i).symm⟩

/-- **What fails the checks**, and the fault that is reported. -/
theorem checkPlan_eq_error_iff {cause : ConfigFault} :
    checkPlan c (policy.headCount c) policy.branching? = .error cause ↔
      Misplanned c policy cause := by
  refine ⟨fun h => ?_, Misplanned.checkPlan_eq⟩
  cases hvalid : c.validate with
  | error e =>
    unfold checkPlan at h
    rw [hvalid] at h
    cases h
    unfold Config.validate at hvalid
    split_ifs at hvalid with hheads hvocab hemb <;> cases hvalid
    · exact .noHeads hheads
    · exact .noVocabulary hheads hvocab
    · exact .noEmbedding hheads hvocab hemb
  | ok _ =>
    by_cases htokens : policy.headCount c = 0
    · unfold checkPlan at h
      rw [hvalid, if_pos htokens] at h
      cases h
      exact .noTokens hvalid htokens
    · rw [checkPlan_eq hvalid htokens] at h
      split_ifs at h with hcount
      · cases h
        exact .branchCount hvalid htokens hcount
      · obtain ⟨i, k, hk, houtside, hfirst, rfl⟩ := checkBranching_eq_error_iff.mp h
        rw [Nat.zero_add]
        exact .branchRange hvalid htokens (not_not.mp hcount) i k hk houtside hfirst

end Model

/-! ### Tensors that have to be there -/

/-- The name and the shape of a tensor. -/
abbrev Requirement : Type := String × List Nat

/-- The reader gives a tensor of this name and shape. -/
def Reader.Gives (read : Reader α) (r : Requirement) : Prop := ∃ t, read r.1 r.2 = .ok t

/-- A tensor of this name and shape is among some tensors in memory. -/
def Weights.Holds (entries : List (String × AnyTensor)) (r : Requirement) : Prop :=
  (entries.find? fun e => e.1 == r.1).map (fun e => e.2.shape) = some r.2

instance (entries : List (String × AnyTensor)) (r : Requirement) :
    Decidable (Weights.Holds entries r) :=
  inferInstanceAs (Decidable (_ = _))

/-- **What is in memory with the right shape is read**, whatever its format, and nothing else. -/
theorem Weights.gives_memory_iff {d : DType} {entries : List (String × AnyTensor)}
    {r : Requirement} : ((memory entries).reader d).Gives r ↔ Holds entries r := by
  unfold Reader.Gives Holds reader
  dsimp only
  cases entries.find? fun e => e.1 == r.1 with
  | none => simp
  | some e => simp [fit_eq_ok_iff]

theorem Embedding.exists_load_single_iff {vocab hidden : Nat} {read : Reader α} :
    (∃ e, Embedding.load vocab hidden read .single = .ok e) ↔
      read.Gives ("weight", [vocab, hidden]) := by
  unfold Embedding.load Reader.Gives
  rw [if_pos (show Group.single.isSingle = true from rfl)]
  cases read "weight" [vocab, hidden] <;> simp

theorem Projection.exists_load_single_iff {inputs outputs : Nat} {read : Reader α} :
    (∃ p, Projection.load inputs outputs read .single = .ok p) ↔
      read.Gives ("weight", [outputs, inputs]) := by
  unfold Projection.load Reader.Gives
  rw [if_pos (show Group.single.isSingle = true from rfl)]
  cases read "weight" [outputs, inputs] <;> simp

theorem Norm.exists_load_iff {width : Nat} {eps : π} {read : Reader α} :
    (∃ n, Norm.load width eps read = .ok n) ↔
      read.Gives ("weight", [width]) ∧ read.Gives ("bias", [width]) := by
  unfold Norm.load Reader.Gives
  simp only [bind_eq_ok, pure_eq_ok]
  constructor
  · rintro ⟨n, weight, hweight, bias, hbias, -⟩
    exact ⟨⟨weight, hweight⟩, bias, hbias⟩
  · rintro ⟨⟨weight, hweight⟩, bias, hbias⟩
    exact ⟨_, weight, hweight, bias, hbias, rfl⟩

namespace Parameters

variable {sizes : Sizes} {eps : π} {read : Reader α} {g : Group}

/-- The tensors that the parameters of a slot are made of. -/
def slotTensors (sizes : Sizes) (s : Slot) : List Requirement :=
  [(entryName "emb" s.embedding "weight", [sizes.vocab, sizes.inner]),
    (entryName "proj" s.stateProjection "weight",
      [sizes.inner, inputWidth sizes s.stateProjection]),
    (entryName "head" s.outputProjection "weight", [sizes.vocab, sizes.inner]),
    (entryName "ln" s.norm "weight", [sizes.inner]),
    (entryName "ln" s.norm "bias", [sizes.inner])]

/-- The tensors of the head with a number, if it shares none of them. -/
def headTensors (sizes : Sizes) (i : Nat) : List Requirement := slotTensors sizes ⟨i, i, i, i⟩

/-- **The tensors of a number of heads**: those of each head, or if they share their weights those
of the first one and, if there are several, one more state projection. -/
def required (tied : Bool) (heads : Nat) (sizes : Sizes) : List Requirement :=
  if tied then
    headTensors sizes 0 ++
      if 1 < heads then [(entryName "proj" 1 "weight", [sizes.inner, sizes.inner])] else []
  else (List.range heads).flatMap (headTensors sizes)

/-- What is read for the third of three heads in the shapes of some sizes. -/
example : headTensors ⟨7, 5, 3⟩ 2 = [("emb.2.weight", [7, 3]), ("proj.2.weight", [3, 3]),
    ("head.2.weight", [7, 3]), ("ln.2.weight", [3]), ("ln.2.bias", [3])] := by decide

/-- **The parameters of a slot are read** if its tensors are there. -/
theorem exists_loaded_iff {slot : Slot} :
    (∃ s : Single α π, Loaded sizes eps read .single slot s) ↔
      ∀ r ∈ slotTensors sizes slot, read.Gives r := by
  have hemb : (∃ e, loadEmbedding sizes read .single slot.embedding = .ok e) ↔ _ :=
    Embedding.exists_load_single_iff
  have hproj : (∃ p, loadStateProjection sizes read .single slot.stateProjection = .ok p) ↔ _ :=
    Projection.exists_load_single_iff
  have hout : (∃ p, loadOutputProjection sizes read .single slot.outputProjection = .ok p) ↔ _ :=
    Projection.exists_load_single_iff
  have hnorm : (∃ n, loadNorm sizes eps read slot.norm = .ok n) ↔
      read.Gives (entryName "ln" slot.norm "weight", [sizes.inner]) ∧
        read.Gives (entryName "ln" slot.norm "bias", [sizes.inner]) := by
    unfold loadNorm
    simp only [mapError_eq_ok]
    exact Norm.exists_load_iff
  simp only [slotTensors, List.forall_mem_cons, List.not_mem_nil, false_imp_iff, implies_true,
    and_true]
  constructor
  · rintro ⟨s, hs⟩
    obtain ⟨hweight, hbias⟩ := hnorm.mp ⟨_, hs.norm⟩
    exact ⟨hemb.mp ⟨_, hs.embedding⟩, hproj.mp ⟨_, hs.stateProjection⟩,
      hout.mp ⟨_, hs.outputProjection⟩, hweight, hbias⟩
  · rintro ⟨hgives, hgives', hgives'', hweight, hbias⟩
    obtain ⟨e, he⟩ := hemb.mpr hgives
    obtain ⟨p, hp⟩ := hproj.mpr hgives'
    obtain ⟨q, hq⟩ := hout.mpr hgives''
    obtain ⟨n, hn⟩ := hnorm.mpr ⟨hweight, hbias⟩
    exact ⟨⟨e, p, q, n⟩, he, hp, hq, hn⟩

theorem mem_required_iff {tied : Bool} {heads : Nat} (hpos : 0 < heads) {r : Requirement} :
    r ∈ required tied heads sizes ↔ ∃ s ∈ slotsOf tied heads, r ∈ slotTensors sizes s := by
  cases tied with
  | false => simp [required, slotsOf, untiedSlots, headTensors]
  | true =>
    simp only [required, slotsOf, if_true, List.mem_append]
    constructor
    · rintro (hfirst | hsecond)
      · exact ⟨⟨0, 0, 0, 0⟩, List.mem_of_getElem? (getElem?_tiedSlots hpos), hfirst⟩
      · split_ifs at hsecond with hmany
        · refine ⟨⟨0, 1, 0, 0⟩, List.mem_of_getElem? (getElem?_tiedSlots hmany), ?_⟩
          rw [List.mem_singleton.mp hsecond]
          simp [slotTensors, inputWidth]
        · cases hsecond
    · rintro ⟨s, hs, hr⟩
      obtain ⟨i, hi, rfl⟩ := List.mem_map.mp hs
      rw [List.mem_range] at hi
      rcases Nat.eq_zero_or_pos i with rfl | hi'
      · exact Or.inl hr
      · -- all but the state projection are those of the first head
        rw [show min i 1 = 1 by omega] at hr
        rw [if_pos (by omega)]
        simp only [slotTensors, headTensors, List.mem_cons, List.not_mem_nil, or_false] at hr ⊢
        simp only [inputWidth, Nat.one_ne_zero, if_false] at hr
        tauto

/-! ### Parameters that are used -/

/-- Places among a number of things: every place is one of theirs, and each of them has a place. -/
structure Covers (slots : List Slot) (place : Slot → Nat) (count : Nat) : Prop where
  inside : ∀ s ∈ slots, place s < count
  used : ∀ i < count, ∃ s ∈ slots, place s = i

/-- The slots of parameters cover them, kind by kind. -/
structure AllUsed (p : Parameters α π) : Prop where
  embeddings : Covers p.slots Slot.embedding p.embeddings.length
  stateProjections : Covers p.slots Slot.stateProjection p.stateProjections.length
  outputProjections : Covers p.slots Slot.outputProjection p.outputProjections.length
  norms : Covers p.slots Slot.norm p.norms.length

theorem covers_untiedSlots {place : Slot → Nat} (h : ∀ i, place ⟨i, i, i, i⟩ = i) (heads : Nat) :
    Covers (untiedSlots heads) place heads where
  inside s hs := by
    obtain ⟨i, hi, rfl⟩ := List.mem_map.mp hs
    rw [h]
    exact List.mem_range.mp hi
  used i hi := ⟨_, List.mem_of_getElem? (getElem?_untiedSlots hi), h i⟩

theorem covers_tiedSlots {place : Slot → Nat} (h : ∀ i, place ⟨0, i, 0, 0⟩ = 0) {heads : Nat}
    (hpos : 0 < heads) : Covers (tiedSlots heads) place 1 where
  inside s hs := by
    obtain ⟨i, -, rfl⟩ := List.mem_map.mp hs
    rw [h]
    exact Nat.zero_lt_one
  used i hi := ⟨_, List.mem_of_getElem? (getElem?_tiedSlots hpos), by rw [h]; omega⟩

theorem covers_stateProjections (heads : Nat) :
    Covers (tiedSlots heads) Slot.stateProjection (min heads 2) where
  inside s hs := by
    obtain ⟨i, hi, rfl⟩ := List.mem_map.mp hs
    rw [List.mem_range] at hi
    change min i 1 < min heads 2
    omega
  used i hi := by
    refine ⟨_, List.mem_of_getElem? (getElem?_tiedSlots (show i < heads by omega)), ?_⟩
    change min i 1 = i
    omega

/-- **Every parameter that is read is used**, and every head finds its parameters. -/
theorem load_allUsed {tied : Bool} {heads : Nat} (hpos : 0 < heads) {p : Parameters α π}
    (h : load tied heads sizes eps read g = .ok p) : p.slots.length = heads ∧ p.AllUsed := by
  refine ⟨by rw [(load_ok h).1, length_slotsOf], ?_⟩
  cases tied with
  | false =>
    obtain ⟨-, singles, hsingles, rfl⟩ := loadUntied_eq_ok_iff.mp h
    have hlen : singles.length = heads := by rw [← hsingles.length_eq, List.length_range]
    constructor <;> rw [List.length_map, hlen] <;> exact covers_untiedSlots (fun _ => rfl) heads
  | true =>
    obtain ⟨-, e, projections, o, n, -, hprojections, -, -, rfl⟩ := loadTied_eq_ok_iff.mp h
    have hlen : projections.length = min heads 2 := by
      rw [← hprojections.length_eq, List.length_range]
    refine ⟨covers_tiedSlots (fun _ => rfl) hpos, ?_, covers_tiedSlots (fun _ => rfl) hpos,
      covers_tiedSlots (fun _ => rfl) hpos⟩
    rw [hlen]
    exact covers_stateProjections heads

end Parameters

/-! ### When a model is built -/

namespace Model

variable [Analytic π] {c : Config} {policy : Policy π} {read : Reader α} {g : Group}

theorem Misplanned.build_eq {cause : ConfigFault} (h : Misplanned c policy cause) :
    build c policy read g = .error (.configuration cause) := by
  unfold build
  dsimp only
  rw [h.checkPlan_eq]
  rfl

/-- More heads than a list of branching factors can have entries end the program before anything is
read. -/
theorem Plan.build_tooLarge (plan : Plan c policy)
    (hlarge : maxBytes < policy.headCount c * factorSize) :
    build c policy read g = .error (.layer (.whole .tooLarge)) := by
  unfold build
  dsimp only
  rw [checkPlan_eq_ok_iff.mpr plan, checkBytes_of_lt hlarge]
  rfl

theorem Plan.build_eq_error (plan : Plan c policy)
    (hbytes : checkBytes (policy.headCount c) factorSize = .ok ()) {e : LayerFault}
    (h : (Parameters.load c.tieWeights (policy.headCount c) (sizesOf c) policy.normEps read g :
      Except _ (Parameters α π)) = .error e) :
    build c policy read g = .error (.layer e) := by
  unfold build
  dsimp only
  rw [checkPlan_eq_ok_iff.mpr plan, hbytes]
  change ((Parameters.load c.tieWeights (policy.headCount c) (sizesOf c) policy.normEps read
    g).mapError Fault.layer >>= _) = _
  rw [h]
  rfl

/-- Heads with weights of their own do so as well if a list of parameters cannot have an entry for
each. -/
theorem Plan.build_untied_tooLarge (plan : Plan c policy) (untied : c.tieWeights = false)
    (hlarge : maxBytes < policy.headCount c * Parameters.slotSize) :
    build c policy read g = .error (.layer (.whole .tooLarge)) := by
  rcases lt_or_ge maxBytes (policy.headCount c * factorSize) with hfactors | hfactors
  · exact plan.build_tooLarge hfactors
  · refine plan.build_eq_error (checkBytes_eq_ok_iff.mpr hfactors) ?_
    rw [untied]
    exact Parameters.loadUntied_tooLarge hlarge

/-- More heads that share their weights than a list of slots can have entries end the program once
the weights are read. -/
theorem Plan.build_tied_tooLarge (plan : Plan c policy) (tied : c.tieWeights = true)
    (hlarge : maxBytes < policy.headCount c * Parameters.slotSize)
    (hread : ∀ r ∈ Parameters.required true (policy.headCount c) (sizesOf c), read.Gives r) :
    build c policy read .single = .error (.layer (.whole .tooLarge)) := by
  rcases lt_or_ge maxBytes (policy.headCount c * factorSize) with hfactors | hfactors
  · exact plan.build_tooLarge hfactors
  · have hpos : 0 < policy.headCount c := Nat.pos_of_ne_zero plan.tokens
    refine plan.build_eq_error (checkBytes_eq_ok_iff.mpr hfactors) ?_
    rw [tied]
    exact Parameters.loadTied_tooLarge hpos hlarge fun slot hslot =>
      Parameters.exists_loaded_iff.mpr fun r hr =>
        hread r ((Parameters.mem_required_iff hpos).mpr ⟨slot, hslot, hr⟩)

/-- **A planned model is built if the required tensors are there**, and no list is too large. -/
theorem Plan.exists_build_iff (plan : Plan c policy) :
    (∃ m, build c policy read .single = .ok m) ↔
      policy.headCount c * Parameters.slotSize ≤ maxBytes ∧
        ∀ r ∈ Parameters.required c.tieWeights (policy.headCount c) (sizesOf c),
          read.Gives r := by
  have hpos : 0 < policy.headCount c := Nat.pos_of_ne_zero plan.tokens
  simp only [Model.exists_build_iff, checkPlan_eq_ok_iff, plan, true_and,
    Parameters.exists_loaded_iff, Parameters.mem_required_iff hpos]
  refine and_congr_right fun _ => ?_
  constructor
  · rintro hall r ⟨s, hs, hr⟩
    exact hall s hs r hr
  · intro hall s hs r hr
    exact hall r ⟨s, hs, hr⟩

/-- **When a model is built.** If configuration and policy do not go together then every reader
meets the same fault. If they do then a model is built from tensors in memory exactly if those that
are required are there in their shapes, whatever their formats are, and it has a slot for each head
and no parameter that no slot uses. Only if there are more heads than a list of slots can have
entries no model is built; then the program ends before anything is read, or once the weights that
the heads share are read if a list of branching factors is not too long. -/
theorem build_iff_required (c : Config) (policy : Policy π) :
    (¬ Plan c policy → ∃ cause, Misplanned c policy cause ∧
      ∀ (α : Type) (read : Reader α) (g : Group),
        build c policy read g = .error (.configuration cause)) ∧
    (Plan c policy → policy.headCount c * Parameters.slotSize ≤ maxBytes →
      ∀ (d : DType) (entries : List (String × AnyTensor)),
        ((∃ m, build c policy ((Weights.memory entries).reader d) .single = .ok m) ↔
          ∀ r ∈ Parameters.required c.tieWeights (policy.headCount c) (sizesOf c),
            Weights.Holds entries r) ∧
        ∀ m, build c policy ((Weights.memory entries).reader d) .single = .ok m →
          m.parameters.slots.length = policy.headCount c ∧ m.parameters.AllUsed) ∧
    (Plan c policy → maxBytes < policy.headCount c * Parameters.slotSize →
      (∀ (α : Type) (read : Reader α) (g : Group), ¬ ∃ m, build c policy read g = .ok m) ∧
      (c.tieWeights = false ∨ maxBytes < policy.headCount c * factorSize →
        ∀ (α : Type) (read : Reader α) (g : Group),
          build c policy read g = .error (.layer (.whole .tooLarge))) ∧
      (c.tieWeights = true → ∀ (d : DType) (entries : List (String × AnyTensor)),
        (∀ r ∈ Parameters.required true (policy.headCount c) (sizesOf c),
          Weights.Holds entries r) →
        build c policy ((Weights.memory entries).reader d) .single =
          .error (.layer (.whole .tooLarge)))) := by
  refine ⟨fun hplan => ?_, fun plan hbytes d entries => ⟨?_, fun m hm => ?_⟩,
    fun plan hlarge => ⟨fun α read g hbuilt => ?_, fun hearly α read g => ?_,
      fun tied d entries hholds => ?_⟩⟩
  · cases hcheck : checkPlan c (policy.headCount c) policy.branching? with
    | ok _ => exact absurd (checkPlan_eq_ok_iff.mp hcheck) hplan
    | error cause =>
      have misplanned := checkPlan_eq_error_iff.mp hcheck
      exact ⟨cause, misplanned, fun _ _ _ => misplanned.build_eq⟩
  · rw [plan.exists_build_iff, and_iff_right hbytes]
    simp only [Weights.gives_memory_iff]
  · obtain ⟨-, -, p, hp, rfl⟩ := build_eq_ok_iff.mp hm
    exact Parameters.load_allUsed (Nat.pos_of_ne_zero plan.tokens) hp
  · exact absurd (Model.exists_build_iff.mp hbuilt).2.1 (not_le.mpr hlarge)
  · rcases hearly with untied | hfactors
    · exact plan.build_untied_tooLarge untied hlarge
    · exact plan.build_tooLarge hfactors
  · exact plan.build_tied_tooLarge tied hlarge fun r hr =>
      Weights.gives_memory_iff.mpr (hholds r hr)

/-- The tensors of one head for four tokens, three numbers wide. -/
def headEntries : List (String × AnyTensor) :=
  [("emb.0.weight", ⟨.f32, Tensor.fill [4, 2] 0⟩), ("proj.0.weight", ⟨.f64, Tensor.fill [2, 3] 0⟩),
    ("head.0.weight", ⟨.f32, Tensor.fill [4, 2] 0⟩), ("ln.0.weight", ⟨.f16, Tensor.fill [2] 0⟩),
    ("ln.0.bias", ⟨.f32, Tensor.fill [2] 0⟩)]

/-- Heads that share their weights, so many that a list with an entry for each would be too long. -/
def countless : Config := ⟨4, 3, 2, 2 ^ 60, true, true, []⟩

/-- The tensors of heads that share their weights. -/
def sharedEntries : List (String × AnyTensor) :=
  ("proj.1.weight", ⟨.f32, Tensor.fill [2, 2] 0⟩) :: headEntries

/-- One of two heads can be built from the tensors of the first one, but not both of them; a list
for two heads is none for one head; and where the list of factors is short enough but that of slots
is not, no model is built. -/
theorem build_iff_required_one :
    (∃ m : Model Float32 Float, build smallConfig ⟨some 1, none, 0, 0⟩
      ((Weights.memory headEntries).reader .f32) .single = .ok m ∧
        m.parameters.slots.length = 1 ∧ m.parameters.AllUsed) ∧
    (¬ ∃ m : Model Float32 Float, build smallConfig ⟨none, none, 0, 0⟩
      ((Weights.memory headEntries).reader .f32) .single = .ok m) ∧
    (∀ (read : Reader Float32) (g : Group),
      (build smallConfig ⟨some 1, some [1, 1], 0, (0 : Float)⟩ read g : Except Fault _) =
        .error (.configuration (.branchCount 1 2))) ∧
    build countless ⟨some (2 ^ 58), none, 0, (0 : Float)⟩
      ((Weights.memory sharedEntries).reader .f32) .single =
        .error (.layer (.whole .tooLarge)) := by
  obtain ⟨-, hone, -⟩ := build_iff_required smallConfig ⟨some 1, none, 0, (0 : Float)⟩
  obtain ⟨-, htwo, -⟩ := build_iff_required smallConfig ⟨none, none, 0, (0 : Float)⟩
  obtain ⟨hother, -⟩ := build_iff_required smallConfig ⟨some 1, some [1, 1], 0, (0 : Float)⟩
  obtain ⟨-, -, hmany⟩ := build_iff_required countless ⟨some (2 ^ 58), none, 0, (0 : Float)⟩
  refine ⟨?_, ?_, ?_, ?_⟩
  · obtain ⟨hbuild, hslots⟩ := hone (plan_of_none rfl (by decide) rfl) (by decide) .f32 headEntries
    obtain ⟨m, hm⟩ := hbuild.mpr (by decide)
    exact ⟨m, hm, hslots m hm⟩
  · intro hm
    obtain ⟨hbuild, -⟩ := htwo (plan_of_none rfl (by decide) rfl) (by decide) .f32 headEntries
    exact absurd (hbuild.mp hm) (by decide)
  · obtain ⟨cause, misplanned, hall⟩ := hother fun plan => absurd plan.count (by decide)
    obtain rfl : cause = .branchCount 1 2 :=
      Except.error.inj (misplanned.checkPlan_eq.symm.trans rfl)
    exact hall Float32
  · obtain ⟨-, -, hshared⟩ := hmany (plan_of_none rfl (by decide) rfl) (by decide)
    exact hshared rfl .f32 sharedEntries (by decide)

/-- The tensors of all heads are there, and no model is built. -/
theorem countless_not_built :
    Plan countless ⟨none, none, 0, (0 : Float)⟩ ∧
    (∀ r ∈ Parameters.required true (2 ^ 60) (sizesOf countless),
      Weights.Holds sharedEntries r) ∧
    build countless ⟨none, none, 0, (0 : Float)⟩
      ((Weights.memory sharedEntries).reader .f32) .single =
        .error (.layer (.whole .tooLarge)) := by
  have plan : Plan countless ⟨none, none, 0, (0 : Float)⟩ := plan_of_none rfl (by decide) rfl
  exact ⟨plan, by decide, plan.build_tooLarge (by decide)⟩

end Model

end DraftHeads
