import DraftHeads.Proofs.Draft.Branching
import DraftHeads.Proofs.Draft.Shapes
import DraftHeads.Proofs.Shard.Sharing

/-! # Models in simulated groups

A worker can build its share of a model that one worker can build whole, if the size of the group
divides what is shared; and a run of its share in a group that repeats the worker's own tensors has
the shapes of a run of the whole model.

* `Parameters.load_failsOnly`: in which ways a worker fails to read its parameters.
* `Model.build_simulated`: when a worker builds its share, and the shapes of its runs. -/

namespace DraftHeads

variable {α π : Type} {read : Reader α} {g : Group}

/-! ### Parts of parameters -/

namespace Parameters

/-- The group cannot split one of the sizes that are shared. -/
def Indivisible (sizes : Sizes) (g : Group) (e : LayerFault) : Prop :=
  ∃ size, (size = sizes.inner ∨ size = sizes.vocab) ∧ ¬ g.world ∣ size ∧
    e = .sharded .columnLoad (.indivisible size g.world)

variable {sizes : Sizes} {eps : π} {slot : Slot} {s : Single α π}

theorem projection_failsOnly (lawful : read.Lawful) {inputs outputs : Nat} {p : Projection α}
    (h : Projection.load inputs outputs read .single = .ok p)
    (hsize : outputs = sizes.inner ∨ outputs = sizes.vocab) :
    FailsOnly (Indivisible sizes g) (Projection.load inputs outputs read g) := by
  obtain ⟨weight, hread, -⟩ := Projection.load_single h
  intro e herror
  obtain ⟨hdvd, rfl⟩ := Projection.load_eq_error hread (lawful _ _ _ hread) herror
  exact ⟨outputs, hsize, hdvd, rfl⟩

namespace Loaded

theorem embedding_failsOnly (h : Loaded sizes eps read .single slot s) (lawful : read.Lawful) :
    FailsOnly (Indivisible sizes g) (loadEmbedding sizes read g slot.embedding) := by
  obtain ⟨table, hread, -⟩ := Embedding.load_single h.embedding
  obtain ⟨e, he⟩ := Embedding.exists_load (g := g) hread ((lawful.below _).below _ _ _ _ hread)
  rw [loadEmbedding, he]
  exact .ok e

theorem stateProjection_failsOnly (h : Loaded sizes eps read .single slot s)
    (lawful : read.Lawful) :
    FailsOnly (Indivisible sizes g) (loadStateProjection sizes read g slot.stateProjection) :=
  projection_failsOnly ((lawful.below _).below _) h.stateProjection (Or.inl rfl)

theorem outputProjection_failsOnly (h : Loaded sizes eps read .single slot s)
    (lawful : read.Lawful) :
    FailsOnly (Indivisible sizes g) (loadOutputProjection sizes read g slot.outputProjection) :=
  projection_failsOnly ((lawful.below _).below _) h.outputProjection (Or.inr rfl)

theorem norm_failsOnly (h : Loaded sizes eps read .single slot s) :
    FailsOnly (Indivisible sizes g) (loadNorm sizes eps read slot.norm) := by
  rw [h.norm]
  exact .ok s.norm

end Loaded

variable {heads : Nat}

theorem checkSlots_failsOnly (hbytes : heads * slotSize ≤ maxBytes) :
    FailsOnly (Indivisible sizes g) (checkSlots heads) := by
  rw [(checkSlots_eq_ok_iff (u := ())).mpr hbytes]
  exact .ok ()

theorem loadUntied_failsOnly (hbytes : heads * slotSize ≤ maxBytes) (lawful : read.Lawful)
    (h : ∀ slot ∈ untiedSlots heads, ∃ s : Single α π, Loaded sizes eps read .single slot s) :
    FailsOnly (Indivisible sizes g) (loadUntied heads sizes eps read g) := by
  have hsingles : FailsOnly (Indivisible sizes g) (loadSingles sizes eps read g heads 0) := by
    rw [loadSingles_eq_mapM, ← List.range_eq_range']
    refine .mapM fun i hi => ?_
    obtain ⟨s, hs⟩ := h ⟨i, i, i, i⟩ (List.mem_map_of_mem hi)
    exact (hs.embedding_failsOnly lawful).bind fun _ =>
      (hs.stateProjection_failsOnly lawful).bind fun _ =>
        (hs.outputProjection_failsOnly lawful).bind fun _ =>
          hs.norm_failsOnly.bind fun _ => .ok _
  rw [loadUntied, (checkSingles_eq_ok_iff (u := ())).mpr hbytes]
  exact hsingles.bind fun _ => (checkSlots_failsOnly hbytes).bind fun _ => .ok _

theorem loadTied_failsOnly (hpos : 0 < heads) (hbytes : heads * slotSize ≤ maxBytes)
    (lawful : read.Lawful)
    (h : ∀ slot ∈ tiedSlots heads, ∃ s : Single α π, Loaded sizes eps read .single slot s) :
    FailsOnly (Indivisible sizes g) (loadTied heads sizes eps read g) := by
  obtain ⟨s, hs⟩ := h ⟨0, 0, 0, 0⟩ (List.mem_map.mpr ⟨0, List.mem_range.mpr hpos, rfl⟩)
  have hprojections : FailsOnly (Indivisible sizes g)
      ((List.range (min heads 2)).mapM (loadStateProjection sizes read g)) := by
    refine .mapM fun i hi => ?_
    rw [List.mem_range] at hi
    obtain ⟨s, hs⟩ := h ⟨0, min i 1, 0, 0⟩
      (List.mem_map.mpr ⟨i, List.mem_range.mpr (by omega), rfl⟩)
    have hlow : min i 1 = i := by omega
    exact hlow ▸ hs.stateProjection_failsOnly lawful
  exact (hs.embedding_failsOnly lawful).bind fun _ => hprojections.bind fun _ =>
    (hs.outputProjection_failsOnly lawful).bind fun _ => hs.norm_failsOnly.bind fun _ =>
      (checkSlots_failsOnly hbytes).bind fun _ => .ok _

/-- **Parameters that one worker can read** a worker of a group fails to read only if its group
cannot split them. -/
theorem load_failsOnly {tied : Bool} (hpos : 0 < heads) (hbytes : heads * slotSize ≤ maxBytes)
    (lawful : read.Lawful)
    (h : ∀ slot ∈ slotsOf tied heads, ∃ s : Single α π, Loaded sizes eps read .single slot s) :
    FailsOnly (Indivisible sizes g) (load tied heads sizes eps read g) := by
  cases tied with
  | false => exact loadUntied_failsOnly hbytes lawful h
  | true => exact loadTied_failsOnly hpos hbytes lawful h

theorem exists_loadEmbedding {tied : Bool} {p : Parameters α π}
    (h : load tied heads sizes eps read g = .ok p) :
    ∀ e ∈ p.embeddings, ∃ i, loadEmbedding sizes read g i = .ok e := by
  intro e he
  cases tied with
  | false =>
    obtain ⟨-, singles, hsingles, rfl⟩ := loadUntied_eq_ok_iff.mp h
    obtain ⟨s, hs, rfl⟩ := List.mem_map.mp he
    obtain ⟨i, hi, rfl⟩ := List.getElem_of_mem hs
    have hload := hsingles.get (hsingles.length_eq ▸ hi) hi
    exact ⟨_, (loadSingle_ok_iff.mp hload).embedding⟩
  | true =>
    obtain ⟨-, embedding, _, _, _, hembedding, -, -, -, rfl⟩ := loadTied_eq_ok_iff.mp h
    obtain rfl := List.mem_singleton.mp he
    exact ⟨0, hembedding⟩

end Parameters

/-! ### Shares of models -/

/-- Every tensor that the reader gives fits into memory. -/
def Reader.InMemory (read : Reader Float32) : Prop :=
  ∀ name shape t, read name shape = .ok t →
    entryCount t.shape * (StoredFormat.ofDType .f32).size ≤ maxBytes

theorem Weights.zeros_inMemory : Reader.InMemory (Weights.zeros.reader .f32) := by
  intro name shape t h
  obtain ⟨_, hbytes, h⟩ := bind_eq_ok.mp h
  cases h
  unfold checkBytes at hbytes
  split_ifs at hbytes with hlarge
  exact not_lt.mp hlarge

namespace Model

section Build

variable [Analytic π] {c : Config} {policy : Policy π} {m m' : Model α π}

/-- **A model that one worker can build** a worker of a group fails to build only if its group
cannot split it. -/
theorem build_failsOnly (lawful : read.Lawful) (h : build c policy read .single = .ok m) :
    FailsOnly (fun e => ∃ e', Parameters.Indivisible (sizesOf c) g e' ∧ e = .layer e')
      (build c policy read g) := by
  obtain ⟨hplan, hbytes, hslots⟩ := exists_build_iff.mp ⟨m, h⟩
  have hparameters : FailsOnly (Parameters.Indivisible (sizesOf c) g)
      (Parameters.load c.tieWeights (policy.headCount c) (sizesOf c) policy.normEps read g) :=
    Parameters.load_failsOnly (checkPlan_ok hplan).1 hbytes lawful hslots
  unfold build
  dsimp only
  rw [hplan, checkFactors_of_slots hbytes]
  exact (hparameters.mapError fun e he => ⟨e, he, rfl⟩).bind fun _ => .ok _

/-- **When a worker of a group builds its share.** -/
theorem exists_build_iff_dvd (lawful : read.Lawful) (h : build c policy read .single = .ok m) :
    (∃ m', build c policy read g = .ok m') ↔ g.world ∣ c.innerDim ∧ g.world ∣ c.vocabSize := by
  constructor
  · rintro ⟨m', h'⟩
    have wired := build_wired lawful h'
    have hfirst : 0 < m'.singles.length := wired.length_singles ▸ wired.heads_pos
    have fits := wired.fits 0 _ (List.getElem?_eq_getElem hfirst)
    rw [sizes_of_build h'] at fits
    exact ⟨fits.stateProjection.world_dvd, fits.outputProjection.world_dvd⟩
  · rintro ⟨hinner, hvocab⟩
    cases hbuild : build c policy read g with
    | ok m' => exact ⟨m', rfl⟩
    | error e =>
      obtain ⟨_, ⟨size, rfl | rfl, hdvd, -⟩, -⟩ := build_failsOnly lawful h e hbuild
      · exact absurd hinner hdvd
      · exact absurd hvocab hdvd

theorem embedding_eq_vocabulary (lawful : read.Lawful) (hworld : 1 < g.world)
    (splits : g.Splits c.vocabSize) (h : build c policy read g = .ok m) :
    ∀ e ∈ m.parameters.embeddings, ∃ shard, e = .vocabulary shard ∧
      shard.table.shape = [c.vocabSize / g.world, c.innerDim] := by
  intro e he
  obtain ⟨-, -, p, hp, rfl⟩ := build_eq_ok_iff.mp h
  obtain ⟨i, hi⟩ := Parameters.exists_loadEmbedding hp e he
  cases Embedding.load_fits ((lawful.below _).below _) hi with
  | whole table single shape => omega
  | vocabulary shard shared world range shape =>
    have hstop := (splits.range_eq range).2
    refine ⟨shard, rfl, ?_⟩
    rw [shape, hstop, Nat.add_sub_cancel_left]
    rfl

end Build

section Run

variable {c : Config} {policy : Policy Float} {read : Reader Float32} {m m' : Model Float32 Float}

theorem table_le (lawful : read.Lawful) (memory : read.InMemory)
    (h : build c policy read .single = .ok m) : c.vocabSize * c.innerDim * 4 ≤ maxBytes := by
  obtain ⟨hplan, -, hslots⟩ := exists_build_iff.mp ⟨m, h⟩
  have hfirst : 0 < (Parameters.slotsOf c.tieWeights (policy.headCount c)).length := by
    rw [Parameters.length_slotsOf]
    exact (checkPlan_ok hplan).1
  obtain ⟨s, hs⟩ := hslots _ (List.getElem_mem hfirst)
  obtain ⟨table, hread, -⟩ := Embedding.load_single hs.embedding
  have hsize := memory _ _ _ hread
  have hshape := (lawful.below _).below _ _ _ _ hread
  rw [hshape] at hsize
  change c.vocabSize * (c.innerDim * 1) * 4 ≤ maxBytes at hsize
  rwa [Nat.mul_one] at hsize

/-- A group of more than one worker that divides both sizes can gather: there are more bytes in the
table than in the references to the tensors of all workers. -/
theorem gathers_of_table (positive : Positive (sizesOf c)) (hworld : 1 < g.world)
    (hinner : g.world ∣ c.innerDim) (hvocab : g.world ∣ c.vocabSize)
    (htable : c.vocabSize * c.innerDim * 4 ≤ maxBytes) : g.Gathers := by
  refine Or.inr (le_trans ?_ htable)
  have hwide : g.world ≤ c.innerDim := Nat.le_of_dvd positive.inner hinner
  calc g.world * Collective.referenceSize = g.world * 2 * 4 := by
        rw [Nat.mul_assoc]
        rfl
    _ ≤ c.vocabSize * c.innerDim * 4 :=
        Nat.mul_le_mul_right 4 (Nat.mul_le_mul (Nat.le_of_dvd positive.vocab hvocab)
          (le_trans hworld hwide))

theorem vocab_lt_wordCount (positive : Positive (sizesOf c))
    (htable : c.vocabSize * c.innerDim * 4 ≤ maxBytes) : c.vocabSize < wordCount := by
  have hle : c.vocabSize ≤ c.vocabSize * (c.innerDim * 4) :=
    Nat.le_mul_of_pos_right _ (Nat.mul_pos positive.inner (by omega))
  rw [← Nat.mul_assoc] at hle
  exact lt_of_le_of_lt (hle.trans htable) (by decide)

theorem exists_trace_shaped (lawful : read.Lawful) (h : build c policy read g = .ok m)
    (splits : g.Splits c.vocabSize) (gathers : g.Gathers) {ks : List Nat}
    (branches : m.Branches ks) {batch : Nat} {hidden : Tensor Float32} {tokens : AnyTensor}
    {ids : Tensor Int} (inputs : Inputs (sizesOf c) batch hidden.shape tokens ids) :
    ∃ tr, AnyModel.trace ⟨.f32, m.withBranching ks⟩ ⟨.f32, hidden⟩ tokens = .ok tr ∧
      tr.Shaped batch c.vocabSize ks := by
  have hsizes := sizes_of_build h
  have hrun : AnyModel.trace ⟨.f32, m.withBranching ks⟩ ⟨.f32, hidden⟩ tokens =
      ((m.withBranching ks).trace hidden tokens).simulate g :=
    trace_eq_simulate (d := .f32) h ks hidden tokens
  rw [← hsizes] at inputs
  have hvocab : m.sizes.vocab = c.vocabSize := congrArg Sizes.vocab hsizes
  rw [← hvocab] at splits ⊢
  rw [hrun]
  exact simulate_trace_shaped (m := m.withBranching ks) rfl splits gathers
    ((build_wired lawful h).withBranching ks) (inputs.ready branches) inputs.batch_pos
    fun e _ t ht => Embedding.takes_of_lt (inputs.token_lt t ht)

/-- A worker's share of a model, in a group that repeats the worker's own tensors. -/
structure SimulatedBy (c : Config) (g : Group) (m m' : Model Float32 Float) : Prop where
  /-- The worker has rows of every embedding, as many as the others. -/
  embeddings : ∀ e ∈ m'.parameters.embeddings, ∃ shard, e = .vocabulary shard ∧
    shard.table.shape = [c.vocabSize / g.world, c.innerDim] ∧ 0 < c.vocabSize / g.world
  /-- Neither model fails to run. Their traces have the shapes that the batch, the vocabulary and
  the branching list give, and so the same ones. -/
  traces : ∀ (ks : List Nat) (batch : Nat) (hidden : Tensor Float32) (tokens : AnyTensor)
    (ids : Tensor Int), m.Branches ks → Inputs (sizesOf c) batch hidden.shape tokens ids →
      ∃ tr tr', AnyModel.trace ⟨.f32, m.withBranching ks⟩ ⟨.f32, hidden⟩ tokens = .ok tr ∧
        AnyModel.trace ⟨.f32, m'.withBranching ks⟩ ⟨.f32, hidden⟩ tokens = .ok tr' ∧
        tr.Shaped batch c.vocabSize ks ∧ tr'.Shaped batch c.vocabSize ks ∧ tr'.SameShapes tr

end Run

end Model

end DraftHeads
