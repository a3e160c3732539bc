import DraftHeads.Proofs.Draft.Building

/-! # What a model reads

* `Parameters.namesRead`: the names of the tensors that the heads are made of.
* `Model.build_congr`: readers that agree on them give the same model, or fail in the same way.
* `Model.has_of_build`: a reader from which a model is built has all of them. -/

namespace DraftHeads

variable {α π : Type}

/-- Two readers give the same tensors under some names, or fail in the same way. -/
def Reader.AgreeOn (names : List String) (read read' : Reader α) : Prop :=
  ∀ name ∈ names, read name = read' name

namespace Parameters

variable {sizes : Sizes} {eps : π} {read read' : Reader α} {g : Group} {s : Slot}

/-- The name of an entry of the parameters with a word and a number. -/
def entryName (word : String) (i : Nat) (entry : String) : String :=
  word ++ "." ++ (toString i ++ "." ++ entry)

/-- The names of the tensors that the parameters of a slot are made of. -/
def slotNames (s : Slot) : List String :=
  [entryName "emb" s.embedding "weight", entryName "proj" s.stateProjection "weight",
    entryName "head" s.outputProjection "weight", entryName "ln" s.norm "weight",
    entryName "ln" s.norm "bias"]

/-- The names of the tensors that the parameters of a number of heads are made of. -/
def namesRead (tied : Bool) (heads : Nat) : List String := (slotsOf tied heads).flatMap slotNames

theorem loadEmbedding_congr (h : read.AgreeOn (slotNames s) read') :
    loadEmbedding sizes read g s.embedding = loadEmbedding sizes read' g s.embedding := by
  have hweight : numbered read "emb" s.embedding "weight" =
      numbered read' "emb" s.embedding "weight" :=
    h (entryName "emb" s.embedding "weight") (by simp [slotNames])
  simp only [loadEmbedding, Embedding.load, VocabularyShard.load, hweight]

theorem loadStateProjection_congr (h : read.AgreeOn (slotNames s) read') :
    loadStateProjection sizes read g s.stateProjection =
      loadStateProjection sizes read' g s.stateProjection := by
  have hweight : numbered read "proj" s.stateProjection "weight" =
      numbered read' "proj" s.stateProjection "weight" :=
    h (entryName "proj" s.stateProjection "weight") (by simp [slotNames])
  simp only [loadStateProjection, Projection.load, ColumnShard.load, hweight]

theorem loadOutputProjection_congr (h : read.AgreeOn (slotNames s) read') :
    loadOutputProjection sizes read g s.outputProjection =
      loadOutputProjection sizes read' g s.outputProjection := by
  have hweight : numbered read "head" s.outputProjection "weight" =
      numbered read' "head" s.outputProjection "weight" :=
    h (entryName "head" s.outputProjection "weight") (by simp [slotNames])
  simp only [loadOutputProjection, Projection.load, ColumnShard.load, hweight]

theorem loadNorm_congr (h : read.AgreeOn (slotNames s) read') :
    loadNorm sizes eps read s.norm = loadNorm sizes eps read' s.norm := by
  have hweight : numbered read "ln" s.norm "weight" = numbered read' "ln" s.norm "weight" :=
    h (entryName "ln" s.norm "weight") (by simp [slotNames])
  have hbias : numbered read "ln" s.norm "bias" = numbered read' "ln" s.norm "bias" :=
    h (entryName "ln" s.norm "bias") (by simp [slotNames])
  simp only [loadNorm, Norm.load, hweight, hbias]

theorem loadUntied_congr {heads : Nat}
    (h : ∀ i < heads, read.AgreeOn (slotNames ⟨i, i, i, i⟩) read') :
    loadUntied heads sizes eps read g = loadUntied heads sizes eps read' g := by
  have hsingles : loadSingles sizes eps read g heads 0 = loadSingles sizes eps read' g heads 0 := by
    rw [loadSingles_eq_mapM, loadSingles_eq_mapM]
    refine mapM_congr fun i hi => ?_
    have hslot := h i (by simpa using hi)
    have hemb : loadEmbedding sizes read g i = loadEmbedding sizes read' g i :=
      loadEmbedding_congr (s := ⟨i, i, i, i⟩) hslot
    have hproj : loadStateProjection sizes read g i = loadStateProjection sizes read' g i :=
      loadStateProjection_congr (s := ⟨i, i, i, i⟩) hslot
    have hout : loadOutputProjection sizes read g i = loadOutputProjection sizes read' g i :=
      loadOutputProjection_congr (s := ⟨i, i, i, i⟩) hslot
    have hnorm : loadNorm sizes eps read i = loadNorm sizes eps read' i :=
      loadNorm_congr (s := ⟨i, i, i, i⟩) hslot
    rw [loadSingle, loadSingle, hemb, hproj, hout, hnorm]
  rw [loadUntied, loadUntied, hsingles]

theorem loadTied_congr {heads : Nat} (hpos : 0 < heads)
    (h : ∀ i < heads, read.AgreeOn (slotNames ⟨0, min i 1, 0, 0⟩) read') :
    loadTied heads sizes eps read g = loadTied heads sizes eps read' g := by
  have hfirst := h 0 hpos
  have hproj : (List.range (min heads 2)).mapM (loadStateProjection sizes read g) =
      (List.range (min heads 2)).mapM (loadStateProjection sizes read' g) := by
    refine mapM_congr fun i hi => ?_
    rw [List.mem_range] at hi
    have hslot := h i (by omega)
    rw [show min i 1 = i by omega] at hslot
    exact loadStateProjection_congr (s := ⟨0, i, 0, 0⟩) hslot
  have hemb : loadEmbedding sizes read g 0 = loadEmbedding sizes read' g 0 :=
    loadEmbedding_congr (s := ⟨0, 0, 0, 0⟩) hfirst
  have hout : loadOutputProjection sizes read g 0 = loadOutputProjection sizes read' g 0 :=
    loadOutputProjection_congr (s := ⟨0, 0, 0, 0⟩) hfirst
  have hnorm : loadNorm sizes eps read 0 = loadNorm sizes eps read' 0 :=
    loadNorm_congr (s := ⟨0, 0, 0, 0⟩) hfirst
  rw [loadTied, loadTied, hemb, hproj, hout, hnorm]

/-- **Readers that agree on the names that are read** give the same parameters. -/
theorem load_congr {tied : Bool} {heads : Nat} (hpos : 0 < heads)
    (h : read.AgreeOn (namesRead tied heads) read') :
    load tied heads sizes eps read g = load tied heads sizes eps read' g := by
  have hslots : ∀ s ∈ slotsOf tied heads, read.AgreeOn (slotNames s) read' := fun s hs name hname =>
    h name (List.mem_flatMap.mpr ⟨s, hs, hname⟩)
  cases tied with
  | false =>
    exact loadUntied_congr fun i hi => hslots _ (List.mem_of_getElem? (getElem?_untiedSlots hi))
  | true =>
    exact loadTied_congr hpos fun i hi => hslots _ (List.mem_of_getElem? (getElem?_tiedSlots hi))

end Parameters

/-- **Readers that agree on the names that are read** give the same model. -/
theorem Model.build_congr [Analytic π] {c : Config} {policy : Policy π} {read read' : Reader α}
    {g : Group} (h : read.AgreeOn (Parameters.namesRead c.tieWeights (policy.headCount c)) read') :
    build c policy read g = build c policy read' g := by
  unfold build
  dsimp only
  cases hplan : checkPlan c (policy.headCount c) policy.branching? with
  | error e => rfl
  | ok _ => rw [Parameters.load_congr (checkPlan_ok hplan).1 h]

/-! ### Names that have to be there -/

/-- The reader gives a tensor under the name, for some shape. -/
def Reader.Has (read : Reader α) (name : String) : Prop := ∃ shape t, read name shape = .ok t

theorem Embedding.has_of_load {vocab hidden : Nat} {read : Reader α} {g : Group} {e : Embedding α}
    (h : Embedding.load vocab hidden read g = .ok e) : read.Has "weight" := by
  cases hread : read "weight" [vocab, hidden] with
  | ok table => exact ⟨_, table, hread⟩
  | error e =>
    simp only [Embedding.load, VocabularyShard.load, hread] at h
    split_ifs at h

theorem Projection.has_of_load {inputs outputs : Nat} {read : Reader α} {g : Group}
    {p : Projection α} (h : Projection.load inputs outputs read g = .ok p) : read.Has "weight" := by
  cases hread : read "weight" [outputs, inputs] with
  | ok weight => exact ⟨_, weight, hread⟩
  | error e =>
    simp only [Projection.load, ColumnShard.load, hread] at h
    split_ifs at h

theorem Norm.has_of_load {width : Nat} {eps : π} {read : Reader α} {n : Norm α π}
    (h : Norm.load width eps read = .ok n) : read.Has "weight" ∧ read.Has "bias" := by
  obtain ⟨weight, hweight, h⟩ := bind_eq_ok.mp h
  obtain ⟨bias, hbias, -⟩ := bind_eq_ok.mp h
  exact ⟨⟨_, weight, hweight⟩, ⟨_, bias, hbias⟩⟩

theorem Parameters.Loaded.has {sizes : Sizes} {eps : π} {read : Reader α} {g : Group} {slot : Slot}
    {s : Single α π} (h : Loaded sizes eps read g slot s) :
    ∀ name ∈ slotNames slot, read.Has name := by
  obtain ⟨hweight, hbias⟩ := Norm.has_of_load (mapError_eq_ok.mp h.norm)
  intro name hname
  simp only [slotNames, List.mem_cons, List.not_mem_nil, or_false] at hname
  rcases hname with rfl | rfl | rfl | rfl | rfl
  · exact Embedding.has_of_load h.embedding
  · exact Projection.has_of_load h.stateProjection
  · exact Projection.has_of_load h.outputProjection
  · exact hweight
  · exact hbias

/-- **A reader from which a model is built** has everything that the model is made of. -/
theorem Model.has_of_build [Analytic π] {c : Config} {policy : Policy π} {read : Reader α}
    {g : Group} {m : Model α π} (h : build c policy read g = .ok m) :
    ∀ name ∈ Parameters.namesRead c.tieWeights (policy.headCount c), read.Has name := by
  intro name hname
  obtain ⟨slot, hslot, hname⟩ := List.mem_flatMap.mp hname
  obtain ⟨s, hs⟩ := (exists_build_iff.mp ⟨m, h⟩).2.2 slot hslot
  exact hs.has name hname

end DraftHeads
