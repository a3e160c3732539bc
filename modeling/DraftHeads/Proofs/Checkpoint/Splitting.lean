import DraftHeads.Checkpoint.Loading
import DraftHeads.Proofs.Checkpoint.Lookup
import DraftHeads.Proofs.Checkpoint.Storage
import DraftHeads.Proofs.Draft.Reading

/-! # Checkpoints in several files

* `SplitOver`: some tensors are stored in some files, with others beside them.
* `SplitOver.reader_eq`: the files give the same tensors as the list of them in memory.
* `StoredApart.splitOver`: it is so if each tensor has a file of its own.
* `loadSpeculator_eq`, `loadSpeculator_split`: so they give the same speculator. -/

namespace DraftHeads

open Number Routing

variable {tree : FileTree} {paths : List Path} {entries : List (String × AnyTensor)}
  {used : List String} {name : String}

/-- Named tensors, each of which is stored in some file. No name is in two files, and the names of
other tensors in the files are none of those that are used. -/
structure SplitOver (tree : FileTree) (paths : List Path) (entries : List (String × AnyTensor))
    (used : List String) : Prop where
  nodup : (entries.map Prod.fst).Nodup
  readable : ∀ p ∈ paths, Readable tree p
  compatible : Compatible tree paths
  stored : ∀ e ∈ entries, ∃ p ∈ paths, StoredTensor.ofTensor e.1 e.2 ∈ tensorsIn tree p
  others : ∀ p ∈ paths, ∀ name ∈ namesIn tree p, name ∉ entries.map Prod.fst → name ∉ used

namespace SplitOver

theorem stored?_eq {r : Routing} {p : Path} {t : StoredTensor} (hr : Registered tree paths r)
    (hp : p ∈ paths) (ht : t ∈ tensorsIn tree p) : stored? tree r t.name = some t := by
  have hname : t.name ∈ namesIn tree p := List.mem_map_of_mem ht
  obtain ⟨f, howner⟩ := hr.exists_fileFor? hp hname
  obtain ⟨hf, hname'⟩ := hr.of_fileFor? howner
  have hsame := hr.compatible f hf p hp t.name hname' hname
  rw [stored?, howner]
  refine (hr.readable f hf).tensorIn?_eq_some_iff.mpr ⟨?_, rfl⟩
  rwa [tensorsIn_of_same hsame (hr.readable f hf) (hr.readable p hp)]

/-- **The files give the same tensors** as the list of them in memory. -/
theorem reader_eq (split : SplitOver tree paths entries used) {r : Routing}
    (hr : Registered tree paths r) (d : DType) (hname : name ∈ used) :
    (Weights.files (r.files.map (tensorsIn tree))).reader d name =
      (Weights.memory entries).reader d name := by
  funext shape
  unfold Weights.reader
  dsimp only
  rw [hr.find?_eq]
  cases hfind : entries.find? fun e => e.1 == name with
  | some e =>
    have he : e ∈ entries := List.mem_of_find?_eq_some hfind
    have hkey : e.1 = name := by simpa using List.find?_some hfind
    obtain ⟨p, hp, ht⟩ := split.stored e he
    have hstored : stored? tree r name = some (.ofTensor e.1 e.2) := hkey ▸ stored?_eq hr hp ht
    rw [hstored]
    dsimp only
    rw [StoredTensor.load_ofTensor]
    rfl
  | none =>
    have hkeys : name ∉ entries.map Prod.fst := fun hmem => by
      obtain ⟨e, he, rfl⟩ := List.mem_map.mp hmem
      exact List.find?_eq_none.mp hfind e he (beq_self_eq_true e.1)
    have hnone : stored? tree r name = none := by
      rw [← Option.not_isSome_iff_eq_none, hr.isSome_stored?, Option.isSome_iff_exists]
      rintro ⟨f, howner⟩
      obtain ⟨hf, hname'⟩ := hr.of_fileFor? howner
      exact split.others f hf name hname' hkeys hname
    rw [hnone]

end SplitOver

/-- Each tensor is stored in a file of its own. -/
def StoredApart (tree : FileTree) : List Path → List (String × AnyTensor) → Prop :=
  List.Forall₂ fun p e => readFile tree p = .ok [.ofTensor e.1 e.2]

instance : Decidable (StoredApart tree paths entries) :=
  inferInstanceAs (Decidable (List.Forall₂ _ paths entries))

theorem StoredApart.exists_place (h : StoredApart tree paths entries) {p : Path} (hp : p ∈ paths) :
    ∃ (i : Nat) (hi : i < paths.length) (hi' : i < entries.length), paths[i] = p ∧
      readFile tree p = .ok [.ofTensor entries[i].1 entries[i].2] := by
  obtain ⟨i, hi, rfl⟩ := List.getElem_of_mem hp
  have hi' : i < entries.length := List.Forall₂.length_eq h ▸ hi
  exact ⟨i, hi, hi', rfl, List.Forall₂.get h hi hi'⟩

/-- **Tensors in files of their own** are split over the files, if their names differ. -/
theorem StoredApart.splitOver (h : StoredApart tree paths entries)
    (nodup : (entries.map Prod.fst).Nodup) (used : List String) :
    SplitOver tree paths entries used where
  nodup := nodup
  readable p hp := by
    obtain ⟨i, hi, hi', -, hread⟩ := h.exists_place hp
    exact ⟨_, hread⟩
  compatible p hp q hq name hname hname' := by
    obtain ⟨i, hi, hi', rfl, hread⟩ := h.exists_place hp
    obtain ⟨j, hj, hj', rfl, hread'⟩ := h.exists_place hq
    rw [namesIn, tensorsIn_eq hread] at hname
    rw [namesIn, tensorsIn_eq hread'] at hname'
    have hkey : entries[i].1 = entries[j].1 :=
      (List.mem_singleton.mp hname).symm.trans (List.mem_singleton.mp hname')
    rw [← List.length_map Prod.fst] at hi' hj'
    have hplace : (entries.map Prod.fst)[i] = (entries.map Prod.fst)[j] := by
      rw [List.getElem_map, List.getElem_map, hkey]
    obtain rfl := nodup.getElem_inj_iff.mp hplace
    exact Path.same_refl _
  stored e he := by
    obtain ⟨i, hi, rfl⟩ := List.getElem_of_mem he
    have hi' : i < paths.length := (List.Forall₂.length_eq h).symm ▸ hi
    refine ⟨paths[i], List.getElem_mem hi', ?_⟩
    have hread : readFile tree paths[i] = .ok [.ofTensor entries[i].1 entries[i].2] :=
      List.Forall₂.get h hi' hi
    rw [tensorsIn_eq hread]
    exact List.mem_singleton_self _
  others p hp name hname hother := by
    obtain ⟨i, hi, hi', -, hread⟩ := h.exists_place hp
    rw [namesIn, tensorsIn_eq hread] at hname
    obtain rfl := List.mem_singleton.mp hname
    exact absurd (List.mem_map_of_mem (List.getElem_mem hi')) hother

/-- The names of the tensors that a speculator is made of. -/
def speculatorNames (c : Config) (policy : Policy Double) : List String :=
  (Parameters.namesRead c.tieWeights (policy.headCount c)).map fun name =>
    "speculator" ++ "." ++ name

/-- The speculator that is made of tensors in memory, in a number format. -/
def memorySpeculator (entries : List (String × AnyTensor)) (c : Config) (policy : Policy Double)
    (d : DType) (g : Group) : Except Fault AnyModel := do
  return ⟨d, ← Model.build c (policy.mapEps Double.toFloat)
    (((Weights.memory entries).reader d).below "speculator") g⟩

/-- The same model with another branching list. -/
def AnyModel.withBranching (m : AnyModel) (ks : List Nat) : AnyModel :=
  ⟨m.dtype, m.model.withBranching ks⟩

theorem loadSpeculator_eq {files : Located} {policy : Policy Double}
    (split : SplitOver tree files.weights entries (speculatorNames files.config policy))
    (d : DType) (g : Group) :
    loadSpeculator tree files policy d g = memorySpeculator entries files.config policy d g := by
  obtain ⟨r, hbuild⟩ := (exists_build_iff_compatible split.readable).mpr split.compatible
  have hr := registered_of_build hbuild
  have hagree : Reader.AgreeOn
      (Parameters.namesRead files.config.tieWeights (policy.headCount files.config))
      (((Weights.files (r.files.map (tensorsIn tree))).reader d).below "speculator")
      (((Weights.memory entries).reader d).below "speculator") := fun name hname =>
    split.reader_eq hr d (List.mem_map_of_mem hname)
  have hmodel : Model.build files.config (policy.mapEps Double.toFloat) _ g =
      Model.build files.config (policy.mapEps Double.toFloat) _ g := Model.build_congr hagree
  rw [loadSpeculator, memorySpeculator, hbuild, ← hmodel]
  change (r.weights tree >>= fun weights => _) = _
  rw [hr.weights_eq]
  rfl

/-- **How a checkpoint is split does not matter.** Whichever files its tensors are stored in, a
speculator is read from them if one is made of the tensors in memory; it is the same model, and so
it does the same. -/
theorem loadSpeculator_split {files : Located} {policy : Policy Double}
    (split : SplitOver tree files.weights entries (speculatorNames files.config policy))
    (d : DType) (g : Group) :
    ((∃ m, loadSpeculator tree files policy d g = .ok m) ↔
      ∃ m, memorySpeculator entries files.config policy d g = .ok m) ∧
    ∀ m m', loadSpeculator tree files policy d g = .ok m →
      memorySpeculator entries files.config policy d g = .ok m' →
      m = m' ∧ ∀ (ks : List Nat) (hidden tokens : AnyTensor),
        (m.withBranching ks).trace hidden tokens = (m'.withBranching ks).trace hidden tokens := by
  rw [loadSpeculator_eq split]
  refine ⟨Iff.rfl, fun m m' h h' => ?_⟩
  obtain rfl : m = m' := Except.ok.inj (h.symm.trans h')
  exact ⟨rfl, fun _ _ _ => rfl⟩

/-- The tensors of a speculator with one head. -/
def smallTensors : List (String × AnyTensor) :=
  [("speculator.emb.0.weight", ⟨.f32, Tensor.fill [1, 1] 1⟩),
    ("speculator.proj.0.weight", ⟨.f16, Tensor.fill [1, 1] 1⟩),
    ("speculator.head.0.weight", ⟨.f32, Tensor.fill [1, 1] 1⟩),
    ("speculator.ln.0.weight", ⟨.f64, Tensor.fill [1] 1⟩),
    ("speculator.ln.0.bias", ⟨.f32, Tensor.fill [1] 0⟩)]

/-- Each of them in a file of its own, and another file with a tensor of the base model. -/
def sixFiles : FileTree :=
  ⟨(["a", "b", "c", "d", "e"].zip smallTensors).map (fun (place, e) =>
      ([place], .file (TensorFile.encode [StoredTensor.ofTensor e.1 e.2]))) ++
    [(["f"], .file (TensorFile.encode [⟨"lm_head.weight", .u8, [1], [7]⟩]))]⟩

/-- A checkpoint that lists all of the files. -/
def sixListed : Located where
  config := ⟨1, 1, 1, 1, false, false, []⟩
  weights := [⟨"d"⟩, ⟨"f"⟩, ⟨"a"⟩, ⟨"e"⟩, ⟨"c"⟩, ⟨"b"⟩]

/-- A speculator with one head is read from six files, as it is made of its tensors in memory. -/
theorem loadSpeculator_split_six : ∃ m m',
    loadSpeculator sixFiles sixListed .standard .f32 .single = .ok m ∧
      memorySpeculator smallTensors sixListed.config .standard .f32 .single = .ok m' ∧ m = m' ∧
        ∀ (ks : List Nat) (hidden tokens : AnyTensor),
          (m.withBranching ks).trace hidden tokens =
            (m'.withBranching ks).trace hidden tokens := by
  have hsplit : (smallTensors.map Prod.fst).Nodup ∧
      (∀ p ∈ sixListed.weights, Readable sixFiles p) ∧ Compatible sixFiles sixListed.weights ∧
      (∀ e ∈ smallTensors, ∃ p ∈ sixListed.weights,
        StoredTensor.ofTensor e.1 e.2 ∈ tensorsIn sixFiles p) ∧
      ∀ p ∈ sixListed.weights, ∀ name ∈ namesIn sixFiles p, name ∉ smallTensors.map Prod.fst →
        name ∉ speculatorNames sixListed.config .standard := by
    decide +kernel
  obtain ⟨hnodup, hreadable, hcompatible, hstored, hothers⟩ := hsplit
  have split : SplitOver sixFiles sixListed.weights smallTensors
      (speculatorNames sixListed.config .standard) :=
    ⟨hnodup, hreadable, hcompatible, hstored, hothers⟩
  have hmemory : (memorySpeculator smallTensors sixListed.config .standard .f32
      .single).toOption.isSome = true := by
    decide +kernel
  obtain ⟨m', hm'⟩ : ∃ m', memorySpeculator smallTensors sixListed.config .standard .f32 .single =
      .ok m' := by
    cases h : memorySpeculator smallTensors sixListed.config .standard .f32 .single with
    | ok m' => exact ⟨m', rfl⟩
    | error e => rw [h] at hmemory; cases hmemory
  obtain ⟨hiff, hsame⟩ := loadSpeculator_split split .f32 .single
  obtain ⟨m, hm⟩ := hiff.mpr ⟨m', hm'⟩
  exact ⟨m, m', hm, hm', hsame m m' hm hm'⟩

end DraftHeads
