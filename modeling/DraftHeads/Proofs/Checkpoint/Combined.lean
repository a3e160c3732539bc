import DraftHeads.Proofs.Checkpoint.Splitting
import DraftHeads.Proofs.Draft.LanguageHead
import DraftHeads.Proofs.Shard.Sharing

/-! # The speculator of a combined head

A language model head is read from the files of a base model together with those of a speculator.

* `Registered.reader_eq`, `Registered.build_of_more`: more files change neither a tensor that some
  files have, nor a speculator that they give.
* `loadSpeculator_eq_ok_iff`, `loadHead_eq_ok_iff`: when a speculator and a head are read.
* `loadHead_speculator`: the speculator of a head is the one that its own files give;
  `exists_loadHead`: a projection and a speculator make a head. -/

namespace DraftHeads

open Number Routing

variable {tree : FileTree} {base : List Path} {files : Located} {policy : Policy Double} {d : DType}
  {g : Group}

namespace Routing

/-- The source of weights over the files of a routing, in a number format. -/
def reader (tree : FileTree) (r : Routing) (d : DType) : Reader d.Elem :=
  (Weights.files (r.files.map (tensorsIn tree))).reader d

theorem Registered.exists_stored? {r : Routing} {done : List Path} (hr : Registered tree done r)
    {name : String} (has : (reader tree r d).Has name) : ∃ t, stored? tree r name = some t := by
  obtain ⟨shape, t, ht⟩ := has
  cases hstored : stored? tree r name with
  | some t => exact ⟨t, rfl⟩
  | none =>
    have hmissing : reader tree r d name shape = .error (.missing name) :=
      Weights.reader_files_eq_missing_iff.mpr ((hr.find?_eq name).trans hstored)
    rw [hmissing] at ht
    cases ht

/-- **More files do not change a tensor** that some of them have. -/
theorem Registered.reader_eq {r r' : Routing} {done all : List Path} (hr : Registered tree done r)
    (hr' : Registered tree all r') (hsub : done ⊆ all) {name : String}
    (has : (reader tree r d).Has name) : reader tree r d name = reader tree r' d name := by
  obtain ⟨t, hstored⟩ := hr.exists_stored? has
  obtain ⟨p, howner, ht⟩ := Option.bind_eq_some_iff.mp hstored
  obtain ⟨hp, -⟩ := hr.of_fileFor? howner
  obtain ⟨hmem, rfl⟩ := (hr.readable p hp).tensorIn?_eq_some_iff.mp ht
  have hstored' : stored? tree r' t.name = some t := SplitOver.stored?_eq hr' (hsub hp) hmem
  funext shape
  unfold reader Weights.reader
  dsimp only
  rw [hr.find?_eq, hr'.find?_eq, hstored, hstored']

/-- **A speculator that some files give** more files give as well. -/
theorem Registered.build_of_more {r r' : Routing} {done all : List Path}
    (hr : Registered tree done r) (hr' : Registered tree all r') (hsub : done ⊆ all) {c : Config}
    {policy : Policy Float} {s : Model d.Elem Float}
    (hs : Model.build c policy ((reader tree r d).below "speculator") g = .ok s) :
    Model.build c policy ((reader tree r' d).below "speculator") g = .ok s := by
  have hagree : Reader.AgreeOn (Parameters.namesRead c.tieWeights (policy.headCount c))
      ((reader tree r d).below "speculator") ((reader tree r' d).below "speculator") :=
    fun name hname => hr.reader_eq hr' hsub (Model.has_of_build hs name hname)
  rw [← hs]
  exact (Model.build_congr hagree).symm

theorem Registered.reader_stored {r : Routing} {done : List Path} (hr : Registered tree done r)
    {p : Path} (hp : p ∈ done) {name : String} {t : AnyTensor}
    (ht : StoredTensor.ofTensor name t ∈ tensorsIn tree p) :
    reader tree r d name t.shape = .ok (t.cast d) := by
  have hstored : stored? tree r name = some (.ofTensor name t) := SplitOver.stored?_eq hr hp ht
  unfold reader Weights.reader
  dsimp only
  rw [hr.find?_eq, hstored]
  dsimp only
  rw [StoredTensor.load_ofTensor]
  exact if_pos rfl

end Routing

theorem loadSpeculator_eq_ok_iff {m : AnyModel} : loadSpeculator tree files policy d g = .ok m ↔
    ∃ r, build tree files.weights = .ok r ∧
      ∃ s, Model.build files.config (policy.mapEps Double.toFloat)
        ((reader tree r d).below "speculator") g = .ok s ∧ m = ⟨d, s⟩ := by
  simp only [loadSpeculator, bind_eq_ok]
  refine exists_congr fun r => and_congr_right fun hbuild => ?_
  rw [(registered_of_build hbuild).weights_eq]
  constructor
  · rintro ⟨_, hweights, s, hs, hm⟩
    cases hweights
    exact ⟨s, hs, (pure_eq_ok.mp hm).symm⟩
  · rintro ⟨s, hs, rfl⟩
    exact ⟨_, rfl, s, hs, rfl⟩

theorem loadHead_eq_ok_iff {h : AnyHead} : loadHead tree base files policy d g = .ok h ↔
    ∃ r, build tree (base ++ files.weights) = .ok r ∧
      ∃ s, LanguageHead.load files.config (policy.mapEps Double.toFloat) (reader tree r d) g =
        .ok s ∧ h = ⟨d, s⟩ := by
  have happend : build tree (base ++ files.weights) =
      build tree base >>= fun r => addFiles tree r files.weights :=
    addFiles_append tree base files.weights empty
  constructor
  · intro hload
    obtain ⟨r₀, hbase, hload⟩ := bind_eq_ok.mp hload
    obtain ⟨r, hmore, hload⟩ := bind_eq_ok.mp hload
    obtain ⟨weights, hweights, hload⟩ := bind_eq_ok.mp hload
    obtain ⟨s, hs, hhead⟩ := bind_eq_ok.mp hload
    have hbuild : build tree (base ++ files.weights) = .ok r := by
      rw [happend]
      exact bind_eq_ok.mpr ⟨r₀, hbase, hmore⟩
    obtain rfl := Except.ok.inj ((registered_of_build hbuild).weights_eq.symm.trans hweights)
    exact ⟨r, hbuild, s, hs, (pure_eq_ok.mp hhead).symm⟩
  · rintro ⟨r, hbuild, s, hs, rfl⟩
    have hweights := (registered_of_build hbuild).weights_eq
    rw [happend] at hbuild
    obtain ⟨r₀, hbase, hmore⟩ := bind_eq_ok.mp hbuild
    refine bind_eq_ok.mpr ⟨r₀, hbase, bind_eq_ok.mpr ⟨r, hmore, ?_⟩⟩
    exact bind_eq_ok.mpr ⟨_, hweights, bind_eq_ok.mpr ⟨s, hs, rfl⟩⟩

/-- The speculator of a head. -/
def AnyHead.speculator (h : AnyHead) : AnyModel := ⟨h.dtype, h.head.speculator⟩

/-- **The speculator of a combined head is the one that its own files give.** A head is read only if
no name is in two of the files of the base model and the speculator; and if the files of the
speculator give one on their own, it is the same model, whatever the base model has. -/
theorem loadHead_speculator {h : AnyHead} (hload : loadHead tree base files policy d g = .ok h) :
    (∀ p ∈ base ++ files.weights, Readable tree p) ∧ Compatible tree (base ++ files.weights) ∧
    ∀ m, loadSpeculator tree files policy d g = .ok m → h.speculator = m := by
  obtain ⟨r', hbuild', s', hs', rfl⟩ := loadHead_eq_ok_iff.mp hload
  have hr' := registered_of_build hbuild'
  refine ⟨hr'.readable, hr'.compatible, fun m hm => ?_⟩
  obtain ⟨r, hbuild, s, hs, rfl⟩ := loadSpeculator_eq_ok_iff.mp hm
  have hr := registered_of_build hbuild
  have hmore := hr.build_of_more hr' (List.subset_append_right base files.weights) hs
  have hinside := (LanguageHead.load_eq_ok_iff.mp hs').1
  obtain rfl : s'.speculator = s := Except.ok.inj (hinside.symm.trans hmore)
  rfl

/-- **A projection and a speculator make a head**, if no name is in two of their files and the group
can split the projection. -/
theorem exists_loadHead (readable : ∀ p ∈ base ++ files.weights, Readable tree p)
    (hcompatible : Compatible tree (base ++ files.weights)) {m : AnyModel}
    (hm : loadSpeculator tree files policy d g = .ok m) {p : Path} (hp : p ∈ base ++ files.weights)
    {t : AnyTensor} (ht : StoredTensor.ofTensor "lm_head.weight" t ∈ tensorsIn tree p)
    (hshape : t.shape = [files.config.vocabSize, files.config.embDim])
    (divides : g.world ∣ files.config.vocabSize) :
    ∃ h, loadHead tree base files policy d g = .ok h := by
  obtain ⟨r', hbuild'⟩ := (exists_build_iff_compatible readable).mpr hcompatible
  have hr' := registered_of_build hbuild'
  obtain ⟨r, hbuild, s, hs, rfl⟩ := loadSpeculator_eq_ok_iff.mp hm
  have hmore := (registered_of_build hbuild).build_of_more hr'
    (List.subset_append_right base files.weights) hs
  have hread : (reader tree r' d).below "lm_head" "weight"
      [files.config.vocabSize, files.config.embDim] = .ok (t.cast d) := by
    rw [← hshape]
    exact hr'.reader_stored hp ht
  obtain ⟨projection, hprojection⟩ :=
    Projection.exists_load hread ((shape_cast d t).trans hshape) divides
  exact ⟨⟨d, ⟨projection, s, policy.maxBatch⟩⟩, loadHead_eq_ok_iff.mpr
    ⟨r', hbuild', _, LanguageHead.load_eq_ok_iff.mpr ⟨hmore, hprojection, rfl⟩, rfl⟩⟩

/-- A base model in two files, beside the files of a speculator. -/
def baseAndSpeculator : FileTree :=
  ⟨[(["x"], .file (TensorFile.encode [.ofTensor "lm_head.weight" ⟨.f32, Tensor.fill [1, 1] 1⟩])),
    (["y"], .file (TensorFile.encode [.ofTensor "model.norm.weight" ⟨.f16, Tensor.fill [1] 1⟩]))] ++
      sixFiles.entries⟩

/-- The files of the speculator. -/
def fiveListed : Located where
  config := ⟨1, 1, 1, 1, false, false, []⟩
  weights := [⟨"a"⟩, ⟨"b"⟩, ⟨"c"⟩, ⟨"d"⟩, ⟨"e"⟩]

theorem storedApart_seven :
    StoredApart baseAndSpeculator ([⟨"x"⟩, ⟨"y"⟩] ++ fiveListed.weights)
      (("lm_head.weight", ⟨.f32, Tensor.fill [1, 1] 1⟩) ::
        ("model.norm.weight", ⟨.f16, Tensor.fill [1] 1⟩) :: smallTensors) := by
  decide +kernel

/-- A head is read from two files of a base model and five of a speculator. -/
theorem loadHead_speculator_five : ∃ h m,
    loadHead baseAndSpeculator [⟨"x"⟩, ⟨"y"⟩] fiveListed .standard .f32 .single = .ok h ∧
      loadSpeculator baseAndSpeculator fiveListed .standard .f32 .single = .ok m ∧
        h.speculator = m := by
  have hspeculator : StoredApart baseAndSpeculator fiveListed.weights smallTensors :=
    List.forall₂_drop 2 storedApart_seven
  have split := hspeculator.splitOver (by decide) (speculatorNames fiveListed.config .standard)
  have hmemory : (memorySpeculator smallTensors fiveListed.config .standard .f32
      .single).toOption.isSome = true := by
    decide +kernel
  obtain ⟨m, hm⟩ : ∃ m, loadSpeculator baseAndSpeculator fiveListed .standard .f32 .single =
      .ok m := by
    rw [loadSpeculator_eq split]
    cases hm : memorySpeculator smallTensors fiveListed.config .standard .f32 .single with
    | ok m => exact ⟨m, rfl⟩
    | error e => rw [hm] at hmemory; cases hmemory
  have hall := storedApart_seven.splitOver (by decide) []
  obtain ⟨p, hp, hstored⟩ := hall.stored _ List.mem_cons_self
  obtain ⟨h, hh⟩ := exists_loadHead hall.readable hall.compatible hm hp hstored rfl (Nat.one_dvd _)
  exact ⟨h, m, hh, hm, (loadHead_speculator hh).2.2 m hm⟩

end DraftHeads
