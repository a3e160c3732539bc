import DraftHeads.Checkpoint.Synthetic
import DraftHeads.Proofs.Draft.Requirements
import Mathlib.Data.List.Nodup
import Mathlib.Data.List.Perm.Basic

/-! # Synthetic checkpoints are what models are built from

A synthetic checkpoint has the tensors that a model of its configuration needs, each of them once
and no others.

* `Parameters.nodup_required`: the names of the required tensors are all different.
* `Synthetic.Spells`, `Synthetic.tensors_spells`: the names and shapes of what is made.
* `Weights.Exactly`: the tensors in memory are what is required; then they are all there
  (`Weights.Exactly.holds`), and none of them can be taken away or changed in shape
  (`Weights.not_holds_without`, `Weights.not_holds_replaced`).
* `Synthetic.checkpoint_exact`: models are built from such a checkpoint and from nothing less. -/

namespace DraftHeads

/-! ### Names -/

theorem cut_at_point {a b x y : List Char} (ha : '.' ∉ a) (hb : '.' ∉ b)
    (h : a ++ '.' :: x = b ++ '.' :: y) : a = b ∧ x = y := by
  rcases List.append_eq_append_iff.mp h with ⟨l, rfl, hl⟩ | ⟨l, rfl, hl⟩ <;> cases l with
  | nil => simpa [eq_comm] using hl
  | cons c l =>
    obtain ⟨rfl, -⟩ := List.cons.inj hl
    simp at ha hb

namespace Parameters

theorem entryName_eq (word : String) (i : Nat) (entry : String) :
    entryName word i entry = word ++ "." ++ toString i ++ ("." ++ entry) := by
  simp only [entryName, String.append_assoc]

theorem toList_entryName (word : String) (i : Nat) (entry : String) :
    (entryName word i entry).toList =
      word.toList ++ '.' :: (Nat.toDigits 10 i ++ '.' :: entry.toList) := by
  simp [entryName, Nat.toString_eq_repr, Nat.toList_repr]

/-- **A name of an entry** says what it is the name of. -/
theorem entryName_inj {word word' entry entry' : String} {i j : Nat} (hword : '.' ∉ word.toList)
    (hword' : '.' ∉ word'.toList) (h : entryName word i entry = entryName word' j entry') :
    word = word' ∧ i = j ∧ entry = entry' := by
  have hpoint : ∀ n, '.' ∉ Nat.toDigits 10 n := fun n hmem =>
    absurd (Nat.isDigit_of_mem_toDigits (by decide) (by decide) hmem) (by decide)
  have hlist := congrArg String.toList h
  rw [toList_entryName, toList_entryName] at hlist
  obtain ⟨hwords, hrest⟩ := cut_at_point hword hword' hlist
  obtain ⟨hdigits, hentries⟩ := cut_at_point (hpoint i) (hpoint j) hrest
  refine ⟨String.toList_inj.mp hwords, ?_, String.toList_inj.mp hentries⟩
  rw [← Nat.ofDigitChars_ten_toDigits (n := i), hdigits, Nat.ofDigitChars_ten_toDigits]

/-- The kinds of entries of a head. -/
def entryKinds : List (String × String) :=
  [("emb", "weight"), ("proj", "weight"), ("head", "weight"), ("ln", "weight"), ("ln", "bias")]

theorem names_headTensors (sizes : Sizes) (i : Nat) :
    (headTensors sizes i).map Prod.fst = entryKinds.map fun k => entryName k.1 i k.2 := rfl

theorem entryName_kind_inj {k l : String × String} (hk : k ∈ entryKinds) (hl : l ∈ entryKinds)
    {i j : Nat} (h : entryName k.1 i k.2 = entryName l.1 j l.2) : k = l ∧ i = j := by
  have hpoint : ∀ k ∈ entryKinds, '.' ∉ k.1.toList := by decide
  obtain ⟨hword, hnumber, hentry⟩ := entryName_inj (hpoint k hk) (hpoint l hl) h
  exact ⟨Prod.ext hword hentry, hnumber⟩

/-- **Each required tensor has a name of its own.** -/
theorem nodup_required (tied : Bool) (heads : Nat) (sizes : Sizes) :
    ((required tied heads sizes).map Prod.fst).Nodup := by
  cases tied with
  | true =>
    -- the first head, and perhaps the second state projection
    have hnames : (required true heads sizes).map Prod.fst =
        (entryKinds.map fun k => entryName k.1 0 k.2) ++
          if 1 < heads then [entryName "proj" 1 "weight"] else [] := by
      rw [required, if_pos rfl, List.map_append, names_headTensors]
      split_ifs <;> rfl
    rw [hnames]
    split_ifs <;> decide
  | false =>
    have hnames : (required false heads sizes).map Prod.fst =
        (List.range heads).flatMap fun i => entryKinds.map fun k => entryName k.1 i k.2 := by
      rw [required, if_neg Bool.false_ne_true, List.map_flatMap]
      rfl
    rw [hnames, List.nodup_flatMap]
    constructor
    · intro i _
      exact List.Nodup.map_on (fun k hk l hl h => (entryName_kind_inj hk hl h).1) (by decide)
    · refine List.nodup_range.imp fun {i j} hne => ?_
      intro name hi hj
      obtain ⟨k, hk, rfl⟩ := List.mem_map.mp hi
      obtain ⟨l, hl, h⟩ := List.mem_map.mp hj
      exact hne (entryName_kind_inj hl hk h).2.symm

theorem required_subset (tied : Bool) {m heads : Nat} (hle : m ≤ heads) (sizes : Sizes) :
    required tied m sizes ⊆ required tied heads sizes := by
  intro r hr
  cases tied with
  | true =>
    rw [required, if_pos rfl, List.mem_append] at hr ⊢
    refine hr.imp_right fun hr => ?_
    split_ifs at hr with hm
    · rwa [if_pos (by omega)]
    · cases hr
  | false =>
    rw [required, if_neg Bool.false_ne_true, List.mem_flatMap] at hr ⊢
    obtain ⟨i, hi, hr⟩ := hr
    rw [List.mem_range] at hi
    exact ⟨i, List.mem_range.mpr (by omega), hr⟩

end Parameters

/-! ### Tensors in memory -/

namespace Weights

variable {entries : List (String × AnyTensor)} {reqs : List Requirement} {r : Requirement}

/-- The name and the shape of a tensor in memory. -/
def label (e : String × AnyTensor) : Requirement := (e.1, e.2.shape)

/-- The tensors in memory are what is required, each of them once and under a name of its own. -/
structure Exactly (entries : List (String × AnyTensor)) (reqs : List Requirement) : Prop where
  nodup : (entries.map Prod.fst).Nodup
  perm : (entries.map label).Perm reqs

/-- All tensors but those of a name. -/
def without (name : String) (entries : List (String × AnyTensor)) : List (String × AnyTensor) :=
  entries.filter fun e => e.1 != name

/-- Another tensor under a name. -/
def replaced (name : String) (t : AnyTensor) (entries : List (String × AnyTensor)) :
    List (String × AnyTensor) :=
  entries.map fun e => if e.1 = name then (name, t) else e

theorem Exactly.holds (h : Exactly entries reqs) (hr : r ∈ reqs) : Holds entries r := by
  obtain ⟨e, he, rfl⟩ := List.mem_map.mp (h.perm.mem_iff.mpr hr)
  have hfind : entries.find? (fun e' => e'.1 == (label e).1) = some e := by
    obtain ⟨e', hfind⟩ : ∃ e', entries.find? (fun e' => e'.1 == (label e).1) = some e' :=
      Option.isSome_iff_exists.mp (List.find?_isSome.mpr ⟨e, he, beq_self_eq_true _⟩)
    have hname := List.find?_some hfind
    rw [hfind, List.inj_on_of_nodup_map h.nodup (List.mem_of_find?_eq_some hfind) he
      (beq_iff_eq.mp hname)]
  rw [Holds, hfind]
  rfl

theorem not_holds_without (r : Requirement) : ¬ Holds (without r.1 entries) r := by
  have hnone : (without r.1 entries).find? (fun e => e.1 == r.1) = none := by
    refine List.find?_eq_none.mpr fun e he heq => ?_
    have hne := (List.mem_filter.mp he).2
    rw [bne_iff_ne] at hne
    exact hne (beq_iff_eq.mp heq)
  rw [Holds, hnone]
  exact nofun

theorem not_holds_replaced {t : AnyTensor} (h : t.shape ≠ r.2) :
    ¬ Holds (replaced r.1 t entries) r := by
  intro hholds
  obtain ⟨e, hfind, hshape⟩ := Option.map_eq_some_iff.mp hholds
  have hfound := List.find?_some hfind
  have hname : e.1 = r.1 := beq_iff_eq.mp hfound
  obtain ⟨e', -, rfl⟩ := List.mem_map.mp (List.mem_of_find?_eq_some hfind)
  split_ifs at hname hshape with heq
  · exact h hshape
  · exact heq hname

end Weights

/-! ### What is made -/

namespace Synthetic

open Parameters
open Model (sizesOf)

/-- The name and the shape of a tensor. -/
def label (e : Named) : Requirement := (e.1, e.2.shape)

/-- A tensor of this shape is not too large. -/
def Fits (r : Requirement) : Prop := entryCount r.2 * entrySize ≤ maxBytes

instance (r : Requirement) : Decidable (Fits r) := inferInstanceAs (Decidable (_ ≤ _))

/-- Tensors are made with these names and shapes, if none of them is too large. -/
structure Spells (made : Except TensorFault (List Named)) (reqs : List Requirement) : Prop where
  exists_iff : (∃ es, made = .ok es) ↔ ∀ r ∈ reqs, Fits r
  labels : ∀ es, made = .ok es → es.map label = reqs

variable {made : Except TensorFault (List Named)} {reqs : List Requirement} {c : Config} {s : Sizes}

theorem exists_wave_iff (name : String) (shape : List Nat) (phase scale : Float32) :
    (∃ t, wave shape phase scale = .ok t) ↔ Fits (name, shape) := by
  unfold wave checkBytes Fits
  simp only [ite_error_eq_ok, bind_eq_ok, not_lt]
  constructor
  · rintro ⟨t, _, ⟨hle, -⟩, -⟩
    exact hle
  · intro hle
    have hsize : ∀ f : Nat → Float32,
        ((List.range (entryCount shape)).map f).length = entryCount shape := fun f => by
      rw [List.length_map, List.length_range]
    exact (Tensor.ofData_eq (hsize _)).imp fun t ht => ⟨(), ⟨hle, trivial⟩, ht.1⟩

theorem shape_of_wave {shape : List Nat} {phase scale : Float32} {t : Tensor Float32}
    (h : wave shape phase scale = .ok t) : t.shape = shape := by
  obtain ⟨_, -, h⟩ := bind_eq_ok.mp h
  unfold Tensor.ofData at h
  split_ifs at h
  cases h
  rfl

theorem wave_spells (name : String) (shape : List Nat) (phase scale : Float32) :
    Spells (do return [(name, ← wave shape phase scale)]) [(name, shape)] where
  exists_iff := by
    rw [List.forall_mem_singleton, ← exists_wave_iff name shape phase scale]
    simp only [bind_eq_ok, pure_eq_ok]
    constructor
    · rintro ⟨_, t, ht, -⟩
      exact ⟨t, ht⟩
    · rintro ⟨t, ht⟩
      exact ⟨_, t, ht, rfl⟩
  labels es h := by
    obtain ⟨t, ht, h⟩ := bind_eq_ok.mp h
    obtain rfl := pure_eq_ok.mp h
    rw [List.map_singleton, label, shape_of_wave ht]

theorem embedding_spells (s : Sizes) (i : Nat) :
    Spells (embedding s i) [(entryName "emb" i "weight", [s.vocab, s.inner])] :=
  entryName_eq "emb" i "weight" ▸ wave_spells _ _ _ _

theorem stateProjection_spells (s : Sizes) (i : Nat) :
    Spells (stateProjection s i) [(entryName "proj" i "weight", [s.inner, inputWidth s i])] :=
  entryName_eq "proj" i "weight" ▸ wave_spells _ _ _ _

theorem outputProjection_spells (s : Sizes) (i : Nat) :
    Spells (outputProjection s i) [(entryName "head" i "weight", [s.vocab, s.inner])] :=
  entryName_eq "head" i "weight" ▸ wave_spells _ _ _ _

theorem norm_spells (s : Sizes) (i : Nat) : Spells (norm s i)
    [(entryName "ln" i "weight", [s.inner]), (entryName "ln" i "bias", [s.inner])] where
  exists_iff := by
    rw [List.forall_mem_cons, List.forall_mem_singleton,
      ← exists_wave_iff _ [s.inner] (phase 30 i) 0.1,
      ← exists_wave_iff _ [s.inner] (phase 40 i) 0.01]
    unfold norm
    simp only [bind_eq_ok, pure_eq_ok]
    constructor
    · rintro ⟨_, weight, hweight, bias, hbias, -⟩
      exact ⟨⟨weight, hweight⟩, bias, hbias⟩
    · rintro ⟨⟨weight, hweight⟩, bias, hbias⟩
      exact ⟨_, weight, hweight, bias, hbias, rfl⟩
  labels es h := by
    obtain ⟨weight, hweight, h⟩ := bind_eq_ok.mp h
    obtain ⟨bias, hbias, h⟩ := bind_eq_ok.mp h
    obtain rfl := pure_eq_ok.mp h
    rw [entryName_eq, entryName_eq, List.map_cons, List.map_singleton, label, label,
      Tensor.shape_map, shape_of_wave hweight, shape_of_wave hbias]
    rfl

/-- A requirement among those of a whole checkpoint. -/
def ofSpeculator (r : Requirement) : Requirement := ("speculator." ++ r.1, r.2)

theorem ofHeads_spells {kind : Nat → Except TensorFault (List Named)}
    {reqs : Nat → List Requirement} (h : ∀ i, Spells (kind i) (reqs i)) (count : Nat) :
    Spells (ofHeads count kind) (((List.range count).flatMap reqs).map ofSpeculator) := by
  have hlists : ∀ lists, (List.range count).mapM kind = .ok lists →
      (∀ i ∈ List.range count, ∀ r ∈ reqs i, Fits r) ∧
        (List.range count).map reqs = lists.map (List.map label) := fun lists hlists => by
    have hspelled : List.Forall₂ (fun i es => (∀ r ∈ reqs i, Fits r) ∧ reqs i = es.map label)
        (List.range count) lists := (mapM_eq_ok.mp hlists).imp fun i es hes =>
      ⟨(h i).exists_iff.mp ⟨es, hes⟩, ((h i).labels es hes).symm⟩
    obtain ⟨hfits, hlabels⟩ := (List.forall₂_and_left _ _).mp hspelled
    refine ⟨hfits, ?_⟩
    rw [← List.forall₂_eq_eq_eq, List.forall₂_map_left_iff, List.forall₂_map_right_iff]
    exact hlabels
  constructor
  · unfold ofHeads
    simp only [bind_eq_ok, pure_eq_ok, List.forall_mem_map, List.mem_flatMap]
    constructor
    · rintro ⟨_, lists, hmade, -⟩ r ⟨i, hi, hr⟩
      exact (hlists lists hmade).1 i hi r hr
    · intro hall
      obtain ⟨lists, hmade⟩ := exists_forall₂ fun i hi =>
        (h i).exists_iff.mpr fun r hr => hall r ⟨i, hi, hr⟩
      exact ⟨_, lists, mapM_eq_ok.mpr hmade, rfl⟩
  · intro es hes
    obtain ⟨lists, hmade, hes⟩ := bind_eq_ok.mp hes
    obtain rfl := pure_eq_ok.mp hes
    rw [List.flatMap_def, (hlists lists hmade).2, ← List.map_flatten, List.map_map, List.map_map]
    rfl

/-- The tensors of all heads, kind by kind. -/
def checkpointTensors (tied : Bool) (heads : Nat) (s : Sizes) : List Requirement :=
  let count := if tied then 1 else heads
  let projections := if tied then min heads 2 else heads
  ((List.range count).flatMap fun i => [(entryName "emb" i "weight", [s.vocab, s.inner])]) ++
    ((List.range projections).flatMap fun i =>
      [(entryName "proj" i "weight", [s.inner, inputWidth s i])]) ++
    ((List.range count).flatMap fun i => [(entryName "head" i "weight", [s.vocab, s.inner])]) ++
    ((List.range count).flatMap fun i =>
      [(entryName "ln" i "weight", [s.inner]), (entryName "ln" i "bias", [s.inner])])

/-- **What a synthetic checkpoint has.** -/
theorem tensors_spells (c : Config) : Spells (tensors c)
    ((checkpointTensors c.tieWeights c.headCount (sizesOf c)).map ofSpeculator) := by
  have hemb := ofHeads_spells (embedding_spells (sizesOf c))
    (if c.tieWeights then 1 else c.headCount)
  have hproj := ofHeads_spells (stateProjection_spells (sizesOf c))
    (if c.tieWeights then min c.headCount 2 else c.headCount)
  have hout := ofHeads_spells (outputProjection_spells (sizesOf c))
    (if c.tieWeights then 1 else c.headCount)
  have hnorm := ofHeads_spells (norm_spells (sizesOf c)) (if c.tieWeights then 1 else c.headCount)
  unfold checkpointTensors tensors
  simp only [List.map_append]
  constructor
  · simp only [bind_eq_ok, pure_eq_ok, List.forall_mem_append]
    rw [← hemb.exists_iff, ← hproj.exists_iff, ← hout.exists_iff, ← hnorm.exists_iff]
    constructor
    · rintro ⟨_, a, ha, b, hb, c, hc, d, hd, -⟩
      exact ⟨⟨⟨⟨a, ha⟩, b, hb⟩, c, hc⟩, d, hd⟩
    · rintro ⟨⟨⟨⟨a, ha⟩, b, hb⟩, c, hc⟩, d, hd⟩
      exact ⟨_, a, ha, b, hb, c, hc, d, hd, rfl⟩
  · intro es hes
    obtain ⟨a, ha, hes⟩ := bind_eq_ok.mp hes
    obtain ⟨b, hb, hes⟩ := bind_eq_ok.mp hes
    obtain ⟨c, hc, hes⟩ := bind_eq_ok.mp hes
    obtain ⟨d, hd, hes⟩ := bind_eq_ok.mp hes
    obtain rfl := pure_eq_ok.mp hes
    simp only [List.map_append]
    rw [hemb.labels a ha, hproj.labels b hb, hout.labels c hc, hnorm.labels d hd]

/-- **They are the tensors that the heads need**, in another order. -/
theorem checkpointTensors_perm (tied : Bool) {heads : Nat} (hpos : 0 < heads) (s : Sizes) :
    (checkpointTensors tied heads s).Perm (required tied heads s) := by
  cases tied with
  | true =>
    unfold checkpointTensors required
    simp only [if_true]
    split_ifs with hmany
    · rw [Nat.min_eq_right (by omega)]
      exact ((List.perm_append_singleton _ _).symm.cons _).cons _
    · rw [Nat.min_eq_left (by omega), show heads = 1 by omega]
      exact .refl _
  | false =>
    -- the kinds of tensors are put together head by head
    have hstates := List.flatMap_append_perm (List.range heads)
      (fun i => [(entryName "emb" i "weight", [s.vocab, s.inner])])
      (fun i => [(entryName "proj" i "weight", [s.inner, inputWidth s i])])
    have houtputs := (hstates.append_right _).trans (List.flatMap_append_perm (List.range heads) _
      fun i => [(entryName "head" i "weight", [s.vocab, s.inner])])
    exact (houtputs.append_right _).trans (List.flatMap_append_perm (List.range heads) _
      fun i => [(entryName "ln" i "weight", [s.inner]), (entryName "ln" i "bias", [s.inner])])

theorem checkpoint_eq_ok_iff {es : List Named} :
    checkpoint c = .ok es ↔ tensors c = .ok es ∧ es.length ≤ maxNamed := by
  unfold checkpoint
  simp only [bind_eq_ok]
  constructor
  · rintro ⟨es', htensors, h⟩
    split_ifs at h with hmany
    · cases h
    · obtain rfl := pure_eq_ok.mp h
      exact ⟨htensors, not_lt.mp hmany⟩
  · rintro ⟨htensors, hfew⟩
    exact ⟨es, htensors, by rw [if_neg (not_lt.mpr hfew)]; rfl⟩

theorem length_of_tensors (hheads : 0 < c.headCount) {es : List Named} (h : tensors c = .ok es) :
    es.length = (required c.tieWeights c.headCount (sizesOf c)).length := by
  have hlength := congrArg List.length ((tensors_spells c).labels es h)
  rwa [List.length_map, List.length_map,
    (checkpointTensors_perm c.tieWeights hheads (sizesOf c)).length_eq] at hlength

/-- **When a checkpoint is made.** -/
theorem exists_checkpoint_iff (hheads : 0 < c.headCount) : (∃ es, checkpoint c = .ok es) ↔
    (∀ r ∈ required c.tieWeights c.headCount (sizesOf c), Fits r) ∧
      (required c.tieWeights c.headCount (sizesOf c)).length ≤ maxNamed := by
  have hfits : (∃ es, tensors c = .ok es) ↔
      ∀ r ∈ required c.tieWeights c.headCount (sizesOf c), Fits r := by
    rw [(tensors_spells c).exists_iff, List.forall_mem_map]
    exact forall_congr' fun r => by
      rw [(checkpointTensors_perm c.tieWeights hheads (sizesOf c)).mem_iff]
      rfl
  rw [← hfits]
  simp only [checkpoint_eq_ok_iff]
  constructor
  · rintro ⟨es, htensors, hfew⟩
    exact ⟨⟨es, htensors⟩, length_of_tensors hheads htensors ▸ hfew⟩
  · rintro ⟨⟨es, htensors⟩, hfew⟩
    exact ⟨es, htensors, length_of_tensors hheads htensors ▸ hfew⟩

/-! ### Models from synthetic checkpoints -/

/-- Tensors that were made, in memory. -/
def inMemory (es : List Named) : List (String × AnyTensor) := es.map fun e => (e.1, ⟨.f32, e.2⟩)

/-- The entries of the speculator among some tensors in memory. -/
def speculatorReader (d : DType) (entries : List (String × AnyTensor)) : Reader d.Elem :=
  ((Weights.memory entries).reader d).below "speculator"

/-- The standard policy. -/
def standardPolicy : Policy Float := Policy.standard.mapEps Number.Double.toFloat

/-- The standard policy for a number of heads. -/
def policyFor (heads : Nat) : Policy Float := { standardPolicy with tokens? := some heads }

variable {es : List Named} {d : DType} {entries : List (String × AnyTensor)} {policy : Policy Float}

/-- **A synthetic checkpoint is exactly what its configuration requires.** -/
theorem exactly_of_checkpoint (hheads : 0 < c.headCount) (h : checkpoint c = .ok es) :
    Weights.Exactly (inMemory es)
      ((required c.tieWeights c.headCount (sizesOf c)).map ofSpeculator) := by
  have hlabels : (inMemory es).map Weights.label =
      (checkpointTensors c.tieWeights c.headCount (sizesOf c)).map ofSpeculator := by
    rw [← (tensors_spells c).labels es (checkpoint_eq_ok_iff.mp h).1, inMemory, List.map_map]
    rfl
  have hperm : ((inMemory es).map Weights.label).Perm
      ((required c.tieWeights c.headCount (sizesOf c)).map ofSpeculator) :=
    hlabels ▸ (checkpointTensors_perm c.tieWeights hheads (sizesOf c)).map ofSpeculator
  refine ⟨?_, hperm⟩
  have hnames : ((required c.tieWeights c.headCount (sizesOf c)).map ofSpeculator).map Prod.fst =
      ((required c.tieWeights c.headCount (sizesOf c)).map Prod.fst).map ("speculator." ++ ·) := by
    rw [List.map_map, List.map_map]
    rfl
  have hnodup := (nodup_required c.tieWeights c.headCount (sizesOf c)).map
    fun _ _ => (String.append_right_inj "speculator.").mp
  rw [← hnames] at hnodup
  have hsame := (hperm.map Prod.fst).nodup_iff.mpr hnodup
  rwa [List.map_map] at hsame

theorem exists_required_of_mem (hheads : 0 < c.headCount) (h : checkpoint c = .ok es) {e : Named}
    (he : e ∈ es) : ∃ r ∈ required c.tieWeights c.headCount (sizesOf c),
      ofSpeculator r = label e := by
  have hmem : label e ∈ (inMemory es).map Weights.label := by
    rw [inMemory, List.map_map]
    exact List.mem_map_of_mem he
  exact List.mem_map.mp ((exactly_of_checkpoint hheads h).perm.mem_iff.mp hmem)

theorem exists_build_iff_holds (plan : Model.Plan c policy)
    (hbytes : policy.headCount c * slotSize ≤ maxBytes) :
    (∃ m : Model d.Elem Float,
      Model.build c policy (speculatorReader d entries) .single = .ok m) ↔
      ∀ r ∈ required c.tieWeights (policy.headCount c) (sizesOf c),
        Weights.Holds entries (ofSpeculator r) := by
  rw [plan.exists_build_iff, and_iff_right hbytes]
  exact forall₂_congr fun r _ => Weights.gives_memory_iff (r := ofSpeculator r)

theorem build_tooLarge (plan : Model.Plan c policy)
    (hlarge : maxBytes < policy.headCount c * slotSize)
    (hholds : ∀ r ∈ required c.tieWeights (policy.headCount c) (sizesOf c),
      Weights.Holds entries (ofSpeculator r)) :
    (Model.build c policy (speculatorReader d entries) .single : Except _ (Model _ Float)) =
      .error (.layer (.whole .tooLarge)) := by
  cases htied : c.tieWeights with
  | false => exact plan.build_untied_tooLarge htied hlarge
  | true =>
    rw [htied] at hholds
    exact plan.build_tied_tooLarge htied hlarge fun r hr =>
      (Weights.gives_memory_iff (r := ofSpeculator r)).mpr (hholds r hr)

/-- **A synthetic checkpoint is what a model is built from, and nothing less.** It is made if none
of the tensors that its configuration requires is too large and a table can have their names, and
they have names of their own. A model with any number of its heads is built from it. For a model
with all of them every tensor is needed, in its shape. Only if there are more heads than a list of
slots can have entries the program ends. -/
theorem checkpoint_exact (valid : c.validate = .ok ()) :
    ((∀ r ∈ required c.tieWeights c.headCount (sizesOf c), Fits r) →
      (required c.tieWeights c.headCount (sizesOf c)).length ≤ maxNamed →
      ∃ es, checkpoint c = .ok es) ∧
    ∀ es, checkpoint c = .ok es → (es.map Prod.fst).Nodup ∧ ∀ d : DType,
      (∀ heads, 1 ≤ heads → heads ≤ c.headCount → heads * slotSize ≤ maxBytes →
        ∃ m : Model d.Elem Float, Model.build c (policyFor heads)
          (speculatorReader d (inMemory es)) .single = .ok m) ∧
      (c.headCount * slotSize ≤ maxBytes →
        (∃ m : Model d.Elem Float, Model.build c standardPolicy
          (speculatorReader d (inMemory es)) .single = .ok m) ∧
        ∀ e ∈ es,
          (¬ ∃ m : Model d.Elem Float, Model.build c standardPolicy
            (speculatorReader d (Weights.without e.1 (inMemory es))) .single = .ok m) ∧
          ∀ t : AnyTensor, t.shape ≠ e.2.shape → ¬ ∃ m : Model d.Elem Float,
            Model.build c standardPolicy
              (speculatorReader d (Weights.replaced e.1 t (inMemory es))) .single = .ok m) ∧
      (maxBytes < c.headCount * slotSize →
        Model.build c standardPolicy (speculatorReader d (inMemory es)) .single =
          .error (.layer (.whole .tooLarge))) := by
  have hheads : 0 < c.headCount := Nat.pos_of_ne_zero (Model.validate_eq_ok_iff.mp valid).1
  have plan : Model.Plan c standardPolicy := Model.plan_of_none valid hheads.ne' rfl
  refine ⟨fun hfits hfew => (exists_checkpoint_iff hheads).mpr ⟨hfits, hfew⟩, fun es hes => ?_⟩
  have hexact := exactly_of_checkpoint hheads hes
  have hnodup := hexact.nodup
  rw [inMemory, List.map_map] at hnodup
  have hholds : ∀ r ∈ required c.tieWeights c.headCount (sizesOf c),
      Weights.Holds (inMemory es) (ofSpeculator r) := fun r hr =>
    hexact.holds (List.mem_map_of_mem hr)
  refine ⟨hnodup, fun d => ⟨fun heads hpos hle hbytes => ?_, fun hbytes => ⟨?_, fun e he => ?_⟩,
    fun hlarge => build_tooLarge plan hlarge hholds⟩⟩
  · have planned : Model.Plan c (policyFor heads) :=
      Model.plan_of_none valid (Nat.ne_of_gt hpos) rfl
    exact (exists_build_iff_holds planned hbytes).mpr fun r hr =>
      hholds r (required_subset _ hle _ hr)
  · exact (exists_build_iff_holds plan hbytes).mpr hholds
  · obtain ⟨r, hr, heq⟩ := exists_required_of_mem hheads hes he
    refine ⟨fun hbuilt => ?_, fun t ht hbuilt => ?_⟩
    · have hgone := (exists_build_iff_holds plan hbytes).mp hbuilt r hr
      rw [heq] at hgone
      exact Weights.not_holds_without _ hgone
    · have hother := (exists_build_iff_holds plan hbytes).mp hbuilt r hr
      rw [heq] at hother
      exact Weights.not_holds_replaced ht hother

/-- Two heads of their own have ten tensors, and need each of them. -/
theorem checkpoint_exact_small : ∃ es, checkpoint Model.smallConfig = .ok es ∧ es.length = 10 ∧
    (∃ m : Model Float32 Float, Model.build Model.smallConfig (policyFor 1)
      (speculatorReader .f32 (inMemory es)) .single = .ok m) ∧
    (∃ m : Model Float32 Float, Model.build Model.smallConfig standardPolicy
      (speculatorReader .f32 (inMemory es)) .single = .ok m) ∧
    ∀ e ∈ es, ¬ ∃ m : Model Float32 Float, Model.build Model.smallConfig standardPolicy
      (speculatorReader .f32 (Weights.without e.1 (inMemory es))) .single = .ok m := by
  have valid : Model.smallConfig.validate = .ok () := rfl
  obtain ⟨hmade, hall⟩ := checkpoint_exact valid
  obtain ⟨es, hes⟩ := hmade (by decide) (by decide)
  obtain ⟨-, hbuilt⟩ := hall es hes
  obtain ⟨hfewer, hfull, -⟩ := hbuilt .f32
  obtain ⟨hdefault, hneeded⟩ := hfull (by decide)
  have hcount : es.length = 10 :=
    length_of_tensors (c := Model.smallConfig) (by decide) (checkpoint_eq_ok_iff.mp hes).1
  exact ⟨es, hes, hcount, hfewer 1 (by decide) (by decide) (by decide), hdefault,
    fun e he => (hneeded e he).1⟩

/-- The checkpoint of heads that share their weights is made, however many they are; but a model
with too many of them is not built from it. -/
theorem countless_checkpoint : Model.countless.validate = .ok () ∧
    ∃ es, checkpoint Model.countless = .ok es ∧
      ¬ ∃ m : Model Float32 Float, Model.build Model.countless standardPolicy
        (speculatorReader .f32 (inMemory es)) .single = .ok m := by
  have valid : Model.countless.validate = .ok () := rfl
  have hheads : 0 < Model.countless.headCount := by decide
  have plan : Model.Plan Model.countless standardPolicy :=
    Model.plan_of_none valid hheads.ne' rfl
  obtain ⟨es, hes⟩ := (exists_checkpoint_iff hheads).mpr ⟨by decide, by decide⟩
  refine ⟨valid, es, hes, fun ⟨m, hm⟩ => ?_⟩
  rw [plan.build_tooLarge (by decide)] at hm
  cases hm

end Synthetic

end DraftHeads
