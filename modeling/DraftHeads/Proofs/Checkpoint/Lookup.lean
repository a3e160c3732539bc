import DraftHeads.Proofs.Checkpoint.Routing
import DraftHeads.Proofs.Checkpoint.TensorFile
import DraftHeads.Proofs.Checkpoint.Weights

/-! # Two ways to find a tensor

A routing finds the file of a name in its table, where the first file that has the name counts. The
source of weights over its files finds the tensor of a name in the last file that has it.

* `Registered.find?_eq`: both come to the same tensor.
* `Reached`: the routings that come about when files are added.
* `weights_eq_stored`: the source of weights over the files of any of them. -/

namespace DraftHeads

/-- Of several sources only one of which has something, the last one gives it. -/
theorem findSome?_reverse_eq {α β : Type} {f : α → Option β} {l : List α} {a : α} (ha : a ∈ l)
    (huse : ∀ x ∈ l, (f x).isSome = true → x = a) : l.reverse.findSome? f = f a := by
  cases h : l.reverse.findSome? f with
  | none => exact (List.findSome?_eq_none_iff.mp h a (List.mem_reverse.mpr ha)).symm
  | some b =>
    obtain ⟨x, hx, hb⟩ := List.exists_of_findSome?_eq_some h
    obtain rfl := huse x (List.mem_reverse.mp hx) (hb ▸ rfl)
    exact hb.symm

namespace Routing

variable {tree : FileTree} {r r' : Routing} {p q : Path} {name : String} {done : List Path}

/-- The tensor that is stored under a name in a file. -/
def tensorIn? (tree : FileTree) (p : Path) (name : String) : Option StoredTensor :=
  (tensorsIn tree p).find? fun t => t.name == name

/-- The tensor that is stored under a name in the file of the name. -/
def stored? (tree : FileTree) (r : Routing) (name : String) : Option StoredTensor :=
  (r.fileFor? name).bind fun p => tensorIn? tree p name

theorem isSome_tensorIn? : (tensorIn? tree p name).isSome = true ↔ name ∈ namesIn tree p := by
  simp [tensorIn?, namesIn, List.find?_isSome]

theorem Readable.nodup_namesIn (h : Readable tree p) : (namesIn tree p).Nodup := by
  obtain ⟨bytes, -, hdecode⟩ := readFile_eq_ok_iff.mp h.readFile_eq
  exact TensorFile.nodup_names hdecode

theorem Readable.tensorIn?_eq_some_iff (h : Readable tree p) {t : StoredTensor} :
    tensorIn? tree p name = some t ↔ t ∈ tensorsIn tree p ∧ t.name = name :=
  StoredTensor.find?_eq_some_iff h.nodup_namesIn

namespace Registered

theorem mem_files (hr : Registered tree done r) (h : r.fileFor? name = some p) :
    p ∈ r.files := by
  obtain ⟨hp, hname⟩ := hr.of_fileFor? h
  rw [hr.files, Path.mem_eraseDupsBy_iff, ← hr.fileFor?_eq hp hname, h]

theorem eq_of_mem_files (hr : Registered tree done r) (h : r.fileFor? name = some p)
    (hq : q ∈ r.files) (hname : name ∈ namesIn tree q) : q = p := by
  rw [hr.files, Path.mem_eraseDupsBy_iff] at hq
  rw [hr.fileFor?_eq (List.mem_of_find?_eq_some hq) hname, hq] at h
  exact Option.some.inj h

theorem readable_files (hr : Registered tree done r) : ∀ p ∈ r.files, Readable tree p := by
  intro p hp
  rw [hr.files, Path.mem_eraseDupsBy_iff] at hp
  exact hr.readable p (List.mem_of_find?_eq_some hp)

theorem weights_eq (hr : Registered tree done r) :
    r.weights tree = .ok (.files (r.files.map (tensorsIn tree))) := by
  have hread : r.files.mapM (readFile tree) = .ok (r.files.map (tensorsIn tree)) := by
    rw [mapM_eq_ok, List.forall₂_map_right_iff, List.forall₂_same]
    exact fun p hp => (hr.readable_files p hp).readFile_eq
  rw [weights, hread]
  rfl

theorem find?_eq (hr : Registered tree done r) (name : String) :
    Weights.find? (r.files.map (tensorsIn tree)) name = stored? tree r name := by
  have hfiles : Weights.find? (r.files.map (tensorsIn tree)) name =
      r.files.reverse.findSome? fun p => tensorIn? tree p name := by
    rw [Weights.find?, ← List.map_reverse, List.findSome?_map]
    rfl
  rw [hfiles, stored?]
  cases h : r.fileFor? name with
  | some p =>
    exact findSome?_reverse_eq (hr.mem_files h) fun q hq hsome =>
      hr.eq_of_mem_files h hq (isSome_tensorIn?.mp hsome)
  | none =>
    refine List.findSome?_eq_none_iff.mpr fun q hq => ?_
    by_contra hsome
    have hname : name ∈ namesIn tree q := isSome_tensorIn?.mp (Option.ne_none_iff_isSome.mp hsome)
    rw [List.mem_reverse, hr.files, Path.mem_eraseDupsBy_iff] at hq
    obtain ⟨f, hf⟩ := hr.exists_fileFor? (List.mem_of_find?_eq_some hq) hname
    rw [h] at hf
    cases hf

theorem isSome_stored? (hr : Registered tree done r) (name : String) :
    (stored? tree r name).isSome = (r.fileFor? name).isSome := by
  rw [stored?]
  cases h : r.fileFor? name with
  | none => rfl
  | some p => exact isSome_tensorIn?.mpr (hr.of_fileFor? h).2

end Registered

/-! ### Routings that come about -/

/-- The routings that come about when files are added one after the other, in whichever order the
names of each of them are claimed. -/
inductive Reached (tree : FileTree) : Routing → Prop
  | empty : Reached tree empty
  | addFile {r r' : Routing} {p : Path} {n : Nat} :
      Reached tree r → Adds tree r p r' (.ok n) → Reached tree r'

theorem Reached.registered (h : Reached tree r) : ∃ done, Registered tree done r := by
  induction h with
  | empty => exact ⟨[], registered_empty⟩
  | addFile _ hadd ih =>
    obtain ⟨done, hr⟩ := ih
    exact ⟨done ++ [_], hr.after_adds hadd⟩

theorem Reached.addsAll {paths : List Path} {outcome : Except Fault Routing} (hr : Reached tree r)
    (h : AddsAll tree r paths outcome) (hout : outcome = .ok r') : Reached tree r' := by
  induction h with
  | done r =>
    cases hout
    exact hr
  | added first _ ih => exact ih (hr.addFile first) hout
  | refused => cases hout

theorem Reached.addFiles {paths : List Path} (hr : Reached tree r)
    (h : addFiles tree r paths = .ok r') : Reached tree r' :=
  hr.addsAll (addFiles_addsAll tree paths r) h

/-- **A routing and the source of weights over its files agree** on where every tensor comes from:
the source has a tensor of a name if the name has a file, and it is the one of that name there. -/
theorem weights_eq_stored (h : Reached tree r) : ∃ tables, r.weights tree = .ok (.files tables) ∧
    ∀ name,
      ((∃ t, Weights.find? tables name = some t) ↔ ∃ p, r.fileFor? name = some p) ∧
      (∀ p, r.fileFor? name = some p → ∀ t, Weights.find? tables name = some t ↔
        t ∈ tensorsIn tree p ∧ t.name = name) ∧
      ∀ (d : DType) (shape : List Nat),
        (Weights.files tables).reader d name shape = .error (.missing name) ↔
          r.fileFor? name = none := by
  obtain ⟨done, hr⟩ := h.registered
  refine ⟨_, hr.weights_eq, fun name => ?_⟩
  have hsome := hr.isSome_stored? name
  simp only [Weights.reader_files_eq_missing_iff, hr.find?_eq]
  refine ⟨?_, fun p hp t => ?_, fun _ _ => ?_⟩
  · rw [← Option.isSome_iff_exists, ← Option.isSome_iff_exists, hsome]
  · rw [stored?, hp]
    exact (hr.readable p (hr.of_fileFor? hp).1).tensorIn?_eq_some_iff
  · rw [← Option.not_isSome_iff_eq_none, hsome, Option.not_isSome_iff_eq_none]

/-- A tensor of the first list of files is found after a second list that has its file again. -/
theorem weights_eq_stored_two_lists : ∃ r₀ r tables t, build twoFiles [⟨"d/a"⟩] = .ok r₀ ∧
    addFiles twoFiles r₀ [⟨"d/b"⟩, ⟨"d//a"⟩] = .ok r ∧ r.weights twoFiles = .ok (.files tables) ∧
      Weights.find? tables "x" = some t := by
  have readable : ∀ p ∈ [⟨"d/a"⟩, ⟨"d/b"⟩, ⟨"d//a"⟩], Readable twoFiles p := by decide +kernel
  have hcompatible : Compatible twoFiles [⟨"d/a"⟩, ⟨"d/b"⟩, ⟨"d//a"⟩] := by decide +kernel
  have hname : "x" ∈ namesIn twoFiles ⟨"d/a"⟩ := by decide +kernel
  obtain ⟨r, hr⟩ := (exists_build_iff_compatible readable).mpr hcompatible
  obtain ⟨f, hf⟩ := (registered_of_build hr).exists_fileFor? List.mem_cons_self hname
  obtain ⟨r₀, hbase, hmore⟩ := bind_eq_ok.mp
    ((addFiles_append twoFiles [⟨"d/a"⟩] [⟨"d/b"⟩, ⟨"d//a"⟩] empty).symm.trans hr)
  obtain ⟨tables, htables, hfind⟩ :=
    weights_eq_stored ((Reached.empty.addFiles hbase).addFiles hmore)
  obtain ⟨t, ht⟩ := (hfind "x").1.mpr ⟨f, hf⟩
  exact ⟨r₀, r, tables, t, hbase, hmore, htables, ht⟩

end Routing

end DraftHeads
