import DraftHeads.Proofs.Checkpoint.IndexedFiles
import DraftHeads.Proofs.Config.RoundTrip

/-! # Checkpoints that are found

When a checkpoint is found, and what is known of it then. Its configuration is always valid. Its
tensor files are at least one in a directory; in a repository there are as many as the index names,
which may be none.

* `inDirectory_eq_ok_iff`, `repositoryFiles_eq_ok_iff`, `inRepository_eq_ok_iff`: when something is
  found.
* `NamesNoFile`: a repository whose index names no file.
* `locate_found`: what is known of a checkpoint that is found.
* `located_without_files`: a repository in which a checkpoint without tensor files is found. -/

namespace DraftHeads.Located

variable {tree : FileTree} {hub : Hub} {directory path : Path} {repository source : String}
  {located : Located} {c : Config} {weights : List Path}

/-! ### Directories -/

theorem validate_of_readConfig (h : readConfig tree path = .ok c) : c.validate = .ok () := by
  unfold readConfig at h
  split at h
  · obtain ⟨-, -, -, hvalid⟩ := Config.parse_eq_ok_iff.mp h
    exact hvalid
  · cases h

/-- The tensor files among the names in a directory. -/
def tensorFiles (directory : Path) (names : List String) : List Path :=
  (names.map directory.join).filter isTensorFile

/-- **A checkpoint is found in a directory** if its configuration can be read and there is a tensor
file among the names that are listed. -/
theorem inDirectory_eq_ok_iff : inDirectory tree directory = .ok located ↔
    readConfig tree (directory.join "config.json") = .ok located.config ∧
      ∃ names, tree.list? directory = some names ∧ tensorFiles directory names ≠ [] ∧
        located.weights = naturalSort id (tensorFiles directory names) := by
  obtain ⟨config, weights⟩ := located
  rw [inDirectory, bind_eq_ok]
  constructor
  · rintro ⟨c, hc, hlist⟩
    split at hlist
    · cases hlist
    · next names hnames =>
      obtain ⟨hsome, hok⟩ := ite_error_eq_ok.mp hlist
      obtain ⟨rfl, rfl⟩ := Located.mk.inj (Except.ok.inj hok)
      refine ⟨hc, names, hnames, fun hnil => hsome ?_, rfl⟩
      rw [tensorFiles] at hnil
      rw [hnil]
      rfl
  · rintro ⟨hc, names, hnames, hsome, hweights⟩
    dsimp only at hc hweights
    refine ⟨config, hc, ?_⟩
    rw [hnames, hweights]
    exact ite_error_eq_ok.mpr ⟨fun hnil => hsome (List.isEmpty_iff.mp hnil), rfl⟩

/-! ### Repositories -/

theorem indexedNames_eq_ok_iff {index : Json.Value} {names : List String} :
    indexedNames index = .ok names ↔ ∃ members, index.get? "weight_map" = some (.object members) ∧
      names = dedupAdjacent (naturalSort Path.mk (members.filterMap fun m => m.2.string?)) := by
  unfold indexedNames
  split
  · next members hmap =>
    rw [hmap, Except.ok.injEq]
    exact ⟨fun h => ⟨members, rfl, h.symm⟩, fun ⟨members', hmap', h⟩ => by
      cases hmap'
      exact h.symm⟩
  · next hother =>
    exact ⟨fun h => (nomatch h), fun ⟨members, hmap, _⟩ => (hother members hmap).elim⟩

/-- **The tensor files of a repository** are its one file, or else those that its index names. -/
theorem repositoryFiles_eq_ok_iff : repositoryFiles tree hub repository = .ok weights ↔
    (∃ path, hub.get tree repository "model.safetensors" = .ok path ∧ weights = [path]) ∨
      (∃ e, hub.get tree repository "model.safetensors" = .error e) ∧
        ∃ path text index names,
          hub.get tree repository "model.safetensors.index.json" = .ok path ∧
            tree.readText? path = some text ∧ Json.parse? text = some index ∧
              indexedNames index.sorted = .ok names ∧
                List.Forall₂ (fun name file => hub.get tree repository name = .ok file) names
                  weights := by
  unfold repositoryFiles
  split
  · next path hfile =>
    rw [hfile, Except.ok.injEq]
    simp [eq_comm]
  · next e hnone =>
    rw [hnone, bind_eq_ok]
    simp only [reduceCtorEq, false_and, exists_false, false_or, Except.error.injEq, exists_eq',
      true_and]
    constructor
    · rintro ⟨path, hpath, hread⟩
      split at hread
      · cases hread
      · next text htext =>
        split at hread
        · cases hread
        · next index hindex =>
          obtain ⟨names, hnames, hfetch⟩ := bind_eq_ok.mp hread
          exact ⟨path, text, index, names, hpath, htext, hindex, hnames, mapM_eq_ok.mp hfetch⟩
    · rintro ⟨path, text, index, names, hpath, htext, hindex, hnames, hfetch⟩
      refine ⟨path, hpath, ?_⟩
      rw [htext]
      dsimp only
      rw [hindex]
      exact bind_eq_ok.mpr ⟨names, hnames, mapM_eq_ok.mpr hfetch⟩

/-- **A checkpoint is found in a repository** if its configuration can be read and all of its files
can be had. -/
theorem inRepository_eq_ok_iff : inRepository tree hub repository = .ok located ↔
    (∃ path, hub.get tree repository "config.json" = .ok path ∧
      readConfig tree path = .ok located.config) ∧
        repositoryFiles tree hub repository = .ok located.weights := by
  obtain ⟨config, weights⟩ := located
  simp only [inRepository, bind_eq_ok, pure_eq_ok, Located.mk.injEq]
  constructor
  · rintro ⟨path, hpath, c, hc, files, hfiles, rfl, rfl⟩
    exact ⟨⟨path, hpath, hc⟩, hfiles⟩
  · rintro ⟨⟨path, hpath, hc⟩, hfiles⟩
    exact ⟨path, hpath, config, hc, weights, hfiles, rfl, rfl⟩

/-- A repository without the one file, whose index has no file name in its weight map. -/
def NamesNoFile (tree : FileTree) (hub : Hub) (repository : String) : Prop :=
  (∃ e, hub.get tree repository "model.safetensors" = .error e) ∧
    ∃ path text index members,
      hub.get tree repository "model.safetensors.index.json" = .ok path ∧
        tree.readText? path = some text ∧ Json.parse? text = some index ∧
          index.sorted.get? "weight_map" = some (.object members) ∧
            ∀ m ∈ members, m.2.string? = none

theorem namesNone_iff {members : List (String × Json.Value)} :
    dedupAdjacent (naturalSort Path.mk (members.filterMap fun m => m.2.string?)) = [] ↔
      ∀ m ∈ members, m.2.string? = none := by
  rw [List.eq_nil_iff_forall_not_mem, ← List.filterMap_eq_nil_iff, List.eq_nil_iff_forall_not_mem]
  simp only [mem_dedupAdjacent, mem_naturalSort]

/-- **A repository has no tensor files** if its index names none. -/
theorem repositoryFiles_eq_nil_iff (h : repositoryFiles tree hub repository = .ok weights) :
    weights = [] ↔ NamesNoFile tree hub repository := by
  rcases repositoryFiles_eq_ok_iff.mp h with ⟨path, hfile, rfl⟩ |
    ⟨hnone, path, text, index, names, hpath, htext, hindex, hnames, hfetch⟩
  · refine ⟨fun hnil => (nomatch hnil), fun ⟨⟨e, he⟩, _⟩ => ?_⟩
    rw [hfile] at he
    cases he
  · obtain ⟨members, hmap, rfl⟩ := indexedNames_eq_ok_iff.mp hnames
    have hnil : weights = [] ↔ ∀ m ∈ members, m.2.string? = none := by
      rw [← namesNone_iff, ← List.length_eq_zero_iff, ← List.length_eq_zero_iff, hfetch.length_eq]
    rw [hnil]
    refine ⟨fun hstrings => ⟨hnone, path, text, index, members, hpath, htext, hindex, hmap,
      hstrings⟩, ?_⟩
    rintro ⟨-, path', text', index', members', hpath', htext', hindex', hmap', hstrings⟩
    obtain rfl := Except.ok.inj (hpath.symm.trans hpath')
    obtain rfl := Option.some.inj (htext.symm.trans htext')
    obtain rfl := Option.some.inj (hindex.symm.trans hindex')
    obtain rfl := Json.Value.object.inj (Option.some.inj (hmap.symm.trans hmap'))
    exact hstrings

/-! ### All sources -/

/-- **A checkpoint that is found** has a valid configuration, and it has tensor files unless it is
in a repository whose index names none. -/
theorem locate_found (h : locate tree hub source = .ok located) :
    located.config.validate = .ok () ∧
      (located.weights = [] ↔
        tree.isDirectory ⟨source⟩ = false ∧ NamesNoFile tree hub source) := by
  unfold locate at h
  split_ifs at h with hdirectory
  · obtain ⟨hconfig, names, -, hsome, hweights⟩ := inDirectory_eq_ok_iff.mp h
    refine ⟨validate_of_readConfig hconfig, fun hnil => ?_, fun hno => ?_⟩
    · rw [hweights] at hnil
      exact absurd (naturalSort_perm.symm.trans (.of_eq hnil)).eq_nil hsome
    · rw [hdirectory] at hno
      cases hno.1
  · obtain ⟨⟨path, -, hconfig⟩, hfiles⟩ := inRepository_eq_ok_iff.mp h
    rw [Bool.not_eq_true] at hdirectory
    exact ⟨validate_of_readConfig hconfig,
      (repositoryFiles_eq_nil_iff hfiles).trans (and_iff_right hdirectory).symm⟩

/-- The text of a configuration. -/
def smallConfigText : String :=
  "\x7b\"vocab_size\": 4, \"emb_dim\": 2, \"n_predict\": 2\x7d"

/-- The snapshot of a repository with that configuration, an index and a file that is empty. -/
def snapshotOf (index : String) : FileTree :=
  ⟨[(["s", "config.json"], .file smallConfigText.toUTF8.data.toList),
    (["s", "model.safetensors.index.json"], .file index.toUTF8.data.toList),
    (["s", "m"], .file [])]⟩

/-- An index in which one of two values is a file name. -/
def mixedIndex : String := "\x7b\"weight_map\": \x7b\"a\": 1, \"b\": \"m\"\x7d\x7d"

/-- An index whose weight map is empty. -/
def emptyIndex : String := "\x7b\"weight_map\": \x7b\x7d\x7d"

theorem exists_of_toOption {x : Except Fault Located} {weights : List Path}
    (h : x.toOption.map Located.weights = some weights) :
    ∃ located, x = .ok located ∧ located.weights = weights := by
  cases x with
  | error e => cases h
  | ok located => exact ⟨located, rfl, Option.some.inj h⟩

/-- The value that is no file name is passed over. -/
theorem locate_found_mixed : ∃ located,
    locate (snapshotOf mixedIndex) oneSnapshot "org/spec" = .ok located ∧
      located.config.validate = .ok () ∧ located.weights = [⟨"s/m"⟩] ∧
        ¬ NamesNoFile (snapshotOf mixedIndex) oneSnapshot "org/spec" := by
  have hread : (locate (snapshotOf mixedIndex) oneSnapshot "org/spec").toOption.map
      Located.weights = some [⟨"s/m"⟩] := by
    decide +kernel
  obtain ⟨located, hlocated, hweights⟩ := exists_of_toOption hread
  obtain ⟨hvalid, hnil⟩ := locate_found hlocated
  refine ⟨located, hlocated, hvalid, hweights, fun hno => ?_⟩
  have := hnil.mpr ⟨by decide +kernel, hno⟩
  rw [hweights] at this
  cases this

/-- **A checkpoint without tensor files** is found in a repository whose weight map is empty. -/
theorem located_without_files : ∃ located,
    locate (snapshotOf emptyIndex) oneSnapshot "org/spec" = .ok located ∧
      located.weights = [] :=
  exists_of_toOption (by decide +kernel)

end DraftHeads.Located
