import DraftHeads.Proofs.Checkpoint.Routing

/-! # Exactly the conflicts

* `Exact`: a routing that says of every name of some files where it comes from, and nothing else.
* `build_exact`: readable files have an exact routing, in whichever order they are listed and the
  names of each of them are claimed, or two of them have a name in common. -/

namespace DraftHeads

namespace Routing

variable {tree : FileTree} {r : Routing} {paths : List Path}

/-- A routing that says of every name of some files where it comes from, and nothing else. -/
structure Exact (tree : FileTree) (paths : List Path) (r : Routing) : Prop where
  /-- A name goes to the first spelling of a file that has it. -/
  mem_routes_iff : ∀ name f, (name, f) ∈ r.routes ↔
    ∃ p ∈ paths, name ∈ namesIn tree p ∧ (paths.find? fun q => q.same p) = some f
  fileFor?_eq_some_iff : ∀ name f, r.fileFor? name = some f ↔ (name, f) ∈ r.routes
  length_routes : r.routes.length = (paths.flatMap (namesIn tree)).toFinset.card
  /-- The files are listed at their first spelling, each of them once. -/
  files : r.files = paths.eraseDupsBy Path.same
  pairwise_files : r.files.Pairwise fun p q => p.same q = false

theorem Registered.exact (hr : Registered tree paths r) : Exact tree paths r where
  mem_routes_iff := fun _ _ => hr.mem_routes_iff.trans hr.fileFor?_eq_some_iff
  fileFor?_eq_some_iff := fun _ _ => hr.mem_routes_iff.symm
  length_routes := hr.length_routes
  files := hr.files
  pairwise_files := hr.files ▸ Path.pairwise_eraseDupsBy paths

/-- **Exactly the conflicts are found.** A routing of readable files is built if no name is in two
of them. It is exact then, and the files in any other order have a routing with the same file for
each name. Otherwise a name is reported with two different files that have it. In whichever order
the names of each file are claimed, the same routing is built, or such a conflict is reported. -/
theorem build_exact (readable : ∀ p ∈ paths, Readable tree p) :
    ((∃ r, build tree paths = .ok r) ↔ Compatible tree paths) ∧
    (∀ r, build tree paths = .ok r → Exact tree paths r) ∧
    (∀ paths', paths'.Perm paths →
      ((∃ r', build tree paths' = .ok r') ↔ ∃ r, build tree paths = .ok r) ∧
      ∀ r r', build tree paths = .ok r → build tree paths' = .ok r' → ∀ name,
        Option.Rel (fun p q => p.same q = true) (r.fileFor? name) (r'.fileFor? name)) ∧
    (∀ e, build tree paths = .error e →
      ∃ name, ∃ first ∈ paths, ∃ second ∈ paths, name ∈ namesIn tree first ∧
        name ∈ namesIn tree second ∧ first.same second = false ∧
          e = .conflict name first.text second.text) ∧
    (∀ r, Builds tree paths (.ok r) ↔ build tree paths = .ok r) ∧
    ∀ e, Builds tree paths (.error e) → ¬ Compatible tree paths ∧
      ∃ name, ∃ first ∈ paths, ∃ second ∈ paths, name ∈ namesIn tree first ∧
        name ∈ namesIn tree second ∧ first.same second = false ∧
          e = .conflict name first.text second.text := by
  refine ⟨exists_build_iff_compatible readable, fun r h => (registered_of_build h).exact,
    fun paths' hperm => ⟨?_, fun r r' h h' => ?_⟩,
    fun e h => (builds_of_build h).exists_conflict readable,
    fun r => builds_ok_iff readable,
    fun e h => ⟨not_compatible_of_conflict h readable, h.exists_conflict readable⟩⟩
  · have readable' : ∀ p ∈ paths', Readable tree p := fun p hp => readable p (hperm.mem_iff.mp hp)
    rw [exists_build_iff_compatible readable, exists_build_iff_compatible readable']
    simp only [Compatible, hperm.mem_iff]
  · exact (registered_of_build h).fileFor?_rel (registered_of_build h') fun p => hperm.mem_iff.symm

/-- The first file may be listed in two spellings. -/
theorem build_exact_respelled : ∃ r,
    build twoFiles [⟨"d/a"⟩, ⟨"d/b"⟩, ⟨"d//a"⟩] = .ok r ∧
      Exact twoFiles [⟨"d/a"⟩, ⟨"d/b"⟩, ⟨"d//a"⟩] r := by
  have readable : ∀ p ∈ [⟨"d/a"⟩, ⟨"d/b"⟩, ⟨"d//a"⟩], Readable twoFiles p := by
    decide +kernel
  have hcompatible : Compatible twoFiles [⟨"d/a"⟩, ⟨"d/b"⟩, ⟨"d//a"⟩] := by
    decide +kernel
  obtain ⟨r, hr⟩ := (build_exact readable).1.mpr hcompatible
  exact ⟨r, hr, (build_exact readable).2.1 r hr⟩

end Routing

end DraftHeads
