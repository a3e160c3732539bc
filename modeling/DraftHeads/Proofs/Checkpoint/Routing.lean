import DraftHeads.Checkpoint.Routing
import DraftHeads.Proofs.Checkpoint.Path
import DraftHeads.Proofs.Json.Members
import DraftHeads.Proofs.Outcome
import Mathlib.Data.Finset.Card
import Mathlib.Data.List.Find

/-! # Routings that were built

Names are routed file by file. What is true of the files so far is `Registered`: a name belongs to
the first of them that has it, the table holds nothing else, and no name is in two files.

* `addNames_ok`, `addNames_error`: one file; `Registered.after_adds`: it keeps the invariant, and
  `Registered.exists_conflict` says what stands against it, in whichever order its names are
  claimed.
* `Registered.after_addsAll`, `exists_conflict_of_addsAll`: a list of files.
* `exists_build_iff_compatible`: when the routing of a list of files is built; `builds_ok_iff`: the
  orders of names have no part in it. -/

namespace DraftHeads

namespace Routing

variable {tree : FileTree} {r r' : Routing} {p q path : Path} {name : String}

/-! ### Files and their names -/

/-- The tensors of a file; there are none if it cannot be read. -/
def tensorsIn (tree : FileTree) (p : Path) : List StoredTensor :=
  match readFile tree p with
  | .ok tensors => tensors
  | .error _ => []

/-- The names of the tensors of a file. -/
def namesIn (tree : FileTree) (p : Path) : List String := (tensorsIn tree p).map (·.name)

/-- Can the file be read? -/
def Readable (tree : FileTree) (p : Path) : Prop := ∃ tensors, readFile tree p = .ok tensors

instance (tree : FileTree) (p : Path) : Decidable (Readable tree p) :=
  decidable_of_iff ((readFile tree p).toOption.isSome = true) <| by
    unfold Readable
    cases readFile tree p <;> simp [Except.toOption]

theorem readFile_eq_ok_iff {tensors : List StoredTensor} : readFile tree p = .ok tensors ↔
    ∃ bytes, tree.readBytes? p = some bytes ∧ TensorFile.decode? bytes = some tensors := by
  rw [← Option.bind_eq_some_iff]
  change _ ↔ (tree.readBytes? p >>= TensorFile.decode?) = some tensors
  unfold readFile
  cases tree.readBytes? p >>= TensorFile.decode? <;> simp

theorem tensorsIn_eq {tensors : List StoredTensor} (h : readFile tree p = .ok tensors) :
    tensorsIn tree p = tensors := by
  rw [tensorsIn, h]

theorem Readable.readFile_eq (h : Readable tree p) : readFile tree p = .ok (tensorsIn tree p) := by
  obtain ⟨tensors, h⟩ := h
  rw [tensorsIn_eq h, h]

theorem tensorsIn_of_same (h : p.same q = true) (hp : Readable tree p) (hq : Readable tree q) :
    tensorsIn tree p = tensorsIn tree q := by
  obtain ⟨bytes, hbytes, hdecode⟩ := readFile_eq_ok_iff.mp hp.readFile_eq
  obtain ⟨bytes', hbytes', hdecode'⟩ := readFile_eq_ok_iff.mp hq.readFile_eq
  obtain rfl := FileTree.readBytes?_of_same h hbytes hbytes'
  exact Option.some.inj (hdecode.symm.trans hdecode')

/-! ### Names of one file -/

theorem fileFor?_eq (r : Routing) (name : String) : r.fileFor? name = Json.lookup name r.routes :=
  rfl

theorem claim_eq_ok_iff : r.claim path name = .ok r' ↔
    (∀ owner, r.fileFor? name = some owner → owner.same path = true) ∧
      r' = if (r.fileFor? name).isSome then r
        else { r with routes := Json.insertMember name path r.routes } := by
  unfold claim
  cases h : r.fileFor? name with
  | none =>
    rw [Except.ok.injEq, eq_comm]
    simp
  | some owner =>
    by_cases hsame : owner.same path = true
    · rw [eq_comm (a := r')]
      simp [hsame]
    · simp [hsame]

theorem fileFor?_of_claim (h : r.claim path name = .ok r') (n : String) :
    r'.fileFor? n = (r.fileFor? n).or (if n = name then some path else none) := by
  obtain ⟨-, rfl⟩ := claim_eq_ok_iff.mp h
  by_cases hn : n = name
  · subst hn
    cases h : r.fileFor? n with
    | none =>
      change Json.lookup n (Json.insertMember n path r.routes) = _
      rw [Json.lookup_insertMember, if_pos rfl, if_pos rfl, Option.none_or]
    | some owner => simp [h]
  · rw [if_neg hn, Option.or_none]
    split_ifs
    · rfl
    · exact Json.lookup_insertMember.trans (if_neg hn)

theorem fileFor?_of_claim_other {n : String} {owner : Path} (h : r.claim path name = .ok r')
    (hsame : owner.same path = false) (howner : r'.fileFor? n = some owner) :
    r.fileFor? n = some owner := by
  rw [fileFor?_of_claim h] at howner
  rcases Option.or_eq_some_iff.mp howner with howner | ⟨-, howner⟩
  · exact howner
  · -- a name that was just claimed belongs to this file
    split_ifs at howner
    obtain rfl := Option.some.inj howner
    rw [Path.same_refl] at hsame
    cases hsame

theorem claim_eq_error {e : Fault} (h : r.claim path name = .error e) :
    ∃ owner, r.fileFor? name = some owner ∧ owner.same path = false ∧
      e = .conflict name owner.text path.text := by
  unfold claim at h
  split at h
  · next owner howner =>
    split_ifs at h with hsame
    cases h
    exact ⟨owner, howner, Bool.not_eq_true _ ▸ hsame, rfl⟩
  · cases h

theorem routes_ascending_of_claim (h : r.claim path name = .ok r')
    (hr : Json.Ascending r.routes) : Json.Ascending r'.routes := by
  obtain ⟨-, rfl⟩ := claim_eq_ok_iff.mp h
  split_ifs
  · exact hr
  · exact Json.insertMember_ascending hr

theorem files_of_claim (h : r.claim path name = .ok r') : r'.files = r.files := by
  obtain ⟨-, rfl⟩ := claim_eq_ok_iff.mp h
  split_ifs <;> rfl

theorem register_routes (r : Routing) (path : Path) : (r.register path).routes = r.routes := by
  unfold register
  split_ifs <;> rfl

/-- **Names that were claimed for a file** belong to it, if they did not belong to it before; the
file is registered. -/
theorem addNames_ok : ∀ {names : List String} {r : Routing},
    (r.addNames path names).2 = .ok () → Json.Ascending r.routes →
      (∀ n ∈ names, ∀ owner, r.fileFor? n = some owner → owner.same path = true) ∧
      (∀ n, (r.addNames path names).1.fileFor? n =
        (r.fileFor? n).or (if n ∈ names then some path else none)) ∧
      Json.Ascending (r.addNames path names).1.routes ∧
      (r.addNames path names).1.files = (r.register path).files
  | [], r, _, hr => by
    have hroutes := register_routes r path
    refine ⟨by simp, fun n => ?_, by rw [addNames, hroutes]; exact hr, rfl⟩
    rw [addNames, fileFor?_eq, hroutes]
    simp [fileFor?_eq]
  | name :: names, r, h, hr => by
    rw [addNames] at h ⊢
    cases hclaim : r.claim path name with
    | error e => rw [hclaim] at h; cases h
    | ok r' =>
      rw [hclaim] at h
      obtain ⟨howner, hfile, hrest, hfiles⟩ := addNames_ok h (routes_ascending_of_claim hclaim hr)
      simp only [fileFor?_of_claim hclaim] at howner hfile
      refine ⟨fun n hn owner hn' => ?_, fun n => ?_, hrest, ?_⟩
      · rcases List.mem_cons.mp hn with rfl | hn
        · exact (claim_eq_ok_iff.mp hclaim).1 owner hn'
        · exact howner n hn owner (by rw [hn', Option.some_or])
      · rw [hfile, Option.or_assoc]
        congr 1
        by_cases hn : n = name <;> simp [hn]
      · rw [hfiles, register, register, files_of_claim hclaim]
        split_ifs <;> simp [files_of_claim hclaim]

/-- **A name that was not claimed** belongs to another file. -/
theorem addNames_error : ∀ {names : List String} {r : Routing} {e : Fault},
    (r.addNames path names).2 = .error e → ∃ name ∈ names, ∃ owner,
      r.fileFor? name = some owner ∧ owner.same path = false ∧
        e = .conflict name owner.text path.text
  | [], r, e, h => by cases h
  | name :: names, r, e, h => by
    rw [addNames] at h
    cases hclaim : r.claim path name with
    | ok r' =>
      rw [hclaim] at h
      obtain ⟨n, hn, owner, howner, hsame, rfl⟩ := addNames_error h
      exact ⟨n, List.mem_cons_of_mem name hn, owner, fileFor?_of_claim_other hclaim hsame howner,
        hsame, rfl⟩
    | error e' =>
      rw [hclaim] at h
      cases h
      obtain ⟨owner, howner, hsame, rfl⟩ := claim_eq_error hclaim
      exact ⟨name, List.mem_cons_self, owner, howner, hsame, rfl⟩

/-! ### Files that were added -/

/-- No name is in two files. -/
def Compatible (tree : FileTree) (paths : List Path) : Prop :=
  ∀ p ∈ paths, ∀ q ∈ paths, ∀ name ∈ namesIn tree p, name ∈ namesIn tree q → p.same q = true

instance (tree : FileTree) (paths : List Path) : Decidable (Compatible tree paths) :=
  inferInstanceAs (Decidable (∀ p ∈ paths, ∀ q ∈ paths, ∀ name ∈ namesIn tree p,
    name ∈ namesIn tree q → p.same q = true))

/-- What is true of a routing after some files. -/
structure Registered (tree : FileTree) (done : List Path) (r : Routing) : Prop where
  readable : ∀ p ∈ done, Readable tree p
  compatible : Compatible tree done
  ascending : Json.Ascending r.routes
  /-- A name belongs to the first file that has it. -/
  owner : ∀ name, r.fileFor? name = done.find? fun q => decide (name ∈ namesIn tree q)
  files : r.files = done.eraseDupsBy Path.same

variable {done paths : List Path}

theorem registered_empty : Registered tree [] empty where
  readable := by simp
  compatible := by simp [Compatible]
  ascending := .nil
  owner := fun _ => rfl
  files := rfl

theorem Registered.of_fileFor? (hr : Registered tree done r) (h : r.fileFor? name = some p) :
    p ∈ done ∧ name ∈ namesIn tree p := by
  rw [hr.owner] at h
  have hname := List.find?_some h
  exact ⟨List.mem_of_find?_eq_some h, of_decide_eq_true hname⟩

theorem Registered.exists_fileFor? (hr : Registered tree done r) (hp : p ∈ done)
    (hname : name ∈ namesIn tree p) : ∃ f, r.fileFor? name = some f := by
  rw [← Option.isSome_iff_exists, hr.owner, List.find?_isSome]
  exact ⟨p, hp, decide_eq_true hname⟩

theorem addFile_of_readable (h : Readable tree p) (r : Routing) : addFile tree r p =
    ((r.addNames p (namesIn tree p)).1,
      (r.addNames p (namesIn tree p)).2.map fun _ => (tensorsIn tree p).length) := by
  rw [addFile, h.readFile_eq]
  rfl

/-- The order of the places is one of those in which names may be claimed. -/
theorem addFile_adds (tree : FileTree) (r : Routing) (p : Path) :
    Adds tree r p (addFile tree r p).1 (addFile tree r p).2 := by
  cases hread : readFile tree p with
  | error e =>
    rw [addFile, hread]
    exact .unreadable hread
  | ok tensors =>
    have hadds := Adds.claimed (r := r) hread _ (.refl _)
    rw [List.length_map] at hadds
    rw [addFile, hread]
    exact hadds

theorem addFiles_addsAll (tree : FileTree) : ∀ (paths : List Path) (r : Routing),
    AddsAll tree r paths (addFiles tree r paths)
  | [], r => .done r
  | p :: paths, r => by
    have hadds := addFile_adds tree r p
    rw [addFiles]
    split
    · next hadd =>
      rw [hadd] at hadds
      exact .added hadds (addFiles_addsAll tree paths _)
    · next hadd =>
      rw [hadd] at hadds
      exact .refused hadds paths

/-- **A file that was added** could be read, and its names were claimed in some order. -/
theorem Adds.exists_names {n : Nat} (h : Adds tree r p r' (.ok n)) :
    Readable tree p ∧ ∃ names : List String, names.Perm (namesIn tree p) ∧
      (r.addNames p names).2 = .ok () ∧ r' = (r.addNames p names).1 := by
  generalize hout : Except.ok n = out at h
  cases h with
  | unreadable read => cases hout
  | claimed read names order =>
    obtain ⟨_, hnames, -⟩ := map_eq_ok.mp hout.symm
    rw [← tensorsIn_eq read] at order
    exact ⟨⟨_, read⟩, names, order, hnames, rfl⟩

/-- **A file that was refused** could not be read and left nothing, or one of its names was refused.
-/
theorem Adds.refused_cases {e : Fault} (h : Adds tree r p r' (.error e)) :
    Readable tree p ∧ (∃ names : List String, names.Perm (namesIn tree p) ∧
      (r.addNames p names).2 = .error e ∧ r' = (r.addNames p names).1) ∨
    ¬ Readable tree p ∧ r' = r := by
  generalize hout : Except.error e = out at h
  cases h with
  | unreadable read =>
    refine .inr ⟨?_, rfl⟩
    rintro ⟨tensors, hread⟩
    rw [hread] at read
    cases read
  | claimed read names order =>
    rw [← tensorsIn_eq read] at order
    exact .inl ⟨⟨_, read⟩, names, order, map_eq_error.mp hout.symm, rfl⟩

/-- **A file that was added** keeps the invariant. -/
theorem Registered.after_adds {n : Nat} (hr : Registered tree done r)
    (h : Adds tree r p r' (.ok n)) : Registered tree (done ++ [p]) r' := by
  obtain ⟨hp, names, order, hok, rfl⟩ := h.exists_names
  obtain ⟨hsame, hfile, hascending, hfiles⟩ := addNames_ok hok hr.ascending
  simp only [order.mem_iff] at hsame hfile
  -- a name that a file before has as well belongs to that file, which is then this one
  have hbefore : ∀ q ∈ done, ∀ name ∈ namesIn tree q, name ∈ namesIn tree p →
      q.same p = true := by
    intro q hq name hname hname'
    obtain ⟨f, howner⟩ := hr.exists_fileFor? hq hname
    obtain ⟨hf, hname''⟩ := hr.of_fileFor? howner
    exact Path.same_trans (hr.compatible q hq f hf name hname hname'') (hsame name hname' f howner)
  refine ⟨?_, ?_, hascending, fun name => ?_, ?_⟩
  · intro q hq
    rcases List.mem_append.mp hq with hq | hq
    · exact hr.readable q hq
    · exact List.mem_singleton.mp hq ▸ hp
  · intro q hq q' hq' name hname hname'
    rw [List.mem_append, List.mem_singleton] at hq hq'
    rcases hq with hq | rfl <;> rcases hq' with hq' | rfl
    · exact hr.compatible q hq q' hq' name hname hname'
    · exact hbefore q hq name hname hname'
    · exact Path.same_symm (hbefore q' hq' name hname' hname)
    · exact Path.same_refl _
  · rw [hfile, hr.owner, List.find?_append, List.find?_singleton]
    simp
  · rw [hfiles, register, hr.files, Path.eraseDupsBy_concat]
    split_ifs <;> simp [hr.files]

/-- **A readable file that was refused** has a name that another file had before. -/
theorem Registered.exists_conflict {e : Fault} (hr : Registered tree done r) (hp : Readable tree p)
    (h : Adds tree r p r' (.error e)) : ∃ name ∈ namesIn tree p, ∃ first ∈ done,
      name ∈ namesIn tree first ∧ first.same p = false ∧ e = .conflict name first.text p.text := by
  obtain ⟨-, names, order, herror, -⟩ | ⟨hnot, -⟩ := h.refused_cases
  · obtain ⟨name, hname, first, howner, hsame, rfl⟩ := addNames_error herror
    obtain ⟨hfirst, hname'⟩ := hr.of_fileFor? howner
    exact ⟨name, order.mem_iff.mp hname, first, hfirst, hname', hsame, rfl⟩
  · exact absurd hp hnot

/-- **A list of files that were added** keeps the invariant. -/
theorem Registered.after_addsAll {paths : List Path} {outcome : Except Fault Routing}
    (h : AddsAll tree r paths outcome) {done : List Path} (hr : Registered tree done r)
    (hout : outcome = .ok r') : Registered tree (done ++ paths) r' := by
  induction h generalizing done with
  | done r =>
    cases hout
    rwa [List.append_nil]
  | added first _ ih =>
    rw [List.append_cons]
    exact ih (hr.after_adds first) hout
  | refused => cases hout

theorem exists_conflict_of_addsAll {paths : List Path} {outcome : Except Fault Routing} {e : Fault}
    (h : AddsAll tree r paths outcome) {done : List Path} (hr : Registered tree done r)
    (hreadable : ∀ p ∈ paths, Readable tree p) (hout : outcome = .error e) :
    ∃ name, ∃ first ∈ done ++ paths, ∃ second ∈ paths, name ∈ namesIn tree first ∧
      name ∈ namesIn tree second ∧ first.same second = false ∧
        e = .conflict name first.text second.text := by
  induction h generalizing done with
  | done r => cases hout
  | @added _ _ p paths _ _ first _ ih =>
    obtain ⟨name, file, hfile, second, hsecond, hconflict⟩ :=
      ih (hr.after_adds first) (fun q hq => hreadable q (List.mem_cons_of_mem p hq)) hout
    rw [← List.append_cons] at hfile
    exact ⟨name, file, hfile, second, List.mem_cons_of_mem p hsecond, hconflict⟩
  | @refused _ _ p _ first paths =>
    cases hout
    obtain ⟨name, hname, file, hfile, hname', hsame, rfl⟩ :=
      hr.exists_conflict (hreadable p List.mem_cons_self) first
    exact ⟨name, file, List.mem_append_left _ hfile, p, List.mem_cons_self, hname', hname, hsame,
      rfl⟩

/-! ### What a routing says -/

theorem namesIn_of_same (h : p.same q = true) (hp : Readable tree p) (hq : Readable tree q) :
    namesIn tree p = namesIn tree q :=
  congrArg (List.map _) (tensorsIn_of_same h hp hq)

namespace Registered

/-- **The file of a name is the first spelling of a file that has it.** -/
theorem fileFor?_eq (hr : Registered tree done r) (hp : p ∈ done) (hname : name ∈ namesIn tree p) :
    r.fileFor? name = done.find? fun q => q.same p := by
  rw [hr.owner]
  refine List.find?_congr fun q hq => Bool.eq_iff_iff.mpr ?_
  rw [decide_eq_true_iff]
  refine ⟨fun hname' => hr.compatible q hq p hp name hname' hname, fun hsame => ?_⟩
  rwa [namesIn_of_same hsame (hr.readable q hq) (hr.readable p hp)]

theorem fileFor?_eq_some_iff (hr : Registered tree done r) {f : Path} :
    r.fileFor? name = some f ↔
      ∃ p ∈ done, name ∈ namesIn tree p ∧ (done.find? fun q => q.same p) = some f := by
  constructor
  · intro h
    obtain ⟨hf, hname⟩ := hr.of_fileFor? h
    exact ⟨f, hf, hname, (hr.fileFor?_eq hf hname).symm.trans h⟩
  · rintro ⟨p, hp, hname, hfind⟩
    exact (hr.fileFor?_eq hp hname).trans hfind

theorem mem_routes_iff (hr : Registered tree done r) {f : Path} :
    (name, f) ∈ r.routes ↔ r.fileFor? name = some f :=
  (Json.lookup_eq_some_iff hr.ascending.nodup).symm

theorem mem_names_iff (hr : Registered tree done r) :
    name ∈ r.routes.map Prod.fst ↔ name ∈ done.flatMap (namesIn tree) := by
  rw [← Json.isSome_lookup, ← Routing.fileFor?_eq, hr.owner, List.find?_isSome, List.mem_flatMap]
  simp only [decide_eq_true_iff]

theorem length_routes (hr : Registered tree done r) :
    r.routes.length = (done.flatMap (namesIn tree)).toFinset.card := by
  rw [← List.length_map Prod.fst, ← List.toFinset_card_of_nodup hr.ascending.nodup]
  congr 1
  ext name
  rw [List.mem_toFinset, List.mem_toFinset, hr.mem_names_iff]

theorem unique (hr : Registered tree done r) (hr' : Registered tree done r') : r = r' := by
  obtain ⟨routes, files⟩ := r
  obtain ⟨routes', files'⟩ := r'
  obtain rfl : files = files' := hr.files.trans hr'.files.symm
  obtain rfl : routes = routes' :=
    hr.ascending.ext hr'.ascending fun name => (hr.owner name).trans (hr'.owner name).symm
  rfl

/-- **In whichever order files are added**, a name comes from the same file. -/
theorem fileFor?_rel {done' : List Path} (hr : Registered tree done r)
    (hr' : Registered tree done' r') (hmem : ∀ p, p ∈ done ↔ p ∈ done') (name : String) :
    Option.Rel (fun p q => p.same q = true) (r.fileFor? name) (r'.fileFor? name) := by
  cases h : r.fileFor? name with
  | some f =>
    obtain ⟨hf, hname⟩ := hr.of_fileFor? h
    obtain ⟨f', h'⟩ := hr'.exists_fileFor? ((hmem f).mp hf) hname
    obtain ⟨hf', hname'⟩ := hr'.of_fileFor? h'
    rw [h']
    exact .some (hr.compatible f hf f' ((hmem f').mpr hf') name hname hname')
  | none =>
    cases h' : r'.fileFor? name with
    | some f' =>
      obtain ⟨hf', hname'⟩ := hr'.of_fileFor? h'
      obtain ⟨f, hf⟩ := hr.exists_fileFor? ((hmem f').mpr hf') hname'
      rw [h] at hf
      cases hf
    | none => exact .none

end Registered

/-! ### Lists of files -/

theorem addFiles_append (tree : FileTree) : ∀ (paths paths' : List Path) (r : Routing),
    addFiles tree r (paths ++ paths') = addFiles tree r paths >>= fun r' => addFiles tree r' paths'
  | [], paths', r => rfl
  | p :: paths, paths', r => by
    rw [List.cons_append, addFiles, addFiles]
    split
    · exact addFiles_append tree paths paths' _
    · rfl

theorem builds_of_build {outcome : Except Fault Routing} (h : build tree paths = outcome) :
    Builds tree paths outcome :=
  h ▸ addFiles_addsAll tree paths empty

theorem Builds.registered (h : Builds tree paths (.ok r)) : Registered tree paths r :=
  registered_empty.after_addsAll h rfl

theorem registered_of_build (h : build tree paths = .ok r) : Registered tree paths r :=
  (builds_of_build h).registered

/-- **A routing of readable files that is refused** has a name in two of them. -/
theorem Builds.exists_conflict {e : Fault} (h : Builds tree paths (.error e))
    (readable : ∀ p ∈ paths, Readable tree p) :
    ∃ name, ∃ first ∈ paths, ∃ second ∈ paths, name ∈ namesIn tree first ∧
      name ∈ namesIn tree second ∧ first.same second = false ∧
        e = .conflict name first.text second.text :=
  exists_conflict_of_addsAll h registered_empty readable rfl

/-- **Nothing but conflicts stands against a routing** of readable files. -/
theorem not_compatible_of_conflict {e : Fault} (h : Builds tree paths (.error e))
    (readable : ∀ p ∈ paths, Readable tree p) : ¬ Compatible tree paths := fun hcompatible => by
  obtain ⟨name, first, hfirst, second, hsecond, hname, hname', hsame, -⟩ :=
    h.exists_conflict readable
  rw [hcompatible first hfirst second hsecond name hname hname'] at hsame
  cases hsame

/-- **A routing of readable files is built** if no name is in two of them. -/
theorem exists_build_iff_compatible (readable : ∀ p ∈ paths, Readable tree p) :
    (∃ r, build tree paths = .ok r) ↔ Compatible tree paths := by
  constructor
  · rintro ⟨r, h⟩
    exact (registered_of_build h).compatible
  · intro hcompatible
    cases h : build tree paths with
    | ok r => exact ⟨r, rfl⟩
    | error e =>
      exact absurd hcompatible (not_compatible_of_conflict (builds_of_build h) readable)

/-- **The order in which names are claimed has no part in a routing** that is built. -/
theorem builds_ok_iff (readable : ∀ p ∈ paths, Readable tree p) :
    Builds tree paths (.ok r) ↔ build tree paths = .ok r := by
  refine ⟨fun h => ?_, builds_of_build⟩
  obtain ⟨r', h'⟩ := (exists_build_iff_compatible readable).mpr h.registered.compatible
  rw [h', h.registered.unique (registered_of_build h')]

/-- A directory with two files of one tensor each. -/
def twoFiles : FileTree :=
  ⟨[(["d", "a"], .file (TensorFile.encode [⟨"x", .u8, [1], [7]⟩])),
    (["d", "b"], .file (TensorFile.encode [⟨"y", .u8, [2], [8, 9]⟩]))]⟩

end Routing

end DraftHeads
