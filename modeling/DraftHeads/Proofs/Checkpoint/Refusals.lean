import DraftHeads.Proofs.Checkpoint.Routing

/-! # Files that are refused

Names are claimed one after the other, so a file that is refused for one of its names may have
claimed those before it.

* `LedTo`: the routings that any sequence of registrations leads to, whether they are refused or
  not; `LedTo.ascending`: their names ascend.
* `Remains`: what is left of the names that a file claimed before it was refused; `Refused`: which
  names these are.
* `refused_of_reached`: every registration that is refused leaves that, and a file that cannot be
  read leaves nothing. -/

namespace DraftHeads

namespace Routing

variable {tree : FileTree} {r r' : Routing} {path : Path} {names before : List String} {e : Fault}

/-- The routings that registrations lead to, in whichever order the names of a file are claimed. A
registration counts also if it is refused. -/
inductive LedTo (tree : FileTree) : Routing → Prop
  | empty : LedTo tree empty
  | addNames {r : Routing} (h : LedTo tree r) (path : Path) (names : List String) :
    LedTo tree (r.addNames path names).1
  | addFile {r r' : Routing} (h : LedTo tree r) {path : Path} {outcome : Except Fault Nat}
    (adds : Adds tree r path r' outcome) : LedTo tree r'

theorem addNames_ascending : ∀ {names : List String} {r : Routing}, Json.Ascending r.routes →
    Json.Ascending (r.addNames path names).1.routes
  | [], r, hr => by
    rw [addNames, register_routes]
    exact hr
  | name :: names, r, hr => by
    rw [addNames]
    cases hclaim : r.claim path name with
    | ok r' => exact addNames_ascending (routes_ascending_of_claim hclaim hr)
    | error e => exact hr

theorem LedTo.ascending (h : LedTo tree r) : Json.Ascending r.routes := by
  induction h with
  | empty => exact .nil
  | addNames _ path names ih => exact addNames_ascending ih
  | addFile _ adds ih =>
    cases adds with
    | unreadable => exact ih
    | claimed _ names => exact addNames_ascending ih

/-- What is left of a file that claimed the names `before`, and was refused for the next one. -/
structure Remains (r : Routing) (path : Path) (before : List String) (r' : Routing) : Prop where
  files : r'.files = r.files
  fileFor? : ∀ n, r'.fileFor? n = (r.fileFor? n).or (if n ∈ before then some path else none)
  ascending : Json.Ascending r'.routes
  /-- Nothing is left if the names had a file before. -/
  unchanged_iff : r' = r ↔ ∀ n ∈ before, (r.fileFor? n).isSome = true

theorem Remains.nil (hr : Json.Ascending r.routes) : Remains r path [] r where
  files := rfl
  fileFor? := by simp
  ascending := hr
  unchanged_iff := by simp

theorem Remains.cons {name : String} {r₁ : Routing} (hclaim : r.claim path name = .ok r₁)
    (h : Remains r₁ path before r') : Remains r path (name :: before) r' where
  files := h.files.trans (files_of_claim hclaim)
  fileFor? n := by
    rw [h.fileFor?, fileFor?_of_claim hclaim, Option.or_assoc]
    congr 1
    by_cases hn : n = name <;> simp [hn]
  ascending := h.ascending
  unchanged_iff := by
    obtain ⟨-, hr₁⟩ := claim_eq_ok_iff.mp hclaim
    constructor
    · rintro rfl n hn
      have hfile := h.fileFor? n
      rw [fileFor?_of_claim hclaim, Option.or_assoc] at hfile
      rw [hfile, Option.isSome_or, Option.isSome_or]
      rcases List.mem_cons.mp hn with rfl | hn
      · simp
      · simp [hn]
    · intro hall
      obtain ⟨hname, hbefore⟩ := List.forall_mem_cons.mp hall
      rw [if_pos hname] at hr₁
      subst hr₁
      exact h.unchanged_iff.mpr hbefore

/-- A file is refused for the first of its names that belongs to another file, and the names before
that one are left. -/
def Refused (r : Routing) (path : Path) (names : List String) (e : Fault) (r' : Routing) : Prop :=
  ∃ before name after owner, names = before ++ name :: after ∧
    (∀ n ∈ before, ∀ o, r.fileFor? n = some o → o.same path = true) ∧
    r.fileFor? name = some owner ∧ owner.same path = false ∧
    e = .conflict name owner.text path.text ∧ Remains r path before r'

/-- **What a file that was refused leaves behind**, from name to name. -/
theorem refused_of_addNames : ∀ {names : List String} {r : Routing}, Json.Ascending r.routes →
    (r.addNames path names).2 = .error e → Refused r path names e (r.addNames path names).1
  | [], r, _, h => by cases h
  | name :: names, r, hr, h => by
    rw [addNames] at h ⊢
    cases hclaim : r.claim path name with
    | error e' =>
      rw [hclaim] at h
      cases h
      obtain ⟨owner, howner, hsame, rfl⟩ := claim_eq_error hclaim
      exact ⟨[], name, names, owner, rfl, by simp, howner, hsame, rfl, .nil hr⟩
    | ok r₁ =>
      rw [hclaim] at h
      obtain ⟨before, name', after, owner, rfl, hbefore, howner, hsame, rfl, hremains⟩ :=
        refused_of_addNames (routes_ascending_of_claim hclaim hr) h
      -- the other file had the name before, as the claims on the way are those of this file
      have howner' := fileFor?_of_claim_other hclaim hsame howner
      refine ⟨name :: before, name', after, owner, rfl, fun n hn o ho => ?_, howner', hsame, rfl,
        hremains.cons hclaim⟩
      rcases List.mem_cons.mp hn with rfl | hn
      · exact (claim_eq_ok_iff.mp hclaim).1 o ho
      · exact hbefore n hn o (by rw [fileFor?_of_claim hclaim, ho, Option.some_or])

/-- **A registration that is refused** keeps the files and all routes, and leaves a route for each
name without one that comes before the first name of another file, in the order in which the names
are claimed; a file that cannot be read leaves nothing. -/
theorem refused_of_reached (h : LedTo tree r) (path : Path) :
    (∀ names e, (r.addNames path names).2 = .error e →
      Refused r path names e (r.addNames path names).1) ∧
    (∀ e, (addFile tree r path).2 = .error e →
      Readable tree path ∧ Refused r path (namesIn tree path) e (addFile tree r path).1 ∨
      ¬ Readable tree path ∧ (addFile tree r path).1 = r) ∧
    ∀ r' e, Adds tree r path r' (.error e) →
      Readable tree path ∧ (∃ names : List String, names.Perm (namesIn tree path) ∧
        Refused r path names e r') ∨
      ¬ Readable tree path ∧ r' = r := by
  refine ⟨fun names e herror => refused_of_addNames h.ascending herror, fun e herror => ?_,
    fun r' e adds => ?_⟩
  · by_cases hread : Readable tree path
    · rw [addFile_of_readable hread, map_eq_error] at herror
      rw [addFile_of_readable hread]
      exact .inl ⟨hread, refused_of_addNames h.ascending herror⟩
    · have hadds := addFile_adds tree r path
      rw [herror] at hadds
      obtain ⟨hreadable, -⟩ | hnot := hadds.refused_cases
      · exact absurd hreadable hread
      · exact .inr hnot
  · obtain ⟨hread, names, order, herror, rfl⟩ | hnot := adds.refused_cases
    · exact .inl ⟨hread, names, order, refused_of_addNames h.ascending herror⟩
    · exact .inr hnot

/-- A file that is refused for the second of its three names. -/
theorem refused_of_reached_second :
    ((empty.addNames ⟨"a"⟩ ["m"]).1.addNames ⟨"b"⟩ ["k", "m", "z"]).2 =
      .error (.conflict "m" "a" "b") ∧
    Refused (empty.addNames ⟨"a"⟩ ["m"]).1 ⟨"b"⟩ ["k", "m", "z"] (.conflict "m" "a" "b")
      ((empty.addNames ⟨"a"⟩ ["m"]).1.addNames ⟨"b"⟩ ["k", "m", "z"]).1 :=
  have herror : ((empty.addNames ⟨"a"⟩ ["m"]).1.addNames ⟨"b"⟩ ["k", "m", "z"]).2 =
      .error (.conflict "m" "a" "b") := by decide +kernel
  have hreached : LedTo ⟨[]⟩ (empty.addNames ⟨"a"⟩ ["m"]).1 := .addNames .empty _ _
  ⟨herror, (refused_of_reached hreached _).1 _ _ herror⟩

/-- A file that is refused may leave a name that leads to it, though it is not among the files, and
another file is then refused for that name. -/
theorem refused_leaves_route : ∃ r r' : Routing, LedTo ⟨[]⟩ r ∧
    r.addNames ⟨"b"⟩ ["k", "m", "z"] = (r', .error (.conflict "m" "a" "b")) ∧
    r'.routes ≠ r.routes ∧ r'.fileFor? "k" = some ⟨"b"⟩ ∧ r'.files = [⟨"a"⟩] ∧
    (r.addNames ⟨"c"⟩ ["k"]).2 = .ok () ∧
    (r'.addNames ⟨"c"⟩ ["k"]).2 = .error (.conflict "k" "b" "c") := by
  refine ⟨_, _, .addNames .empty ⟨"a"⟩ ["m"], rfl, ?_, ?_, ?_, ?_, ?_⟩
  · decide +kernel
  · decide +kernel
  · decide +kernel
  · decide +kernel
  · decide +kernel

end Routing

end DraftHeads
