import DraftHeads.Checkpoint.Discovery
import DraftHeads.Proofs.Checkpoint.NaturalOrder
import DraftHeads.Proofs.Json.Normal
import DraftHeads.Proofs.Outcome
import Mathlib.Data.List.Destutter
import Mathlib.Data.List.Nodup

/-! # The files that an index names

The index of a repository gives a file name for each tensor. The names are brought into natural
order, and of equal neighbours one is kept. Names with equal keys stay in the order of the tensors,
so a name is listed again when a different name with its key stands in between.

* `filter_dedupAdjacent`: of the names with one key, equal neighbours are dropped.
* `nodup_dedupAdjacent_iff`: when every name is listed once.
* `IsListing`, `isListing_dedupAdjacent`: what is listed of some names.
* `repositoryFiles_indexed`: the files of a repository with an index.
* `name_listed_twice`: an index of two names with one key, one of which is listed twice. -/

namespace DraftHeads.Located

/-! ### Equal neighbours -/

section Neighbours

variable {s x : String} {l chain : List String}

theorem dedupAdjacent_eq_destutter : ∀ l : List String, dedupAdjacent l = l.destutter (· ≠ ·)
  | [] => rfl
  | [s] => rfl
  | s :: t :: l => by
    rw [dedupAdjacent, dedupAdjacent_eq_destutter (t :: l), List.destutter_cons_cons]
    by_cases h : s = t
    · subst h
      rw [if_pos rfl, if_neg (not_not.mpr rfl), List.destutter_cons']
    · rw [if_neg h, if_pos h, List.destutter_cons']

theorem dedupAdjacent_cons_self : dedupAdjacent (s :: s :: l) = dedupAdjacent (s :: l) :=
  if_pos rfl

theorem dedupAdjacent_cons_of_ne (h : s ∉ l.head?) :
    dedupAdjacent (s :: l) = s :: dedupAdjacent l := by
  cases l with
  | nil => rfl
  | cons t l => exact if_neg fun heq => h (by rw [heq]; rfl)

/-- Lists with equal neighbours in front, and those without. -/
theorem neighbours_induction {P : List String → Prop} (nil : P [])
    (again : ∀ s l, P (s :: l) → P (s :: s :: l)) (new : ∀ s l, s ∉ l.head? → P l → P (s :: l)) :
    ∀ l, P l
  | [] => nil
  | [s] => new s [] (by simp) nil
  | s :: t :: l => by
    have ih := neighbours_induction nil again new (t :: l)
    by_cases h : s = t
    · subst h
      exact again s l ih
    · exact new s (t :: l) (by simpa using Ne.symm h) ih

theorem mem_dedupAdjacent : x ∈ dedupAdjacent l ↔ x ∈ l := by
  induction l using neighbours_induction with
  | nil => rfl
  | again s l ih => rw [dedupAdjacent_cons_self, ih]; simp
  | new s l h ih => rw [dedupAdjacent_cons_of_ne h, List.mem_cons, ih, List.mem_cons]

theorem dedupAdjacent_sublist : (dedupAdjacent l).Sublist l := by
  rw [dedupAdjacent_eq_destutter]
  exact List.destutter_sublist _ l

theorem isChain_dedupAdjacent : (dedupAdjacent l).IsChain (· ≠ ·) := by
  rw [dedupAdjacent_eq_destutter]
  exact List.isChain_destutter _ l

theorem sublist_dedupAdjacent : ∀ {chain : List String}, chain.IsChain (· ≠ ·) →
    chain.Sublist l → chain.Sublist (dedupAdjacent l) := by
  induction l using neighbours_induction with
  | nil => exact fun _ hsub => hsub
  | again s l ih =>
    intro chain hchain hsub
    rw [dedupAdjacent_cons_self]
    refine ih hchain ?_
    rcases List.sublist_cons_iff.mp hsub with hsub' | ⟨rest, rfl, hrest⟩
    · exact hsub'
    · rcases List.sublist_cons_iff.mp hrest with hrest' | ⟨rest', rfl, -⟩
      · exact hrest'.cons_cons s
      · exact absurd rfl (List.isChain_cons_cons.mp hchain).1
  | new s l h ih =>
    intro chain hchain hsub
    rw [dedupAdjacent_cons_of_ne h]
    rcases List.sublist_cons_iff.mp hsub with hsub' | ⟨rest, rfl, hrest⟩
    · exact (ih hchain hsub').cons s
    · exact (ih hchain.tail hrest).cons_cons s

theorem exists_between (hchain : chain.IsChain (· ≠ ·)) (hsub : [x, x].Sublist chain) :
    ∃ y, x ≠ y ∧ [x, y, x].Sublist chain := by
  induction chain with
  | nil => cases hsub
  | cons s chain ih =>
    rcases List.sublist_cons_iff.mp hsub with hsub' | ⟨rest, heq, hrest⟩
    · obtain ⟨y, hne, hy⟩ := ih hchain.tail hsub'
      exact ⟨y, hne, hy.cons s⟩
    · obtain ⟨rfl, rfl⟩ := List.cons.inj heq
      cases chain with
      | nil => cases hrest
      | cons y chain =>
        have hne := (List.isChain_cons_cons.mp hchain).1
        have hmem : x ∈ chain := by
          rcases List.mem_cons.mp (List.singleton_sublist.mp hrest) with h | h
          · exact absurd h hne
          · exact h
        exact ⟨y, hne, ((List.singleton_sublist.mpr hmem).cons_cons y).cons_cons x⟩

theorem nodup_dedupAdjacent_iff :
    (dedupAdjacent l).Nodup ↔ ∀ x y, x ≠ y → ¬ [x, y, x].Sublist l := by
  rw [List.nodup_iff_sublist]
  constructor
  · intro hnodup x y hne hsub
    have hchain : [x, y, x].IsChain (· ≠ ·) := by simp [hne, hne.symm]
    refine hnodup x (List.Sublist.trans ?_ (sublist_dedupAdjacent hchain hsub))
    exact ((List.Sublist.refl [x]).cons y).cons_cons x
  · intro halone x hsub
    obtain ⟨y, hne, hy⟩ := exists_between isChain_dedupAdjacent hsub
    exact halone x y hne (hy.trans dedupAdjacent_sublist)

/-- **Of the names with one key, equal neighbours are dropped**, if the keys ascend. -/
theorem filter_dedupAdjacent {κ : Type} [PartialOrder κ] [DecidableEq κ] {key : String → κ} (k : κ)
    (h : l.Pairwise fun x y => key x ≤ key y) :
    (dedupAdjacent l).filter (fun x => key x = k) =
      dedupAdjacent (l.filter fun x => key x = k) := by
  induction l using neighbours_induction with
  | nil => rfl
  | again s l ih =>
    rw [dedupAdjacent_cons_self, ih h.of_cons]
    by_cases hs : key s = k
    · simp only [List.filter_cons, hs, decide_true, if_true, dedupAdjacent_cons_self]
    · simp only [List.filter_cons, hs, decide_false, Bool.false_eq_true, if_false]
  | new s l hne ih =>
    rw [dedupAdjacent_cons_of_ne hne]
    by_cases hs : key s = k
    · have hkeep := fun l => @List.filter_cons_of_pos _ (fun x => key x = k) s l (decide_eq_true hs)
      rw [hkeep, hkeep, ih h.of_cons, dedupAdjacent_cons_of_ne]
      -- all names from the first one with a larger key on have larger keys
      intro hhead
      cases l with
      | nil => cases hhead
      | cons t l =>
        obtain ⟨hfirst, hrest⟩ := List.pairwise_cons.mp h
        have hkey : key t = k := by
          have hmem := (List.mem_filter.mp (List.mem_of_head? hhead)).1
          refine le_antisymm ?_ (hs ▸ hfirst t List.mem_cons_self)
          rcases List.mem_cons.mp hmem with rfl | hmem
          · exact hs.le
          · exact hs ▸ (List.pairwise_cons.mp hrest).1 s hmem
        rw [@List.filter_cons_of_pos _ (fun x => key x = k) t l (decide_eq_true hkey)] at hhead
        exact hne hhead
    · have hdrop := fun l => @List.filter_cons_of_neg _ (fun x => key x = k) s l (by simpa using hs)
      rw [hdrop, hdrop, ih h.of_cons]

end Neighbours

/-! ### Listings -/

/-- **What is listed of some names**: each of them, in natural order; those with one key in the
order in which they were given, of equal neighbours one. -/
structure IsListing (values names : List String) : Prop where
  mem_iff : ∀ x, x ∈ names ↔ x ∈ values
  ascending : names.Pairwise fun x y => keyBefore (naturalKey ⟨y⟩) (naturalKey ⟨x⟩) = false
  filter_eq : ∀ key, names.filter (fun x => naturalKey ⟨x⟩ = key) =
    dedupAdjacent (values.filter fun x => naturalKey ⟨x⟩ = key)
  nodup_iff : names.Nodup ↔
    ∀ x y, x ≠ y → naturalKey ⟨x⟩ = naturalKey ⟨y⟩ → ¬ [x, y, x].Sublist values

/-- **Names in natural order without equal neighbours** are such a listing. -/
theorem isListing_dedupAdjacent (values : List String) :
    IsListing values (dedupAdjacent (naturalSort Path.mk values)) where
  mem_iff x := mem_dedupAdjacent.trans mem_naturalSort
  ascending := by
    refine (naturalSort_pairwise.sublist dedupAdjacent_sublist).imp fun hle => ?_
    rwa [← Bool.not_eq_true, keyBefore_iff_lt, not_lt]
  filter_eq key := by
    have hsorted : (naturalSort Path.mk values).Pairwise fun x y =>
      naturalKey ⟨x⟩ ≤ naturalKey ⟨y⟩ := naturalSort_pairwise
    rw [filter_dedupAdjacent key hsorted, @filter_naturalSort _ Path.mk]
  nodup_iff := by
    rw [nodup_dedupAdjacent_iff]
    have hstable : ∀ x y, naturalKey ⟨x⟩ = naturalKey ⟨y⟩ →
        ([x, y, x].Sublist (naturalSort Path.mk values) ↔ [x, y, x].Sublist values) :=
      fun x y hkey => @sublist_naturalSort_iff _ Path.mk _ _ (naturalKey ⟨x⟩) (by simp [hkey])
    constructor
    · intro h x y hne hkey hsub
      exact h x y hne ((hstable x y hkey).mpr hsub)
    · intro h x y hne hsub
      -- what stands between two equal names has their key
      have hkey : naturalKey ⟨x⟩ = naturalKey ⟨y⟩ := by
        have hpairwise := naturalSort_pairwise.sublist hsub
        simp only [List.pairwise_cons, List.mem_cons, List.not_mem_nil, or_false] at hpairwise
        exact le_antisymm (hpairwise.1 y (Or.inl rfl)) (hpairwise.2.1 x rfl)
      exact h x y hne hkey ((hstable x y hkey).mp hsub)

/-! ### Repositories -/

section Repository

variable {tree : FileTree} {hub : Hub} {repository text : String} {directory path : Path}
  {index : Json.Value} {members : List (String × Json.Value)} {e : Fault}

theorem get_eq_join (hsnapshot : hub.snapshot? repository = some directory) {name : String}
    {p : Path} (h : hub.get tree repository name = .ok p) : p = directory.join name := by
  rw [Hub.get, hsnapshot] at h
  dsimp only at h
  split_ifs at h
  exact (Except.ok.inj h).symm

theorem repositoryFiles_eq (hnone : hub.get tree repository "model.safetensors" = .error e)
    (hpath : hub.get tree repository "model.safetensors.index.json" = .ok path)
    (hread : tree.readText? path = some text) (hparse : Json.parse? text = some index)
    (hmap : index.sorted.get? "weight_map" = some (.object members)) :
    repositoryFiles tree hub repository =
      (dedupAdjacent (naturalSort Path.mk (members.filterMap fun m => m.2.string?))).mapM
        (hub.get tree repository) := by
  have hnames : indexedNames index.sorted =
      .ok (dedupAdjacent (naturalSort Path.mk (members.filterMap fun m => m.2.string?))) := by
    rw [indexedNames, hmap]
  unfold repositoryFiles
  simp only [hnone, hpath, hread, hparse, hnames, bind, Except.bind]

/-- **The files of a repository with an index**, all of which can be fetched: a listing of the names
in the weight map, in the order of the tensors. -/
theorem repositoryFiles_indexed (hsnapshot : hub.snapshot? repository = some directory)
    (hnone : hub.get tree repository "model.safetensors" = .error e)
    (hpath : hub.get tree repository "model.safetensors.index.json" = .ok path)
    (hread : tree.readText? path = some text) (hparse : Json.parse? text = some index)
    (hmap : index.sorted.get? "weight_map" = some (.object members))
    (hfetch : ∀ name ∈ members.filterMap fun m => m.2.string?,
      ∃ p, hub.get tree repository name = .ok p) :
    Json.Ascending members ∧ ∃ names,
      IsListing (members.filterMap fun m => m.2.string?) names ∧
      repositoryFiles tree hub repository = .ok (names.map directory.join) := by
  have hlisting := isListing_dedupAdjacent (members.filterMap fun m => m.2.string?)
  refine ⟨Json.Value.ascending_of_get?_sorted hmap, _, hlisting, ?_⟩
  rw [repositoryFiles_eq hnone hpath hread hparse hmap, mapM_eq_ok, List.forall₂_map_right_iff]
  refine List.forall₂_same.mpr fun name hname => ?_
  obtain ⟨p, hp⟩ := hfetch name ((hlisting.mem_iff name).mp hname)
  rw [hp, get_eq_join hsnapshot hp]

end Repository

/-- An index of three tensors, whose file names are two with one key. -/
def oneKeyIndex : String :=
  "\x7b\"weight_map\": \x7b\"a\": \"m-1\", \"b\": \"m-01\", \"c\": \"m-1\"\x7d\x7d"

/-- The snapshot of a repository with that index and the files that it names. -/
def oneKeyTree : FileTree :=
  ⟨[(["s", "model.safetensors.index.json"], .file oneKeyIndex.toUTF8.data.toList),
    (["s", "m-1"], .file []), (["s", "m-01"], .file [])]⟩

/-- The members of the weight map of that index. -/
def oneKeyMembers : List (String × Json.Value) :=
  [("a", .string "m-1"), ("b", .string "m-01"), ("c", .string "m-1")]

/-- A hub with one snapshot. -/
def oneSnapshot : Hub := ⟨fun _ => some ⟨"s"⟩⟩

theorem parse?_oneKeyIndex :
    Json.parse? oneKeyIndex = some (.object [("weight_map", .object oneKeyMembers)]) := by
  cbv

theorem readText?_oneKeyTree :
    oneKeyTree.readText? ⟨"s/model.safetensors.index.json"⟩ = some oneKeyIndex := by
  decide +kernel

/-- Three names, of which the one in the middle has the key of the others: not every one is listed
once. -/
theorem repositoryFiles_indexed_oneKey : ∃ names, IsListing ["m-1", "m-01", "m-1"] names ∧
    repositoryFiles oneKeyTree oneSnapshot "org/spec" = .ok (names.map (Path.join ⟨"s"⟩)) ∧
    ¬ names.Nodup := by
  have hfetch : ∀ name ∈ ["m-1", "m-01", "m-1"],
      ∃ p, oneSnapshot.get oneKeyTree "org/spec" name = .ok p := by
    simp only [List.forall_mem_cons]
    exact ⟨⟨⟨"s/m-1"⟩, by decide +kernel⟩, ⟨⟨"s/m-01"⟩, by decide +kernel⟩,
      ⟨⟨"s/m-1"⟩, by decide +kernel⟩, by simp⟩
  obtain ⟨-, names, hlisting, hfiles⟩ := @repositoryFiles_indexed oneKeyTree oneSnapshot "org/spec"
    oneKeyIndex ⟨"s"⟩ ⟨"s/model.safetensors.index.json"⟩ _ oneKeyMembers .hub rfl
    (by decide +kernel) (by decide +kernel) readText?_oneKeyTree parse?_oneKeyIndex rfl hfetch
  refine ⟨names, hlisting, hfiles, fun hnodup => ?_⟩
  exact hlisting.nodup_iff.mp hnodup "m-1" "m-01" (by decide) (by decide +kernel)
    (List.Sublist.refl _)

/-- **A name is listed twice** if one with the same key stands in between. -/
theorem name_listed_twice : repositoryFiles oneKeyTree oneSnapshot "org/spec" =
    .ok [⟨"s/m-1"⟩, ⟨"s/m-01"⟩, ⟨"s/m-1"⟩] := by
  have hsorted : naturalSort Path.mk ["m-1", "m-01", "m-1"] = ["m-1", "m-01", "m-1"] :=
    naturalSort_of_pairwise (by decide +kernel)
  rw [@repositoryFiles_eq oneKeyTree oneSnapshot "org/spec" oneKeyIndex
    ⟨"s/model.safetensors.index.json"⟩ _ oneKeyMembers .hub (by decide +kernel)
    (by decide +kernel) readText?_oneKeyTree parse?_oneKeyIndex rfl]
  change (dedupAdjacent (naturalSort Path.mk ["m-1", "m-01", "m-1"])).mapM _ = _
  rw [hsorted]
  decide +kernel

end DraftHeads.Located
