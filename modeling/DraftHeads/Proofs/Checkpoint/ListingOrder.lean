import DraftHeads.Proofs.Checkpoint.Discovery
import DraftHeads.Proofs.Checkpoint.Path

/-! # The order in which a directory is listed

A directory has no order of its own: trees with the same content may list it in different orders,
and every order is that of some tree. What is found in a directory is sorted by the keys of the
names, so it depends on the order of listing as far as different names have equal keys.

* `FileTree.SameContent`: trees that differ in the orders of listing only;
  `SameContent.list?_rel`, `exists_listed`: which orders there are.
* `naturalSort_eq_iff`: when two lists of items are sorted alike.
* `Located.inDirectory_listed`: what is found in the directories of trees with the same content, and
  when it is the same in all of them.
* `Located.listing_matters`: a directory for which it is not. -/

namespace DraftHeads

/-! ### Lists of different items -/

section Different

variable {α : Type} {l l' : List α}

theorem nodup_eraseDups [BEq α] [LawfulBEq α] : ∀ l : List α, l.eraseDups.Nodup
  | [] => List.nodup_nil
  | x :: l => by
    rw [List.eraseDups_cons]
    refine List.nodup_cons.mpr ⟨fun hmem => ?_, nodup_eraseDups _⟩
    simpa using (List.mem_filter.mp (List.mem_eraseDups.mp hmem)).2
termination_by l => l.length
decreasing_by
  exact Nat.lt_succ_of_le (List.length_filter_le _ _)

theorem eraseDups_of_nodup [BEq α] [LawfulBEq α] (h : l.Nodup) : l.eraseDups = l := by
  induction l with
  | nil => rfl
  | cons x l ih =>
    obtain ⟨hx, hl⟩ := List.nodup_cons.mp h
    rw [List.eraseDups_cons, List.filter_eq_self.mpr, ih hl]
    intro y hy
    simpa using fun heq : y = x => hx (heq ▸ hy)

theorem eq_of_perm_of_forall_eq (h : l.Perm l') (hequal : ∀ x ∈ l, ∀ y ∈ l, x = y) : l = l' :=
  h.eq_of_pairwise (fun _ _ _ _ heq _ => heq) (List.pairwise_of_forall_mem_list hequal)
    (List.pairwise_of_forall_mem_list fun x hx y hy =>
      hequal x (h.mem_iff.mpr hx) y (h.mem_iff.mpr hy))

end Different

namespace FileTree

variable {t t' : FileTree} {p : Path} {place : List String} {names : List String}

/-! ### Places -/

theorem isSome_node? : (t.node? place).isSome ↔ place = [] ∨ ∃ e ∈ t.entries, place <+: e.1 := by
  unfold node?
  split
  · next e he =>
    obtain ⟨hmem, hplace⟩ := List.mem_filter.mp (List.mem_of_getLast? he)
    exact ⟨fun _ => Or.inr ⟨e, hmem, (beq_iff_eq.mp hplace) ▸ List.prefix_rfl⟩, fun _ => rfl⟩
  · rw [Option.isSome_ite, List.isEmpty_iff, List.any_eq_true]
    simp only [List.isPrefixOf_iff_prefix]

theorem mem_namesAt {name : String} :
    name ∈ t.namesAt place ↔ (t.node? (place ++ [name])).isSome := by
  have hnext : ∀ parts : List String,
      (if place.isPrefixOf parts then parts[place.length]? else none) = some name ↔
        place ++ [name] <+: parts := by
    intro parts
    rw [Option.ite_none_right_eq_some, List.isPrefixOf_iff_prefix]
    constructor
    · rintro ⟨⟨rest, rfl⟩, hname⟩
      rw [List.getElem?_append_right le_rfl, Nat.sub_self] at hname
      obtain ⟨rest', rfl⟩ : ∃ rest', rest = name :: rest' := by
        cases rest with
        | nil => cases hname
        | cons s rest' => exact ⟨rest', by rw [Option.some.inj hname]⟩
      exact ⟨rest', by simp⟩
    · rintro ⟨rest, rfl⟩
      exact ⟨⟨name :: rest, by simp⟩, by simp⟩
  simp only [namesAt, List.mem_eraseDups, List.mem_filterMap, hnext, isSome_node?,
    List.append_eq_nil_iff, List.cons_ne_self, and_false, false_or]

theorem nodup_namesAt : (t.namesAt place).Nodup := nodup_eraseDups _

theorem nodup_list? (h : t.list? p = some names) : names.Nodup := by
  obtain ⟨place, -, hnames⟩ := Option.bind_eq_some_iff.mp h
  split_ifs at hnames
  exact Option.some.inj hnames ▸ nodup_namesAt

/-! ### Trees with the same content -/

/-- The same is at every place; directories may be listed in different orders. -/
def SameContent (t t' : FileTree) : Prop := ∀ place, t.node? place = t'.node? place

namespace SameContent

variable (h : t.SameContent t')
include h

theorem isDirectoryAt_eq (place : List String) :
    t.isDirectoryAt place = t'.isDirectoryAt place := by
  rw [isDirectoryAt, isDirectoryAt, h place]

theorem walk_eq : ∀ (parts place : List String), t.walk place parts = t'.walk place parts
  | [], _ => rfl
  | part :: rest, place => by
    rw [walk, walk, h.isDirectoryAt_eq, walk_eq rest, walk_eq rest, walk_eq rest]

theorem find?_eq (p : Path) : t.find? p = t'.find? p := by
  have hnode : t.node? = t'.node? := funext h
  rw [find?, find?, h.walk_eq, hnode]

theorem readText?_eq (p : Path) : t.readText? p = t'.readText? p := by
  rw [readText?, readText?, readBytes?, readBytes?, h.find?_eq]

/-- **Directories are listed in some order each.** -/
theorem list?_rel (p : Path) : Option.Rel List.Perm (t.list? p) (t'.list? p) := by
  have hperm : ∀ place, (t.namesAt place).Perm (t'.namesAt place) := fun place =>
    (List.perm_ext_iff_of_nodup nodup_namesAt nodup_namesAt).mpr fun name => by
      rw [mem_namesAt, mem_namesAt, h]
  rw [list?, list?, h.walk_eq]
  cases t'.walk [] p.spelledParts with
  | none => exact .none
  | some place =>
    simp only [Option.bind_eq_bind, Option.bind_some, h.isDirectoryAt_eq]
    split_ifs
    · exact .some (hperm place)
    · exact .none

end SameContent

theorem sameContent_of_perm (h : t.entries.Perm t'.entries)
    (hnodup : (t.entries.map Prod.fst).Nodup) : t.SameContent t' := by
  intro place
  have hfilter : t.entries.filter (fun e => e.1 == place) =
      t'.entries.filter fun e => e.1 == place := by
    refine eq_of_perm_of_forall_eq (h.filter _) fun e he f hf => ?_
    rw [List.mem_filter, beq_iff_eq] at he hf
    exact List.inj_on_of_nodup_map hnodup he.1 hf.1 (he.2.trans hf.2.symm)
  have hany : (t.entries.any fun e => place.isPrefixOf e.1) =
      t'.entries.any fun e => place.isPrefixOf e.1 := h.any_eq
  rw [node?, node?, hfilter, hany]

theorem sameContent_prepend {front : List (List String × FileNode)}
    (h : ∀ e ∈ front, t.node? e.1 = some e.2) : t.SameContent ⟨front ++ t.entries⟩ := by
  intro place
  have hon : (front.any fun e => place.isPrefixOf e.1) →
      place.isEmpty ∨ t.entries.any fun e => place.isPrefixOf e.1 := by
    intro hfront
    obtain ⟨e, he, hplace⟩ := List.any_eq_true.mp hfront
    have hplace := List.isPrefixOf_iff_prefix.mp hplace
    rcases isSome_node?.mp (Option.isSome_of_eq_some (h e he)) with hroot | ⟨e', he', hunder⟩
    · rw [hroot] at hplace
      exact Or.inl (List.isEmpty_iff.mpr (List.prefix_nil.mp hplace))
    · exact Or.inr (List.any_eq_true.mpr
        ⟨e', he', List.isPrefixOf_iff_prefix.mpr (hplace.trans hunder)⟩)
  cases hfront : (front.filter fun e => e.1 == place).getLast? with
  | none =>
    have hcondition : (place.isEmpty ∨ (front.any fun e => place.isPrefixOf e.1) ∨
        t.entries.any fun e => place.isPrefixOf e.1) ↔
          (place.isEmpty ∨ t.entries.any fun e => place.isPrefixOf e.1) :=
      ⟨fun hor => hor.elim Or.inl (Or.rec hon Or.inr), Or.imp_right Or.inr⟩
    rw [node?, node?, List.filter_append, List.getLast?_append, hfront, Option.or_none]
    simp only [List.any_append, Bool.or_eq_true, hcondition]
  | some e =>
    obtain ⟨he, hplace⟩ := List.mem_filter.mp (List.mem_of_getLast? hfront)
    have hnode := h e he
    rw [beq_iff_eq.mp hplace] at hnode
    rw [hnode, node?, List.filter_append, List.getLast?_append, hfront]
    cases hlast : (t.entries.filter fun e => e.1 == place).getLast? with
    | none => rfl
    | some e' =>
      rw [node?, hlast] at hnode
      exact hnode.symm

/-- What is at the places of some names in a directory, in the order of the names. -/
def entriesAt (t : FileTree) (place order : List String) : List (List String × FileNode) :=
  order.map fun name => (place ++ [name], (t.node? (place ++ [name])).getD .directory)

variable {order : List String} (hperm : order.Perm (t.namesAt place))
include hperm

theorem sameContent_entriesAt : t.SameContent ⟨t.entriesAt place order ++ t.entries⟩ := by
  refine sameContent_prepend fun e he => ?_
  obtain ⟨name, hname, rfl⟩ := List.mem_map.mp he
  obtain ⟨node, hnode⟩ := Option.isSome_iff_exists.mp (mem_namesAt.mp (hperm.mem_iff.mp hname))
  rw [hnode, Option.getD_some]

theorem namesAt_entriesAt :
    (⟨t.entriesAt place order ++ t.entries⟩ : FileTree).namesAt place = order := by
  have hnodup : order.Nodup := hperm.nodup_iff.mpr nodup_namesAt
  have hfront : (t.entriesAt place order).filterMap (fun e =>
      if place.isPrefixOf e.1 then e.1[place.length]? else none) = order := by
    rw [entriesAt, List.filterMap_map]
    refine (List.filterMap_congr fun name _ => ?_).trans List.filterMap_some
    simp
  -- all other names are there already
  have hrest : (t.entries.filterMap fun e =>
      if place.isPrefixOf e.1 then e.1[place.length]? else none).removeAll order = [] := by
    refine List.filter_eq_nil_iff.mpr fun name hname => ?_
    have : name ∈ order := hperm.mem_iff.mpr (List.mem_eraseDups.mpr hname)
    simpa using this
  rw [namesAt, List.filterMap_append, hfront, List.eraseDups_append, hrest,
    eraseDups_of_nodup hnodup]
  exact List.append_nil _

omit hperm

/-- **Every order** of the names in a directory is the one in which it is listed in a tree with the
same content. -/
theorem exists_listed (h : t.list? p = some names) (hperm : order.Perm names) :
    ∃ t', t.SameContent t' ∧ t'.list? p = some order := by
  obtain ⟨place, hwalk, hlist⟩ := Option.bind_eq_some_iff.mp h
  split_ifs at hlist with hdirectory
  obtain rfl := Option.some.inj hlist
  have hsame := sameContent_entriesAt hperm
  refine ⟨_, hsame, ?_⟩
  rw [list?, ← hsame.walk_eq, hwalk]
  simp only [Option.bind_eq_bind, Option.bind_some, ← hsame.isDirectoryAt_eq, hdirectory, if_true,
    namesAt_entriesAt hperm]

end FileTree

/-! ### Sorting -/

section Sorting

variable {α κ : Type} [PartialOrder κ] [DecidableEq κ] {key : α → κ} {path : α → Path}
  {items items' : List α}

theorem eq_of_filter_eq : ∀ {l l' : List α}, l.Pairwise (fun x y => key x ≤ key y) →
    l'.Pairwise (fun x y => key x ≤ key y) →
    (∀ k, l.filter (fun x => key x = k) = l'.filter fun x => key x = k) → l = l'
  | [], [], _, _, _ => rfl
  | [], y :: l', _, _, h => by simpa using h (key y)
  | x :: l, [], _, _, h => by simpa using h (key x)
  | x :: l, y :: l', hl, hl', h => by
    obtain ⟨hfirst, hrest⟩ := List.pairwise_cons.mp hl
    obtain ⟨hfirst', hrest'⟩ := List.pairwise_cons.mp hl'
    -- both lists start with the least key, and so with the first item of that key
    have hkey : key x = key y := by
      have hx : x ∈ (y :: l').filter fun z => key z = key x := by
        rw [← h]
        simp
      have hy : y ∈ (x :: l).filter fun z => key z = key y := by
        rw [h]
        simp
      refine le_antisymm ?_ ?_
      · rcases List.mem_cons.mp (List.mem_filter.mp hy).1 with heq | hmem
        · exact heq ▸ le_rfl
        · exact hfirst y hmem
      · rcases List.mem_cons.mp (List.mem_filter.mp hx).1 with heq | hmem
        · exact heq ▸ le_rfl
        · exact hfirst' x hmem
    have hhead := h (key x)
    rw [List.filter_cons_of_pos (by simp), List.filter_cons_of_pos (by simp [hkey])] at hhead
    obtain ⟨rfl, -⟩ := List.cons.inj hhead
    refine congrArg (x :: ·) (eq_of_filter_eq hrest hrest' fun k => ?_)
    have hk := h k
    rw [List.filter_cons, List.filter_cons] at hk
    split_ifs at hk
    · exact List.cons.inj hk |>.2
    · exact hk

/-- **Two lists of items are sorted alike** if they have the items of each key in the same order. -/
theorem naturalSort_eq_iff : naturalSort path items = naturalSort path items' ↔
    ∀ key, items.filter (fun x => naturalKey (path x) = key) =
      items'.filter fun x => naturalKey (path x) = key := by
  constructor
  · intro h key
    rw [← filter_naturalSort, h, filter_naturalSort]
  · intro h
    refine eq_of_filter_eq naturalSort_pairwise naturalSort_pairwise fun key => ?_
    rw [filter_naturalSort, filter_naturalSort, h]

end Sorting

/-! ### Directories -/

namespace Located

variable {tree other : FileTree} {directory : Path} {located : Located} {names order : List String}

theorem readConfig_eq (h : tree.SameContent other) (p : Path) :
    readConfig tree p = readConfig other p := by
  rw [readConfig, readConfig, h.readText?_eq]

theorem tensorFiles_perm (h : order.Perm names) :
    (tensorFiles directory order).Perm (tensorFiles directory names) :=
  (h.map _).filter _

/-- The tensor files with one key, in the order of the names. -/
def filesOfKey (directory : Path) (names : List String) (key : List Chunk) : List Path :=
  (tensorFiles directory names).filter fun p => naturalKey p = key

/-- **What is found among some names**: each tensor file once, with ascending keys; those with one
key are in the order of the names. -/
structure IsFound (directory : Path) (names : List String) (weights : List Path) : Prop where
  perm : weights.Perm (tensorFiles directory names)
  ascending : weights.Pairwise fun p q => keyBefore (naturalKey q) (naturalKey p) = false
  filter_eq : ∀ key, weights.filter (fun p => naturalKey p = key) = filesOfKey directory names key

theorem isFound_naturalSort (directory : Path) (names : List String) :
    IsFound directory names (naturalSort id (tensorFiles directory names)) where
  perm := naturalSort_perm
  ascending := naturalSort_pairwise.imp fun hle => by
    rwa [← Bool.not_eq_true, keyBefore_iff_lt, not_lt]
  filter_eq := @filter_naturalSort _ id _

theorem inDirectory_eq_error_iff (h : tree.SameContent other) {e : Fault} :
    inDirectory tree directory = .error e ↔ inDirectory other directory = .error e := by
  rw [inDirectory, inDirectory, readConfig_eq h]
  cases readConfig other (directory.join "config.json") with
  | error e' => rfl
  | ok c =>
    simp only [bind, Except.bind]
    have hrel := h.list?_rel directory
    generalize tree.list? directory = names at hrel
    generalize other.list? directory = order at hrel
    cases hrel with
    | none => rfl
    | some hperm =>
      have hempty := (@tensorFiles_perm directory _ _ hperm).isEmpty_eq
      simp only [tensorFiles] at hempty
      simp only [hempty]
      split_ifs
      · rfl
      · simp only [pure, Except.pure, reduceCtorEq]

theorem exists_inDirectory (h : tree.SameContent other)
    (hok : inDirectory tree directory = .ok located) : ∃ names order weights,
      tree.list? directory = some names ∧ other.list? directory = some order ∧
        order.Perm names ∧ inDirectory other directory = .ok ⟨located.config, weights⟩ ∧
          IsFound directory order weights ∧ (weights = located.weights ↔
            ∀ key, filesOfKey directory order key = filesOfKey directory names key) := by
  obtain ⟨hconfig, names, hnames, hsome, hweights⟩ := inDirectory_eq_ok_iff.mp hok
  have hrel := h.list?_rel directory
  rw [hnames] at hrel
  obtain ⟨order, horder, hperm⟩ : ∃ order, other.list? directory = some order ∧
      names.Perm order := by
    cases hother : other.list? directory with
    | none => rw [hother] at hrel; cases hrel
    | some order => rw [hother] at hrel; exact ⟨order, rfl, Option.rel_some_some.mp hrel⟩
  refine ⟨names, order, _, hnames, horder, hperm.symm, ?_, isFound_naturalSort directory order, ?_⟩
  · refine inDirectory_eq_ok_iff.mpr
      ⟨readConfig_eq h _ ▸ hconfig, order, horder, fun hnil => ?_, rfl⟩
    exact hsome ((tensorFiles_perm hperm).trans (.of_eq hnil)).eq_nil
  · rw [hweights, naturalSort_eq_iff]
    rfl

theorem head_filesOfKey {name : String} (h : isTensorFile (directory.join name))
    (names : List String) :
    ∃ rest, filesOfKey directory (name :: names) (naturalKey (directory.join name)) =
      directory.join name :: rest := by
  rw [filesOfKey, tensorFiles, List.map_cons, List.filter_cons_of_pos h,
    List.filter_cons_of_pos (by simp)]
  exact ⟨_, rfl⟩

/-- If the same is found for all orders of listing, every file is the first one with its key. -/
theorem exists_filter_eq_cons (hok : inDirectory tree directory = .ok located)
    (hall : ∀ other, tree.SameContent other → inDirectory other directory = .ok located) {p : Path}
    (hp : p ∈ located.weights) :
    ∃ rest, located.weights.filter (fun q => naturalKey q = naturalKey p) = p :: rest := by
  obtain ⟨-, names, hnames, -, hweights⟩ := inDirectory_eq_ok_iff.mp hok
  rw [hweights, mem_naturalSort] at hp
  obtain ⟨hname, hfile⟩ := List.mem_filter.mp hp
  obtain ⟨name, hmem, rfl⟩ := List.mem_map.mp hname
  obtain ⟨other, hsame, hlist⟩ := FileTree.exists_listed hnames (List.perm_cons_erase hmem).symm
  obtain ⟨-, order, hother, -, hfound⟩ := inDirectory_eq_ok_iff.mp (hall other hsame)
  rw [hlist] at hother
  rw [hfound, ← Option.some.inj hother, (isFound_naturalSort directory _).filter_eq]
  exact head_filesOfKey hfile _

theorem filesOfKey_eq (hok : inDirectory tree directory = .ok located)
    (hkeys : ∀ p ∈ located.weights, ∀ q ∈ located.weights, naturalKey p = naturalKey q → p = q)
    (hnames : tree.list? directory = some names) (hperm : order.Perm names) (key : List Chunk) :
    filesOfKey directory order key = filesOfKey directory names key := by
  obtain ⟨-, names', hnames', -, hweights⟩ := inDirectory_eq_ok_iff.mp hok
  obtain rfl := Option.some.inj (hnames.symm.trans hnames')
  have hfound : ∀ p ∈ filesOfKey directory order key, p ∈ located.weights ∧ naturalKey p = key := by
    intro p hp
    obtain ⟨hmem, hkey⟩ := List.mem_filter.mp hp
    rw [hweights, mem_naturalSort]
    exact ⟨(tensorFiles_perm hperm).mem_iff.mp hmem, of_decide_eq_true hkey⟩
  refine eq_of_perm_of_forall_eq ((tensorFiles_perm hperm).filter _) fun p hp q hq => ?_
  exact hkeys p (hfound p hp).1 q (hfound q hq).1 ((hfound p hp).2.trans (hfound q hq).2.symm)

/-- **What is found in a directory, in whatever order it is listed.** If the search fails, then in
the same way in every tree with the same content. If it succeeds, then in each of them, and with the
same configuration; the tensor files are all that the directory has, with ascending keys. They are
in the same order if the files with each key are listed in the same order, and so they are in the
same order for all orders of listing exactly if different files have different keys. -/
theorem inDirectory_listed (tree : FileTree) (directory : Path) :
    (∀ other e, tree.SameContent other →
      (inDirectory tree directory = .error e ↔ inDirectory other directory = .error e)) ∧
    ∀ located, inDirectory tree directory = .ok located →
      (∀ other, tree.SameContent other → ∃ names order weights,
        tree.list? directory = some names ∧ other.list? directory = some order ∧
          names.Nodup ∧ order.Perm names ∧
            inDirectory other directory = .ok ⟨located.config, weights⟩ ∧
              IsFound directory order weights ∧ (weights = located.weights ↔
                ∀ key, filesOfKey directory order key = filesOfKey directory names key)) ∧
      ((∀ other, tree.SameContent other → inDirectory other directory = .ok located) ↔
        ∀ p ∈ located.weights, ∀ q ∈ located.weights, naturalKey p = naturalKey q → p = q) := by
  refine ⟨fun other e h => inDirectory_eq_error_iff h,
    fun located hok => ⟨fun other h => ?_, ?_, ?_⟩⟩
  · obtain ⟨names, order, weights, hnames, hfound⟩ := exists_inDirectory h hok
    exact ⟨names, order, weights, hnames, hfound.1, FileTree.nodup_list? hnames, hfound.2⟩
  · -- of two files with one key, each is the first one
    intro hall p hp q hq hkey
    obtain ⟨rest, hp⟩ := exists_filter_eq_cons hok hall hp
    obtain ⟨rest', hq⟩ := exists_filter_eq_cons hok hall hq
    rw [hkey, hq] at hp
    exact (List.cons.inj hp).1.symm
  · intro hkeys other h
    obtain ⟨names, order, weights, hnames, -, hperm, hother, -, hiff⟩ := exists_inDirectory h hok
    rw [hother, hiff.mpr fun key => filesOfKey_eq hok hkeys hnames hperm key]

/-- A directory with a configuration and some files, in the order in which it lists them. -/
def listedTree (names : List String) : FileTree :=
  ⟨(["s", "config.json"], .file smallConfigText.toUTF8.data.toList) ::
    names.map fun name => (["s", name], .file [])⟩

section ListedTree

variable {files : List Path}
  (hread : (listedTree names).readText? ⟨"s/config.json"⟩ = some smallConfigText)
  (hlist : (listedTree names).list? ⟨"s"⟩ = some ("config.json" :: names))
  (hfiles : tensorFiles ⟨"s"⟩ ("config.json" :: names) = files) (hsome : files ≠ [])
include hread hlist hfiles hsome

theorem exists_inDirectory_listedTree : ∃ located,
    inDirectory (listedTree names) ⟨"s"⟩ = .ok located ∧
      located.weights = naturalSort id files := by
  obtain ⟨c, hc⟩ : ∃ c, Config.parse smallConfigText = .ok c := by
    have hparse : (Config.parse smallConfigText).toOption.isSome := by decide +kernel
    cases hc : Config.parse smallConfigText with
    | error e => rw [hc] at hparse; cases hparse
    | ok c => exact ⟨c, rfl⟩
  have hconfig : readConfig (listedTree names) ⟨"s/config.json"⟩ = .ok c := by
    rw [readConfig, hread]
    exact hc
  refine ⟨⟨c, naturalSort id files⟩, inDirectory_eq_ok_iff.mpr ⟨hconfig, _, hlist, ?_, ?_⟩, rfl⟩
  · rw [hfiles]
    exact hsome
  · rw [hfiles]

theorem exists_inDirectory_of_pairwise
    (hsorted : files.Pairwise fun p q => naturalKey p ≤ naturalKey q) :
    ∃ located, inDirectory (listedTree names) ⟨"s"⟩ = .ok located ∧ located.weights = files := by
  obtain ⟨located, hlocated, hweights⟩ := exists_inDirectory_listedTree hread hlist hfiles hsome
  exact ⟨located, hlocated, hweights.trans (@naturalSort_of_pairwise _ id _ hsorted)⟩

end ListedTree

/-- The files with the numbers two and ten are found in one order, however they are listed. -/
theorem inDirectory_listed_two : ∃ located,
    inDirectory (listedTree ["m-2.safetensors", "m-10.safetensors"]) ⟨"s"⟩ = .ok located ∧
      located.weights = [⟨"s/m-2.safetensors"⟩, ⟨"s/m-10.safetensors"⟩] ∧
        ∀ other, (listedTree ["m-2.safetensors", "m-10.safetensors"]).SameContent other →
          inDirectory other ⟨"s"⟩ = .ok located := by
  obtain ⟨located, hlocated, hweights⟩ :=
    @exists_inDirectory_of_pairwise ["m-2.safetensors", "m-10.safetensors"]
      [⟨"s/m-2.safetensors"⟩, ⟨"s/m-10.safetensors"⟩] (by decide +kernel) (by decide +kernel)
      (by decide +kernel) (by decide) (by decide +kernel)
  refine ⟨located, hlocated, hweights, ((inDirectory_listed _ _).2 located hlocated).2.mpr ?_⟩
  rw [hweights]
  decide +kernel

/-- **The order of listing matters** to files whose numbers differ in leading zeros only. -/
theorem listing_matters :
    (listedTree ["m-1.safetensors", "m-01.safetensors"]).SameContent
      (listedTree ["m-01.safetensors", "m-1.safetensors"]) ∧
    (∃ located, inDirectory (listedTree ["m-1.safetensors", "m-01.safetensors"]) ⟨"s"⟩ =
      .ok located ∧ located.weights = [⟨"s/m-1.safetensors"⟩, ⟨"s/m-01.safetensors"⟩]) ∧
    ∃ located, inDirectory (listedTree ["m-01.safetensors", "m-1.safetensors"]) ⟨"s"⟩ =
      .ok located ∧ located.weights = [⟨"s/m-01.safetensors"⟩, ⟨"s/m-1.safetensors"⟩] := by
  refine ⟨FileTree.sameContent_of_perm (.cons _ (.swap _ _ [])) (by decide), ?_, ?_⟩ <;>
    exact exists_inDirectory_of_pairwise (by decide +kernel) (by decide +kernel)
      (by decide +kernel) (by decide) (by decide +kernel)

end Located

end DraftHeads
