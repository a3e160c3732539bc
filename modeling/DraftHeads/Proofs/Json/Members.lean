import DraftHeads.Json.Value
import Mathlib.Data.List.Nodup
import Mathlib.Data.String.Basic
import Mathlib.Tactic.SplitIfs

/-! # Lists of members with ascending keys

* `insertMember_ascending`: keys stay ascending when a member is put in its place.
* `lookup_insertMember`: what is found under a key afterwards.
* `Ascending.ext`: members with ascending keys are known by what is found under each key.
* `sortMembers_spec`: sorted members. -/

namespace DraftHeads.Json

variable {α : Type} {key name : String} {x : α}

/-- The keys of a list of members ascend. -/
abbrev Ascending (members : List (String × α)) : Prop := (members.map Prod.fst).Pairwise (· < ·)

/-- What is found under a key. -/
def lookup (name : String) (members : List (String × α)) : Option α :=
  (members.find? fun e => e.1 == name).map Prod.snd

theorem lookup_cons (e : String × α) (members : List (String × α)) :
    lookup name (e :: members) = if e.1 = name then some e.2 else lookup name members := by
  unfold lookup
  by_cases h : e.1 = name
  · rw [List.find?_cons_of_pos (by simpa using h), if_pos h]
    rfl
  · rw [List.find?_cons_of_neg (by simpa using h), if_neg h]

theorem isSome_lookup {members : List (String × α)} :
    (lookup name members).isSome = true ↔ name ∈ members.map Prod.fst := by
  simp [lookup, List.find?_isSome]

theorem Ascending.nodup {members : List (String × α)} (h : Ascending members) :
    (members.map Prod.fst).Nodup :=
  h.imp fun hlt => ne_of_lt hlt

theorem lookup_eq_some_iff : ∀ {members : List (String × α)}, (members.map Prod.fst).Nodup →
    (lookup name members = some x ↔ (name, x) ∈ members)
  | [], _ => by simp [lookup]
  | (k, y) :: rest, h => by
    rw [List.map_cons, List.nodup_cons] at h
    obtain ⟨hfirst, hrest⟩ := h
    rw [lookup_cons, List.mem_cons]
    split_ifs with hkey
    · subst hkey
      have hout : (k, x) ∉ rest := fun hmem => hfirst (List.mem_map.mpr ⟨_, hmem, rfl⟩)
      simp [hout, eq_comm]
    · rw [lookup_eq_some_iff hrest]
      simp [Ne.symm hkey]

/-- **Ascending members** are known by what is found under each key. -/
theorem Ascending.ext {l l' : List (String × α)} (h : Ascending l) (h' : Ascending l')
    (hlookup : ∀ name, lookup name l = lookup name l') : l = l' := by
  have hmem : ∀ m, m ∈ l ↔ m ∈ l' := fun m => by
    rw [← lookup_eq_some_iff h.nodup, ← lookup_eq_some_iff h'.nodup, hlookup]
  have hperm : l.Perm l' :=
    (List.perm_ext_iff_of_nodup (List.Nodup.of_map _ h.nodup) (List.Nodup.of_map _ h'.nodup)).mpr
      hmem
  rw [Ascending, List.pairwise_map] at h h'
  exact hperm.eq_of_pairwise (fun a b _ _ hab hba => absurd (hab.trans hba) (lt_irrefl _)) h h'

theorem mem_map_fst_insertMember : ∀ {members : List (String × α)},
    name ∈ (insertMember key x members).map Prod.fst ↔ name = key ∨ name ∈ members.map Prod.fst
  | [] => by simp [insertMember]
  | (k, y) :: rest => by
    have ih := @mem_map_fst_insertMember rest
    rw [insertMember]
    split_ifs with hlt heq
    · simp
    · simp [heq]
    · rw [List.map_cons, List.mem_cons, ih, List.map_cons, List.mem_cons]
      exact or_left_comm

theorem insertMember_ascending : ∀ {members : List (String × α)}, Ascending members →
    Ascending (insertMember key x members)
  | [], _ => List.pairwise_singleton _ _
  | (k, y) :: rest, h => by
    obtain ⟨hfirst, hrest⟩ := List.pairwise_cons.mp h
    rw [insertMember]
    split_ifs with hlt heq
    · refine List.pairwise_cons.mpr ⟨fun n hn => ?_, h⟩
      rcases List.mem_cons.mp hn with rfl | hn
      · exact hlt
      · exact lt_trans hlt (hfirst n hn)
    · rw [heq]
      exact List.pairwise_cons.mpr ⟨hfirst, hrest⟩
    · refine List.pairwise_cons.mpr ⟨fun n hn => ?_, insertMember_ascending hrest⟩
      rcases mem_map_fst_insertMember.mp hn with rfl | hn
      · exact lt_of_le_of_ne (not_lt.mp hlt) fun heq' => heq heq'.symm
      · exact hfirst n hn

theorem mem_of_mem_insertMember : ∀ {members : List (String × α)} {m : String × α},
    m ∈ insertMember key x members → m = (key, x) ∨ m ∈ members
  | [], m, h => .inl (List.mem_singleton.mp h)
  | (k, y) :: rest, m, h => by
    rw [insertMember] at h
    split_ifs at h
    · exact List.mem_cons.mp h
    · exact (List.mem_cons.mp h).imp_right (List.mem_cons_of_mem _)
    · rcases List.mem_cons.mp h with rfl | h
      · exact .inr List.mem_cons_self
      · exact (mem_of_mem_insertMember h).imp_right (List.mem_cons_of_mem _)

/-- **What is found afterwards**: the new member under its key, and what was there elsewhere. -/
theorem lookup_insertMember : ∀ {members : List (String × α)},
    lookup name (insertMember key x members) =
      if name = key then some x else lookup name members
  | [] => by
    rw [insertMember, lookup_cons]
    simp only [eq_comm]
  | (k, y) :: rest => by
    have ih := @lookup_insertMember rest
    rw [insertMember]
    split_ifs with hlt heq
    all_goals simp only [lookup_cons, ih]
    all_goals grind

/-- **Sorted members** have ascending keys, and each of them was there before. -/
theorem sortMembers_spec (members : List (String × α)) :
    Ascending (sortMembers members) ∧ ∀ m ∈ sortMembers members, m ∈ members := by
  have hfold : ∀ (members acc : List (String × α)), Ascending acc →
      Ascending (members.foldl (fun acc m => insertMember m.1 m.2 acc) acc) ∧
        ∀ m ∈ members.foldl (fun acc m => insertMember m.1 m.2 acc) acc, m ∈ acc ++ members := by
    intro members
    induction members with
    | nil => exact fun acc hacc => ⟨hacc, fun m hm => by simpa using hm⟩
    | cons m' members ih =>
      intro acc hacc
      obtain ⟨hascending, hmem⟩ := ih _ (insertMember_ascending hacc)
      refine ⟨hascending, fun m hm => ?_⟩
      rcases List.mem_append.mp (hmem m hm) with hm | hm
      · rcases mem_of_mem_insertMember hm with rfl | hm
        · exact List.mem_append_right _ List.mem_cons_self
        · exact List.mem_append_left _ hm
      · exact List.mem_append_right _ (List.mem_cons_of_mem _ hm)
  exact hfold members [] .nil

end DraftHeads.Json
