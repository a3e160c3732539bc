import DraftHeads.Proofs.Json.Members

/-! # Normal forms of values

A value is in normal form if the keys of all its objects ascend.

* `lookup_sortMembers`: under a key of sorted members is the last member with that key.
* `sortMembers_of_perm`: members with ascending keys are what any order of them is sorted to.
* `sorted_sorted`: the normal form of a value is in normal form; `ascending_of_get?_sorted`: so the
  keys of an object in it ascend. -/

namespace DraftHeads.Json

variable {α : Type} {key name : String} {x : α}

/-! ### Sorted members -/

theorem lookup_append {l l' : List (String × α)} :
    lookup name (l ++ l') = (lookup name l).or (lookup name l') := by
  rw [lookup, lookup, lookup, List.find?_append, Option.map_or]

/-- **The last member of a key is kept.** -/
theorem lookup_sortMembers (members : List (String × α)) :
    lookup name (sortMembers members) = lookup name members.reverse := by
  have hfold : ∀ (members acc : List (String × α)),
      lookup name (members.foldl (fun acc m => insertMember m.1 m.2 acc) acc) =
        (lookup name members.reverse).or (lookup name acc) := by
    intro members
    induction members with
    | nil => exact fun acc => rfl
    | cons m members ih =>
      intro acc
      rw [List.foldl_cons, ih, lookup_insertMember, List.reverse_cons, lookup_append,
        Option.or_assoc]
      congr 1
      rw [lookup_cons]
      by_cases h : m.1 = name
      · rw [if_pos h, if_pos h.symm, Option.some_or]
      · rw [if_neg h, if_neg (Ne.symm h)]
        rfl
  rw [sortMembers, hfold]
  exact Option.or_none

theorem lookup_perm {l l' : List (String × α)} (h : l.Perm l') (hnodup : (l.map Prod.fst).Nodup) :
    lookup name l = lookup name l' := by
  refine Option.ext fun x => ?_
  rw [lookup_eq_some_iff hnodup, lookup_eq_some_iff ((h.map _).nodup_iff.mp hnodup), h.mem_iff]

/-- **Sorted members** in whatever order they were, if no key is there twice. -/
theorem sortMembers_of_perm {l l' : List (String × α)} (h : l.Perm l') (h' : Ascending l') :
    sortMembers l = l' := by
  have hperm : l.reverse.Perm l' := l.reverse_perm.trans h
  refine (sortMembers_spec l).1.ext h' fun name => ?_
  rw [lookup_sortMembers]
  exact lookup_perm hperm ((hperm.map _).nodup_iff.mpr h'.nodup)

/-! ### Values -/

namespace Value

theorem sortedItems_eq (items : List Value) : sortedItems items = items.map sorted := by
  induction items with
  | nil => rfl
  | cons v items ih => rw [sortedItems, ih, List.map_cons]

theorem sortedMembers_eq (members : List (String × Value)) :
    sortedMembers members = members.map fun m => (m.1, m.2.sorted) := by
  induction members with
  | nil => rfl
  | cons m members ih => rw [sortedMembers, ih, List.map_cons]

theorem sortedMembers_of_sorted {members : List (String × Value)}
    (h : ∀ m ∈ members, m.2.sorted = m.2) : sortedMembers members = members := by
  rw [sortedMembers_eq]
  exact (List.map_congr_left fun m hm => by rw [h m hm, id]).trans (List.map_id _)

theorem lookup_sortedMembers (members : List (String × Value)) :
    lookup name (sortedMembers members) = (lookup name members).map sorted := by
  induction members with
  | nil => rfl
  | cons m members ih =>
    rw [sortedMembers, lookup_cons, lookup_cons, ih]
    split_ifs <;> rfl

theorem mem_sortMembers_sortedMembers {members : List (String × Value)} {m : String × Value}
    (h : m ∈ sortMembers (sortedMembers members)) :
    ∃ v, (m.1, v) ∈ members ∧ m.2 = v.sorted := by
  have hmem := (sortMembers_spec _).2 m h
  rw [sortedMembers_eq] at hmem
  obtain ⟨⟨k, v⟩, hv, rfl⟩ := List.mem_map.mp hmem
  exact ⟨v, hv, rfl⟩

theorem sorted_sorted : ∀ v : Value, v.sorted.sorted = v.sorted
  | null => rfl
  | bool b => rfl
  | number n => rfl
  | string s => rfl
  | array items => by
    rw [sorted, sorted, sortedItems_eq, sortedItems_eq, List.map_map]
    exact congrArg array (List.map_congr_left fun v hv => sorted_sorted v)
  | object members => by
    have hvalues : ∀ m ∈ sortMembers (sortedMembers members), m.2.sorted = m.2 := fun m hm => by
      obtain ⟨v, hv, heq⟩ := mem_sortMembers_sortedMembers hm
      rw [heq]
      exact sorted_sorted v
    rw [sorted, sorted, sortedMembers_of_sorted hvalues,
      sortMembers_of_perm (.refl _) (sortMembers_spec _).1]
termination_by v => sizeOf v
decreasing_by
  · have := List.sizeOf_lt_of_mem hv
    simp only [array.sizeOf_spec]
    omega
  · have := List.sizeOf_lt_of_mem hv
    simp only [object.sizeOf_spec, Prod.mk.sizeOf_spec] at this ⊢
    omega

theorem ascending_of_sorted {v : Value} {members : List (String × Value)}
    (h : v.sorted = object members) : Ascending members := by
  cases v with
  | object l =>
    rw [sorted, object.injEq] at h
    exact h ▸ (sortMembers_spec _).1
  | null => cases h
  | bool b => cases h
  | number n => cases h
  | string s => cases h
  | array items => cases h

/-- **The keys of an object in a normal form ascend.** -/
theorem ascending_of_get?_sorted {v : Value} {members : List (String × Value)}
    (h : v.sorted.get? key = some (object members)) : Ascending members := by
  cases v with
  | object l =>
    rw [sorted, get?, Option.map_eq_some_iff] at h
    obtain ⟨m, hm, hvalue⟩ := h
    have hmem := List.mem_reverse.mp (List.mem_of_find?_eq_some hm)
    obtain ⟨w, -, hw⟩ := mem_sortMembers_sortedMembers hmem
    exact ascending_of_sorted (hw.symm.trans hvalue)
  | null => cases h
  | bool b => cases h
  | number n => cases h
  | string s => cases h
  | array items => cases h

end Value

end DraftHeads.Json
