import DraftHeads.Config
import DraftHeads.Proofs.Json.Normal

/-! # Configurations that are written and read back

* `Normal`: the members without a meaning, as a configuration keeps them; `extraOf_normal` and
  `lookup_extraOf`: which members these are.
* `ofValue?_of_perm`: a configuration is read back from its members, in whatever order they are.
* `parse_survives`: this holds of every configuration that was read from a text, and no key of the
  text is lost or doubled. -/

namespace DraftHeads.Config

open Json

variable {c : Config} {key : String} {keys : List String} {extra members : List (String × Value)}

/-! ### Fields -/

theorem field_perm {l l' : List (String × Value)} (h : l.Perm l') :
    field keys l = field keys l' := by
  have hfilter := h.filter fun m => keys.contains m.1
  unfold field
  generalize (l.filter fun m => keys.contains m.1) = a at hfilter ⊢
  generalize (l'.filter fun m => keys.contains m.1) = b at hfilter ⊢
  match a, b, hfilter with
  | [], b, hfilter => rw [List.nil_perm.mp hfilter]
  | [m], b, hfilter => rw [List.singleton_perm.mp hfilter]
  | _ :: _ :: _, [], hfilter => exact absurd hfilter.length_eq (by simp)
  | _ :: _ :: _, [_], hfilter => exact absurd hfilter.length_eq (by simp)
  | _ :: _ :: _, _ :: _ :: _, _ => rfl

theorem field_append {l : List (String × Value)} (hkeys : keys ⊆ declaredKeys)
    (hextra : ∀ m ∈ extra, m.1 ∉ declaredKeys) : field keys (l ++ extra) = field keys l := by
  have hnone : (extra.filter fun m => keys.contains m.1) = [] :=
    List.filter_eq_nil_iff.mpr fun m hm hkey =>
      hextra m hm (hkeys (List.contains_iff_mem.mp hkey))
  unfold field
  rw [List.filter_append, hnone, List.append_nil]

/-! ### Members without a meaning -/

/-- Members without a meaning in normal form. -/
structure Normal (extra : List (String × Value)) : Prop where
  ascending : Ascending extra
  sorted : ∀ m ∈ extra, m.2.sorted = m.2
  undeclared : ∀ m ∈ extra, m.1 ∉ declaredKeys

theorem extraOf_normal (members : List (String × Value)) : Normal (extraOf members) where
  ascending := (sortMembers_spec _).1
  sorted m hm := by
    obtain ⟨v, -, heq⟩ := Value.mem_sortMembers_sortedMembers hm
    rw [heq, Value.sorted_sorted]
  undeclared m hm := by
    obtain ⟨v, hv, -⟩ := Value.mem_sortMembers_sortedMembers hm
    simpa using (List.mem_filter.mp hv).2

theorem lookup_filter {p : String → Bool} : ∀ {l : List (String × Value)},
    lookup key (l.filter fun m => p m.1) = if p key then lookup key l else none
  | [] => by simp [lookup]
  | m :: l => by
    have ih := @lookup_filter p l
    rw [List.filter_cons, lookup_cons]
    by_cases hp : p m.1 = true
    · rw [if_pos hp, lookup_cons, ih]
      by_cases hkey : m.1 = key
      · subst hkey
        rw [if_pos rfl, if_pos hp, if_pos rfl]
      · rw [if_neg hkey, if_neg hkey]
    · rw [if_neg hp, ih]
      by_cases hkey : m.1 = key
      · subst hkey
        rw [if_neg hp, if_neg hp]
      · rw [if_neg hkey]

/-- **What is kept without a meaning**: the last value of every key that has none. -/
theorem lookup_extraOf (members : List (String × Value)) : lookup key (extraOf members) =
    if key ∈ declaredKeys then none else ((Value.object members).get? key).map Value.sorted := by
  have hget : (Value.object members).get? key = lookup key members.reverse := rfl
  rw [extraOf, lookup_sortMembers, Value.sortedMembers_eq, ← List.map_reverse,
    ← Value.sortedMembers_eq, Value.lookup_sortedMembers, ← List.filter_reverse,
    lookup_filter (p := fun k => !declaredKeys.contains k), hget]
  by_cases hkey : key ∈ declaredKeys <;> simp [hkey]

theorem Normal.extraOf_eq (h : Normal extra) {l written : List (String × Value)}
    (hl : ∀ m ∈ l, m.1 ∈ declaredKeys) (hwritten : written.Perm (l ++ extra)) :
    extraOf written = extra := by
  have hperm : (written.filter fun m => !declaredKeys.contains m.1).Perm extra := by
    refine (hwritten.filter _).trans (.of_eq ?_)
    rw [List.filter_append, List.filter_eq_nil_iff.mpr (by simpa using hl), List.nil_append,
      List.filter_eq_self.mpr (by simpa using h.undeclared)]
  rw [extraOf, Value.sortedMembers_of_sorted fun m hm => h.sorted m (hperm.mem_iff.mp hm)]
  exact sortMembers_of_perm hperm h.ascending

theorem eq_of_field {r : Option Value} {v : Value} (h : field keys members = some r)
    (hkey : key ∈ keys) (hv : (Value.object members).get? key = some v) : r = some v := by
  obtain ⟨m, hm, rfl⟩ := Option.map_eq_some_iff.mp hv
  have hfound : m ∈ members.filter fun m => keys.contains m.1 := by
    refine List.mem_filter.mpr ⟨List.mem_reverse.mp (List.mem_of_find?_eq_some hm), ?_⟩
    have heq : (m.1 == key) = true := by simpa using List.find?_some hm
    rw [beq_iff_eq.mp heq]
    exact List.contains_iff_mem.mpr hkey
  unfold field at h
  split at h
  · rename_i hnone
    rw [hnone] at hfound
    cases hfound
  · rename_i hone
    rw [hone, List.mem_singleton] at hfound
    rw [hfound, Option.some.inj h]
  · cases h

theorem eq_of_required {α : Type} {read : Value → Option α} {x : α} {v : Value}
    (h : required keys read members = some x) (hkey : key ∈ keys)
    (hv : (Value.object members).get? key = some v) : read v = some x := by
  simp only [required, Option.bind_eq_bind, Option.bind_eq_some_iff] at h
  obtain ⟨r, hfield, w, rfl, hread⟩ := h
  rwa [Option.some.inj (eq_of_field hfield hkey hv)] at hread

theorem eq_of_optional {α : Type} {read : Value → Option α} {default x : α} {v : Value}
    (h : optional keys read default members = some x) (hkey : key ∈ keys)
    (hv : (Value.object members).get? key = some v) : read v = some x := by
  simp only [optional, Option.bind_eq_bind, Option.bind_eq_some_iff] at h
  obtain ⟨r, hfield, hread⟩ := h
  rwa [eq_of_field hfield hkey hv] at hread

theorem natural?_eq_some_iff {v : Value} {n : Nat} :
    v.natural? = some n ↔ v = .number (.natural n) := by
  fun_cases Value.natural? v <;> simp_all

theorem bool?_eq_some_iff {v : Value} {b : Bool} : v.bool? = some b ↔ v = .bool b := by
  cases v <;> simp [Value.bool?]

/-! ### Configurations -/

/-- The members with a meaning of a configuration that is written. -/
def declaredMembers (c : Config) : List (String × Value) := [
  ("vocab_size", .number (.natural c.vocabSize)),
  ("emb_dim", .number (.natural c.embDim)),
  ("inner_dim", .number (.natural c.storedInnerDim)),
  ("n_predict", .number (.natural c.headCount)),
  ("tie_weights", .bool c.tieWeights),
  ("scale_input", .bool c.scaleInput)]

theorem declaredMembers_subset (c : Config) :
    c.declaredMembers.map Prod.fst ⊆ declaredKeys := by
  simp [declaredMembers, declaredKeys]

theorem toValue_eq (c : Config) : c.toValue = .object (c.declaredMembers ++ c.extra) := rfl

/-- **A configuration is read back** from its members, in whatever order they are. -/
theorem ofValue?_of_perm (h : Normal c.extra) {written : List (String × Value)}
    (hwritten : written.Perm (c.declaredMembers ++ c.extra)) :
    ofValue? (.object written) = some c := by
  have hfield : ∀ keys, keys ⊆ declaredKeys → field keys written = field keys c.declaredMembers :=
    fun keys hkeys => (field_perm hwritten).trans (field_append hkeys h.undeclared)
  have hextra : extraOf written = c.extra :=
    h.extraOf_eq (by simp [declaredMembers, declaredKeys]) hwritten
  have hdeclared : ofValue? (.object written) = some { c with extra := extraOf written } := by
    simp only [ofValue?, required, optional]
    rw [hfield ["vocab_size"] (by decide), hfield ["emb_dim", "hidden_size"] (by decide),
      hfield ["inner_dim"] (by decide), hfield ["n_predict"] (by decide),
      hfield ["tie_weights"] (by decide), hfield ["scale_input"] (by decide)]
    simp [field, declaredMembers, Value.natural?, Value.bool?]
  rw [hdeclared, hextra]

theorem exists_of_ofValue? {v : Value} (h : ofValue? v = some c) :
    ∃ members, v = .object members ∧ c.extra = extraOf members := by
  cases v with
  | object members =>
    refine ⟨members, rfl, ?_⟩
    simp only [ofValue?, Option.bind_eq_bind, Option.bind_eq_some_iff] at h
    obtain ⟨_, -, _, -, _, -, _, -, _, -, _, -, h⟩ := h
    cases h
    rfl
  | _ => cases h

/-- The key under which a member is written. -/
def writtenKey (key : String) : String := if key = "hidden_size" then "emb_dim" else key

theorem lookup_writtenKey {v : Value} (h : ofValue? (.object members) = some c)
    (hv : (Value.object members).get? key = some v) :
    lookup (writtenKey key) (c.declaredMembers ++ c.extra) = some v.sorted := by
  by_cases hkey : key ∈ declaredKeys
  · simp only [ofValue?, Option.bind_eq_bind, Option.bind_eq_some_iff] at h
    obtain ⟨_, h₁, _, h₂, _, h₃, _, h₄, _, h₅, _, h₆, h⟩ := h
    cases h
    simp only [declaredKeys, List.mem_cons, List.not_mem_nil, or_false] at hkey
    obtain rfl | rfl | rfl | rfl | rfl | rfl | rfl := hkey
    · rw [natural?_eq_some_iff.mp (eq_of_required h₁ (by decide) hv)]
      rfl
    · rw [natural?_eq_some_iff.mp (eq_of_required h₂ (by decide) hv)]
      rfl
    · rw [natural?_eq_some_iff.mp (eq_of_required h₂ (by decide) hv)]
      rfl
    · rw [natural?_eq_some_iff.mp (eq_of_optional h₃ (by decide) hv)]
      rfl
    · rw [natural?_eq_some_iff.mp (eq_of_required h₄ (by decide) hv)]
      rfl
    · rw [bool?_eq_some_iff.mp (eq_of_optional h₅ (by decide) hv)]
      rfl
    · rw [bool?_eq_some_iff.mp (eq_of_optional h₆ (by decide) hv)]
      rfl
  · obtain ⟨_, heq, hextra⟩ := exists_of_ofValue? h
    cases heq
    have hsame : writtenKey key = key := if_neg fun hk => hkey (by simp [hk, declaredKeys])
    have hnone : lookup key c.declaredMembers = none := by
      rw [← Option.not_isSome_iff_eq_none, isSome_lookup]
      exact fun hmem => hkey (c.declaredMembers_subset hmem)
    rw [hsame, lookup_append, hnone, Option.none_or, hextra, lookup_extraOf, if_neg hkey, hv,
      Option.map_some]

theorem nodup_keys (h : Normal c.extra) :
    ((c.declaredMembers ++ c.extra).map Prod.fst).Nodup := by
  rw [List.map_append, List.nodup_append]
  refine ⟨by simp [declaredMembers], h.ascending.nodup, ?_⟩
  rintro a ha b hb rfl
  obtain ⟨m, hm, rfl⟩ := List.mem_map.mp hb
  exact h.undeclared m hm (c.declaredMembers_subset ha)

theorem parse_eq_ok_iff {text : String} : parse text = .ok c ↔
    ∃ members, Json.parse? text = some (.object members) ∧ ofValue? (.object members) = some c ∧
      c.validate = .ok () := by
  unfold parse
  constructor
  · intro h
    split at h
    · cases h
    · rename_i d hd
      obtain ⟨v, hparse, hvalue⟩ := Option.bind_eq_some_iff.mp hd
      split at h
      · rename_i hvalid
        cases h
        obtain ⟨members, rfl, -⟩ := exists_of_ofValue? hvalue
        exact ⟨members, hparse, hvalue, hvalid⟩
      · cases h
  · rintro ⟨members, hparse, hvalue, hvalid⟩
    have hread : (Json.parse? text >>= ofValue?) = some c :=
      Option.bind_eq_some_iff.mpr ⟨_, hparse, hvalue⟩
    simp only [hread, hvalid]

/-- **A configuration survives** being written and read back: its members, in any order, give the
same valid configuration. Without a meaning are kept the keys of the text that have none, with the
value that is found under them. No key is written twice, and what is found under a key of the text
is found under the same key of the object that is written, `hidden_size` being written as
`emb_dim`. -/
theorem parse_survives {text : String} (h : parse text = .ok c) :
    ∃ members written, Json.parse? text = some (.object members) ∧ c.toValue = .object written ∧
      (∀ rewritten, rewritten.Perm written → ofValue? (.object rewritten) = some c) ∧
      c.validate = .ok () ∧
      (∀ key, lookup key c.extra =
        if key ∈ declaredKeys then none else ((Value.object members).get? key).map Value.sorted) ∧
      (written.map Prod.fst).Nodup ∧
      ∀ key v, (Value.object members).get? key = some v →
        (Value.object written).get? (writtenKey key) = some v.sorted := by
  obtain ⟨members, hparse, hvalue, hvalid⟩ := parse_eq_ok_iff.mp h
  obtain ⟨_, heq, hextra⟩ := exists_of_ofValue? hvalue
  cases heq
  have hnormal : Normal c.extra := hextra ▸ extraOf_normal members
  have hnodup := nodup_keys hnormal
  refine ⟨members, _, hparse, toValue_eq c, fun _ => ofValue?_of_perm hnormal, hvalid,
    fun key => ?_, hnodup, fun key v hv => ?_⟩
  · rw [hextra, lookup_extraOf]
  · exact (lookup_perm (List.reverse_perm _) (by
      rwa [List.map_reverse, List.nodup_reverse])).trans (lookup_writtenKey hvalue hv)

/-- The width of the hidden states under its other name, a key without a meaning that is there
twice, and an object whose keys do not ascend. -/
def nestedText : String :=
  "\x7b\"z\":\x7b\"b\":1,\"a\":[2,null]\x7d,\"y\":1,\"hidden_size\":16,\"n_predict\":2," ++
    "\"vocab_size\":8,\"y\":-3\x7d"

theorem parse_survives_nested : ∃ c members written,
    parse nestedText = .ok c ∧ c.embDim = 16 ∧ c.extra.map Prod.fst = ["y", "z"] ∧
    Json.parse? nestedText = some (.object members) ∧ c.toValue = .object written ∧
    ofValue? (.object written) = some c ∧ c.validate = .ok () ∧
    (∀ v, (Value.object members).get? "y" = some v → lookup "y" c.extra = some v.sorted) ∧
    (written.map Prod.fst).Nodup ∧
    ∀ v, (Value.object members).get? "hidden_size" = some v →
      (Value.object written).get? "emb_dim" = some v.sorted := by
  have hread : (parse nestedText).toOption.map (fun c => (c.embDim, c.extra.map Prod.fst)) =
      some (16, ["y", "z"]) := by decide +kernel
  cases hparse : parse nestedText with
  | error e => simp [hparse, Except.toOption] at hread
  | ok c =>
    obtain ⟨hwidth, hkeys⟩ : c.embDim = 16 ∧ c.extra.map Prod.fst = ["y", "z"] := by
      simpa [hparse, Except.toOption] using hread
    obtain ⟨members, written, hmembers, hwritten, hagain, hvalid, hextra, hnodup, hlost⟩ :=
      parse_survives hparse
    refine ⟨c, members, written, rfl, hwidth, hkeys, hmembers, hwritten, hagain _ (.refl _), hvalid,
      fun v hv => ?_, hnodup, fun v hv => hlost _ v hv⟩
    rw [hextra, if_neg (by decide), hv, Option.map_some]

end DraftHeads.Config
