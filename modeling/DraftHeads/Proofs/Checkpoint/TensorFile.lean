import DraftHeads.Checkpoint.TensorFile
import DraftHeads.Proofs.Json.Members

/-! # Names in a tensor file

* `TensorFile.nodup_names`: no two tensors of a file have the same name.
* `StoredTensor.find?_eq_some_iff`: which tensor is found under a name then. -/

namespace DraftHeads

namespace TensorFile

theorem nodup_of_entriesOf? {v : Json.Value} {entries : List Entry}
    (h : entriesOf? v = some entries) : (entries.map (·.name)).Nodup := by
  unfold entriesOf? at h
  split at h
  · obtain ⟨metadata, -, h⟩ := Option.bind_eq_some_iff.mp h
    split_ifs at h
    obtain ⟨listed, -, h⟩ := Option.bind_eq_some_iff.mp h
    obtain rfl := Option.some.inj h
    obtain ⟨hascending, hmem⟩ := Json.sortMembers_spec (listed.map fun e => (e.name, e))
    -- the entry of a member has the name that the member is sorted by
    have hkeys : ∀ m ∈ Json.sortMembers (listed.map fun e => (e.name, e)),
        ((·.name) ∘ Prod.snd) m = m.1 := by
      intro m hm
      obtain ⟨e, -, rfl⟩ := List.mem_map.mp (hmem m hm)
      rfl
    rw [List.map_map, List.map_congr_left hkeys]
    exact hascending.nodup
  · cases h

theorem nodup_names {file : List UInt8} {tensors : List StoredTensor}
    (h : decode? file = some tensors) : (tensors.map (·.name)).Nodup := by
  unfold decode? at h
  split_ifs at h
  dsimp only at h
  split_ifs at h
  obtain ⟨text, -, h⟩ := Option.bind_eq_some_iff.mp h
  obtain ⟨v, -, h⟩ := Option.bind_eq_some_iff.mp h
  obtain ⟨entries, hentries, h⟩ := Option.bind_eq_some_iff.mp h
  obtain ⟨stop, -, h⟩ := Option.bind_eq_some_iff.mp h
  split_ifs at h
  obtain rfl := Option.some.inj h
  rw [List.map_map]
  exact ((List.mergeSort_perm entries comesBefore).map _).nodup_iff.mpr
    (nodup_of_entriesOf? hentries)

end TensorFile

theorem StoredTensor.find?_eq_some_iff {tensors : List StoredTensor} {name : String}
    {t : StoredTensor} (h : (tensors.map (·.name)).Nodup) :
    (tensors.find? fun s => s.name == name) = some t ↔ t ∈ tensors ∧ t.name = name := by
  have hkeys : (tensors.map fun s => (s.name, s)).map Prod.fst = tensors.map (·.name) := by
    rw [List.map_map]
    rfl
  have hlookup : Json.lookup name (tensors.map fun s => (s.name, s)) =
      tensors.find? fun s => s.name == name := by
    rw [Json.lookup, List.find?_map, Option.map_map]
    exact congrFun Option.map_id _
  rw [← hlookup, Json.lookup_eq_some_iff (hkeys ▸ h), List.mem_map]
  simp only [Prod.mk.injEq]
  constructor
  · rintro ⟨s, hs, rfl, rfl⟩
    exact ⟨hs, rfl⟩
  · rintro ⟨ht, rfl⟩
    exact ⟨t, ht, rfl, rfl⟩

end DraftHeads
