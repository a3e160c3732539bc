import DraftHeads.Proofs.Draft.Largest
import DraftHeads.Proofs.Draft.Proposal

/-! # Choosing the best places of a row

There are three ways to choose the `k` best places of a row: the search for the largest entry if `k`
is one, a partial selection with a sort of what it has put in front if there are more places than
`k`, and a sort of all places otherwise. They choose the start of one and the same ranking.

* `Selection.mergeSort_take`: what a partial selection puts in front is the start of the sorted
  list, once it is sorted.
* `ranking_eq_mergeSort`: the ranking is a sort of the places by an order that tells all of them
  apart.
* `topTokens_eq_best`: the choice by its three ways is the choice of the heads.
* `Beats`, `IsRanking`: places by their values; `Definite.isRanking`, `IsRanking.unique`: a row of
  numbers whose zeros have one sign has one ranking by values, and this is `ranking`.
* `topTokens_eq_ranking`: the choice is the start of the ranking. -/

namespace DraftHeads

open Number

/-! ### Partial selections -/

section Selections

variable {α β : Type}

namespace IsLinear

variable {le : α → α → Bool}

theorem comap (h : IsLinear le) {f : β → α} (hf : f.Injective) :
    IsLinear fun x y => le (f x) (f y) where
  total x y := h.total (f x) (f y)
  trans x y z := h.trans (f x) (f y) (f z)
  antisymm _ _ hxy hyx := hf (h.antisymm _ _ hxy hyx)

theorem mergeSort_eq (h : IsLinear le) {xs ys : List α} (hperm : xs.Perm ys)
    (hsorted : ys.Pairwise (le · ·)) : xs.mergeSort le = ys :=
  List.Perm.eq_of_pairwise (fun x y _ _ => h.antisymm x y)
    (List.pairwise_mergeSort h.trans h.total xs) hsorted ((List.mergeSort_perm xs le).trans hperm)

end IsLinear

namespace Selection

/-- Sorting the whole list is a partial selection. -/
def sorting (α : Type) : Selection α where
  select le _ xs := xs.mergeSort le
  perm _ _ := List.mergeSort_perm _ _
  front {le n xs y} hle _ hy x hx := by
    obtain ⟨i, hi, rfl⟩ := List.mem_take_iff_getElem.mp hx
    obtain ⟨hn, rfl⟩ := List.getElem?_eq_some_iff.mp hy
    exact List.pairwise_iff_getElem.mp (List.pairwise_mergeSort hle.trans hle.total xs) i n _ _
      (by omega)
  back {le n xs y} hle _ hy z hz := by
    obtain ⟨i, hi, rfl⟩ := List.mem_drop_iff_getElem.mp hz
    obtain ⟨hn, rfl⟩ := List.getElem?_eq_some_iff.mp hy
    exact List.pairwise_iff_getElem.mp (List.pairwise_mergeSort hle.trans hle.total xs) n _ _ _
      (by omega)

variable {le : α → α → Bool} {n : Nat} {xs : List α}

theorem le_of_mem (s : Selection α) (hle : IsLinear le) (hn : n < xs.length) {x z : α}
    (hx : x ∈ (s.select le n xs).take (n + 1)) (hz : z ∈ (s.select le n xs).drop (n + 1)) :
    le x z = true := by
  have hlen : n < (s.select le n xs).length := (s.perm hle hn).length_eq ▸ hn
  have hpivot := List.getElem?_eq_getElem hlen
  have hz := s.back hle hn hpivot z hz
  rw [← List.take_append_getElem hlen, List.mem_append, List.mem_singleton] at hx
  rcases hx with hx | rfl
  · exact hle.trans _ _ _ (s.front hle hn hpivot x hx) hz
  · exact hz

/-- **What a selection puts in front** is the start of the sorted list, once it is sorted. -/
theorem mergeSort_take (s : Selection α) (hle : IsLinear le) (hn : n < xs.length) :
    ((s.select le n xs).take (n + 1)).mergeSort le = (xs.mergeSort le).take (n + 1) := by
  have hperm := s.perm hle hn
  have hcut : ∀ x ∈ (s.select le n xs).take (n + 1), ∀ z ∈ (s.select le n xs).drop (n + 1),
      le x z = true := fun x hx z hz => s.le_of_mem hle hn hx hz
  generalize s.select le n xs = ys at hperm hcut ⊢
  have hsorted : ((ys.take (n + 1)).mergeSort le ++ (ys.drop (n + 1)).mergeSort le).Pairwise
      (le · ·) := by
    refine List.pairwise_append.mpr ⟨List.pairwise_mergeSort hle.trans hle.total _,
      List.pairwise_mergeSort hle.trans hle.total _, fun x hx z hz => ?_⟩
    exact hcut x (List.mem_mergeSort.mp hx) z (List.mem_mergeSort.mp hz)
  have hparts : xs.Perm
      ((ys.take (n + 1)).mergeSort le ++ (ys.drop (n + 1)).mergeSort le) := by
    have hcat := List.Perm.append (List.mergeSort_perm (ys.take (n + 1)) le)
      (List.mergeSort_perm (ys.drop (n + 1)) le)
    rw [List.take_append_drop] at hcat
    exact (hcat.trans hperm).symm
  have hlen : ((ys.take (n + 1)).mergeSort le).length = n + 1 := by
    rw [List.length_mergeSort, List.length_take, hperm.length_eq]
    omega
  rw [hle.mergeSort_eq hparts hsorted, List.take_left' hlen]

end Selection

end Selections

/-! ### The ranking as a sort of places -/

section Places

variable {ω : Type} [Analytic ω]

theorem zipIdx_eq_map_range (row : List ω) :
    row.zipIdx = (List.range row.length).map fun i => (row.getD i 0, i) :=
  List.ext_getElem (by simp) fun i hi _ => by
    rw [List.length_zipIdx] at hi
    simp [hi]

/-- **The ranking is a sort of all places.** -/
theorem ranking_eq_mergeSort (row : List ω) :
    ranking row = (List.range row.length).mergeSort (indexBefore row) := by
  have hpairs : ((List.range row.length).mergeSort (indexBefore row)).map
      (fun i => (row.getD i 0, i)) = row.zipIdx.mergeSort ranksBefore := by
    rw [List.map_mergeSort (r := indexBefore row) (s := ranksBefore) fun _ _ _ _ => rfl,
      zipIdx_eq_map_range]
  rw [ranking, ← hpairs, List.map_map]
  exact List.map_id _

theorem placesOf_eq {width : Nat} (h : width < 2 ^ 32) :
    placesOf width = (List.range width).map UInt32.ofNat := by
  rw [placesOf, UInt32.toNat_ofNat_of_lt' h]

theorem length_placesOf {width : Nat} (h : width < 2 ^ 32) : (placesOf width).length = width := by
  rw [placesOf_eq h, List.length_map, List.length_range]

theorem allPlaces_eq {row : List ω} (h : row.length < 2 ^ 32) :
    allPlaces row = (ranking row).map UInt32.ofNat := by
  have hlt : ∀ i ∈ List.range row.length, i < UInt32.size := fun i hi =>
    (List.mem_range.mp hi).trans h
  rw [allPlaces, placesOf_eq h, ranking_eq_mergeSort,
    List.map_mergeSort (r := indexBefore row) (s := placeBefore row)]
  intro i hi j hj
  rw [placeBefore, UInt32.toNat_ofNat_of_lt' (hlt i hi), UInt32.toNat_ofNat_of_lt' (hlt j hj)]

variable [LawfulRanking ω]

theorem indexBefore_isLinear (row : List ω) : IsLinear (indexBefore row) where
  total _ _ := ranksBefore_total _ _
  trans _ _ _ := ranksBefore_trans _ _ _
  antisymm _ _ hij hji := ranksBefore_antisymm hij hji

theorem placeBefore_isLinear (row : List ω) : IsLinear (placeBefore row) :=
  (indexBefore_isLinear row).comap fun _ _ => UInt32.toNat_inj.mp

/-- **The partial selection chooses the start of the sorted places.** -/
theorem selectedPlaces_eq (s : Selection UInt32) {k : Nat} {row : List ω} (hk : 1 ≤ k)
    (hle : k ≤ row.length) (h : row.length < 2 ^ 32) :
    selectedPlaces s k row = (allPlaces row).take k := by
  have hn : k - 1 < (placesOf row.length).length := by rw [length_placesOf h]; omega
  have hsort := s.mergeSort_take (placeBefore_isLinear row) hn
  rwa [Nat.sub_add_cancel hk] at hsort

theorem topPlaces_eq (s : Selection UInt32) {k : Nat} {row : List ω} (hk : 1 ≤ k)
    (hle : k ≤ row.length) (h : row.length < 2 ^ 32) :
    topPlaces s k row = (allPlaces row).take k := by
  unfold topPlaces
  split_ifs with hlt
  · exact selectedPlaces_eq s hk hle h
  · have hlen : (allPlaces row).length ≤ k := by
      rw [allPlaces, List.length_mergeSort, length_placesOf h]
      omega
    rw [List.take_of_length_le hlen]

theorem topPlaces_eq_best (s : Selection UInt32) {k : Nat} {row : List ω} (hk : 1 < k)
    (hle : k ≤ row.length) (h : row.length < 2 ^ 32) :
    topPlaces s k row = (best k row).map UInt32.ofNat := by
  rw [topPlaces_eq s hk.le hle h, allPlaces_eq h, best, if_neg hk.ne', List.map_take]

/-- **The choice is that of the heads**, whatever the partial selection does with equal entries. -/
theorem topTokens_eq_best (s : Selection UInt32) {k width : Nat} {logs : Tensor ω}
    {rows : List (List ω)} (hlogs : logs.IsMatrix width rows) (hwidth : width < 2 ^ 32) (hk : 1 ≤ k)
    (hle : k ≤ width) (hrows : k = 1 → rows ≠ []) : ∃ t, topTokens s k logs = .ok t ∧
      t.IsMatrix k (rows.map fun row => (best k row).map UInt32.ofNat) := by
  have hlen : ∀ top ∈ rows.map fun row => (best k row).map UInt32.ofNat, top.length = k := by
    intro top htop
    obtain ⟨row, hrow, rfl⟩ := List.mem_map.mp htop
    rw [List.length_map, length_best (hlogs.length row hrow ▸ hle)]
  have hcount : entryCount [rows.length, k] =
      (rows.map fun row => (best k row).map UInt32.ofNat).flatten.length := by
    rw [length_flatten_block hlen, List.length_map]
    simp [entryCount]
  unfold topTokens
  split_ifs with hone
  · -- one place: the search for the largest entry
    have hpos : 0 < entryCount logs.shape := by
      have := List.length_pos_of_ne_nil (hrows hone)
      rw [hlogs.shape]
      simp only [entryCount, Nat.mul_one]
      exact Nat.mul_pos this (by omega)
    have hshape : logs.shape = [rows.length] ++ [width] := hlogs.shape
    obtain ⟨largest, hlargest, -, hdata⟩ := argmaxRows_eq hshape hpos
    have hbest : largest.data = (rows.map fun row => (best k row).map UInt32.ofNat).flatten := by
      rw [hdata, hlogs.rows_eq, hone, ← List.flatMap_def, List.map_eq_flatMap]
      rfl
    have hsize : largest.data.length = entryCount [rows.length, k] := by rw [hbest, hcount]
    obtain ⟨t, ht, htshape, htdata⟩ := Tensor.ofData_eq hsize
    refine ⟨t, ?_, by rw [htshape, List.length_map], htdata.trans hbest, hlen⟩
    rw [hlargest, hlogs.lead_eq, ← hone]
    exact ht
  · have hflat : logs.rows.flatMap (topPlaces s k) =
        (rows.map fun row => (best k row).map UInt32.ofNat).flatten := by
      rw [hlogs.rows_eq, ← List.flatMap_def]
      refine List.flatMap_congr fun row hrow => ?_
      have hlength := hlogs.length row hrow
      exact topPlaces_eq_best s (by omega) (hlength ▸ hle) (hlength ▸ hwidth)
    have hsize : (logs.rows.flatMap (topPlaces s k)).length = entryCount [rows.length, k] := by
      rw [hflat, hcount]
    obtain ⟨t, ht, htshape, htdata⟩ := Tensor.ofData_eq hsize
    refine ⟨t, ?_, by rw [htshape, List.length_map], htdata.trans hflat, hlen⟩
    rw [hlogs.shape]
    exact ht

end Places

/-! ### Places by their values -/

/-- The entries of a row are numbers, and its zeros have one sign. -/
structure Definite (row : List Float32) : Prop where
  number : ∀ x ∈ row, Analytic.isNaN x = false
  oneZero : (∀ x ∈ row, x.toBits ≠ 0) ∨ ∀ x ∈ row, x.toBits ≠ 0x80000000

/-- The entry at the place `i` of a row is larger than that at the place `j`, or the entries are
equal and `i` is further in front. -/
def Beats (row : List Float32) (i j : Nat) : Prop :=
  Scalar.less (row.getD j 0) (row.getD i 0) = true ∨
    Scalar.less (row.getD i 0) (row.getD j 0) = false ∧
      Scalar.less (row.getD j 0) (row.getD i 0) = false ∧ i < j

instance (row : List Float32) (i j : Nat) : Decidable (Beats row i j) :=
  inferInstanceAs (Decidable (_ ∨ _))

/-- All places of a row, those with larger entries first and those with equal ones in ascending
order. -/
structure IsRanking (row : List Float32) (order : List Nat) : Prop where
  perm : order.Perm (List.range row.length)
  pairwise : order.Pairwise (Beats row)

/-- The `k` best places of a row. -/
structure IsTop (row : List Float32) (k : Nat) (top : List Nat) : Prop where
  length : top.length = k
  nodup : top.Nodup
  lt : ∀ i ∈ top, i < row.length
  start : ∀ order, IsRanking row order → top = order.take k
  beats : ∀ i ∈ top, ∀ j < row.length, j ∉ top → Beats row i j

section Values

variable {row : List Float32} {i j k : Nat}

theorem Beats.asymm (h : Beats row i j) : ¬ Beats row j i := by
  rintro (hji | ⟨hji, hij, hlt⟩)
  · rcases h with hij | ⟨hij, -, -⟩
    · exact absurd ((less_iff.mp hij).2.2) (less_iff.mp hji).2.2.not_gt
    · rw [hij] at hji
      cases hji
  · rcases h with hless | ⟨-, -, hlt'⟩
    · rw [hji] at hless
      cases hless
    · omega

theorem IsRanking.unique {order order' : List Nat} (h : IsRanking row order)
    (h' : IsRanking row order') : order = order' :=
  List.Perm.eq_of_pairwise (fun _ _ _ _ hij hji => absurd hji hij.asymm) h.pairwise h'.pairwise
    (h.perm.trans h'.perm.symm)

namespace Definite

theorem less_eq (h : Definite row) : ∀ x ∈ row, ∀ y ∈ row,
    Scalar.less x y = Analytic.precedes x y := by
  have hnumber : ∀ x ∈ row, unpacked x ≠ .notANumber := fun x hx hnan => by
    have := h.number x hx
    rw [isNaN_iff.mpr hnan] at this
    cases this
  intro x hx y hy
  refine less_eq_precedes_of_zeros (hnumber x hx) (hnumber y hy) ?_
  rcases h.oneZero with hzero | hzero
  · exact Or.inr fun heq => hzero y hy (UInt32.toNat_inj.mp heq)
  · exact Or.inl fun heq => hzero x hx (UInt32.toNat_inj.mp heq)

theorem beats_of_indexBefore (h : Definite row) (hi : i < row.length) (hj : j < row.length)
    (hne : i ≠ j) (hbefore : indexBefore row i j = true) : Beats row i j := by
  have hmem : ∀ l < row.length, row.getD l 0 ∈ row := fun l hl => by
    rw [List.getD_eq_getElem _ _ hl]
    exact List.getElem_mem hl
  have hij : Analytic.precedes (row.getD i 0) (row.getD j 0) = false :=
    (ranksBefore_iff.mp hbefore).1
  have hji : Analytic.precedes (row.getD j 0) (row.getD i 0) = true ∨ i ≤ j :=
    (ranksBefore_iff.mp hbefore).2
  rw [← h.less_eq _ (hmem i hi) _ (hmem j hj)] at hij
  rw [← h.less_eq _ (hmem j hj) _ (hmem i hi)] at hji
  cases hless : Scalar.less (row.getD j 0) (row.getD i 0) with
  | true => exact Or.inl hless
  | false =>
    have hle : i ≤ j := hji.resolve_left (by rw [hless]; exact Bool.false_ne_true)
    exact Or.inr ⟨hij, hless, by omega⟩

theorem isRanking (h : Definite row) : IsRanking row (ranking row) := by
  have hle := indexBefore_isLinear row
  have hperm : (ranking row).Perm (List.range row.length) := by
    rw [ranking_eq_mergeSort]
    exact List.mergeSort_perm _ _
  have hsorted : (ranking row).Pairwise (indexBefore row · ·) := by
    rw [ranking_eq_mergeSort]
    exact List.pairwise_mergeSort hle.trans hle.total _
  have hnodup : (ranking row).Nodup := hperm.nodup_iff.mpr List.nodup_range
  refine ⟨hperm, (hsorted.and hnodup).imp_of_mem fun hi hj hij => ?_⟩
  exact h.beats_of_indexBefore (mem_ranking_lt hi) (mem_ranking_lt hj) hij.2 hij.1

theorem isTop (h : Definite row) (hk : k ≤ row.length) : IsTop row k ((ranking row).take k) := by
  have hrank := h.isRanking
  have hsplit := List.take_append_drop k (ranking row)
  have hpairwise := hrank.pairwise
  rw [← hsplit, List.pairwise_append] at hpairwise
  refine ⟨?_, ?_, fun i hi => mem_ranking_lt (List.mem_of_mem_take hi),
    fun order horder => by rw [horder.unique hrank], fun i hi j hj hnot => ?_⟩
  · rw [List.length_take, length_ranking, Nat.min_eq_left hk]
  · exact (hrank.perm.nodup_iff.mpr List.nodup_range).sublist (List.take_sublist k _)
  · have hmem : j ∈ ranking row := hrank.perm.mem_iff.mpr (List.mem_range.mpr hj)
    rw [← hsplit, List.mem_append] at hmem
    exact hpairwise.2.2 i hi j (hmem.resolve_left hnot)

theorem best_eq (h : Definite row) (hrow : row ≠ []) (k : Nat) :
    best k row = (ranking row).take k :=
  best_eq_take_of_less hrow h.less_eq k

theorem isTop_best (h : Definite row) (hrow : row ≠ []) (hwidth : row.length < 2 ^ 32)
    (hk : k ≤ row.length) : IsTop row k (((best k row).map UInt32.ofNat).map UInt32.toNat) := by
  have hplaces : ((best k row).map UInt32.ofNat).map UInt32.toNat = best k row := by
    rw [List.map_map]
    refine (List.map_congr_left fun i hi => ?_).trans (List.map_id _)
    exact UInt32.toNat_ofNat_of_lt' ((mem_best_lt hrow hi).trans hwidth)
  rw [hplaces, h.best_eq hrow]
  exact h.isTop hk

end Definite

end Values

/-- **The best places are the start of one ranking**, whatever the partial selection does with equal
entries. Let the rows of a matrix have numbers only, and zeros of one sign. Then each row has one
ranking by values, the choice of `k` places succeeds (the search for the largest entries needs a
row), and every row of it has the `k` best places. They are the start of the places that are chosen
for a larger `k`, and the three ways to choose agree wherever they apply. -/
theorem topTokens_eq_ranking (s : Selection UInt32) {logs : Tensor Float32} {count vocab : Nat}
    (hshape : logs.shape = [count, vocab]) (hvocab : vocab < 2 ^ 32)
    (hrows : ∀ row ∈ logs.rows, Definite row) :
    (∀ row ∈ logs.rows, IsRanking row (ranking row) ∧
      ∀ order, IsRanking row order → order = ranking row) ∧
    (∀ k, 1 ≤ k → k ≤ vocab → (k = 1 → count ≠ 0) → ∃ t, topTokens s k logs = .ok t ∧
      t.shape = [count, k] ∧
      List.Forall₂ (fun row top => IsTop row k (top.map UInt32.toNat) ∧
        top = (best k row).map UInt32.ofNat) logs.rows t.rows ∧
      ∀ k' t', k ≤ k' → k' ≤ vocab → topTokens s k' logs = .ok t' →
        t.rows = t'.rows.map (List.take k)) ∧
    ∀ row ∈ logs.rows, ∀ k, 1 ≤ k → k ≤ vocab →
      [UInt32.ofNat (argmax row)] = (allPlaces row).take 1 ∧
      selectedPlaces s k row = (allPlaces row).take k := by
  have hlogs := Tensor.isMatrix_of_shape hshape
  have hcount := Tensor.length_rows hshape
  have hwidth : ∀ row ∈ logs.rows, row.length < 2 ^ 32 := fun row hrow =>
    (hlogs.length row hrow).symm ▸ hvocab
  have hne : 1 ≤ vocab → ∀ row ∈ logs.rows, row ≠ [] := fun hpos row hrow =>
    List.ne_nil_of_length_pos (by rw [hlogs.length row hrow]; omega)
  have hchoice : ∀ k, 1 ≤ k → k ≤ vocab → (k = 1 → count ≠ 0) → ∃ t, topTokens s k logs = .ok t ∧
      t.IsMatrix k (logs.rows.map fun row => (best k row).map UInt32.ofNat) := fun k hk hle hone =>
    topTokens_eq_best s hlogs hvocab hk hle fun heq hnil => hone heq (by rw [← hcount, hnil]; rfl)
  refine ⟨fun row hrow => ⟨(hrows row hrow).isRanking, fun order horder =>
    horder.unique (hrows row hrow).isRanking⟩, fun k hk hle hone => ?_, fun row hrow k hk hle => ?_⟩
  · obtain ⟨t, ht, htm⟩ := hchoice k hk hle hone
    refine ⟨t, ht, ?_, ?_, fun k' t' hkk' hle' ht' => ?_⟩
    · rw [htm.shape, List.length_map, hcount]
    · rw [htm.rows_eq, List.forall₂_map_right_iff, List.forall₂_same]
      intro row hrow
      exact ⟨(hrows row hrow).isTop_best (hne (by omega) row hrow) (hwidth row hrow)
        (by rw [hlogs.length row hrow]; exact hle), rfl⟩
    · obtain ⟨t'', ht'', htm'⟩ := hchoice k' (by omega) hle' fun heq => hone (by omega)
      obtain rfl := Except.ok.inj (ht'.symm.trans ht'')
      rw [htm.rows_eq, htm'.rows_eq, List.map_map]
      refine List.map_congr_left fun row hrow => ?_
      have hbest := (hrows row hrow).best_eq (hne (by omega) row hrow)
      rw [Function.comp_apply, hbest, hbest, ← List.map_take, List.take_take, Nat.min_eq_left hkk']
  · have hlength := hlogs.length row hrow
    have hfirst := (hrows row hrow).best_eq (hne (by omega) row hrow) 1
    refine ⟨?_, selectedPlaces_eq s hk (hlength ▸ hle) (hwidth row hrow)⟩
    rw [allPlaces_eq (hwidth row hrow), ← List.map_take, ← hfirst]
    rfl

/-- Two rows with equal entries: one, two, two, zero and four times one. -/
def tiedLogs : Tensor Float32 where
  shape := [2, 4]
  entries := .pure ([0x3f800000, 0x40000000, 0x40000000, 0, 0x3f800000, 0x3f800000, 0x3f800000,
    0x3f800000].map Float32.ofBits)
  size_eq := rfl

/-- The two best places of each row; the cut goes through equal entries in the second one. -/
theorem topTokens_eq_ranking_ties : ∃ t, topTokens (.sorting UInt32) 2 tiedLogs = .ok t ∧
    t.rows.map (List.map UInt32.toNat) = [[1, 2], [0, 1]] := by
  have hrows : tiedLogs.rows = [[0x3f800000, 0x40000000, 0x40000000, 0].map Float32.ofBits,
      [0x3f800000, 0x3f800000, 0x3f800000, 0x3f800000].map Float32.ofBits] := rfl
  have hshape : tiedLogs.shape = [2, 4] := rfl
  have hdefinite : ∀ row ∈ tiedLogs.rows, Definite row := by
    rw [hrows]
    exact List.forall_mem_cons.mpr ⟨⟨by decide, Or.inr (by decide)⟩,
      List.forall_mem_singleton.mpr ⟨by decide, Or.inr (by decide)⟩⟩
  obtain ⟨-, hchoice, -⟩ :=
    topTokens_eq_ranking (.sorting UInt32) hshape (by decide) hdefinite
  obtain ⟨t, ht, -, htop, -⟩ := hchoice 2 (by decide) (by decide) (by decide)
  rw [hrows] at htop
  obtain ⟨first, others, ⟨hfirst, -⟩, hothers, heq⟩ := List.forall₂_cons_left_iff.mp htop
  obtain ⟨second, rest, ⟨hsecond, -⟩, hrest, rfl⟩ := List.forall₂_cons_left_iff.mp hothers
  obtain rfl := List.forall₂_nil_left_iff.mp hrest
  refine ⟨t, ht, ?_⟩
  have hone := hfirst.start [1, 2, 0, 3] ⟨by decide, by decide⟩
  have htwo := hsecond.start [0, 1, 2, 3] ⟨by decide, by decide⟩
  rw [heq, List.map_cons, List.map_cons, hone, htwo]
  rfl

end DraftHeads
