import DraftHeads.Proofs.Outcome
import DraftHeads.Tensor.Basic
import Mathlib.Data.List.Basic
import Mathlib.Data.List.GetD
import Mathlib.Tactic.Ring

/-! # Matrices as lists of rows

`t.IsMatrix w rows` says that the tensor `t` has two axes, rows of width `w`, and that its rows are
`rows`. Every operation that a head applies to a matrix works on one row at a time; the lemmas here
say which rows come out:

* `map_isMatrix`, `zipWith_eq`, `mapRows_eq`: entries mapped, combined in pairs, or mapped with a
  reduction of their row;
* `broadcastWith_eq`: a vector repeated over the rows;
* `product_eq`: a row times a weight is the list of its inner products with the weight's rows;
* `repeatRows_eq`, `concat_eq`: rows repeated, and matrices put side by side;
* `lookup_eq_ok_iff`: the rows of a table at indices inside it. -/

namespace DraftHeads

variable {α β γ : Type}

/-! ### Blocks of a list -/

/-- A list in equal blocks: entry `d` of block `r` is at `r * k + d`. -/
theorem getElem?_flatMap_block {f : α → List β} {k : Nat} :
    ∀ {l : List α}, (∀ x ∈ l, (f x).length = k) → ∀ (r d : Nat), d < k →
      (l.flatMap f)[r * k + d]? = (l[r]?).bind fun x => (f x)[d]?
  | [], _, r, d, _ => by simp
  | x :: l, h, 0, d, hd => by
    have hx : (f x).length = k := h x (by simp)
    simp [List.getElem?_append_left (by omega : d < (f x).length)]
  | x :: l, h, r + 1, d, hd => by
    have hx : (f x).length = k := h x (by simp)
    have hr : (r + 1) * k + d = (f x).length + (r * k + d) := by rw [hx]; ring
    rw [List.flatMap_cons, hr, List.getElem?_append_right (by omega), Nat.add_sub_cancel_left,
      getElem?_flatMap_block (fun y hy => h y (by simp [hy])) r d hd, List.getElem?_cons_succ]

theorem length_flatMap_block {f : α → List β} {k : Nat} {l : List α}
    (h : ∀ x ∈ l, (f x).length = k) : (l.flatMap f).length = l.length * k := by
  rw [List.length_flatMap, List.map_congr_left h, List.map_const', List.sum_replicate_nat]

theorem length_flatten_block {k : Nat} {l : List (List α)} (h : ∀ x ∈ l, x.length = k) :
    l.flatten.length = l.length * k := by
  simpa [List.flatMap_id'] using length_flatMap_block (f := id) h

theorem length_pieces (w : Nat) : ∀ (n : Nat) (xs : List α), (pieces w n xs).length = n
  | 0, _ => rfl
  | n + 1, xs => by simp [pieces, length_pieces w n]

theorem pieces_flatten {w : Nat} : ∀ {rows : List (List α)}, (∀ row ∈ rows, row.length = w) →
    pieces w rows.length rows.flatten = rows
  | [], _ => rfl
  | row :: rows, h => by
    have hrow : row.length = w := h row (by simp)
    have ih := pieces_flatten fun r hr => h r (List.mem_cons_of_mem row hr)
    simp only [List.length_cons, pieces, List.flatten_cons]
    rw [List.take_left' hrow, List.drop_left' hrow, ih]

theorem flatten_pieces {w : Nat} : ∀ {n : Nat} {xs : List α}, xs.length = n * w →
    (pieces w n xs).flatten = xs
  | 0, xs, h => by
    have : xs = [] := by simpa using h
    simp [pieces, this]
  | n + 1, xs, h => by
    rw [Nat.succ_mul] at h
    have ih : (pieces w n (xs.drop w)).flatten = xs.drop w :=
      flatten_pieces (by rw [List.length_drop, h]; omega)
    simp only [pieces, List.flatten_cons, ih, List.take_append_drop]

theorem length_of_mem_pieces {w : Nat} : ∀ {n : Nat} {xs : List α}, xs.length = n * w →
    ∀ row ∈ pieces w n xs, row.length = w
  | 0, _, _, row, hrow => by simp [pieces] at hrow
  | n + 1, xs, h, row, hrow => by
    rw [Nat.succ_mul] at h
    rcases List.mem_cons.mp hrow with rfl | hrow
    · rw [List.length_take]; omega
    · exact length_of_mem_pieces (by rw [List.length_drop, h]; omega) row hrow

theorem entryCount_append (width : Nat) : ∀ shape : List Nat,
    entryCount (shape ++ [width]) = entryCount shape * width
  | [] => by simp [entryCount]
  | n :: shape => by
    rw [List.cons_append, entryCount, entryCount, entryCount_append width shape, Nat.mul_assoc]

namespace Tensor

/-! ### Matrices -/

/-- The tensor is the matrix with these rows, all of one width. -/
structure IsMatrix (t : Tensor α) (width : Nat) (rows : List (List α)) : Prop where
  shape : t.shape = [rows.length, width]
  data : t.data = rows.flatten
  length : ∀ row ∈ rows, row.length = width

theorem ofData_eq {shape : List Nat} {data : List α} (h : data.length = entryCount shape) :
    ∃ t, ofData shape data = .ok t ∧ t.shape = shape ∧ t.data = data :=
  ⟨⟨shape, .pure data, h⟩, dif_pos h, rfl, rfl⟩

@[simp] theorem shape_map (f : α → β) (t : Tensor α) : (t.map f).shape = t.shape := rfl

@[simp] theorem data_map (f : α → β) (t : Tensor α) : (t.map f).data = t.data.map f := rfl

@[simp] theorem shape_fill (shape : List Nat) (x : α) : (fill shape x).shape = shape := rfl

@[simp] theorem data_fill (shape : List Nat) (x : α) :
    (fill shape x).data = List.replicate (entryCount shape) x := rfl

theorem rows_of_shape {t : Tensor α} {n w : Nat} (h : t.shape = [n, w]) :
    t.rows = pieces w n t.data := by
  simp [rows, width, lead, h, entryCount]

namespace IsMatrix

variable {t : Tensor α} {w : Nat} {rows : List (List α)}

theorem rows_eq (h : t.IsMatrix w rows) : t.rows = rows := by
  rw [rows_of_shape h.shape, h.data, pieces_flatten h.length]

theorem lead_eq (h : t.IsMatrix w rows) : t.lead = [rows.length] := by simp [lead, h.shape]

theorem width_eq (h : t.IsMatrix w rows) : t.width = w := by simp [width, h.shape]

theorem rank_eq (h : t.IsMatrix w rows) : t.rank = 2 := by simp [rank, h.shape]

end IsMatrix

theorem isMatrix_of_shape {t : Tensor α} {n w : Nat} (h : t.shape = [n, w]) :
    t.IsMatrix w t.rows := by
  have hlen : t.data.length = n * w := by rw [t.length_data, h]; simp [entryCount]
  have hrows := rows_of_shape h
  refine ⟨?_, ?_, ?_⟩
  · rw [hrows, length_pieces, h]
  · rw [hrows, flatten_pieces hlen]
  · rw [hrows]; exact length_of_mem_pieces hlen

theorem length_rows {t : Tensor α} {n w : Nat} (h : t.shape = [n, w]) : t.rows.length = n := by
  rw [rows_of_shape h, length_pieces]

theorem ofRows_eq {n w : Nat} {rows : List (List α)} (hn : rows.length = n)
    (hw : ∀ row ∈ rows, row.length = w) :
    ∃ t, ofRows [n] w rows = .ok t ∧ t.IsMatrix w rows := by
  have hlen : rows.flatten.length = entryCount [n, w] := by
    rw [length_flatten_block hw, hn]; simp [entryCount]
  obtain ⟨t, ht, hshape, hdata⟩ := ofData_eq hlen
  exact ⟨t, ht, ⟨by rw [hshape, hn], hdata, hw⟩⟩

/-! ### Entries, one at a time and in pairs -/

theorem map_isMatrix {t : Tensor α} {w : Nat} {rows : List (List α)} (h : t.IsMatrix w rows)
    (f : α → β) : (t.map f).IsMatrix w (rows.map (List.map f)) where
  shape := by rw [shape_map, h.shape, List.length_map]
  data := by rw [data_map, h.data, List.map_flatten]
  length := by
    intro row hrow
    obtain ⟨r, hr, rfl⟩ := List.mem_map.mp hrow
    rw [List.length_map, h.length r hr]

theorem zipWith_flatten (f : α → β → γ) {w : Nat} : ∀ {xs : List (List α)} {ys : List (List β)},
    (∀ x ∈ xs, x.length = w) → (∀ y ∈ ys, y.length = w) →
      List.zipWith f xs.flatten ys.flatten = (List.zipWith (List.zipWith f) xs ys).flatten
  | [], _, _, _ => by simp
  | _ :: _, [], _, _ => by simp
  | x :: xs, y :: ys, hx, hy => by
    have hlen : x.length = y.length := by rw [hx x (by simp), hy y (by simp)]
    simp only [List.flatten_cons, List.zipWith_cons_cons]
    rw [List.zipWith_append hlen, zipWith_flatten f (fun r hr => hx r (List.mem_cons_of_mem x hr))
      (fun r hr => hy r (List.mem_cons_of_mem y hr))]

theorem zipWith_eq (f : α → β → γ) {s : Tensor α} {t : Tensor β} {w : Nat} {xs : List (List α)}
    {ys : List (List β)} (hs : s.IsMatrix w xs) (ht : t.IsMatrix w ys)
    (hlen : xs.length = ys.length) :
    ∃ u, zipWith f s t = .ok u ∧ u.IsMatrix w (List.zipWith (List.zipWith f) xs ys) := by
  have hshape : s.shape = t.shape := by rw [hs.shape, ht.shape, hlen]
  refine ⟨_, dif_pos hshape, ?_, ?_, ?_⟩
  · change s.shape = _
    rw [hs.shape, List.length_zipWith, hlen, Nat.min_self]
  · change List.zipWith f s.data t.data = _
    rw [hs.data, ht.data, zipWith_flatten f hs.length ht.length]
  · intro row hrow
    obtain ⟨i, hi, rfl⟩ := List.getElem_of_mem hrow
    rw [List.getElem_zipWith, List.length_zipWith, hs.length _ (List.getElem_mem _),
      ht.length _ (List.getElem_mem _), Nat.min_self]

theorem zipWith_map_map {ρ : Type} (f : α → β → γ) (p : ρ → List α) (q : ρ → List β)
    (l : List ρ) :
    List.zipWith (List.zipWith f) (l.map p) (l.map q) =
      l.map fun x => List.zipWith f (p x) (q x) := by
  rw [List.zipWith_map, List.zipWith_self]

theorem mapRows_eq {σ : Type} (stat : List α → σ) (f : σ → α → β) {t : Tensor α} {w : Nat}
    {rows : List (List α)} (h : t.IsMatrix w rows) :
    ∃ u, t.mapRows stat f = .ok u ∧ u.IsMatrix w (rows.map fun row => row.map (f (stat row))) := by
  have hlen : ∀ row ∈ rows, (row.map (f (stat row))).length = w := fun row hrow => by
    rw [List.length_map, h.length row hrow]
  have hsize : (rows.flatMap fun row => row.map (f (stat row))).length = entryCount t.shape := by
    rw [length_flatMap_block hlen, h.shape]
    simp [entryCount]
  obtain ⟨u, hu, hshape, hdata⟩ := ofData_eq hsize
  refine ⟨u, by rw [mapRows, h.rows_eq, hu], ?_, ?_, ?_⟩
  · rw [hshape, h.shape, List.length_map]
  · rw [hdata, List.flatMap_def]
  · intro row hrow
    obtain ⟨r, hr, rfl⟩ := List.mem_map.mp hrow
    exact hlen r hr

/-! ### A vector repeated over the rows -/

theorem expand_self : ∀ {shape : List Nat} {data : List α}, data.length = entryCount shape →
    expand shape shape data = data
  | [], _, _ => rfl
  | n :: shape, data, h => by
    have hpieces : ∀ p ∈ pieces (entryCount shape) n data, expand shape shape p = p :=
      fun p hp => expand_self (length_of_mem_pieces h p hp)
    rw [expand, List.map_congr_left hpieces, List.map_id', if_pos rfl]
    exact flatten_pieces h

theorem broadcast_self (t : Tensor α) : t.broadcast t.shape = .ok t := by
  obtain ⟨u, hu, hshape, hdata⟩ := ofData_eq t.length_data
  rw [broadcast, Nat.sub_self, List.replicate_zero, List.nil_append, expand_self t.length_data, hu]
  exact congrArg Except.ok (ext hshape hdata)

theorem broadcast_vector {t : Tensor α} {w : Nat} (h : t.shape = [w]) (n : Nat) :
    ∃ u, t.broadcast [n, w] = .ok u ∧ u.IsMatrix w (List.replicate n t.data) := by
  have hlen : t.data.length = w := by rw [t.length_data, h]; simp [entryCount]
  have hrow : expand [w] [w] t.data = t.data := expand_self (by simp [entryCount, hlen])
  have hone : pieces (entryCount [w]) 1 t.data = [t.data] := by
    have hw : entryCount [w] = t.data.length := by simp [entryCount, hlen]
    rw [hw]
    simp [pieces]
  have hdata : expand (List.replicate (2 - 1) 1 ++ [w]) [n, w] t.data =
      (List.replicate n t.data).flatten := by
    change expand [1, w] [n, w] t.data = _
    rw [expand, hone]
    simp only [List.map_cons, List.map_nil, hrow]
    split_ifs with hn
    · rw [← hn]; rfl
    · simp [List.flatten_replicate_singleton]
  have hrep : ∀ row ∈ List.replicate n t.data, row.length = w := fun row hmem => by
    rw [List.eq_of_mem_replicate hmem, hlen]
  have hsize : (List.replicate n t.data).flatten.length = entryCount [n, w] := by
    rw [length_flatten_block hrep]; simp [entryCount]
  obtain ⟨u, hu, hshape, hd⟩ := ofData_eq hsize
  refine ⟨u, ?_, by rw [hshape, List.length_replicate], hd, hrep⟩
  rw [broadcast, h]
  simp only [List.length_cons, List.length_nil, Nat.zero_add]
  rw [hdata, hu]

theorem broadcastWith_eq (f : α → β → γ) {s : Tensor α} {t : Tensor β} {w : Nat}
    {rows : List (List α)} (hs : s.IsMatrix w rows) (ht : t.shape = [w]) :
    ∃ u, s.broadcastWith f t = .ok u ∧
      u.IsMatrix w (rows.map fun row => List.zipWith f row t.data) := by
  obtain ⟨v, hv, hvm⟩ := broadcast_vector ht rows.length
  obtain ⟨u, hu, hum⟩ := zipWith_eq f hs hvm (by simp)
  have hzip : List.zipWith (List.zipWith f) rows (List.replicate rows.length t.data) =
      rows.map fun row => List.zipWith f row t.data := by
    rw [← List.map_const', List.zipWith_map_right, List.zipWith_self]
  refine ⟨u, ?_, hzip ▸ hum⟩
  have hcommon : commonShape s.shape.reverse t.shape.reverse = some s.shape.reverse := by
    rw [hs.shape, ht]
    simp [commonShape]
  have hself := broadcast_self s
  rw [hs.shape] at hself
  rw [broadcastWith, hcommon]
  simp only [List.reverse_reverse, hs.shape, hself, hv]
  exact hu

/-! ### Products -/

section Product

variable {dot : List α → List α → α} {x w : Tensor α} {rows : List (List α)} {k n : Nat}

/-- The row of inner products of a row with all rows of a weight. -/
def timesWeight (dot : List α → List α → α) (w : Tensor α) (row : List α) : List α :=
  w.rows.map (dot row)

@[simp] theorem length_timesWeight (row : List α) :
    (timesWeight dot w row).length = w.rows.length := List.length_map _

variable [Zero α]

variable (dot) in
/-- **The product of a matrix with a weight**, row by row. -/
theorem product_eq (hx : x.IsMatrix k rows) (hw : w.shape = [n, k]) (hk : 0 < k) :
    ∃ y, product (some dot) x w = .ok y ∧ y.IsMatrix n (rows.map (timesWeight dot w)) := by
  have hlen : ∀ row ∈ rows.map (timesWeight dot w), row.length = n := fun row hrow => by
    obtain ⟨r, -, rfl⟩ := List.mem_map.mp hrow
    rw [length_timesWeight, length_rows hw]
  rw [product, hx.shape, hw]
  by_cases hempty : rows.length = 0 ∨ n = 0 ∨ k = 0
  · -- then the product has no entries
    refine ⟨fill [rows.length, n] 0, if_pos hempty, ?_, ?_, hlen⟩
    · rw [shape_fill, List.length_map]
    · have hnone : rows.length * n = 0 := by
        rcases hempty with h | h | h
        · simp [h]
        · simp [h]
        · omega
      have hflat : (rows.map (timesWeight dot w)).flatten = [] := by
        apply List.eq_nil_of_length_eq_zero
        rw [length_flatten_block hlen, List.length_map, hnone]
      rw [data_fill, hflat]
      simp [entryCount, hnone]
  · obtain ⟨y, hy, hym⟩ := ofRows_eq (n := rows.length) (List.length_map _) hlen
    refine ⟨y, ?_, hym⟩
    simp only [hempty, if_false, not_true_eq_false, ne_eq, hx.rows_eq]
    exact hy

theorem exists_dot_of_product {dot? : Option (List α → List α → α)} (hx : x.IsMatrix k rows)
    (hrows : rows ≠ []) (hw : w.shape = [n, k]) (hn : 0 < n) (hk : 0 < k) {y : Tensor α}
    (hy : product dot? x w = .ok y) : ∃ dot, dot? = some dot := by
  have hpos := List.length_pos_of_ne_nil hrows
  have hsome : ¬ (rows.length = 0 ∨ n = 0 ∨ k = 0) := by omega
  rw [product, hx.shape, hw] at hy
  simp only [hsome, if_false, ne_eq, not_true_eq_false] at hy
  cases dot? with
  | none => cases hy
  | some dot => exact ⟨dot, rfl⟩

end Product

/-! ### Rows repeated, and matrices side by side -/

theorem repeatRows_eq {t : Tensor α} {w : Nat} {rows : List (List α)} (h : t.IsMatrix w rows)
    (k : Nat) :
    ∃ u, t.repeatRows k = .ok u ∧ u.IsMatrix w (rows.flatMap (List.replicate k)) := by
  have hlen : (rows.flatMap (List.replicate k)).length = entryCount [rows.length] * k := by
    rw [length_flatMap_block (fun _ _ => List.length_replicate)]; simp [entryCount]
  have hw : ∀ row ∈ rows.flatMap (List.replicate k), row.length = w := fun row hrow => by
    obtain ⟨r, hr, hmem⟩ := List.mem_flatMap.mp hrow
    rw [List.eq_of_mem_replicate hmem, h.length r hr]
  obtain ⟨u, hu, hum⟩ := ofRows_eq hlen hw
  refine ⟨u, ?_, hum⟩
  rw [repeatRows, h.lead_eq, h.width_eq, h.rows_eq, hu]

/-- Interleaving matrices whose rows belong to the same list puts the rows side by side. -/
theorem interleave_eq {ρ : Type} {w : Nat} : ∀ {l : List ρ} {fs : List (ρ → List α)},
    (∀ f ∈ fs, ∀ x ∈ l, (f x).length = w) →
      interleave l.length (fs.map fun f => (w, (l.map f).flatten)) =
        (l.map fun x => fs.flatMap fun f => f x).flatten
  | [], _, _ => rfl
  | x :: l, fs, h => by
    have htake : ∀ f ∈ fs, ((w, ((x :: l).map f).flatten).2.take w) = f x := fun f hf => by
      simp only [List.map_cons, List.flatten_cons]
      exact List.take_left' (h f hf x (by simp))
    have hdrop : ∀ f ∈ fs, ((w, ((x :: l).map f).flatten).2.drop w) = (l.map f).flatten :=
      fun f hf => by
        simp only [List.map_cons, List.flatten_cons]
        exact List.drop_left' (h f hf x (by simp))
    have ih := interleave_eq (l := l) fun f hf y hy => h f hf y (List.mem_cons_of_mem x hy)
    rw [List.length_cons, interleave, List.map_cons, List.flatten_cons, List.map_map, ← ih]
    congr 1
    · rw [List.flatMap_map]
      exact List.flatMap_congr htake
    · congr 1
      exact List.map_congr_left fun f hf => Prod.ext rfl (hdrop f hf)

/-- **Matrices side by side**: the rows for each `x` are put end to end. -/
theorem concat_eq {ρ : Type} {w : Nat} {l : List ρ} {parts : List (Tensor α × (ρ → List α))}
    (hne : parts ≠ []) (h : ∀ p ∈ parts, p.1.IsMatrix w (l.map p.2)) :
    ∃ u, concat 1 (parts.map Prod.fst) = .ok u ∧
      u.IsMatrix (parts.length * w) (l.map fun x => parts.flatMap fun p => p.2 x) := by
  obtain ⟨p, ps, rfl⟩ := List.exists_cons_of_ne_nil hne
  have hshape : ∀ q ∈ p :: ps, q.1.shape = [l.length, w] := fun q hq => by
    rw [(h q hq).shape, List.length_map]
  have hw : ∀ q ∈ p :: ps, ∀ x ∈ l, (q.2 x).length = w := fun q hq x hx =>
    (h q hq).length _ (List.mem_map_of_mem hx)
  have hrow : ∀ row ∈ l.map fun x => (p :: ps).flatMap fun q => q.2 x,
      row.length = (p :: ps).length * w := fun row hrow => by
    obtain ⟨x, hx, rfl⟩ := List.mem_map.mp hrow
    exact length_flatMap_block fun q hq => hw q hq x hx
  have hwidths : (((p :: ps).map Prod.fst).map fun s : Tensor α => s.shape.getD 1 0).foldr
      (· + ·) 0 = (p :: ps).length * w := by
    rw [List.map_map, List.map_congr_left (g := fun _ => w) fun q hq => by
      simp [Function.comp, hshape q hq], List.map_const', ← List.sum_eq_foldr,
      List.sum_replicate_nat]
  have hblocks : (((p :: ps).map Prod.fst).map fun s : Tensor α =>
      (entryCount (s.shape.drop 1), s.data)) =
        ((p :: ps).map Prod.snd).map fun f => (w, (l.map f).flatten) := by
    rw [List.map_map, List.map_map]
    refine List.map_congr_left fun q hq => ?_
    simp [Function.comp, hshape q hq, (h q hq).data, entryCount]
  have hdata : interleave (entryCount (p.1.shape.take 1)) (((p :: ps).map Prod.fst).map
      fun s : Tensor α => (entryCount (s.shape.drop 1), s.data)) =
        (l.map fun x => (p :: ps).flatMap fun q => q.2 x).flatten := by
    have hcount : entryCount (p.1.shape.take 1) = l.length := by
      simp [hshape p (by simp), entryCount]
    rw [hblocks, hcount, interleave_eq fun f hf x hx => by
      obtain ⟨q, hq, rfl⟩ := List.mem_map.mp hf
      exact hw q hq x hx]
    simp only [List.flatMap_map]
  have hlen : (l.map fun x => (p :: ps).flatMap fun q => q.2 x).flatten.length =
      entryCount [l.length, (p :: ps).length * w] := by
    rw [length_flatten_block hrow, List.length_map]; simp [entryCount]
  obtain ⟨u, hu, hus, hud⟩ := ofData_eq hlen
  refine ⟨u, ?_, by rw [hus, List.length_map], hud, hrow⟩
  have hset : p.1.shape.set 1 ((p :: ps).length * w) = [l.length, (p :: ps).length * w] := by
    rw [hshape p (by simp)]; rfl
  have hagree : 1 < p.1.shape.length ∧
      ∀ s ∈ ps.map Prod.fst, s.shape.set 1 0 = p.1.shape.set 1 0 := by
    refine ⟨by simp [hshape p (by simp)], fun s hs => ?_⟩
    obtain ⟨q, hq, rfl⟩ := List.mem_map.mp hs
    rw [hshape p (by simp), hshape q (by simp [hq])]
  rw [List.map_cons, concat, if_pos hagree, ← List.map_cons, hwidths, hset, hdata, hu]

/-! ### Tables -/

/-- The row of a table at an index, empty if there is none. -/
def tableRow (table : Tensor α) (i : Int) : List α := table.rows.getD i.toNat []

/-- **A look-up succeeds exactly at indices inside the table**, and gives their rows. -/
theorem lookup_eq_ok_iff {table : Tensor α} {n w : Nat} (h : table.shape = [n, w])
    {is : List Int} {rows : List (List α)} : table.lookup is = .ok rows ↔
      (∀ i ∈ is, 0 ≤ i ∧ i.toNat < n) ∧ rows = is.map table.tableRow := by
  have hstep : ∀ (i : Int) (row : List α),
      (if 0 ≤ i then table.rows[i.toNat]? else none) = some row ↔
        (0 ≤ i ∧ i.toNat < n) ∧ row = table.tableRow i := by
    intro i row
    have hrows := length_rows h
    by_cases hi : 0 ≤ i ∧ i.toNat < n
    · have hget : table.rows[i.toNat]? = some (table.tableRow i) := by
        rw [tableRow, List.getD_eq_getElem _ _ (hrows ▸ hi.2), List.getElem?_eq_getElem]
      rw [if_pos hi.1, hget]
      simp [hi, eq_comm]
    · have hnone : (if 0 ≤ i then table.rows[i.toNat]? else none) = none := by
        split_ifs with h0
        · exact List.getElem?_eq_none (by omega)
        · rfl
      rw [hnone]
      simp [hi]
  simp only [lookup, h]
  rw [mapM_eq_ok, ← forall₂_eq_map_iff]
  constructor
  · refine List.Forall₂.imp fun i row hrow => ?_
    split at hrow
    · next row' hget =>
      cases hrow
      exact (hstep i row).mp hget
    · cases hrow
  · refine List.Forall₂.imp fun i row hrow => ?_
    rw [(hstep i row).mpr hrow]

/-- A look-up of an index outside the table says so, whatever the other indices are. -/
theorem lookup_eq_error {table : Tensor α} {n w : Nat} (h : table.shape = [n, w]) {is : List Int}
    (hout : ∃ i ∈ is, ¬ (0 ≤ i ∧ i.toNat < n)) : table.lookup is = .error .index := by
  cases hlook : table.lookup is with
  | ok rows =>
    obtain ⟨i, hi, hnot⟩ := hout
    exact absurd (((lookup_eq_ok_iff h).mp hlook).1 i hi) hnot
  | error e =>
    simp only [lookup, h] at hlook
    obtain ⟨i, -, he⟩ := mapM_eq_error hlook
    split at he
    · cases he
    · cases he; rfl

theorem length_tableRow {table : Tensor α} {n w : Nat} (h : table.shape = [n, w]) {i : Int}
    (hi : i.toNat < n) : (table.tableRow i).length = w := by
  have hlen : i.toNat < table.rows.length := by rw [length_rows h]; exact hi
  rw [tableRow, List.getD_eq_getElem _ _ hlen]
  exact (isMatrix_of_shape h).length _ (List.getElem_mem hlen)

end Tensor

end DraftHeads
