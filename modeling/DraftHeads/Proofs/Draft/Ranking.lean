import DraftHeads.Draft.Ranking
import DraftHeads.Proofs.Tensor.Matrix

/-! # The best tokens of a row

* `mem_best_lt`, `length_best`: the best tokens of a row are places of the row, as many as asked
  for.
* `LawfulRanking`: the order of a working format. On the logarithms of a distribution the two ways
  to compare entries agree.
* `argmax_eq_ranking`: then the largest entry is the first one of the ranking, and `best_eq_take`:
  the best tokens are the start of one and the same list, however many are asked for. -/

namespace DraftHeads

variable {ω : Type} [Analytic ω]

/-! ### Distributions -/

/-- The logarithms of the distribution that a row of logits stands for. -/
def logDistribution (row : List ω) : List ω :=
  row.map fun x => x - (logSumExp row).1 - (logSumExp row).2

@[simp] theorem length_logDistribution (row : List ω) :
    (logDistribution row).length = row.length := List.length_map _

theorem logSoftmax_eq {logits : Tensor ω} {w : Nat} {rows : List (List ω)}
    (h : logits.IsMatrix w rows) :
    ∃ ys, logSoftmax logits = .ok ys ∧ ys.IsMatrix w (rows.map logDistribution) :=
  Tensor.mapRows_eq logSumExp (fun s x => x - s.1 - s.2) h

/-! ### Places -/

theorem length_ranking (row : List ω) : (ranking row).length = row.length := by
  rw [ranking, List.length_map, List.length_mergeSort, List.length_zipIdx]

theorem mem_ranking_lt {row : List ω} {i : Nat} (h : i ∈ ranking row) : i < row.length := by
  obtain ⟨⟨x, j⟩, hmem, rfl⟩ := List.mem_map.mp h
  have := List.snd_lt_add_of_mem_zipIdx (List.mem_mergeSort.mp hmem)
  omega

/-- One step of the search for the largest entry: how many entries were seen, and the place and the
value of the largest of them. -/
def argmaxStep (acc : Nat × Nat × ω) (y : ω) : Nat × Nat × ω :=
  if Scalar.less acc.2.2 y then (acc.1 + 1, acc.1, y) else (acc.1 + 1, acc.2)

theorem argmax_cons (x : ω) (xs : List ω) :
    argmax (x :: xs) = (xs.foldl argmaxStep (1, 0, x)).2.1 := rfl

theorem argmaxStep_mem : ∀ (xs : List ω) (n i : Nat) (v : ω),
    ((xs.foldl argmaxStep (n, i, v)).2.2, (xs.foldl argmaxStep (n, i, v)).2.1) ∈
      (v, i) :: xs.zipIdx n
  | [], n, i, v => by simp
  | y :: xs, n, i, v => by
    rw [List.foldl_cons, List.zipIdx_cons]
    unfold argmaxStep
    split_ifs
    · exact List.mem_cons_of_mem _ (argmaxStep_mem xs (n + 1) n y)
    · rcases List.mem_cons.mp (argmaxStep_mem xs (n + 1) i v) with h | h
      · rw [← h]; exact List.mem_cons_self
      · exact List.mem_cons_of_mem _ (List.mem_cons_of_mem _ h)

theorem argmax_mem {row : List ω} (h : row ≠ []) : ∃ x, (x, argmax row) ∈ row.zipIdx := by
  obtain ⟨x, xs, rfl⟩ := List.exists_cons_of_ne_nil h
  rw [argmax_cons, List.zipIdx_cons]
  exact ⟨_, argmaxStep_mem xs 1 0 x⟩

theorem mem_best_lt {k i : Nat} {row : List ω} (hrow : row ≠ []) (h : i ∈ best k row) :
    i < row.length := by
  unfold best at h
  split_ifs at h
  · obtain rfl := List.mem_singleton.mp h
    obtain ⟨x, hx⟩ := argmax_mem hrow
    have := List.snd_lt_add_of_mem_zipIdx hx
    omega
  · exact mem_ranking_lt (List.mem_of_mem_take h)

theorem length_best {k : Nat} {row : List ω} (hk : k ≤ row.length) : (best k row).length = k := by
  unfold best
  split_ifs with h
  · rw [h, List.length_singleton]
  · rw [List.length_take, length_ranking, Nat.min_eq_left hk]

/-! ### Order -/

/-- The order of a format: total, and on the logarithms of a distribution the same as the
comparison of numbers. -/
class LawfulRanking (ω : Type) [Analytic ω] : Prop where
  asymm : ∀ x y : ω, Analytic.precedes x y = true → Analytic.precedes y x = false
  negTrans : ∀ x y z : ω, Analytic.precedes x y = false → Analytic.precedes y z = false →
    Analytic.precedes x z = false
  less_eq : ∀ row : List ω, ∀ x ∈ logDistribution row, ∀ y ∈ logDistribution row,
    Scalar.less x y = Analytic.precedes x y

variable [LawfulRanking ω]

theorem precedes_irrefl (x : ω) : Analytic.precedes x x = false := by
  cases h : Analytic.precedes x x with
  | false => rfl
  | true => exact absurd (LawfulRanking.asymm x x h) (by rw [h]; simp)

theorem ranksBefore_iff {x y : ω × Nat} : ranksBefore x y = true ↔
    Analytic.precedes x.1 y.1 = false ∧ (Analytic.precedes y.1 x.1 = true ∨ x.2 ≤ y.2) := by
  simp only [ranksBefore, Bool.or_eq_true, Bool.and_eq_true, Bool.not_eq_true', decide_eq_true_eq]
  constructor
  · rintro (h | ⟨h, hle⟩)
    · exact ⟨LawfulRanking.asymm _ _ h, Or.inl h⟩
    · exact ⟨h, Or.inr hle⟩
  · rintro ⟨h, h' | hle⟩
    · exact Or.inl h'
    · exact Or.inr ⟨h, hle⟩

theorem ranksBefore_total (x y : ω × Nat) : (ranksBefore x y || ranksBefore y x) = true := by
  rw [Bool.or_eq_true, ranksBefore_iff, ranksBefore_iff]
  cases hxy : Analytic.precedes x.1 y.1 with
  | true => exact Or.inr ⟨LawfulRanking.asymm _ _ hxy, Or.inl rfl⟩
  | false =>
    cases hyx : Analytic.precedes y.1 x.1 with
    | true => exact Or.inl ⟨rfl, Or.inl rfl⟩
    | false =>
      rcases Nat.le_total x.2 y.2 with h | h
      · exact Or.inl ⟨rfl, Or.inr h⟩
      · exact Or.inr ⟨rfl, Or.inr h⟩

theorem ranksBefore_trans (x y z : ω × Nat) (hxy : ranksBefore x y = true)
    (hyz : ranksBefore y z = true) : ranksBefore x z = true := by
  rw [ranksBefore_iff] at hxy hyz ⊢
  obtain ⟨nxy, hxy⟩ := hxy
  obtain ⟨nyz, hyz⟩ := hyz
  refine ⟨LawfulRanking.negTrans _ _ _ nxy nyz, ?_⟩
  cases hzx : Analytic.precedes z.1 x.1 with
  | true => exact Or.inl rfl
  | false =>
    -- then the three entries are equal in the order, and the places decide
    have hzy := LawfulRanking.negTrans _ _ _ hzx nxy
    have hyx := LawfulRanking.negTrans _ _ _ nyz hzx
    rw [hyx] at hxy
    rw [hzy] at hyz
    right
    have := hxy.resolve_left (by simp)
    have := hyz.resolve_left (by simp)
    omega

theorem ranksBefore_of_precedes {x q : ω × Nat} {y : ω} (hxq : ranksBefore x q = true)
    (hxy : Analytic.precedes x.1 y = true) (n : Nat) : ranksBefore (y, n) q = true := by
  have hqy : Analytic.precedes q.1 y = true := by
    by_contra hcontra
    rw [Bool.not_eq_true] at hcontra
    rw [LawfulRanking.negTrans _ _ _ (ranksBefore_iff.mp hxq).1 hcontra] at hxy
    cases hxy
  exact ranksBefore_iff.mpr ⟨LawfulRanking.asymm _ _ hqy, Or.inl hqy⟩

theorem ranksBefore_antisymm {x y : ω × Nat} (hxy : ranksBefore x y = true)
    (hyx : ranksBefore y x = true) : x.2 = y.2 := by
  rw [ranksBefore_iff] at hxy hyx
  have h₁ := hxy.2.resolve_left (by rw [hyx.1]; simp)
  have h₂ := hyx.2.resolve_left (by rw [hxy.1]; simp)
  omega

theorem head_ranking {row : List ω} (h : row ≠ []) : ∃ x, (x, (ranking row).headD 0) ∈ row.zipIdx ∧
    ∀ p ∈ row.zipIdx, ranksBefore (x, (ranking row).headD 0) p = true := by
  have hsorted : (row.zipIdx.mergeSort ranksBefore).Pairwise (ranksBefore · ·) :=
    List.pairwise_mergeSort ranksBefore_trans ranksBefore_total row.zipIdx
  cases hsort : row.zipIdx.mergeSort ranksBefore with
  | nil =>
    have := congrArg List.length hsort
    rw [List.length_mergeSort, List.length_zipIdx] at this
    exact absurd (List.eq_nil_of_length_eq_zero this) h
  | cons p ps =>
    have hmem : ∀ q, q ∈ row.zipIdx ↔ q ∈ p :: ps := fun q => by
      rw [← hsort, List.mem_mergeSort]
    rw [hsort, List.pairwise_cons] at hsorted
    have hhead : (ranking row).headD 0 = p.2 := by rw [ranking, hsort]; rfl
    rw [hhead]
    refine ⟨p.1, (hmem p).mpr List.mem_cons_self, fun q hq => ?_⟩
    rcases List.mem_cons.mp ((hmem q).mp hq) with rfl | hq
    · exact ranksBefore_iff.mpr ⟨precedes_irrefl _, Or.inr (Nat.le_refl _)⟩
    · exact hsorted.1 q hq

/-- **The search for the largest entry** ends at one that ranks before all others, if the two ways
to compare entries agree. -/
theorem argmaxStep_ranksBefore : ∀ (xs : List ω) (n i : Nat) (v : ω) (seen : List (ω × Nat)),
    (∀ x ∈ v :: xs, ∀ y ∈ v :: xs, Scalar.less x y = Analytic.precedes x y) →
      (∀ p ∈ seen, ranksBefore (v, i) p = true ∧ p.2 < n) → i < n →
        ∀ p ∈ seen ++ (v, i) :: xs.zipIdx n, ranksBefore ((xs.foldl argmaxStep (n, i, v)).2.2,
          (xs.foldl argmaxStep (n, i, v)).2.1) p = true
  | [], n, i, v, seen, _, hseen, _, p, hp => by
    rcases List.mem_append.mp hp with hp | hp
    · exact (hseen p hp).1
    · obtain rfl : p = (v, i) := by simpa using hp
      exact ranksBefore_iff.mpr ⟨precedes_irrefl _, Or.inr (Nat.le_refl _)⟩
  | y :: xs, n, i, v, seen, hless, hseen, hi, p, hp => by
    have hself : ranksBefore (v, i) (v, i) = true :=
      ranksBefore_iff.mpr ⟨precedes_irrefl v, Or.inr (Nat.le_refl i)⟩
    have hseen' : ∀ q ∈ seen ++ [(v, i)], ranksBefore (v, i) q = true ∧ q.2 < n := fun q hq => by
      rcases List.mem_append.mp hq with hq | hq
      · exact hseen q hq
      · obtain rfl := List.mem_singleton.mp hq
        exact ⟨hself, hi⟩
    have hvy : Scalar.less v y = Analytic.precedes v y := hless v (by simp) y (by simp)
    rw [List.foldl_cons]
    unfold argmaxStep
    simp only [hvy]
    cases hprec : Analytic.precedes v y with
    | true =>
      -- the new entry ranks before all that the old one ranked before
      have hnew : ∀ q ∈ seen ++ [(v, i)], ranksBefore (y, n) q = true ∧ q.2 < n + 1 :=
        fun q hq => by
          obtain ⟨hq, hlt⟩ := hseen' q hq
          exact ⟨ranksBefore_of_precedes hq hprec n, Nat.lt_succ_of_lt hlt⟩
      have ih := argmaxStep_ranksBefore xs (n + 1) n y (seen ++ [(v, i)])
        (fun a ha b hb => hless a (List.mem_cons_of_mem v ha) b (List.mem_cons_of_mem v hb)) hnew
        (Nat.lt_succ_self n)
      exact ih p (by simpa using hp)
    | false =>
      have hnew : ∀ q ∈ seen ++ [(y, n)], ranksBefore (v, i) q = true ∧ q.2 < n + 1 :=
        fun q hq => by
          rcases List.mem_append.mp hq with hq | hq
          · exact ⟨(hseen q hq).1, by have := (hseen q hq).2; omega⟩
          · obtain rfl := List.mem_singleton.mp hq
            exact ⟨ranksBefore_iff.mpr ⟨hprec, Or.inr (Nat.le_of_lt hi)⟩, Nat.lt_succ_self n⟩
      have hsub : ∀ a ∈ v :: xs, a ∈ v :: y :: xs := fun a ha => by
        rcases List.mem_cons.mp ha with rfl | ha
        · simp
        · simp [ha]
      have ih := argmaxStep_ranksBefore xs (n + 1) i v (seen ++ [(y, n)])
        (fun a ha b hb => hless a (hsub a ha) b (hsub b hb)) hnew (Nat.lt_succ_of_lt hi)
      refine ih p ?_
      rw [List.zipIdx_cons] at hp
      simp only [List.mem_append, List.mem_cons, List.not_mem_nil, or_false] at hp ⊢
      tauto

/-- **The largest entry is the first one of the ranking**, if the two ways to compare entries
agree. -/
theorem argmax_eq_ranking {row : List ω} (hrow : row ≠ [])
    (hless : ∀ x ∈ row, ∀ y ∈ row, Scalar.less x y = Analytic.precedes x y) :
    argmax row = (ranking row).headD 0 := by
  obtain ⟨z, hz, hzall⟩ := head_ranking hrow
  obtain ⟨x, xs, rfl⟩ := List.exists_cons_of_ne_nil hrow
  have hfirst := argmaxStep_ranksBefore xs 1 0 x [] hless (by simp) Nat.zero_lt_one
  rw [List.nil_append] at hfirst
  rw [List.zipIdx_cons] at hz hzall
  exact ranksBefore_antisymm (hfirst _ hz) (hzall _ (argmaxStep_mem xs 1 0 x))

/-- The best places are the start of the ranking, also if there is only one to choose, if the two
ways to compare entries agree. -/
theorem best_eq_take_of_less {row : List ω} (hrow : row ≠ [])
    (hless : ∀ x ∈ row, ∀ y ∈ row, Scalar.less x y = Analytic.precedes x y) (k : Nat) :
    best k row = (ranking row).take k := by
  unfold best
  split_ifs with hk
  · have hlen := length_ranking row
    cases hrank : ranking row with
    | nil =>
      rw [hrank] at hlen
      exact absurd (List.eq_nil_of_length_eq_zero hlen.symm) hrow
    | cons i is =>
      rw [argmax_eq_ranking hrow hless, hrank, hk]
      rfl
  · rfl

/-- **The best tokens of a distribution** are the start of its ranking. -/
theorem best_eq_take {row : List ω} (hrow : row ≠ []) (k : Nat) :
    best k (logDistribution row) = (ranking (logDistribution row)).take k :=
  best_eq_take_of_less (by simpa [logDistribution] using hrow) (LawfulRanking.less_eq row) k

end DraftHeads
