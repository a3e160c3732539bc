import DraftHeads.Proofs.Draft.Building

/-! # The rows of the heads

A run hands a list of candidate rows from head to head: a head replaces each row `x` by the rows
`children x`, one for each of the best tokens of its distribution. Each step of a run records the
distributions and the tokens of the rows that its head saw.

* `place`: the place of a row among the rows of a head, from the ranks of the tokens that it took;
  `exists_place`: every row has such a place.
* `descend`: the row that takes the tokens of given ranks; `getElem?_level`: it stands at its place.
* `Records`: the steps of a run, head by head; `Records.record`: each is about the rows that come
  out of the heads before it. -/

namespace DraftHeads

variable {α ω π : Type}

/-! ### Places -/

/-- The place of a row: `(b · k₀ + d₀) · k₁ + d₁ …` with branching factors `k` and ranks `d`. -/
def place (b : Nat) (ks ds : List Nat) : Nat := (ks.zip ds).foldl (fun r p => r * p.1 + p.2) b

/-- There is one rank for each branching factor, and it is below the factor. -/
abbrev Ranks (ks ds : List Nat) : Prop := List.Forall₂ (fun k d => d < k) ks ds

@[simp] theorem place_cons (b k d : Nat) (ks ds : List Nat) :
    place b (k :: ks) (d :: ds) = place (b * k + d) ks ds := rfl

theorem exists_place : ∀ {ks : List Nat} {batch r : Nat}, r < batch * ks.prod →
    ∃ b ds, b < batch ∧ Ranks ks ds ∧ place b ks ds = r
  | [], batch, r, h => ⟨r, [], by simpa using h, .nil, rfl⟩
  | k :: ks, batch, r, h => by
    rw [List.prod_cons, ← Nat.mul_assoc] at h
    obtain ⟨b, ds, hb, hds, hplace⟩ := exists_place h
    have hk : 0 < k := by
      rcases Nat.eq_zero_or_pos k with rfl | hk
      · simp at hb
      · exact hk
    refine ⟨b / k, b % k :: ds, Nat.div_lt_of_lt_mul (Nat.mul_comm batch k ▸ hb),
      .cons (Nat.mod_lt b hk) hds, ?_⟩
    rw [place_cons, Nat.mul_comm (b / k), Nat.div_add_mod, hplace]

namespace Model

/-! ### Plans -/

section Plan

/-- The heads from some place on fit the sizes, and none of them has more candidates than there are
tokens. -/
def Planned (g : Group) (m : Model α π) (head : Nat)
    (heads : List (Parameters.Single α π × Nat)) : Prop :=
  ∀ (i : Nat) (p : Parameters.Single α π × Nat), heads[i]? = some p →
    p.1.Fits g m.sizes (head + i) ∧ 0 < p.2 ∧ p.2 ≤ m.sizes.vocab

variable {m : Model α π} {g : Group} {head : Nat} {p : Parameters.Single α π × Nat}
  {heads : List (Parameters.Single α π × Nat)}

theorem Planned.first (h : m.Planned g head (p :: heads)) :
    p.1.Fits g m.sizes head ∧ 0 < p.2 ∧ p.2 ≤ m.sizes.vocab := h 0 p rfl

theorem Planned.rest (h : m.Planned g head (p :: heads)) : m.Planned g (head + 1) heads :=
  fun i q hq => by
    have := h (i + 1) q hq
    rwa [← Nat.add_assoc, Nat.add_right_comm] at this

theorem Planned.take (h : m.Planned g head heads) (n : Nat) : m.Planned g head (heads.take n) :=
  fun i q hq => by
    rw [List.getElem?_take] at hq
    split_ifs at hq
    exact h i q hq

theorem Planned.prod_pos (h : m.Planned g head heads) : 0 < (heads.map Prod.snd).prod := by
  refine List.prod_pos_iff_forall_pos_nat.mpr fun k hk => ?_
  obtain ⟨q, hq, rfl⟩ := List.mem_map.mp hk
  obtain ⟨i, hi, rfl⟩ := List.getElem_of_mem hq
  exact (h i _ (List.getElem?_eq_getElem hi)).2.1

end Plan

/-! ### The rows of a head -/

variable [Element α ω π] [Analytic ω] [Analytic π]

section Rows

variable (m : Model α π) (dot : List α → List α → α)

/-- The rows that the `k` best tokens of a row become. -/
def children (p : Parameters.Single α π × Nat) (x : CandidateRow α) : List (CandidateRow α) :=
  (best p.2 (m.rowLogs dot p.1 x)).map fun i => (m.nextState dot p.1 x, UInt32.ofNat i)

/-- The row that the token of rank `d` of a row becomes. -/
def childRow (h : Parameters.Single α π) (x : CandidateRow α) (d : Nat) : CandidateRow α :=
  (m.nextState dot h x, UInt32.ofNat ((ranking (m.rowLogs dot h x)).getD d 0))

/-- The rows that come out of some heads. -/
def level (heads : List (Parameters.Single α π × Nat)) (rows : List (CandidateRow α)) :
    List (CandidateRow α) :=
  heads.foldl (fun rows p => rows.flatMap (m.children dot p)) rows

/-- The row that takes the tokens of the given ranks, one after each head. -/
def descend (x : CandidateRow α) (taken : List (Parameters.Single α π × Nat)) : CandidateRow α :=
  taken.foldl (fun x p => m.childRow dot p.1 x p.2) x

/-- What a head saw and chose on some rows. -/
structure Record (p : Parameters.Single α π × Nat) (multiplicity : Nat)
    (rows : List (CandidateRow α)) (step : HeadStep ω) : Prop where
  multiplicity : step.multiplicity = multiplicity
  probs : step.probs.IsMatrix m.sizes.vocab
    (rows.map fun x => (m.rowLogs dot p.1 x).map Analytic.exp)
  shape : step.candidates.shape = [rows.length * p.2]
  data : step.candidates.data =
    rows.flatMap fun x => (best p.2 (m.rowLogs dot p.1 x)).map UInt32.ofNat

/-- What all heads saw and chose, one after the other. -/
inductive Records : List (Parameters.Single α π × Nat) → Nat → List (CandidateRow α) →
    List (HeadStep ω) → Prop
  | nil (multiplicity : Nat) (rows : List (CandidateRow α)) : Records [] multiplicity rows []
  | cons {p heads multiplicity rows step steps} (first : m.Record dot p multiplicity rows step)
    (rest : Records heads (multiplicity * p.2) (rows.flatMap (m.children dot p)) steps) :
    Records (p :: heads) multiplicity rows (step :: steps)

end Rows

variable {m : Model α π} {dot : List α → List α → α}

theorem Records.length_eq {heads : List (Parameters.Single α π × Nat)} {multiplicity : Nat}
    {rows : List (CandidateRow α)} {steps : List (HeadStep ω)}
    (h : m.Records dot heads multiplicity rows steps) : steps.length = heads.length := by
  induction h with
  | nil multiplicity rows => rfl
  | cons first rest ih => rw [List.length_cons, List.length_cons, ih]

/-- **The record of each head**: it is about the rows that come out of the heads before it. -/
theorem Records.record {heads : List (Parameters.Single α π × Nat)} {multiplicity : Nat}
    {rows : List (CandidateRow α)} {steps : List (HeadStep ω)}
    (h : m.Records dot heads multiplicity rows steps) :
    ∀ {i : Nat} {p : Parameters.Single α π × Nat} {step : HeadStep ω}, heads[i]? = some p →
      steps[i]? = some step → m.Record dot p (multiplicity * ((heads.take i).map Prod.snd).prod)
        (m.level dot (heads.take i) rows) step := by
  induction h with
  | nil multiplicity rows => intro i p step hp; simp at hp
  | cons first rest ih =>
    intro i p step hp hstep
    cases i with
    | zero =>
      simp only [List.getElem?_cons_zero, Option.some.injEq] at hp hstep
      subst hp hstep
      simpa [level] using first
    | succ i =>
      simp only [List.getElem?_cons_succ] at hp hstep
      have := ih hp hstep
      simp only [List.take_succ_cons, List.map_cons, List.prod_cons, ← Nat.mul_assoc]
      exact this

/-! ### Places of the rows -/

variable {g : Group} {head : Nat} {p : Parameters.Single α π × Nat}
  {heads : List (Parameters.Single α π × Nat)}

theorem length_children (planned : m.Planned g head (p :: heads)) (x : CandidateRow α) :
    (m.children dot p x).length = p.2 := by
  obtain ⟨fits, -, hle⟩ := planned.first
  rw [children, List.length_map, length_best]
  rwa [length_rowLogs fits]

theorem map_fst_children (planned : m.Planned g head (p :: heads)) (x : CandidateRow α) :
    (m.children dot p x).map Prod.fst = List.replicate p.2 (m.nextState dot p.1 x) := by
  have hlen : (m.children dot p x).length = p.2 := length_children planned x
  rw [children, List.length_map] at hlen
  rw [children, List.map_map]
  exact List.map_const'.trans (congrArg (List.replicate · _) hlen)

theorem map_snd_children (p : Parameters.Single α π × Nat) (x : CandidateRow α) :
    (m.children dot p x).map Prod.snd = (best p.2 (m.rowLogs dot p.1 x)).map UInt32.ofNat := by
  rw [children, List.map_map]
  rfl

theorem token_lt_of_mem_children (planned : m.Planned g head (p :: heads)) {x y : CandidateRow α}
    (hy : y ∈ m.children dot p x) : y.2.toNat < m.sizes.vocab := by
  obtain ⟨fits, hpos, hle⟩ := planned.first
  obtain ⟨i, hi, rfl⟩ := List.mem_map.mp hy
  have hlogs : (m.rowLogs dot p.1 x).length = m.sizes.vocab := length_rowLogs fits x
  have hrow : m.rowLogs dot p.1 x ≠ [] := List.ne_nil_of_length_pos (by omega)
  have hlt := mem_best_lt hrow hi
  rw [hlogs] at hlt
  rw [UInt32.toNat_ofNat']
  exact lt_of_le_of_lt (Nat.mod_le _ _) hlt

theorem length_level (dot : List α → List α → α) : ∀ {heads : List (Parameters.Single α π × Nat)}
    {head : Nat} (rows : List (CandidateRow α)), m.Planned g head heads →
      (m.level dot heads rows).length = rows.length * (heads.map Prod.snd).prod
  | [], head, rows, _ => by simp [level]
  | p :: heads, head, rows, planned => by
    have hlen : (rows.flatMap (m.children dot p)).length = rows.length * p.2 :=
      length_flatMap_block fun x _ => length_children planned x
    have ih := length_level dot (rows.flatMap (m.children dot p)) planned.rest
    rw [List.map_cons, List.prod_cons, ← Nat.mul_assoc, ← hlen]
    exact ih

section Lawful

variable [LawfulRanking ω]

theorem children_eq (planned : m.Planned g head (p :: heads)) (x : CandidateRow α) :
    m.children dot p x = (List.range p.2).map (m.childRow dot p.1 x) := by
  obtain ⟨fits, hpos, hle⟩ := planned.first
  have hlogs : (m.rowLogs dot p.1 x).length = m.sizes.vocab := length_rowLogs fits x
  have hrow : (m.rowLogits dot p.1 x).map Element.widen ≠ [] := by
    intro h
    rw [rowLogs, h] at hlogs
    have : 0 = m.sizes.vocab := hlogs
    omega
  refine List.ext_getElem? fun d => ?_
  rw [children, rowLogs, best_eq_take hrow, ← rowLogs, List.getElem?_map, List.getElem?_map,
    List.getElem?_take]
  split_ifs with hd
  · have hlt : d < (ranking (m.rowLogs dot p.1 x)).length := by rw [length_ranking]; omega
    simp [List.getElem?_range hd, childRow, hlt]
  · simp [Nat.not_lt.mp hd]

theorem getElem?_level : ∀ {heads : List (Parameters.Single α π × Nat)} {head : Nat}
    {rows : List (CandidateRow α)} {b : Nat} {x : CandidateRow α} {ds : List Nat},
    m.Planned g head heads → rows[b]? = some x → Ranks (heads.map Prod.snd) ds →
      (m.level dot heads rows)[place b (heads.map Prod.snd) ds]? =
        some (m.descend dot x ((heads.map Prod.fst).zip ds))
  | [], _, _, _, _, _, _, hx, .nil => hx
  | p :: heads, head, rows, b, x, d :: ds, planned, hx, .cons hd hds => by
    have hchild : (rows.flatMap (m.children dot p))[b * p.2 + d]? =
        some (m.childRow dot p.1 x d) := by
      rw [getElem?_flatMap_block (fun y _ => length_children planned y) b d hd, hx,
        Option.bind_some, children_eq planned, List.getElem?_map, List.getElem?_range hd]
      rfl
    have ih := getElem?_level planned.rest hchild hds
    exact ih

end Lawful

end Model

end DraftHeads
