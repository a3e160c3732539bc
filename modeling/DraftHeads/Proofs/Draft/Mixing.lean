import Mathlib.Analysis.SpecialFunctions.Pow.Real
import DraftHeads.Proofs.Draft.CandidateTree
import DraftHeads.Proofs.Draft.Rescaling

/-! # The energy of blends

With `n` heads a state goes through `n` blends, each of which multiplies it by the weight of the
state and adds an embedding multiplied by the other weight. In exact numbers the squares of the
weights that the first state and the embeddings have in the last state sum to one, and the first
state has one half of the sum.

* `MixingWeights.state_pow_sq`, `MixingWeights.embed_sq`: the two weights.
* `MixingWeights.unroll`: the weights after a number of blends; `MixingWeights.sum_sq_weights`:
  their squares.
* `Model.chain`: the blends of the heads of a model with something between them. The states of a run
  are one (`Model.descend_eq_chain`), and `Model.blends` is the one with nothing between them.
* `Model.pending`, `Model.arriving`: states and embeddings as the state projections of the heads to
  come carry them to the last blend. Carried there, they follow the linear recurrence
  (`Model.pending_succ`), and `Model.getD_blends` unrolls it.
* `Model.mixing_energy`: the energy of the blends, and that the heads of a model mix so. -/

namespace DraftHeads

open Finset (range)

/-! ### The weights -/

namespace MixingWeights

/-- The weight of the state after `n` blends: its square is one half. -/
theorem state_pow_sq {n : ℕ} (hn : 0 < n) :
    ((forHeads n : MixingWeights ℝ).state ^ n) ^ 2 = 1 / 2 := by
  have hroot : (forHeads n : MixingWeights ℝ).state ^ n = (2 : ℝ) ^ (-(1 / 2) : ℝ) := by
    change ((2 : ℝ) ^ (-(1 / (2 : ℕ) / n) : ℝ)) ^ n = _
    rw [← Real.rpow_natCast, ← Real.rpow_mul (by norm_num)]
    congr 1
    have : (n : ℝ) ≠ 0 := Nat.cast_ne_zero.mpr hn.ne'
    push_cast
    field_simp
  rw [hroot, ← Real.rpow_natCast, ← Real.rpow_mul (by norm_num)]
  norm_num [Real.rpow_neg_one]

/-- The weight of the embedding: its square is what the square of the other weight lacks. -/
theorem embed_sq (n : ℕ) : (forHeads n : MixingWeights ℝ).embed ^ 2 =
    1 - (forHeads n : MixingWeights ℝ).state ^ 2 := by
  have hle : (forHeads n : MixingWeights ℝ).state ≤ 1 := by
    refine Real.rpow_le_one_of_one_le_of_nonpos (by norm_num) (neg_nonpos.mpr ?_)
    change (0 : ℝ) ≤ 1 / (2 : ℕ) / n
    positivity
  have hpos : 0 ≤ (forHeads n : MixingWeights ℝ).state := Real.rpow_nonneg (by norm_num) _
  change √(1 - (forHeads n : MixingWeights ℝ).state * (forHeads n : MixingWeights ℝ).state) ^ 2 = _
  rw [Real.sq_sqrt (by nlinarith), sq]

/-- **What has become of the first state and of the embeddings** after `n` blends. -/
theorem unroll {V : Type} [AddCommGroup V] [Module ℝ V] (a b : ℝ) (s e : ℕ → V) {n : ℕ}
    (h : ∀ i < n, s (i + 1) = a • s i + b • e i) :
    s n = a ^ n • s 0 + ∑ i ∈ range n, (b * a ^ (n - 1 - i)) • e i := by
  induction n with
  | zero => simp
  | succ n ih =>
    have hsum : a • ∑ i ∈ range n, (b * a ^ (n - 1 - i)) • e i =
        ∑ i ∈ range n, (b * a ^ (n - i)) • e i := by
      rw [Finset.smul_sum]
      refine Finset.sum_congr rfl fun i hi => ?_
      have hexp : n - i = n - 1 - i + 1 := by
        have := Finset.mem_range.mp hi
        omega
      rw [smul_smul, hexp, pow_succ]
      congr 1
      ring
    rw [h n n.lt_succ_self, ih fun i hi => h i (Nat.lt_succ_of_lt hi), smul_add, smul_smul, hsum,
      Finset.sum_range_succ, Nat.add_sub_cancel, Nat.sub_self, pow_zero, mul_one, ← pow_succ',
      add_assoc]

/-- **The squares of the weights of the embeddings** sum to one half. -/
theorem sum_sq_weights {n : ℕ} (hn : 0 < n) :
    ∑ i ∈ range n, ((forHeads n : MixingWeights ℝ).embed *
      (forHeads n : MixingWeights ℝ).state ^ (n - 1 - i)) ^ 2 = 1 / 2 := by
  set w : MixingWeights ℝ := forHeads n with hw
  calc ∑ i ∈ range n, (w.embed * w.state ^ (n - 1 - i)) ^ 2
      = ∑ i ∈ range n, w.embed ^ 2 * (w.state ^ 2) ^ (n - 1 - i) :=
        Finset.sum_congr rfl fun i _ => by ring
    _ = (1 - w.state ^ 2) * ∑ i ∈ range n, (w.state ^ 2) ^ i := by
        rw [← Finset.mul_sum, Finset.sum_range_reflect (fun i => (w.state ^ 2) ^ i), hw, embed_sq]
    _ = 1 - (w.state ^ n) ^ 2 := by rw [mul_neg_geom_sum, pow_right_comm]
    _ = 1 / 2 := by rw [hw, state_pow_sq hn]; norm_num

end MixingWeights

/-! ### Combined rows -/

/-- Two rows, each multiplied by a weight, added. -/
def combine (a b : ℝ) (u v : List ℝ) : List ℝ := List.zipWith (fun p e => a * p + b * e) u v

theorem getD_combine (a b : ℝ) {u v : List ℝ} (h : u.length = v.length) (j : ℕ) :
    (combine a b u v).getD j 0 = a * u.getD j 0 + b * v.getD j 0 := by
  have hlen : (combine a b u v).length = u.length := by
    rw [combine, List.length_zipWith, h, Nat.min_self]
  rcases Nat.lt_or_ge j u.length with hj | hj
  · rw [List.getD_eq_getElem _ _ (hlen.symm ▸ hj), List.getD_eq_getElem _ _ hj,
      List.getD_eq_getElem _ _ (h ▸ hj)]
    exact List.getElem_zipWith
  · have hv : v.length ≤ j := h ▸ hj
    rw [List.getD_eq_default _ _ (hlen.symm ▸ hj), List.getD_eq_default _ _ hj,
      List.getD_eq_default _ _ hv, mul_zero, mul_zero, add_zero]

theorem innerProduct_eq (u v : List ℝ) : innerProduct u v = (List.zipWith (· * ·) u v).sum := by
  have hfold : ∀ (ps : List (ℝ × ℝ)) (acc : ℝ),
      ps.foldl (fun acc p => acc + p.1 * p.2) acc = acc + (ps.map fun p => p.1 * p.2).sum := by
    intro ps
    induction ps with
    | nil => simp
    | cons p ps ih =>
      intro acc
      rw [List.foldl_cons, ih, List.map_cons, List.sum_cons, add_assoc]
  rw [innerProduct, hfold, zero_add, List.map_zip_eq_zipWith]
  rfl

theorem innerProduct_combine (a b : ℝ) : ∀ {u v : List ℝ} (r : List ℝ), u.length = v.length →
    innerProduct (combine a b u v) r = a * innerProduct u r + b * innerProduct v r
  | [], [], r, _ => by simp [combine, innerProduct_eq]
  | p :: u, e :: v, [], _ => by simp [combine, innerProduct_eq]
  | p :: u, e :: v, x :: r, h => by
    have ih := innerProduct_combine a b r (Nat.succ.inj h)
    simp only [innerProduct_eq, combine] at ih ⊢
    simp only [List.zipWith_cons_cons, List.sum_cons, ih]
    ring

namespace Projection

/-- The rows of the weight that a projection multiplies with; a group repeats those of a worker. -/
def weightRows {α : Type} : Projection α → List (List α)
  | .whole weight => weight.rows
  | .column shard => (List.replicate shard.world shard.weight.rows).flatten

theorem row_eq_map {α : Type} (dot : List α → List α → α) (p : Projection α) (x : List α) :
    p.row dot x = p.weightRows.map (dot x) := by
  cases p with
  | whole weight => rfl
  | column shard => rw [row, ColumnShard.row, weightRows, List.map_flatten, List.map_replicate]; rfl

theorem length_row_eq {α : Type} (dot : List α → List α → α) (p : Projection α) (x y : List α) :
    (p.row dot x).length = (p.row dot y).length := by
  rw [row_eq_map, row_eq_map, List.length_map, List.length_map]

theorem row_combine (p : Projection ℝ) (a b : ℝ) {u v : List ℝ} (h : u.length = v.length) :
    p.row innerProduct (combine a b u v) =
      combine a b (p.row innerProduct u) (p.row innerProduct v) := by
  simp only [row_eq_map, combine, List.zipWith_map, List.zipWith_self]
  exact List.map_congr_left fun r _ => innerProduct_combine a b r h

end Projection

theorem Embedding.Fits.length_row_single {vocab hidden : ℕ} {e : Embedding ℝ}
    (h : e.Fits .single vocab hidden) {t : UInt32} (ht : t.toNat < vocab) :
    (e.row t).length = hidden := by
  cases h with
  | whole table single shape => exact Tensor.length_tableRow shape ht
  | vocabulary shard shared world range shape => exact absurd shared (lt_irrefl 1)

/-! ### The chain of the heads -/

namespace Model

section Chain

variable {α ω π : Type} [Element α ω π] (m : Model α π) (dot : List α → List α → α)

/-- The blends of some heads with their tokens, one after the other; `between` is what happens to a
blend before it is the state for the next head. -/
def chain (between : Parameters.Single α π → List α → List α) (x : List α)
    (taken : List (Parameters.Single α π × UInt32)) : List α :=
  taken.foldl (fun s p => between p.1 (m.blendRow dot p.1 (s, p.2))) x

variable [Analytic ω] [Analytic π]

/-- The tokens that a row has when it comes to each of the heads. -/
def tokensOn (x : CandidateRow α) (taken : List (Parameters.Single α π × ℕ)) : List UInt32 :=
  (List.range taken.length).map fun i => (m.descend dot x (taken.take i)).2

/-- **The states of a run are such a chain**: between two blends there are the normaliser of the
head and the activation. -/
theorem descend_eq_chain : ∀ (taken : List (Parameters.Single α π × ℕ)) (x : CandidateRow α),
    (m.descend dot x taken).1 =
      m.chain dot (fun h row => (h.norm.row row).map Element.gelu) x.1
        ((taken.map Prod.fst).zip (m.tokensOn dot x taken))
  | [], _ => rfl
  | p :: taken, x => by
    have htokens : m.tokensOn dot x (p :: taken) =
        x.2 :: m.tokensOn dot (m.childRow dot p.1 x p.2) taken := by
      rw [tokensOn, List.length_cons, List.range_succ_eq_map, List.map_cons, List.map_map]
      rfl
    rw [htokens]
    exact descend_eq_chain taken (m.childRow dot p.1 x p.2)

end Chain

section Linear

variable (m : Model ℝ ℝ)

/-- The blends of some heads with their tokens, with nothing between them. -/
noncomputable def blends (x : List ℝ) (taken : List (Parameters.Single ℝ ℝ × UInt32)) : List ℝ :=
  m.chain innerProduct (fun _ row => row) x taken

/-- The embedding of a token, brought to the size of a state. -/
noncomputable def embedded (p : Parameters.Single ℝ ℝ × UInt32) : List ℝ :=
  (p.1.embedding.row p.2).map (√(m.sizes.inner / (2 : ℕ)) * ·)

/-- A row after the state projections of some heads. -/
noncomputable def carried (heads : List (Parameters.Single ℝ ℝ)) (x : List ℝ) : List ℝ :=
  heads.foldl (fun row h => h.stateProjection.row innerProduct row) x

theorem length_carried (heads : List (Parameters.Single ℝ ℝ)) {u v : List ℝ}
    (h : u.length = v.length) : (carried heads u).length = (carried heads v).length := by
  induction heads generalizing u v with
  | nil => exact h
  | cons head heads ih => exact ih (head.stateProjection.length_row_eq innerProduct u v)

theorem carried_combine (heads : List (Parameters.Single ℝ ℝ)) (a b : ℝ) {u v : List ℝ}
    (h : u.length = v.length) :
    carried heads (combine a b u v) = combine a b (carried heads u) (carried heads v) := by
  induction heads generalizing u v with
  | nil => rfl
  | cons head heads ih =>
    rw [carried, List.foldl_cons, Projection.row_combine _ a b h]
    exact ih (head.stateProjection.length_row_eq innerProduct u v)

variable (x : List ℝ) (taken : List (Parameters.Single ℝ ℝ × UInt32))

/-- The state after some of the blends, as the state projections of the heads to come carry it to
the last blend. -/
noncomputable def pending (i : ℕ) : List ℝ :=
  carried ((taken.drop i).map Prod.fst) (m.blends x (taken.take i))

/-- The embedding for a head, as the state projections of the heads after it carry it to the last
blend. -/
noncomputable def arriving (i : ℕ) : List ℝ :=
  carried ((taken.drop (i + 1)).map Prod.fst) ((taken.map m.embedded).getD i [])

theorem pending_zero : m.pending x taken 0 = carried (taken.map Prod.fst) x := rfl

theorem pending_length : m.pending x taken taken.length = m.blends x taken := by
  rw [pending, List.drop_length, List.take_length]
  rfl

variable {m} {x taken}

theorem blendRow_eq {w : MixingWeights ℝ} (hmixing : m.mixing = w)
    (hscale : m.embedScale = w.embedScale m.sizes.inner) (h : Parameters.Single ℝ ℝ) (s : List ℝ)
    (t : UInt32) : m.blendRow innerProduct h (s, t) =
      combine w.state w.embed (h.stateProjection.row innerProduct s) (m.embedded (h, t)) := by
  have hentry : ∀ p e : ℝ, scaleBy m.mixing.state p + scaleBy m.embedScale e =
      w.state * p + w.embed * (√(m.sizes.inner / (2 : ℕ)) * e) := fun p e => by
    rw [hmixing, hscale]
    change p * w.state + 0 + (e * (w.embed * √(m.sizes.inner / (2 : ℕ))) + 0) = _
    ring
  rw [blendRow, combine, embedded, List.zipWith_map_right]
  simp only [hentry]

theorem length_embedded {head : ℕ} {h : Parameters.Single ℝ ℝ} (fits : h.Fits .single m.sizes head)
    {t : UInt32} (ht : t.toNat < m.sizes.vocab) (s : List ℝ) :
    (h.stateProjection.row innerProduct s).length = (m.embedded (h, t)).length := by
  rw [fits.stateProjection.length_row, embedded, List.length_map,
    fits.embedding.length_row_single ht]

/-- One more blend is the linear blend of what is carried to the end. -/
theorem pending_succ {w : MixingWeights ℝ} (hmixing : m.mixing = w)
    (hscale : m.embedScale = w.embedScale m.sizes.inner)
    (hlen : ∀ p ∈ taken, ∀ s,
      (p.1.stateProjection.row innerProduct s).length = (m.embedded p).length)
    {i : ℕ} (hi : i < taken.length) : m.pending x taken (i + 1) =
      combine w.state w.embed (m.pending x taken i) (m.arriving taken i) ∧
        (m.pending x taken i).length = (m.arriving taken i).length := by
  have hblend : m.blends x (taken.take (i + 1)) =
      m.blendRow innerProduct taken[i].1 (m.blends x (taken.take i), taken[i].2) := by
    rw [blends, chain, ← List.take_concat_get' _ _ hi, List.foldl_append]
    rfl
  have hembedded : (taken.map m.embedded).getD i [] = m.embedded taken[i] := by
    rw [List.getD_eq_getElem _ _ (by rwa [List.length_map]), List.getElem_map]
  have hpending : m.pending x taken i = carried ((taken.drop (i + 1)).map Prod.fst)
      (taken[i].1.stateProjection.row innerProduct (m.blends x (taken.take i))) := by
    rw [pending, List.drop_eq_getElem_cons hi]
    rfl
  have heq := hlen _ (List.getElem_mem hi) (m.blends x (taken.take i))
  rw [hpending, arriving, hembedded, pending, hblend, blendRow_eq hmixing hscale]
  exact ⟨carried_combine _ _ _ heq, length_carried _ heq⟩

/-- **What has become of the first state and of the embeddings** after the blends of all heads. -/
theorem getD_blends {w : MixingWeights ℝ} (hmixing : m.mixing = w)
    (hscale : m.embedScale = w.embedScale m.sizes.inner)
    (hlen : ∀ p ∈ taken, ∀ s,
      (p.1.stateProjection.row innerProduct s).length = (m.embedded p).length) (j : ℕ) :
    (m.blends x taken).getD j 0 =
      w.state ^ taken.length * (carried (taken.map Prod.fst) x).getD j 0 +
        ∑ i ∈ range taken.length,
          w.embed * w.state ^ (taken.length - 1 - i) * (m.arriving taken i).getD j 0 := by
  have hstep : ∀ i < taken.length, (m.pending x taken (i + 1)).getD j 0 =
      w.state • (m.pending x taken i).getD j 0 + w.embed • (m.arriving taken i).getD j 0 :=
    fun i hi => by
      obtain ⟨hsucc, heq⟩ := pending_succ hmixing hscale hlen hi
      rw [hsucc, getD_combine _ _ heq, smul_eq_mul, smul_eq_mul]
  have hall := MixingWeights.unroll w.state w.embed (fun i => (m.pending x taken i).getD j 0)
    (fun i => (m.arriving taken i).getD j 0) hstep
  simpa only [pending_zero, pending_length, smul_eq_mul] using hall

end Linear

/-- **How a model mixes** with the weights of `n` heads. -/
structure Mixes (m : Model ℝ ℝ) (vocab n : ℕ) : Prop where
  /-- A state goes through `n` blends. -/
  count : m.singles.length = n
  /-- In a run there are a normaliser and the activation between two of them. -/
  run : ∀ (x : CandidateRow ℝ) (ds : List ℕ), ds.length = n →
    (m.descend innerProduct x (m.singles.zip ds)).1 =
      m.chain innerProduct (fun h row => (h.norm.row row).map Element.gelu) x.1
        (m.singles.zip (m.tokensOn innerProduct x (m.singles.zip ds)))
  /-- The blends alone give the first state and the embeddings the weights of `n` heads. -/
  weights : ∀ (x : List ℝ) (ts : List UInt32), ts.length = n → (∀ t ∈ ts, t.toNat < vocab) →
    ∀ j, (m.blends x (m.singles.zip ts)).getD j 0 =
      (MixingWeights.forHeads n).state ^ n * (carried m.singles x).getD j 0 +
        ∑ i ∈ range n, (MixingWeights.forHeads n).embed *
          (MixingWeights.forHeads n).state ^ (n - 1 - i) *
            (m.arriving (m.singles.zip ts) i).getD j 0

theorem mixes_of_build {c : Config} {policy : Policy ℝ} {read : Reader ℝ} {m : Model ℝ ℝ}
    (lawful : read.Lawful) (hbuild : build c policy read .single = .ok m) :
    m.Mixes c.vocabSize (policy.headCount c) := by
  have wired := build_wired lawful hbuild
  have hcount : m.singles.length = policy.headCount c :=
    wired.length_singles.trans (heads_of_build hbuild)
  have hsizes : m.sizes = sizesOf c := sizes_of_build hbuild
  have hfst : ∀ {β : Type} {l : List β}, l.length = policy.headCount c →
      (m.singles.zip l).map Prod.fst = m.singles :=
    fun hl => List.map_fst_zip (by rw [hl, hcount])
  refine ⟨hcount, fun x ds hds => ?_, fun x ts hts htokens j => ?_⟩
  · rw [descend_eq_chain, hfst hds]
  · have hlength : (m.singles.zip ts).length = policy.headCount c := by
      rw [List.length_zip, hcount, hts, Nat.min_self]
    have hlen : ∀ p ∈ m.singles.zip ts, ∀ s,
        (p.1.stateProjection.row innerProduct s).length = (m.embedded p).length := by
      intro p hp s
      obtain ⟨i, hi, hget⟩ := List.getElem_of_mem hp
      obtain ⟨hsingle, htoken⟩ := List.getElem?_zip_eq_some.mp
        ((List.getElem?_eq_getElem hi).trans (congrArg some hget))
      exact length_embedded (wired.fits i p.1 hsingle)
        (hsizes ▸ htokens p.2 (List.mem_of_getElem? htoken)) s
    obtain ⟨-, -, p, -, rfl⟩ := build_eq_ok_iff.mp hbuild
    have hall := getD_blends (m := _) (x := x) rfl rfl hlen j
    rwa [hlength, hfst hts] at hall

/-- **The energy of blends.** With `n` heads, `s (i + 1) = state * s i + embed * e i` gives `s 0`
the weight `state ^ n` in `s n`, and `e i` the weight `embed * state ^ (n - 1 - i)`. The squares of
these weights sum to one; the first state has one half, and the embeddings have the other. The heads
of a model that is built mix in this way. -/
theorem mixing_energy {n : ℕ} (hn : 0 < n) :
    let w : MixingWeights ℝ := .forHeads n
    (∀ {V : Type} [AddCommGroup V] [Module ℝ V] (s e : ℕ → V),
      (∀ i < n, s (i + 1) = w.state • s i + w.embed • e i) →
        s n = w.state ^ n • s 0 + ∑ i ∈ range n, (w.embed * w.state ^ (n - 1 - i)) • e i) ∧
    (w.state ^ n) ^ 2 + ∑ i ∈ range n, (w.embed * w.state ^ (n - 1 - i)) ^ 2 = 1 ∧
    (w.state ^ n) ^ 2 = 1 / 2 ∧
    ∑ i ∈ range n, (w.embed * w.state ^ (n - 1 - i)) ^ 2 = 1 / 2 ∧
    ∀ {c : Config} {policy : Policy ℝ} {read : Reader ℝ} {m : Model ℝ ℝ}, read.Lawful →
      build c policy read .single = .ok m → policy.headCount c = n → m.Mixes c.vocabSize n := by
  intro w
  have hstate : (w.state ^ n) ^ 2 = 1 / 2 := MixingWeights.state_pow_sq hn
  have hembeds : ∑ i ∈ range n, (w.embed * w.state ^ (n - 1 - i)) ^ 2 = 1 / 2 :=
    MixingWeights.sum_sq_weights hn
  refine ⟨fun s e h => MixingWeights.unroll w.state w.embed s e h, ?_, hstate, hembeds, ?_⟩
  · rw [hstate, hembeds]
    norm_num
  · rintro c policy read m lawful hbuild rfl
    exact mixes_of_build lawful hbuild

/-- Three heads, with the state five and the embeddings one, two and three, and a model with three
heads. -/
theorem mixing_energy_three :
    let w : MixingWeights ℝ := .forHeads 3
    w.state * (w.state * (w.state * 5 + w.embed * 1) + w.embed * 2) + w.embed * 3 =
      w.state ^ 3 * 5 + ∑ i ∈ range 3, w.embed * w.state ^ (3 - 1 - i) * (i + 1) ∧
    (w.state ^ 3) ^ 2 = 1 / 2 ∧
    ∑ i ∈ range 3, (w.embed * w.state ^ (3 - 1 - i)) ^ 2 = 1 / 2 ∧
    ∃ m : Model ℝ ℝ,
      build (.mk 4 3 2 3 false true []) ⟨none, none, 0, 1⟩ counting .single = .ok m ∧
        m.Mixes 4 3 := by
  intro w
  obtain ⟨hunroll, -, hstate, hembeds, hmodels⟩ := mixing_energy (n := 3) (by decide)
  obtain ⟨m, hm⟩ : ∃ m, build (.mk 4 3 2 3 false true []) ⟨none, none, 0, (1 : ℝ)⟩ counting
      .single = .ok m := exists_build_counting rfl (by decide)
  have hblends := hunroll
    (fun i => Nat.rec (5 : ℝ) (fun i s => w.state • s + w.embed • ((i : ℝ) + 1)) i)
    (fun i => (i : ℝ) + 1) fun i _ => rfl
  have hthree : w.state * (w.state * (w.state * 5 + w.embed * 1) + w.embed * 2) + w.embed * 3 =
      w.state * (w.state * (w.state * 5 + w.embed * ((0 : ℕ) + 1)) + w.embed * ((1 : ℕ) + 1)) +
        w.embed * ((2 : ℕ) + 1) := by norm_num
  exact ⟨hthree.trans hblends, hstate, hembeds, m, hm, hmodels lawful_counting hm rfl⟩

end Model

end DraftHeads
