import DraftHeads.Proofs.Number.Elementary
import DraftHeads.Proofs.Number.Rounding
import Mathlib.Algebra.Order.Floor.Semifield
import Mathlib.Data.Rat.Floor
import Mathlib.Tactic.Linarith

/-! # The exponential keeps the order

The exponential of a larger number is not smaller, but it may be the same: two numbers that are next
to each other may have one exponential.

* `Datum.Le`: the order of data.
* `Elementary.exp_le`: exponentials of data are in order.
* `datum_le`: the data of single precision numbers are in their order.
* `key_exp`, `exp_less_or_eq`: exponentials of single precision numbers. -/

namespace DraftHeads.Number

open Float.Model (UnpackedFloat)
open Float.Model.UnpackedFloat

/-! ### The order of data -/

/-- The number `± m · 2^e`. -/
def signedValue (negative : Bool) (m : Nat) (e : Int) : ℚ :=
  if negative then -(m * 2 ^ e) else m * 2 ^ e

/-- The order of data that are numbers or infinities. -/
inductive Datum.Le : Datum → Datum → Prop
  | least (d : Datum) (h : ∀ s, d ≠ .nan s) : Le (.infinite true) d
  | greatest (d : Datum) (h : ∀ s, d ≠ .nan s) : Le d (.infinite false)
  | finite {s s' : Bool} {m m' : Nat} {e e' : Int}
    (h : signedValue s m e ≤ signedValue s' m' e') : Le (.finite s m e) (.finite s' m' e')

theorem Datum.NonNeg.ne_nan {d : Datum} (h : d.NonNeg) (s : Bool) : d ≠ .nan s := by
  cases h <;> exact Datum.noConfusion

theorem Datum.NonNeg.le_infinite {d : Datum} (h : d.NonNeg) : d.Le (.infinite false) :=
  .greatest d h.ne_nan

/-- **Words are in the order of the data** that they are nearest to. -/
theorem encode_mono {d d' : Datum} (hd : d.NonNeg) (hd' : d'.NonNeg) (h : d.Le d') :
    Format.single.encode d ≤ Format.single.encode d' := by
  cases h with
  | least d h => cases hd
  | greatest d h => exact encode_le hd
  | finite h =>
    cases hd
    cases hd'
    exact Format.single.nearest_mono h

/-! ### Exponentials in fixed point -/

namespace Elementary

theorem le_sumSeries {step : Nat → Int → Int} (hstep : ∀ k t, 0 ≤ t → 0 ≤ step k t) :
    ∀ (n k : Nat) {term acc : Int}, 0 ≤ term → acc ≤ sumSeries step n k term acc
  | 0, _, _, _, _ => le_rfl
  | n + 1, k, term, acc, hterm => by
    rw [sumSeries]
    split_ifs
    · exact le_rfl
    · exact le_trans (by omega) (le_sumSeries hstep n (k + 1) (hstep k term hterm))

theorem sumSeries_mono {step step' : Nat → Int → Int} (hstep : ∀ k t, 0 ≤ t → 0 ≤ step k t)
    (hle : ∀ k t t', 0 ≤ t → t ≤ t' → step k t ≤ step' k t') :
    ∀ (n k : Nat) {term term' acc acc' : Int}, 0 ≤ term → term ≤ term' → acc ≤ acc' →
      sumSeries step n k term acc ≤ sumSeries step' n k term' acc'
  | 0, _, _, _, _, _, _, _, hacc => hacc
  | n + 1, k, term, term', acc, acc', hterm, hle', hacc => by
    have hstep' : ∀ k t, 0 ≤ t → 0 ≤ step' k t := fun k t ht =>
      (hstep k t ht).trans (hle k t t ht le_rfl)
    rw [sumSeries, sumSeries]
    split_ifs with h h'
    · exact hacc
    · -- the smaller terms have vanished
      exact le_trans (by omega)
        (le_sumSeries hstep' n (k + 1) (hstep' k term' (hterm.trans hle')))
    · omega
    · exact sumSeries_mono hstep hle n (k + 1) (hstep k term hterm) (hle k term term' hterm hle')
        (by omega)

/-- The exponential series. -/
def expSeries (r : Int) : Int :=
  sumSeries (fun n t => t * r / unit / (n + 1)) (2 * scale) 0 unit 0

theorem expStep_nonneg {r : Int} (hr : 0 ≤ r) (k : Nat) (t : Int) (ht : 0 ≤ t) :
    0 ≤ t * r / unit / (k + 1) :=
  Int.ediv_nonneg (Int.ediv_nonneg (Int.mul_nonneg ht hr) unit_pos.le) (by omega)

theorem expSeries_mono {r r' : Int} (hr : 0 ≤ r) (h : r ≤ r') : expSeries r ≤ expSeries r' := by
  refine sumSeries_mono (expStep_nonneg hr) (fun k t t' ht htt => ?_) _ _ unit_pos.le le_rfl le_rfl
  refine Int.ediv_le_ediv (by omega) (Int.ediv_le_ediv unit_pos ?_)
  exact mul_le_mul htt h hr (ht.trans htt)

theorem unit_le_expSeries {r : Int} (hr : 0 ≤ r) : unit ≤ expSeries r := by
  have hfirst : expSeries r = sumSeries (fun n t => t * r / unit / (n + 1)) 511 1
      (unit * r / unit / ((0 : Nat) + 1)) (0 + unit) := by
    rw [expSeries, show 2 * scale = 511 + 1 from rfl, sumSeries, if_neg unit_pos.ne']
  rw [hfirst, zero_add]
  exact le_sumSeries (expStep_nonneg hr) _ _ (expStep_nonneg hr 0 unit unit_pos.le)

/-- The exponential of the logarithm of two is not above two, so that the next power of two goes on
where the series ends. -/
theorem expSeries_ln2 : expSeries ln2 ≤ 2 * unit := by decide +kernel

theorem ofFixed_eq {x : Int} (hx : 0 ≤ x) (e : Int) :
    ofFixed x e = .finite false x.natAbs (e - scale) := by
  rw [ofFixed, decide_eq_false (by omega)]

theorem signedValue_ofFixed {x : Int} (hx : 0 ≤ x) (e : Int) :
    signedValue false x.natAbs (e - scale) = x * 2 ^ (e - scale) := by
  have hcast : ((x.natAbs : Nat) : ℚ) = x := by
    rw [Nat.cast_natAbs, abs_of_nonneg hx]
  rw [signedValue, hcast]
  rfl

theorem ofFixed_le {x y e e' : Int} (hx : 0 ≤ x) (hy : 0 ≤ y)
    (h : (x : ℚ) * 2 ^ (e - scale) ≤ y * 2 ^ (e' - scale)) : (ofFixed x e).Le (ofFixed y e') := by
  rw [ofFixed_eq hx, ofFixed_eq hy]
  refine .finite ?_
  rwa [signedValue_ofFixed hx, signedValue_ofFixed hy]

theorem expFixed_eq (r k : Int) : expFixed r k = ofFixed (expSeries r) k := rfl

theorem expFixed_le {r r' k k' : Int} (hr : 0 ≤ r) (hr' : 0 ≤ r') (hr2 : r ≤ ln2)
    (h : k < k' ∨ k = k' ∧ r ≤ r') : (expFixed r k).Le (expFixed r' k') := by
  have hpos := unit_pos.le.trans (unit_le_expSeries hr)
  have hpos' := unit_pos.le.trans (unit_le_expSeries hr')
  rw [expFixed_eq, expFixed_eq]
  refine ofFixed_le hpos hpos' ?_
  rcases h with h | ⟨rfl, h⟩
  · have hupper : expSeries r ≤ 2 * unit := (expSeries_mono hr hr2).trans expSeries_ln2
    have hlower := unit_le_expSeries hr'
    calc (expSeries r : ℚ) * 2 ^ (k - scale) ≤ (2 * unit : Int) * 2 ^ (k - scale) := by
          gcongr
      _ = unit * 2 ^ (k + 1 - scale) := by
          rw [show k + 1 - (scale : Int) = 1 + (k - scale) by ring, zpow_add₀ (by norm_num)]
          push_cast
          ring
      _ ≤ unit * 2 ^ (k' - scale) := by
          gcongr
          · norm_num
          · omega
      _ ≤ expSeries r' * 2 ^ (k' - scale) := by
          gcongr
          exact_mod_cast hlower
  · gcongr
    exact_mod_cast expSeries_mono hr h

theorem tiny_le_expFixed {r k : Int} (hr : 0 ≤ r) (hk : -2 * expBound ≤ k) :
    (Datum.finite false 1 (-2 * expBound)).Le (expFixed r k) := by
  have hlower := unit_le_expSeries hr
  rw [expFixed_eq, ofFixed_eq (unit_pos.le.trans hlower)]
  refine .finite ?_
  rw [signedValue_ofFixed (unit_pos.le.trans hlower), signedValue]
  have hunit : (unit : ℚ) = 2 ^ (scale : Int) := by
    rw [unit, Nat.shiftLeft_eq, one_mul, zpow_natCast]
    push_cast
    rfl
  calc ((1 : Nat) : ℚ) * 2 ^ (-2 * expBound) ≤ 2 ^ k := by
        rw [Nat.cast_one, one_mul]
        exact zpow_le_zpow_right₀ (by norm_num) hk
    _ = unit * 2 ^ (k - scale) := by
        rw [hunit, ← zpow_add₀ (by norm_num)]
        congr 1
        ring
    _ ≤ expSeries r * 2 ^ (k - scale) := by
        gcongr
        exact_mod_cast hlower

theorem le_ediv_ln2 {x : Int} (h : -expBound * unit ≤ x) : -2 * expBound ≤ x / ln2 := by
  have hln2 := ln2_ge
  have hunit : (unit : Int) = 2 * 2 ^ 255 := by decide +kernel
  rw [Int.le_ediv_iff_mul_le (by omega)]
  have hbound : expBound = 4096 := rfl
  rw [hbound] at h ⊢
  rw [hunit] at h
  omega

/-- **Exponentials of fixed point numbers** are in their order. -/
theorem expOfFixed_le {x y : Int} (h : x ≤ y) : (expOfFixed x).Le (expOfFixed y) := by
  have hx := expOfFixed_nonNeg x
  have hln2 : 0 < ln2 := lt_of_lt_of_le (by norm_num) ln2_ge
  have hrest : ∀ z : Int, 0 ≤ z % ln2 := fun z => Int.emod_nonneg z hln2.ne'
  by_cases hyhigh : expBound * unit < y
  · rw [show expOfFixed y = .infinite false by rw [expOfFixed, if_pos hyhigh]]
    exact hx.le_infinite
  have hxhigh : ¬ expBound * unit < x := fun hlt => hyhigh (hlt.trans_le h)
  unfold expOfFixed
  rw [if_neg hxhigh, if_neg hyhigh]
  by_cases hylow : y < -expBound * unit
  · rw [if_pos hylow, if_pos (h.trans_lt hylow)]
    exact .finite le_rfl
  rw [if_neg hylow]
  split_ifs with hxlow
  · exact tiny_le_expFixed (hrest y) (le_ediv_ln2 (not_lt.mp hylow))
  · refine expFixed_le (hrest x) (hrest y) (Int.emod_lt_of_pos x hln2).le ?_
    rcases (Int.ediv_le_ediv hln2 h).lt_or_eq with hlt | heq
    · exact .inl hlt
    · have hx := Int.emod_add_mul_ediv x ln2
      have hy := Int.emod_add_mul_ediv y ln2
      rw [heq] at hx
      exact .inr ⟨heq, by omega⟩

/-! ### Exponentials of data -/

theorem fixed_false (m : Nat) (e : Int) : fixed false m e = ⌊(m : ℚ) * 2 ^ (e + scale)⌋₊ := by
  rw [fixed]
  simp only [Bool.false_eq_true, if_false]
  congr 1
  split_ifs with h
  · have hshift : e + scale = ((e + scale).toNat : Int) := (Int.toNat_of_nonneg h).symm
    rw [Nat.shiftLeft_eq, hshift, zpow_natCast, Int.toNat_natCast]
    exact_mod_cast (Nat.floor_natCast (R := ℚ) (m * 2 ^ (e + scale).toNat)).symm
  · have hshift : e + scale = -((-(e + scale)).toNat : Int) := by omega
    rw [Nat.shiftRight_eq_div_pow, ← Nat.floor_div_eq_div (K := ℚ)]
    congr 1
    rw [hshift, zpow_neg, zpow_natCast, div_eq_mul_inv]
    push_cast
    rw [neg_neg, Int.toNat_natCast]

theorem fixed_true (m : Nat) (e : Int) : fixed true m e = -fixed false m e := rfl

theorem fixed_false_nonneg (m : Nat) (e : Int) : 0 ≤ fixed false m e := by
  rw [fixed_false]
  exact Int.natCast_nonneg _

theorem fixed_false_le {m m' : Nat} {e e' : Int} (h : (m : ℚ) * 2 ^ e ≤ m' * 2 ^ e') :
    fixed false m e ≤ fixed false m' e' := by
  rw [fixed_false, fixed_false]
  refine Int.ofNat_le.mpr (Nat.floor_mono ?_)
  rw [zpow_add₀ (by norm_num), zpow_add₀ (by norm_num), ← mul_assoc, ← mul_assoc]
  exact mul_le_mul_of_nonneg_right h (by positivity)

theorem fixed_false_nonpos {m : Nat} {e : Int} (h : (m : ℚ) * 2 ^ e ≤ 0) : fixed false m e ≤ 0 := by
  have hzero : (m : ℚ) * 2 ^ e ≤ (0 : Nat) * 2 ^ (0 : Int) := by rwa [Nat.cast_zero, zero_mul]
  exact fixed_false_le hzero

theorem fixed_le {s s' : Bool} {m m' : Nat} {e e' : Int}
    (h : signedValue s m e ≤ signedValue s' m' e') : fixed s m e ≤ fixed s' m' e' := by
  have hvalue : ∀ (m : Nat) (e : Int), (0 : ℚ) ≤ m * 2 ^ e := fun m e => by positivity
  cases s <;> cases s' <;> simp only [signedValue, Bool.false_eq_true, if_false, if_true] at h
  · exact fixed_false_le h
  · -- then both magnitudes vanish
    have hpos := hvalue m e
    have hpos' := hvalue m' e'
    have hzero : fixed false m e ≤ 0 := fixed_false_nonpos (by linarith)
    have hzero' : fixed false m' e' ≤ 0 := fixed_false_nonpos (by linarith)
    rw [fixed_true]
    omega
  · rw [fixed_true]
    have h₁ := fixed_false_nonneg m e
    have h₂ := fixed_false_nonneg m' e'
    omega
  · rw [fixed_true, fixed_true]
    exact neg_le_neg (fixed_false_le (neg_le_neg_iff.mp h))

theorem large_iff (m : Nat) (e : Int) (bits : Nat) :
    large m e bits = true ↔ (2 : ℚ) ^ bits ≤ m * 2 ^ e := by
  rw [large, Bool.and_eq_true, bne_iff_ne, decide_eq_true_iff]
  constructor
  · rintro ⟨hm, h⟩
    refine le_trans ?_ (two_zpow_le hm e)
    rw [← zpow_natCast]
    exact zpow_le_zpow_right₀ (by norm_num) h
  · intro h
    have hm : m ≠ 0 := by
      rintro rfl
      have : (0 : ℚ) < 2 ^ bits := by positivity
      simp only [Nat.cast_zero, zero_mul] at h
      linarith
    refine ⟨hm, ?_⟩
    have hlt := h.trans_lt (lt_two_zpow m e)
    rw [← zpow_natCast] at hlt
    have := (zpow_lt_zpow_iff_right₀ (by norm_num : (1 : ℚ) < 2)).mp hlt
    omega

theorem tiny_le_expOfFixed (x : Int) :
    (Datum.finite false 1 (-2 * expBound)).Le (expOfFixed x) := by
  by_cases hlow : x < -expBound * unit
  · have hhigh : ¬ expBound * unit < x := by
      have hunit := unit_pos
      have hbound : expBound = 4096 := rfl
      rw [hbound] at hlow ⊢
      omega
    rw [expOfFixed, if_neg hhigh, if_pos hlow]
    exact .finite le_rfl
  · rw [expOfFixed, if_neg hlow]
    split_ifs with hhigh
    · exact (Datum.NonNeg.finite _ _).le_infinite
    · have hln2 : ln2 ≠ 0 := (lt_of_lt_of_le (by norm_num) ln2_ge).ne'
      exact tiny_le_expFixed (Int.emod_nonneg x hln2) (le_ediv_ln2 (not_lt.mp hlow))

theorem exp_le {d d' : Datum} (h : d.Le d') : (exp d).Le (exp d') := by
  cases h with
  | least _ hd' =>
    have hexp := exp_nonNeg hd'
    change (Datum.finite false 0 0).Le (exp d')
    generalize exp d' = y at hexp
    cases hexp with
    | infinite => exact (Datum.NonNeg.finite 0 0).le_infinite
    | finite m e =>
      refine .finite ?_
      simp only [signedValue, Bool.false_eq_true, if_false, Nat.cast_zero, zero_mul]
      positivity
  | greatest _ hd => exact (exp_nonNeg hd).le_infinite
  | @finite s s' m m' e e' h =>
    have hpos : (0 : ℚ) ≤ m * 2 ^ e := by positivity
    have hpos' : (0 : ℚ) ≤ m' * 2 ^ e' := by positivity
    have hfixed := fixed_le h
    unfold signedValue at h
    rw [exp, exp]
    by_cases hlarge : large m e 16 = true <;> by_cases hlarge' : large m' e' 16 = true
    · rw [if_pos hlarge, if_pos hlarge']
      rw [large_iff] at hlarge hlarge'
      cases s <;> cases s' <;> simp only [Bool.false_eq_true, if_false, if_true] at h ⊢
      · exact Datum.NonNeg.infinite.le_infinite
      · linarith
      · exact (Datum.NonNeg.finite _ _).le_infinite
      · exact .finite le_rfl
    · rw [if_pos hlarge, if_neg hlarge']
      rw [large_iff] at hlarge hlarge'
      cases s
      · -- the smaller one would be above the larger one
        exfalso
        simp only [Bool.false_eq_true, if_false] at h
        split_ifs at h <;> linarith
      · exact tiny_le_expOfFixed _
    · rw [if_neg hlarge, if_pos hlarge']
      rw [large_iff] at hlarge hlarge'
      cases s'
      · exact (expOfFixed_nonNeg _).le_infinite
      · exfalso
        simp only [if_true] at h
        split_ifs at h <;> linarith
    · rw [if_neg hlarge, if_neg hlarge']
      exact expOfFixed_le hfixed

end Elementary

/-! ### Single precision numbers -/

/-- A significand with 24 bits, or with fewer if the exponent is the least one. -/
structure Full (m : Nat) (e : Int) : Prop where
  least_le : -149 ≤ e
  lt : m < 2 ^ 24
  full : e = -149 ∨ 2 ^ 23 ≤ m

theorem exists_datum_eq {u : UnpackedFloat} (hu : Canonical u) (hnan : u ≠ .notANumber)
    (hinf : ∀ s, u ≠ .infinity s) : ∃ s m e, Full m e ∧ datum u = .finite (isNegative s) m e ∧
      key u = s.apply ((e + 149) * 2 ^ 23 + m) := by
  cases u with
  | notANumber => exact absurd rfl hnan
  | infinity s => exact absurd rfl (hinf s)
  | zero s => exact ⟨s, 0, -149, ⟨le_rfl, by norm_num, .inl rfl⟩, rfl, by cases s <;> rfl⟩
  | finite s m e hm =>
    obtain ⟨he, hlt, hfull⟩ := hu
    exact ⟨s, m, e, ⟨he, hlt, hfull⟩, rfl, rfl⟩

theorem magnitude_le {m m' : Nat} {e e' : Int} (h : Full m e) (h' : Full m' e')
    (hle : (e + 149) * 2 ^ 23 + (m : Int) ≤ (e' + 149) * 2 ^ 23 + m') :
    (m : ℚ) * 2 ^ e ≤ m' * 2 ^ e' := by
  obtain ⟨he, hlt, hfull⟩ := h
  obtain ⟨he', hlt', hfull'⟩ := h'
  rcases lt_trichotomy e e' with hee | rfl | hee
  · -- the smaller one ends below the first significand of the next exponent
    have hm : (m : ℚ) ≤ 2 ^ 24 := by exact_mod_cast hlt.le
    have hm' : (2 : ℚ) ^ 23 ≤ m' := by
      have : 2 ^ 23 ≤ m' := hfull'.resolve_left (by omega)
      exact_mod_cast this
    calc (m : ℚ) * 2 ^ e ≤ 2 ^ 24 * 2 ^ e := by gcongr
      _ = 2 ^ 23 * 2 ^ (e + 1) := by
        rw [zpow_add₀ (by norm_num)]
        ring
      _ ≤ m' * 2 ^ e' := by
        gcongr
        · norm_num
        · omega
  · have hm : m ≤ m' := by omega
    gcongr
  · have hm : 2 ^ 23 ≤ m := hfull.resolve_left (by omega)
    omega

theorem signedValue_le {s s' : Sign} {m m' : Nat} {e e' : Int} (h : Full m e) (h' : Full m' e')
    (hle : s.apply ((e + 149) * 2 ^ 23 + m) ≤ s'.apply ((e' + 149) * 2 ^ 23 + m')) :
    signedValue (isNegative s) m e ≤ signedValue (isNegative s') m' e' := by
  have hvalue : (0 : ℚ) ≤ m * 2 ^ e := by positivity
  have hvalue' : (0 : ℚ) ≤ m' * 2 ^ e' := by positivity
  have hleast := h.least_le
  have hleast' := h'.least_le
  cases s <;> cases s' <;>
    simp only [signedValue, isNegative, Sign.apply, Bool.false_eq_true, if_false, if_true]
      at hle ⊢
  · exact neg_le_neg (magnitude_le h' h (neg_le_neg_iff.mp hle))
  · linarith
  · -- both are zero
    have hm : m = 0 := by omega
    have hm' : m' = 0 := by omega
    simp [hm, hm']
  · exact magnitude_le h h' hle

theorem key_bounds {w : UnpackedFloat} (hw : Canonical w) (hw' : InRange w)
    (hinf : ∀ s, w ≠ .infinity s) : -(255 * 2 ^ 23) < key w ∧ key w < 255 * 2 ^ 23 := by
  cases w with
  | notANumber => decide
  | infinity s => exact absurd rfl (hinf s)
  | zero s => cases s <;> decide
  | finite s m e hm =>
    obtain ⟨hkey, hpos, hlt⟩ := key_finite s hw hw'
    rw [hkey]
    cases s <;> simp only [Sign.apply] <;> omega

theorem datum_le {u v : UnpackedFloat} (hu : Canonical u) (hv : Canonical v) (hu' : InRange u)
    (hv' : InRange v) (hnu : u ≠ .notANumber) (hnv : v ≠ .notANumber) (h : key u ≤ key v) :
    (datum u).Le (datum v) := by
  by_cases hinf : ∃ s, u = .infinity s
  · obtain ⟨s, rfl⟩ := hinf
    cases s with
    | negative => exact .least _ (datum_ne_nan hnv)
    | positive =>
      rw [key_infinity] at h
      by_cases hinf' : ∃ t, v = .infinity t
      · obtain ⟨t, rfl⟩ := hinf'
        cases t with
        | positive => exact .greatest _ (datum_ne_nan hnu)
        | negative => exact absurd h (by decide)
      · have hlt := (key_bounds hv hv' fun t ht => hinf' ⟨t, ht⟩).2
        exact absurd (h.trans_lt hlt) (lt_irrefl _)
  · have hlt := (key_bounds hu hu' fun s hs => hinf ⟨s, hs⟩).1
    by_cases hinf' : ∃ t, v = .infinity t
    · obtain ⟨t, rfl⟩ := hinf'
      cases t with
      | positive => exact .greatest _ (datum_ne_nan hnu)
      | negative =>
        rw [key_infinity] at h
        exact absurd (hlt.trans_le h) (lt_irrefl _)
    · obtain ⟨s, m, e, hfull, hdatum, hkey⟩ := exists_datum_eq hu hnu fun s hs => hinf ⟨s, hs⟩
      obtain ⟨s', m', e', hfull', hdatum', hkey'⟩ :=
        exists_datum_eq hv hnv fun s hs => hinf' ⟨s, hs⟩
      rw [hkey, hkey'] at h
      rw [hdatum, hdatum']
      exact .finite (signedValue_le hfull hfull' h)

/-- **The place of the number nearest to a datum** that is not negative is its word. -/
theorem key_singleOfDatum {d : Datum} (h : d.NonNeg) :
    key (unpacked (singleOfDatum d)) = Format.single.encode d := by
  have hle := encode_le h
  have hnumber := nonNeg_singleOfDatum h
  rw [singleOfDatum, unpacked_ofBits (by omega)] at hnumber ⊢
  have hfraction : Format.single.encode d % 2 ^ 23 < 2 ^ 23 := Nat.mod_lt _ (by norm_num)
  rw [settle_eq (canonical_ofFields _ hfraction) (inRange_ofFields _ (Nat.mod_lt _ (by norm_num)))]
    at hnumber ⊢
  rw [key_ofFields hnumber.ne_notANumber, show Format.single.encode d / 2 ^ 31 = 0 by omega]
  change ((_ : Nat) : Int) = _
  omega

/-- The word of an exponential. -/
def expWord (x : Float32) : Nat := Format.single.encode (Elementary.exp (datum (unpacked x)))

theorem exp_eq (x : Float32) : Analytic.exp x = Float32.ofBits (UInt32.ofNat (expWord x)) :=
  singleMap_eq Elementary.exp x

theorem key_exp {x : Float32} (h : unpacked x ≠ .notANumber) :
    key (unpacked (Analytic.exp x)) = expWord x := by
  change key (unpacked (singleMap Elementary.exp x)) = _
  rw [singleMap_eq, key_singleOfDatum (Elementary.exp_nonNeg (datum_ne_nan h)), expWord]

theorem exp_proper {x : Float32} (h : unpacked x ≠ .notANumber) : Proper (Analytic.exp x) := by
  rcases exp_nonNeg h with hzero | hsigned
  · exact proper_of_zero hzero
  · exact proper_of_signed hsigned

/-- **The exponential keeps the order** of single precision numbers, and may make neighbours equal:
the exponential of a number that is not larger is smaller or the same. -/
theorem exp_less_or_eq {x y : Float32} (hx : unpacked x ≠ .notANumber)
    (hy : unpacked y ≠ .notANumber) (h : Scalar.less y x = false) :
    Scalar.less (Analytic.exp x) (Analytic.exp y) = true ∨
      (Analytic.exp x : Float32) = Analytic.exp y := by
  have hkey : key (unpacked x) ≤ key (unpacked y) := by
    rw [← not_lt, ← lt_iff_key (canonical_unpacked y) (inRange_unpacked y) (canonical_unpacked x)
      (inRange_unpacked x) hy hx, ← less_eq_lt, h]
    exact Bool.false_ne_true
  have hle : expWord x ≤ expWord y :=
    encode_mono (Elementary.exp_nonNeg (datum_ne_nan hx)) (Elementary.exp_nonNeg (datum_ne_nan hy))
      (Elementary.exp_le (datum_le (canonical_unpacked x) (canonical_unpacked y)
        (inRange_unpacked x) (inRange_unpacked y) hx hy hkey))
  rcases hle.lt_or_eq with hlt | heq
  · left
    rw [less_eq_lt, lt_iff_key (canonical_unpacked _) (inRange_unpacked _) (canonical_unpacked _)
      (inRange_unpacked _) (exp_proper hx).number (exp_proper hy).number, key_exp hx, key_exp hy]
    exact_mod_cast hlt
  · right
    rw [exp_eq, exp_eq, heq]

end DraftHeads.Number
