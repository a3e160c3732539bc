import DraftHeads.Number.Format
import Mathlib.Algebra.Order.Field.Power
import Mathlib.Algebra.Order.Field.Rat
import Mathlib.Data.Nat.Cast.Order.Field
import Mathlib.Tactic.FieldSimp
import Mathlib.Tactic.Positivity
import Mathlib.Tactic.Ring
import Mathlib.Tactic.SplitIfs

/-! # Rounding keeps the order

* `roundQuotient_mono`: of two quotients the larger one is not rounded below the smaller one.
* `rounded`: the natural number nearest to `m · 2^s`.
* `Format.nearest_mono`: of two magnitudes the larger one does not get a lower word. -/

namespace DraftHeads.Number

/-! ### Quotients -/

theorem roundQuotient_bounds (num den : Nat) :
    num / den ≤ roundQuotient num den ∧ roundQuotient num den ≤ num / den + 1 := by
  unfold roundQuotient
  dsimp only
  split_ifs <;> omega

/-- **Rounded quotients are in the order of the quotients.** -/
theorem roundQuotient_mono {a b c d : Nat} (hb : 0 < b) (hd : 0 < d) (h : a * d ≤ c * b) :
    roundQuotient a b ≤ roundQuotient c d := by
  have hfloor : a / b ≤ c / d := by
    rw [Nat.le_div_iff_mul_le hd]
    refine Nat.le_of_mul_le_mul_right (le_trans ?_ h) hb
    calc a / b * d * b = a / b * b * d := by ring
      _ ≤ a * d := Nat.mul_le_mul_right d (Nat.div_mul_le_self a b)
  rcases hfloor.lt_or_eq with hlt | heq
  · exact (roundQuotient_bounds a b).2.trans (hlt.trans_le (roundQuotient_bounds c d).1)
  · -- with one floor the remainders decide
    have hrest : a % b * d ≤ c % d * b := by
      have ha := Nat.div_add_mod a b
      have hc := Nat.div_add_mod c d
      have : b * (c / d) * d + a % b * d ≤ b * (c / d) * d + c % d * b :=
        calc b * (c / d) * d + a % b * d = (b * (a / b) + a % b) * d := by rw [heq]; ring
          _ ≤ (d * (c / d) + c % d) * b := by rw [ha, hc]; exact h
          _ = b * (c / d) * d + c % d * b := by ring
      exact Nat.le_of_add_le_add_left this
    have hhalf : b ≤ 2 * (a % b) → d ≤ 2 * (c % d) := fun hle => by
      refine Nat.le_of_mul_le_mul_right ?_ hb
      calc d * b = b * d := Nat.mul_comm d b
        _ ≤ 2 * (a % b) * d := Nat.mul_le_mul_right d hle
        _ = 2 * (a % b * d) := by ring
        _ ≤ 2 * (c % d * b) := Nat.mul_le_mul_left 2 hrest
        _ = 2 * (c % d) * b := by ring
    have habove : b < 2 * (a % b) → d < 2 * (c % d) := fun hlt => by
      refine Nat.lt_of_mul_lt_mul_right (a := b) ?_
      calc d * b = b * d := Nat.mul_comm d b
        _ < 2 * (a % b) * d := Nat.mul_lt_mul_of_pos_right hlt hd
        _ = 2 * (a % b * d) := by ring
        _ ≤ 2 * (c % d * b) := Nat.mul_le_mul_left 2 hrest
        _ = 2 * (c % d) * b := by ring
    unfold roundQuotient
    dsimp only
    rw [heq]
    split_ifs <;> omega

/-- The natural number nearest to `m · 2^s`. -/
def rounded (m : Nat) (s : Int) : Nat := roundQuotient (m <<< s.toNat) (1 <<< (-s).toNat)

theorem shifted_quotient (m : Nat) (s : Int) :
    ((m <<< s.toNat : Nat) : ℚ) = m * 2 ^ s * ((1 <<< (-s).toNat : Nat) : ℚ) := by
  rw [Nat.shiftLeft_eq, Nat.shiftLeft_eq, one_mul]
  push_cast
  rw [mul_assoc, ← zpow_natCast, ← zpow_natCast, ← zpow_add₀ (by norm_num)]
  congr 2
  omega

/-- **Rounding keeps the order** of the numbers `m · 2^s`. -/
theorem rounded_mono {m m' : Nat} {s s' : Int} (h : (m : ℚ) * 2 ^ s ≤ m' * 2 ^ s') :
    rounded m s ≤ rounded m' s' := by
  have hpos : ∀ s : Int, 0 < 1 <<< (-s).toNat := fun s => by
    rw [Nat.shiftLeft_eq, one_mul]
    exact Nat.two_pow_pos _
  refine roundQuotient_mono (hpos s) (hpos s') ?_
  have hcast : ((m <<< s.toNat * 1 <<< (-s').toNat : Nat) : ℚ) ≤
      (m' <<< s'.toNat * 1 <<< (-s).toNat : Nat) := by
    rw [Nat.cast_mul, Nat.cast_mul, shifted_quotient m s, shifted_quotient m' s']
    calc _ = m * 2 ^ s * (((1 <<< (-s).toNat : Nat) : ℚ) * (1 <<< (-s').toNat : Nat)) := by ring
      _ ≤ m' * 2 ^ s' * (((1 <<< (-s).toNat : Nat) : ℚ) * (1 <<< (-s').toNat : Nat)) :=
        mul_le_mul_of_nonneg_right h (by positivity)
      _ = _ := by ring
  exact_mod_cast hcast

theorem rounded_zero (n : Nat) : rounded n 0 = n := by
  simp [rounded, roundQuotient, Nat.mod_one]

theorem rounded_le {m n : Nat} {s : Int} (h : (m : ℚ) * 2 ^ s ≤ n) : rounded m s ≤ n := by
  rw [← rounded_zero n]
  exact rounded_mono (by simpa using h)

theorem le_rounded {m n : Nat} {s : Int} (h : (n : ℚ) ≤ m * 2 ^ s) : n ≤ rounded m s := by
  rw [← rounded_zero n]
  exact rounded_mono (by simpa using h)

/-! ### Magnitudes -/

theorem two_zpow_le {m : Nat} (hm : m ≠ 0) (e : Int) : (2 : ℚ) ^ (m.log2 + e) ≤ m * 2 ^ e := by
  rw [zpow_add₀ (by norm_num), zpow_natCast]
  refine mul_le_mul_of_nonneg_right ?_ (by positivity)
  exact_mod_cast Nat.log2_self_le hm

theorem lt_two_zpow (m : Nat) (e : Int) : (m : ℚ) * 2 ^ e < 2 ^ (m.log2 + e + 1) := by
  rw [Int.add_right_comm, zpow_add₀ (by norm_num)]
  refine mul_lt_mul_of_pos_right ?_ (by positivity)
  exact_mod_cast Nat.lt_log2_self

theorem leading_le {m m' : Nat} {e e' : Int} (hm : m ≠ 0) (h : (m : ℚ) * 2 ^ e ≤ m' * 2 ^ e') :
    (m.log2 : Int) + e ≤ m'.log2 + e' := by
  have hlt := ((two_zpow_le hm e).trans h).trans_lt (lt_two_zpow m' e')
  have := (zpow_lt_zpow_iff_right₀ (by norm_num : (1 : ℚ) < 2)).mp hlt
  omega

namespace Format

variable (f : Format)

/-- The exponent of the last place of the word of a magnitude. -/
def lastPlace (m : Nat) (e : Int) : Int := max (m.log2 + e - f.fractionBits) f.leastExponent

theorem nearest_eq {m : Nat} (hm : m ≠ 0) (e : Int) : f.nearest m 1 e =
    min ((f.lastPlace m e - f.leastExponent).toNat <<< f.fractionBits +
      rounded m (e - f.lastPlace m e)) f.infinityWord := by
  have hone : Nat.log2 1 = 0 := by decide
  have htop : ¬ m <<< (-(m.log2 : Int)).toNat < 1 <<< (m.log2 : Int).toNat := by
    have := Nat.log2_self_le hm
    rw [show (-(m.log2 : Int)).toNat = 0 by omega, Int.toNat_natCast, Nat.shiftLeft_zero,
      Nat.shiftLeft_eq]
    omega
  unfold nearest magnitude
  simp only [if_neg hm, hone, Nat.cast_zero, sub_zero, if_neg htop]
  rfl

theorem rounded_lastPlace_le (m : Nat) (e : Int) :
    rounded m (e - f.lastPlace m e) ≤ 2 ^ (f.fractionBits + 1) := by
  refine rounded_le ((lt_two_zpow m (e - f.lastPlace m e)).le.trans ?_)
  push_cast
  rw [← zpow_natCast]
  refine zpow_le_zpow_right₀ (by norm_num) ?_
  have := le_max_left ((m.log2 : Int) + e - f.fractionBits) f.leastExponent
  rw [lastPlace]
  omega

theorem le_rounded_lastPlace {m : Nat} {e : Int} (hm : m ≠ 0)
    (h : f.leastExponent < f.lastPlace m e) :
    2 ^ f.fractionBits ≤ rounded m (e - f.lastPlace m e) := by
  refine le_rounded (le_trans ?_ (two_zpow_le hm _))
  push_cast
  rw [← zpow_natCast]
  refine zpow_le_zpow_right₀ (by norm_num) ?_
  have hnormal : f.lastPlace m e = m.log2 + e - f.fractionBits :=
    max_eq_left ((lt_max_iff.mp h).resolve_right (lt_irrefl _)).le
  omega

/-- **Words are in the order of the magnitudes** that they are nearest to. -/
theorem nearest_mono {m m' : Nat} {e e' : Int} (h : (m : ℚ) * 2 ^ e ≤ m' * 2 ^ e') :
    f.nearest m 1 e ≤ f.nearest m' 1 e' := by
  by_cases hm : m = 0
  · subst hm
    simp [nearest]
  have hm' : m' ≠ 0 := by
    rintro rfl
    have hpos : (0 : ℚ) < m * 2 ^ e := by positivity
    simp only [Nat.cast_zero, zero_mul] at h
    exact absurd hpos (not_lt.mpr h)
  rw [f.nearest_eq hm, f.nearest_eq hm']
  refine min_le_min_right _ ?_
  have hlead := leading_le hm h
  have hscale : ∀ p : Int, (m : ℚ) * 2 ^ (e - p) ≤ m' * 2 ^ (e' - p) := fun p => by
    rw [sub_eq_add_neg, sub_eq_add_neg, zpow_add₀ (by norm_num), zpow_add₀ (by norm_num),
      ← mul_assoc, ← mul_assoc]
    exact mul_le_mul_of_nonneg_right h (by positivity)
  have hle : f.lastPlace m e ≤ f.lastPlace m' e' := max_le_max_right _ (by omega)
  have hleast : f.leastExponent ≤ f.lastPlace m e := le_max_right _ _
  rcases hle.lt_or_eq with hlt | heq
  · -- the smaller one is rounded to at most the next power of two, the larger one is normal
    have hsmall := f.rounded_lastPlace_le m e
    have hlarge := f.le_rounded_lastPlace hm' (hleast.trans_lt hlt)
    have hplace : (f.lastPlace m e - f.leastExponent).toNat + 1 ≤
        (f.lastPlace m' e' - f.leastExponent).toNat := by
      omega
    have hmul := Nat.mul_le_mul_right (2 ^ f.fractionBits) hplace
    rw [Nat.shiftLeft_eq, Nat.shiftLeft_eq]
    rw [pow_succ] at hsmall
    rw [Nat.add_mul, one_mul] at hmul
    omega
  · rw [heq]
    exact Nat.add_le_add_left (rounded_mono (hscale _)) _

end Format

end DraftHeads.Number
