import DraftHeads.Proofs.Number.Words
import Mathlib.Tactic.LinearCombination

/-! # The word nearest to a quotient

A word is nearest to a number `num / den · 2 ^ e`, and the number can be written in many such ways.

* `leadingBit`: the place of the leading bit of a quotient; `two_zpow_leadingBit` bounds the
  quotient by it.
* `Format.nearest_quotient`: the nearest word depends on the number only.
* `Format.nearest_quotient_word`: the word nearest to the value of a word is that word. -/

namespace DraftHeads.Number

variable {num den num' den' : Nat} {e e' : Int}

theorem roundQuotient_congr (hden : 0 < den) (hden' : 0 < den') (h : num * den' = num' * den) :
    roundQuotient num den = roundQuotient num' den' :=
  le_antisymm (roundQuotient_mono hden hden' h.le) (roundQuotient_mono hden' hden h.ge)

/-! ### Leading bits -/

/-- The place of the leading bit of `num / den`. -/
def leadingBit (num den : Nat) : Int :=
  let guess := Format.magnitude num den
  if num <<< (-guess).toNat < den <<< guess.toNat then guess - 1 else guess

theorem shiftLeft_eq_cast (m n : Nat) : ((m <<< n : Nat) : ℚ) = m * (1 <<< n : Nat) := by
  rw [Nat.shiftLeft_eq, Nat.shiftLeft_eq, one_mul, Nat.cast_mul]

theorem shifted_lt_iff (hden : 0 < den) (g : Int) :
    num <<< (-g).toNat < den <<< g.toNat ↔ (num : ℚ) / den < 2 ^ g := by
  have hden : (0 : ℚ) < den := Nat.cast_pos.mpr hden
  have hunit : (0 : ℚ) < (1 <<< g.toNat : Nat) := by
    rw [Nat.shiftLeft_eq, one_mul]
    positivity
  have hnum := shifted_quotient num (-g)
  rw [neg_neg, Nat.cast_ofNat] at hnum
  rw [← Nat.cast_lt (α := ℚ), hnum, shiftLeft_eq_cast den, mul_lt_mul_iff_left₀ hunit, zpow_neg,
    ← div_eq_mul_inv, div_lt_iff₀ (by positivity), div_lt_iff₀ hden, mul_comm (den : ℚ)]

/-- **The leading bit** of a quotient bounds it by powers of two. -/
theorem two_zpow_leadingBit (hnum : num ≠ 0) (hden : den ≠ 0) :
    (2 : ℚ) ^ leadingBit num den ≤ num / den ∧ (num : ℚ) / den < 2 ^ (leadingBit num den + 1) := by
  have hpos : (0 : ℚ) < den := Nat.cast_pos.mpr (Nat.pos_of_ne_zero hden)
  have hn := two_zpow_le hnum 0
  have hn' := lt_two_zpow num 0
  have hd := two_zpow_le hden 0
  have hd' := lt_two_zpow den 0
  simp only [zpow_zero, mul_one, add_zero] at hn hn' hd hd'
  have habove : (num : ℚ) / den < 2 ^ (Format.magnitude num den + 1) := by
    rw [div_lt_iff₀ hpos]
    refine hn'.trans_le ?_
    calc (2 : ℚ) ^ ((num.log2 : Int) + 1)
        = 2 ^ (Format.magnitude num den + 1) * 2 ^ (den.log2 : Int) := by
          rw [← zpow_add₀ two_ne_zero]
          congr 1
          rw [Format.magnitude]
          ring
      _ ≤ 2 ^ (Format.magnitude num den + 1) * den :=
          mul_le_mul_of_nonneg_left hd (by positivity)
  have hbelow : (2 : ℚ) ^ (Format.magnitude num den - 1) ≤ num / den := by
    rw [le_div_iff₀ hpos]
    refine le_trans ?_ hn
    calc (2 : ℚ) ^ (Format.magnitude num den - 1) * den
        ≤ 2 ^ (Format.magnitude num den - 1) * 2 ^ ((den.log2 : Int) + 1) :=
          mul_le_mul_of_nonneg_left hd'.le (by positivity)
      _ = 2 ^ (num.log2 : Int) := by
          rw [← zpow_add₀ two_ne_zero]
          congr 1
          rw [Format.magnitude]
          ring
  have htest := @shifted_lt_iff num den (Nat.pos_of_ne_zero hden) (Format.magnitude num den)
  simp only [leadingBit]
  split_ifs with h
  · exact ⟨hbelow, by rw [sub_add_cancel]; exact htest.mp h⟩
  · exact ⟨not_lt.mp (mt htest.mpr h), habove⟩

theorem place_unique {q : ℚ} {a b : Int} (ha : (2 : ℚ) ^ a ≤ q ∧ q < 2 ^ (a + 1))
    (hb : (2 : ℚ) ^ b ≤ q ∧ q < 2 ^ (b + 1)) : a = b := by
  have hmono : ∀ {i j : Int}, (2 : ℚ) ^ i < 2 ^ j → i < j :=
    (zpow_lt_zpow_iff_right₀ (by norm_num : (1 : ℚ) < 2)).mp
  have hab := hmono (ha.1.trans_lt hb.2)
  have hba := hmono (hb.1.trans_lt ha.2)
  omega

theorem leadingBit_congr (hnum : num ≠ 0) (hden : den ≠ 0) (hnum' : num' ≠ 0) (hden' : den' ≠ 0)
    (h : (num : ℚ) / den * 2 ^ e = num' / den' * 2 ^ e') :
    leadingBit num den + e = leadingBit num' den' + e' := by
  have hbounds : ∀ {n d : Nat} (e : Int), n ≠ 0 → d ≠ 0 →
      (2 : ℚ) ^ (leadingBit n d + e) ≤ n / d * 2 ^ e ∧
        (n : ℚ) / d * 2 ^ e < 2 ^ (leadingBit n d + e + 1) := fun {n d} e hn hd => by
    obtain ⟨hle, hlt⟩ := two_zpow_leadingBit hn hd
    rw [Int.add_right_comm, zpow_add₀ two_ne_zero _ e, zpow_add₀ two_ne_zero _ e]
    exact ⟨mul_le_mul_of_nonneg_right hle (by positivity),
      mul_lt_mul_of_pos_right hlt (by positivity)⟩
  refine place_unique (hbounds e hnum hden) ?_
  rw [h]
  exact hbounds e' hnum' hden'

namespace Format

variable {f : Format} {w : Nat}

/-- The exponent of the last place of the word of a quotient. -/
def quotientPlace (f : Format) (num den : Nat) (e : Int) : Int :=
  max (leadingBit num den + e - f.fractionBits) f.leastExponent

theorem nearest_of_ne_zero (hnum : num ≠ 0) : f.nearest num den e =
    min ((f.quotientPlace num den e - f.leastExponent).toNat <<< f.fractionBits +
      roundQuotient (num <<< (e - f.quotientPlace num den e).toNat)
        (den <<< (-(e - f.quotientPlace num den e)).toNat)) f.infinityWord := by
  rw [nearest, if_neg hnum]
  rfl

/-- **The nearest word depends on the number only**, not on the quotient that it is written as. -/
theorem nearest_quotient (hden : den ≠ 0) (hden' : den' ≠ 0)
    (h : (num : ℚ) / den * 2 ^ e = num' / den' * 2 ^ e') :
    f.nearest num den e = f.nearest num' den' e' := by
  have hd : (den : ℚ) ≠ 0 := Nat.cast_ne_zero.mpr hden
  have hd' : (den' : ℚ) ≠ 0 := Nat.cast_ne_zero.mpr hden'
  have hzero : num = 0 ↔ num' = 0 := by
    have : ((num : ℚ) / den * 2 ^ e = 0) ↔ ((num' : ℚ) / den' * 2 ^ e' = 0) := by rw [h]
    simpa [hd, hd', zpow_ne_zero] using this
  by_cases hnum : num = 0
  · rw [nearest, nearest, if_pos hnum, if_pos (hzero.mp hnum)]
  have hnum' : num' ≠ 0 := mt hzero.mpr hnum
  have hplace : f.quotientPlace num den e = f.quotientPlace num' den' e' := by
    rw [quotientPlace, quotientPlace, leadingBit_congr hnum hden hnum' hden' h]
  rw [nearest_of_ne_zero hnum, nearest_of_ne_zero hnum', hplace]
  congr 2
  set p := f.quotientPlace num' den' e'
  have hpos : ∀ {d : Nat} (n : Nat), d ≠ 0 → 0 < d <<< n := fun n hd => by
    rw [Nat.shiftLeft_eq]
    exact Nat.mul_pos (Nat.pos_of_ne_zero hd) (Nat.two_pow_pos n)
  refine roundQuotient_congr (hpos _ hden) (hpos _ hden') ?_
  have hscaled : (num : ℚ) * 2 ^ (e - p) * den' = num' * 2 ^ (e' - p) * den := by
    rw [zpow_sub₀ two_ne_zero, zpow_sub₀ two_ne_zero]
    field_simp at h ⊢
    linear_combination h
  rw [← Nat.cast_inj (R := ℚ), Nat.cast_mul, Nat.cast_mul, shifted_quotient num,
    shifted_quotient num', shiftLeft_eq_cast den, shiftLeft_eq_cast den']
  linear_combination
    ((1 <<< (-(e - p)).toNat : Nat) : ℚ) * ((1 <<< (-(e' - p)).toNat : Nat) : ℚ) * hscaled

/-- **The word nearest to the value of a word**, written as a quotient, is that word. -/
theorem nearest_quotient_word (hw : w < f.infinityWord) (hden : den ≠ 0)
    (h : (num : ℚ) / den * 2 ^ e = f.valueOf w) : f.nearest num den e = w := by
  rw [← nearest_significandOf hw]
  refine nearest_quotient hden one_ne_zero (h.trans ?_)
  rw [Nat.cast_one, div_one, valueOf]

end Format

end DraftHeads.Number
