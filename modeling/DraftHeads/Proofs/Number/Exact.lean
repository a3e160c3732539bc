import DraftHeads.Proofs.Number.Unpacked

/-! # Operations that are exact

Words of any format, and the products that are not rounded.

* `Unpacks`: the number of a word, by the kind of its exponent.
* `pack_unpack`: packing the number of a word gives the word back, if it is a number.
* `mul_one_eq`: a product with one is the number itself. -/

namespace DraftHeads.Number

open Float.Model (UnpackedFloat totalExponent)
open Float.Model.UnpackedFloat

variable {spec : Float.Model.Format} {b : BitVec spec.numBits}

/-! ### Words -/

theorem toNat_mantissa (b : BitVec spec.numBits) :
    (unpackMantissa b).toNat = b.toNat % 2 ^ spec.mantissaBitsWithoutImplicit := by
  have := spec.hm
  simp only [unpackMantissa, BitVec.toNat_cast, BitVec.extractLsb_toNat, Nat.shiftRight_zero]
  congr 2
  omega

theorem toNat_exponent (b : BitVec spec.numBits) : (unpackExponent b).toNat =
    b.toNat / 2 ^ spec.mantissaBitsWithoutImplicit % 2 ^ spec.exponentBits := by
  have := spec.he
  simp only [unpackExponent, BitVec.toNat_cast, BitVec.extractLsb_toNat,
    Nat.shiftRight_eq_div_pow]
  congr 2
  omega

theorem toNat_sign (b : BitVec spec.numBits) : (unpackSign b).toNat =
    b.toNat / 2 ^ spec.mantissaBitsWithoutImplicit / 2 ^ spec.exponentBits := by
  have hlt : b.toNat < 2 ^ (spec.mantissaBitsWithoutImplicit + spec.exponentBits) * 2 := by
    have := b.isLt
    rw [← Nat.pow_succ]
    convert this using 2
    rw [Float.Model.Format.numBits]
    omega
  unfold unpackSign
  simp only [BitVec.toNat_cast, BitVec.extractLsb_toNat, Nat.shiftRight_eq_div_pow]
  rw [Nat.div_div_eq_div_mul, ← Nat.pow_add, Nat.mod_eq_of_lt]
  rw [Nat.sub_self, Nat.div_lt_iff_lt_mul (Nat.two_pow_pos _)]
  omega

/-- The sign of a word. -/
def signOfWord (b : BitVec spec.numBits) : Sign := Sign.ofBitVec (unpackSign b)

theorem packComponents_unpack (b : BitVec spec.numBits) :
    packComponents spec (signOfWord b) (unpackExponent b) (unpackMantissa b) = b := by
  have hsign : (signOfWord b).toBitVec = unpackSign b := by
    rw [signOfWord]
    generalize unpackSign b = v
    revert v
    decide
  refine BitVec.eq_of_toNat_eq ?_
  have hfraction := (unpackMantissa b).isLt
  have hexponent := (unpackExponent b).isLt
  unfold packComponents
  rw [hsign, BitVec.toNat_append, ← Nat.shiftLeft_add_eq_or_of_lt hfraction, BitVec.toNat_append,
    ← Nat.shiftLeft_add_eq_or_of_lt hexponent, Nat.shiftLeft_eq, Nat.shiftLeft_eq, toNat_sign,
    toNat_exponent, toNat_mantissa, Nat.div_add_mod', Nat.div_add_mod']

/-- The exponent that stands for the last place of a word with the exponent field zero. -/
def exponentOffset (spec : Float.Model.Format) : Int :=
  (spec.exponentBias + spec.mantissaBitsWithoutImplicit : Nat)

/-- **The number of a word**, by the kind of its exponent. -/
inductive Unpacks (b : BitVec spec.numBits) : UnpackedFloat → Prop
  | notANumber (exponent : unpackExponent b = -1#_) (fraction : unpackMantissa b ≠ 0#_) :
    Unpacks b .notANumber
  | infinity (exponent : unpackExponent b = -1#_) (fraction : unpackMantissa b = 0#_) :
    Unpacks b (.infinity (signOfWord b))
  | zero (exponent : unpackExponent b = 0#_) (fraction : unpackMantissa b = 0#_) :
    Unpacks b (.zero (signOfWord b))
  | subnormal (exponent : unpackExponent b = 0#_) (h : 0 < (unpackMantissa b).toNat) :
    Unpacks b (.finite (signOfWord b) (unpackMantissa b).toNat (1 - exponentOffset spec) h)
  | normal (positive : 0 < (unpackExponent b).toNat)
    (small : (unpackExponent b).toNat + 1 < 2 ^ spec.exponentBits)
    (h : 0 < 2 ^ spec.mantissaBitsWithoutImplicit + (unpackMantissa b).toNat) :
    Unpacks b (.finite (signOfWord b) (2 ^ spec.mantissaBitsWithoutImplicit +
      (unpackMantissa b).toNat) ((unpackExponent b).toNat - exponentOffset spec) h)

theorem unpacks (b : BitVec spec.numBits) : Unpacks b (unpack spec b) := by
  have hfull : (1#1 ++ unpackMantissa b).toNat =
      2 ^ spec.mantissaBitsWithoutImplicit + (unpackMantissa b).toNat := by
    rw [BitVec.toNat_append, ← Nat.shiftLeft_add_eq_or_of_lt (unpackMantissa b).isLt,
      Nat.shiftLeft_eq]
    simp
  unfold unpack
  by_cases h₁ : unpackExponent b = -1#_
  · rw [if_pos h₁]
    by_cases h₂ : unpackMantissa b = 0#_
    · rw [if_pos h₂]
      exact .infinity h₁ h₂
    · rw [if_neg h₂]
      exact .notANumber h₁ h₂
  · rw [if_neg h₁]
    by_cases h₃ : unpackExponent b = 0#_
    · rw [if_pos h₃]
      by_cases h₄ : unpackMantissa b = 0#_
      · rw [dif_pos h₄]
        exact .zero h₃ h₄
      · rw [dif_neg h₄]
        have hpos : 0 < (unpackMantissa b).toNat :=
          Nat.pos_of_ne_zero fun h => h₄ (BitVec.toNat_inj.mp (h.trans BitVec.toNat_zero.symm))
        have heq : ((unpackExponent b).toNat : Int) -
            (spec.exponentBias + spec.mantissaBitsWithoutImplicit) + 1 =
              1 - exponentOffset spec := by
          rw [h₃, exponentOffset, BitVec.toNat_zero]
          omega
        rw [finite_congr rfl heq]
        exact .subnormal h₃ hpos
    · rw [if_neg h₃]
      have hpos : 0 < (unpackExponent b).toNat :=
        Nat.pos_of_ne_zero fun h => h₃ (BitVec.toNat_inj.mp (h.trans BitVec.toNat_zero.symm))
      have hsmall : (unpackExponent b).toNat + 1 < 2 ^ spec.exponentBits := by
        have hlt := (unpackExponent b).isLt
        have hne : (unpackExponent b).toNat ≠ 2 ^ spec.exponentBits - 1 := fun h =>
          h₁ (BitVec.toNat_inj.mp (by rw [h, BitVec.neg_one_eq_allOnes, BitVec.toNat_allOnes]))
        omega
      have heq : ((unpackExponent b).toNat : Int) -
          (spec.exponentBias + spec.mantissaBitsWithoutImplicit) =
            (unpackExponent b).toNat - exponentOffset spec := by
        rw [exponentOffset]
        push_cast
        rfl
      have hfullpos : 0 < 2 ^ spec.mantissaBitsWithoutImplicit + (unpackMantissa b).toNat :=
        Nat.add_pos_left (Nat.two_pow_pos _) _
      rw [finite_congr hfull heq]
      exact .normal hpos hsmall hfullpos

theorem exponentBias_add (spec : Float.Model.Format) (e : Int) :
    e - exponentOffset spec + spec.exponentBias + spec.mantissaBitsWithoutImplicit = e := by
  rw [exponentOffset]
  push_cast
  omega

theorem Unpacks.pack_eq {u : UnpackedFloat} (h : Unpacks b u) (hbits : 1 < spec.exponentBits)
    (hu : u ≠ .notANumber) : pack spec u = b := by
  have hword := packComponents_unpack b
  have hfraction := (unpackMantissa b).isLt
  have hmantissa : spec.mantissaBits = spec.mantissaBitsWithoutImplicit + 1 := Nat.add_comm _ _
  cases h with
  | notANumber exponent fraction => exact absurd rfl hu
  | infinity exponent fraction => rwa [exponent, fraction] at hword
  | zero exponent fraction => rwa [exponent, fraction] at hword
  | subnormal exponent hpos =>
    have hlog : (unpackMantissa b).toNat.log2 < spec.mantissaBitsWithoutImplicit :=
      (Nat.log2_lt hpos.ne').mpr hfraction
    have hroom : ¬ 2 ^ spec.exponentBits ≤ 1 + 1 := by
      have := Nat.pow_lt_pow_right (a := 2) one_lt_two hbits
      omega
    have hofNat : BitVec.ofNat spec.mantissaBitsWithoutImplicit (unpackMantissa b).toNat =
        unpackMantissa b := by simp
    have hshort : ¬ (unpackMantissa b).toNat.log2 + 1 = spec.mantissaBitsWithoutImplicit + 1 := by
      omega
    rw [exponent] at hword
    unfold pack
    dsimp only
    simp only [exponentBias_add, Int.toNat_one, if_neg hroom, hmantissa, if_neg hshort, hofNat,
      hword]
  | normal positive small hpos =>
    have hlog : (2 ^ spec.mantissaBitsWithoutImplicit + (unpackMantissa b).toNat).log2 =
        spec.mantissaBitsWithoutImplicit :=
      (Nat.log2_eq_iff hpos.ne').mpr ⟨Nat.le_add_right _ _, by rw [Nat.pow_succ]; omega⟩
    have hofNat : BitVec.ofNat spec.mantissaBitsWithoutImplicit
        (2 ^ spec.mantissaBitsWithoutImplicit + (unpackMantissa b).toNat) = unpackMantissa b := by
      rw [← BitVec.toNat_inj, BitVec.toNat_ofNat, Nat.add_mod_left, Nat.mod_eq_of_lt hfraction]
    have hexponent : BitVec.ofNat spec.exponentBits (unpackExponent b).toNat =
        unpackExponent b := by simp
    unfold pack
    dsimp only
    simp only [exponentBias_add, Int.toNat_natCast, if_neg (Nat.not_le.mpr small), hmantissa, hlog,
      if_true, hofNat, hexponent, hword]

theorem pack_unpack (hbits : 1 < spec.exponentBits) (h : unpack spec b ≠ .notANumber) :
    pack spec (unpack spec b) = b := (unpacks b).pack_eq hbits h

theorem Unpacks.exponent_eq {s : Sign} {m : Nat} {e : Int} {hm : 0 < m}
    (h : Unpacks b (.finite s m e hm)) : e = spec.targetExponent (totalExponent m e) := by
  have hfraction := (unpackMantissa b).isLt
  have hmantissa : (spec.mantissaBits : Int) = spec.mantissaBitsWithoutImplicit + 1 := by
    unfold Float.Model.Format.mantissaBits
    omega
  have hleast : spec.minExponent = 1 - exponentOffset spec := by
    have hpos := Nat.two_pow_pos (spec.exponentBits - 1)
    rw [Float.Model.Format.minExponent, exponentOffset, Float.Model.Format.exponentBias, hmantissa]
    push_cast [Nat.cast_sub hpos]
    omega
  rw [Float.Model.Format.targetExponent, totalExponent, hmantissa, hleast]
  cases h with
  | subnormal exponent hpos =>
    have hlog := (Nat.log2_lt hpos.ne').mpr hfraction
    omega
  | normal positive small hpos =>
    have hlog : (2 ^ spec.mantissaBitsWithoutImplicit + (unpackMantissa b).toNat).log2 =
        spec.mantissaBitsWithoutImplicit :=
      (Nat.log2_eq_iff hpos.ne').mpr ⟨Nat.le_add_right _ _, by rw [Nat.pow_succ]; omega⟩
    rw [hlog]
    omega

/-! ### Products with one -/

theorem shiftRight_exact (m : Nat) : ∀ k : Nat,
    ExtendedMantissa.ofMantissaAndAccuracy (m * 2 ^ k) .exact >>> k = ⟨m, false, false⟩
  | 0 => by
    rw [Nat.pow_zero, Nat.mul_one]
    rfl
  | k + 1 => by
    have ih := shiftRight_exact (m * 2) k
    have hm : m * 2 ^ (k + 1) = m * 2 * 2 ^ k := by
      rw [Nat.pow_succ, Nat.mul_assoc, Nat.mul_comm 2]
    rw [hm]
    change (ExtendedMantissa.ofMantissaAndAccuracy (m * 2 * 2 ^ k) .exact >>> k).shiftRightOne = _
    rw [ih]
    simp [ExtendedMantissa.shiftRightOne]

theorem roundWithAccuracy_exact {s : Sign} {m : Nat} {e : Int} (hm : 0 < m)
    (h : e = spec.targetExponent (totalExponent m e)) (k : Nat) :
    roundWithAccuracy spec s (m * 2 ^ k) (e - k) .exact = .finite s m e hm := by
  have hlog : (m * 2 ^ k).log2 = m.log2 + k := by rw [← Nat.shiftLeft_eq, log2_shiftLeft hm]
  have htotal : totalExponent (m * 2 ^ k) (e - k) = totalExponent m e := by
    rw [totalExponent, totalExponent, hlog]
    omega
  have hfirst : shiftToTargetExponent spec (m * 2 ^ k) (e - k) .exact = (⟨m, false, false⟩, e) := by
    have hamount : (e - (e - (k : Int))).toNat = k := by omega
    rw [shiftToTargetExponent, htotal, ← h, shiftToExponent]
    simp only [hamount, shiftRight_exact]
    rw [Int.sub_add_cancel]
  have hsecond : shiftToTargetExponent spec m e .exact = (⟨m, false, false⟩, e) := by
    rw [shiftToTargetExponent, ← h, shiftToExponent]
    simp only [Int.sub_self, Int.toNat_zero]
    exact Prod.ext rfl (Int.add_zero e)
  have hround : (ExtendedMantissa.mk m false false).roundedMantissa = m := rfl
  rw [roundWithAccuracy, hfirst]
  dsimp only
  rw [hround, hsecond]
  exact dif_neg hm.ne'

/-- **A product with one** is the number itself. -/
theorem Unpacks.mul_one_eq {u : UnpackedFloat} (h : Unpacks b u) :
    mul spec u (.finite .positive (2 ^ spec.mantissaBitsWithoutImplicit)
      (-(spec.mantissaBitsWithoutImplicit : Int)) (Nat.two_pow_pos _)) = u := by
  cases u with
  | finite s m e hm =>
    have hsign : s * Sign.positive = s := by cases s <;> rfl
    change roundWithAccuracy spec (s * .positive) _ (e + -_) .exact = _
    rw [hsign, ← Int.sub_eq_add_neg]
    exact roundWithAccuracy_exact hm h.exponent_eq _
  | zero s => cases s <;> rfl
  | infinity s => cases s <;> rfl
  | notANumber => rfl

end DraftHeads.Number
