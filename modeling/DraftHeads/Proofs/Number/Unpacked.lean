import DraftHeads.Number.Scalar
import Mathlib.Tactic.NormNum
import Mathlib.Tactic.Set
import Mathlib.Tactic.SplitIfs

/-! # Single precision numbers, unpacked

What the operations on single precision numbers do, in terms of sign, significand and exponent.

* `Canonical`: the significand and the exponent of a number that was rounded; `canonical_unpack`:
  those of a word are canonical.
* `unpack_pack`: packing keeps what is canonical, and makes an infinity of what is too large.
* `round_eq`: rounding keeps the sign, gives what is canonical, and nothing becomes zero or loses
  its leading place. -/

namespace DraftHeads.Number

open Float.Model (UnpackedFloat totalExponent)
open Float.Model.UnpackedFloat

/-- The single format. -/
abbrev binary32 : Float.Model.Format := Float.Model.Format.binary32

/-! ### Words -/

/-- The number of the exponent and the fraction of a word. -/
def ofFields (sign : Sign) (exponent fraction : Nat) : UnpackedFloat :=
  if exponent = 255 then if fraction = 0 then .infinity sign else .notANumber
  else if exponent = 0 then
    if h : fraction = 0 then .zero sign
    else .finite sign fraction (-149) (Nat.pos_of_ne_zero h)
  else .finite sign (2 ^ 23 + fraction) (exponent - 150) (by omega)

theorem ofFields_cases (sign : Sign) (exponent fraction : Nat) :
    (exponent = 255 ∧ fraction = 0 ∧ ofFields sign exponent fraction = .infinity sign) ∨
    (exponent = 255 ∧ fraction ≠ 0 ∧ ofFields sign exponent fraction = .notANumber) ∨
    (exponent = 0 ∧ fraction = 0 ∧ ofFields sign exponent fraction = .zero sign) ∨
    (exponent = 0 ∧ ∃ h, ofFields sign exponent fraction = .finite sign fraction (-149) h) ∨
    (exponent ≠ 255 ∧ exponent ≠ 0 ∧ ∃ h, ofFields sign exponent fraction =
      .finite sign (2 ^ 23 + fraction) (exponent - 150) h) := by
  unfold ofFields
  by_cases h₁ : exponent = 255
  · rw [if_pos h₁]
    by_cases h₂ : fraction = 0
    · rw [if_pos h₂]
      exact Or.inl ⟨h₁, h₂, rfl⟩
    · rw [if_neg h₂]
      exact Or.inr (Or.inl ⟨h₁, h₂, rfl⟩)
  · rw [if_neg h₁]
    by_cases h₃ : exponent = 0
    · rw [if_pos h₃]
      by_cases h₄ : fraction = 0
      · rw [dif_pos h₄]
        exact Or.inr (Or.inr (Or.inl ⟨h₃, h₄, rfl⟩))
      · rw [dif_neg h₄]
        exact Or.inr (Or.inr (Or.inr (Or.inl ⟨h₃, Nat.pos_of_ne_zero h₄, rfl⟩)))
    · rw [if_neg h₃]
      exact Or.inr (Or.inr (Or.inr (Or.inr ⟨h₁, h₃, by omega, rfl⟩)))

/-- The sign of the leading bit of a word. -/
def signOf (bit : Nat) : Sign := if bit = 0 then .positive else .negative

theorem finite_congr {s : Sign} {m m' : Nat} {e e' : Int} {hm : 0 < m} {hm' : 0 < m'}
    (h : m = m') (h' : e = e') :
    UnpackedFloat.finite s m e hm = UnpackedFloat.finite s m' e' hm' := by
  subst h h'
  rfl

theorem toNat_unpackMantissa (b : BitVec 32) :
    (@unpackMantissa binary32 b).toNat = b.toNat % 2 ^ 23 := by
  simp [unpackMantissa]

theorem toNat_unpackExponent (b : BitVec 32) :
    (@unpackExponent binary32 b).toNat = b.toNat / 2 ^ 23 % 2 ^ 8 := by
  simp [unpackExponent, Nat.shiftRight_eq_div_pow]

theorem toNat_unpackSign (b : BitVec 32) :
    (@unpackSign binary32 b).toNat = b.toNat / 2 ^ 31 := by
  have : b.toNat < 2 ^ 32 := b.isLt
  change b.toNat >>> 31 % 2 ^ 1 = _
  rw [Nat.shiftRight_eq_div_pow]
  omega

/-- **The number of a word** is that of its fields. -/
theorem unpack_eq (b : BitVec 32) : unpack binary32 b =
    ofFields (signOf (b.toNat / 2 ^ 31)) (b.toNat / 2 ^ 23 % 2 ^ 8) (b.toNat % 2 ^ 23) := by
  have hsign : Sign.ofBitVec (@unpackSign binary32 b) = signOf (b.toNat / 2 ^ 31) := by
    rw [← toNat_unpackSign, Sign.ofBitVec, signOf]
    congr 1
    rw [← BitVec.toNat_inj]
    rfl
  rw [← toNat_unpackExponent, ← toNat_unpackMantissa, ← hsign]
  have hinf : @unpackExponent binary32 b = -1#_ ↔
      (@unpackExponent binary32 b).toNat = 255 := by
    rw [← BitVec.toNat_inj]
    rfl
  have hzero : @unpackExponent binary32 b = 0#_ ↔
      (@unpackExponent binary32 b).toNat = 0 := by
    rw [← BitVec.toNat_inj]
    rfl
  have hfraction : @unpackMantissa binary32 b = 0#_ ↔
      (@unpackMantissa binary32 b).toNat = 0 := by
    rw [← BitVec.toNat_inj]
    rfl
  have hfull : (1#1 ++ @unpackMantissa binary32 b).toNat =
      2 ^ 23 + (@unpackMantissa binary32 b).toNat := by
    have hlt : (@unpackMantissa binary32 b).toNat < 2 ^ 23 := BitVec.isLt _
    rw [BitVec.toNat_append, ← Nat.shiftLeft_add_eq_or_of_lt hlt]
    rfl
  have hbias : ((Float.Model.Format.exponentBias binary32 : Nat) : Int) +
      (binary32.mantissaBitsWithoutImplicit : Nat) = 150 := rfl
  unfold unpack ofFields
  by_cases h₁ : (@unpackExponent binary32 b).toNat = 255
  · rw [if_pos (hinf.mpr h₁), if_pos h₁]
    by_cases h₂ : (@unpackMantissa binary32 b).toNat = 0
    · rw [if_pos (hfraction.mpr h₂), if_pos h₂]
    · rw [if_neg (mt hfraction.mp h₂), if_neg h₂]
  · rw [if_neg (mt hinf.mp h₁), if_neg h₁]
    by_cases h₃ : (@unpackExponent binary32 b).toNat = 0
    · rw [if_pos (hzero.mpr h₃), if_pos h₃]
      by_cases h₄ : (@unpackMantissa binary32 b).toNat = 0
      · rw [dif_pos (hfraction.mpr h₄), dif_pos h₄]
      · rw [dif_neg (mt hfraction.mp h₄), dif_neg h₄]
        exact finite_congr rfl (by rw [hbias, h₃]; rfl)
    · rw [if_neg (mt hzero.mp h₃), if_neg h₃]
      exact finite_congr hfull (by rw [hbias])

/-- The leading bit of a word with a sign. -/
def signBit : Sign → Nat
  | .negative => 1
  | .positive => 0

theorem toNat_packComponents (sign : Sign) (exponent : BitVec 8) (fraction : BitVec 23) :
    (packComponents binary32 sign exponent fraction).toNat =
      signBit sign * 2 ^ 31 + exponent.toNat * 2 ^ 23 + fraction.toNat := by
  have hsign : sign.toBitVec.toNat = signBit sign := by cases sign <;> rfl
  have hfraction := fraction.isLt
  have hexponent := exponent.isLt
  unfold packComponents
  rw [BitVec.toNat_append, ← Nat.shiftLeft_add_eq_or_of_lt hfraction, BitVec.toNat_append,
    ← Nat.shiftLeft_add_eq_or_of_lt hexponent, hsign, Nat.shiftLeft_eq, Nat.shiftLeft_eq]
  omega

theorem unpack_packComponents (sign : Sign) (exponent : BitVec 8) (fraction : BitVec 23) :
    unpack binary32 (packComponents binary32 sign exponent fraction) =
      ofFields sign exponent.toNat fraction.toNat := by
  have hfraction := fraction.isLt
  have hexponent := exponent.isLt
  have hsign : signOf (signBit sign) = sign := by cases sign <;> rfl
  have hbit : signBit sign ≤ 1 := by cases sign <;> decide
  rw [unpack_eq, toNat_packComponents]
  rw [show (signBit sign * 2 ^ 31 + exponent.toNat * 2 ^ 23 + fraction.toNat) / 2 ^ 31 =
    signBit sign by omega, show (signBit sign * 2 ^ 31 + exponent.toNat * 2 ^ 23 +
    fraction.toNat) / 2 ^ 23 % 2 ^ 8 = exponent.toNat by omega, show (signBit sign * 2 ^ 31 +
    exponent.toNat * 2 ^ 23 + fraction.toNat) % 2 ^ 23 = fraction.toNat by omega, hsign]

/-! ### Canonical numbers -/

/-- A number that was rounded to single precision: the significand has 24 bits, or fewer if the
exponent is the least one. -/
def Canonical : UnpackedFloat → Prop
  | .finite _ m e _ => -149 ≤ e ∧ m < 2 ^ 24 ∧ (e = -149 ∨ 2 ^ 23 ≤ m)
  | _ => True

/-- A number that is not too large for single precision. -/
def InRange : UnpackedFloat → Prop
  | .finite _ _ e _ => e ≤ 104
  | _ => True

theorem canonical_ofFields (sign : Sign) {exponent fraction : Nat} (h : fraction < 2 ^ 23) :
    Canonical (ofFields sign exponent fraction) := by
  obtain ⟨-, -, heq⟩ | ⟨-, -, heq⟩ | ⟨-, -, heq⟩ | ⟨-, hpos, heq⟩ | ⟨h₁, h₃, hpos, heq⟩ :=
    ofFields_cases sign exponent fraction <;> rw [heq]
  · trivial
  · trivial
  · trivial
  · exact ⟨by omega, by omega, Or.inl rfl⟩
  · exact ⟨by omega, by omega, Or.inr (by omega)⟩

theorem inRange_ofFields (sign : Sign) {exponent fraction : Nat} (h : exponent < 2 ^ 8) :
    InRange (ofFields sign exponent fraction) := by
  obtain ⟨-, -, heq⟩ | ⟨-, -, heq⟩ | ⟨-, -, heq⟩ | ⟨-, hpos, heq⟩ | ⟨h₁, h₃, hpos, heq⟩ :=
    ofFields_cases sign exponent fraction <;> rw [heq]
  · trivial
  · trivial
  · trivial
  · exact Int.le_of_lt (by decide)
  · change (exponent : Int) - 150 ≤ 104
    omega

theorem canonical_unpack (b : BitVec 32) : Canonical (unpack binary32 b) := by
  rw [unpack_eq]
  exact canonical_ofFields _ (Nat.mod_lt _ (by norm_num))

theorem inRange_unpack (b : BitVec 32) : InRange (unpack binary32 b) := by
  rw [unpack_eq]
  exact inRange_ofFields _ (Nat.mod_lt _ (by norm_num))

/-- **Packing keeps what is canonical**, and makes an infinity of what is too large. -/
theorem unpack_pack {u : UnpackedFloat} (h : Canonical u) : unpack binary32 (pack binary32 u) = u ∨
    ∃ s m e hm, u = .finite s m e hm ∧ 104 < e ∧
      unpack binary32 (pack binary32 u) = .infinity s := by
  cases u with
  | notANumber => left; rfl
  | infinity s => left; cases s <;> rfl
  | zero s => left; cases s <;> rfl
  | finite s m e hm =>
    obtain ⟨he, hlt, hfull⟩ := h
    have hpack : pack binary32 (.finite s m e hm) =
        if 256 ≤ (e + 127 + 23).toNat + 1 then packedInfinity binary32 s
        else if m.log2 + 1 = 24 then
          packComponents binary32 s (BitVec.ofNat 8 (e + 127 + 23).toNat) (BitVec.ofNat 23 m)
        else packComponents binary32 s 0#8 (BitVec.ofNat 23 m) := rfl
    have hbits : m.log2 + 1 = 24 ↔ 2 ^ 23 ≤ m := by
      have hge := Nat.le_log2 hm.ne' (k := 23)
      have hlt' := Nat.log2_lt hm.ne' (k := 24)
      omega
    rw [hpack]
    by_cases hlarge : 256 ≤ (e + 127 + 23).toNat + 1
    · right
      rw [if_pos hlarge]
      exact ⟨s, m, e, hm, rfl, by omega, by cases s <;> rfl⟩
    · left
      rw [if_neg hlarge]
      by_cases hnormal : m.log2 + 1 = 24
      · rw [if_pos hnormal]
        rw [hbits] at hnormal
        have hexponent : (BitVec.ofNat 8 (e + 127 + 23).toNat).toNat = (e + 127 + 23).toNat := by
          rw [BitVec.toNat_ofNat, Nat.mod_eq_of_lt (by omega)]
        have hfraction : (BitVec.ofNat 23 m).toNat = m - 2 ^ 23 := by
          rw [BitVec.toNat_ofNat]
          omega
        rw [unpack_packComponents, hexponent, hfraction]
        unfold ofFields
        rw [if_neg (by omega), if_neg (by omega)]
        exact finite_congr (by omega) (by omega)
      · rw [if_neg hnormal]
        rw [hbits] at hnormal
        have hfraction : (BitVec.ofNat 23 m).toNat = m := by
          rw [BitVec.toNat_ofNat]
          omega
        rw [unpack_packComponents, hfraction]
        unfold ofFields
        rw [if_neg (by decide), if_pos (by rfl), dif_neg hm.ne']
        exact finite_congr rfl (by omega)

/-! ### Rounding -/

theorem log2_shiftLeft {m : Nat} (hm : 0 < m) (k : Nat) : (m <<< k).log2 = m.log2 + k := by
  have hpos : m <<< k ≠ 0 := by
    rw [Nat.shiftLeft_eq]
    exact (Nat.mul_pos hm (Nat.two_pow_pos k)).ne'
  rw [Nat.log2_eq_iff hpos, Nat.shiftLeft_eq, Nat.pow_add, Nat.add_right_comm, Nat.pow_add]
  exact ⟨Nat.mul_le_mul_right _ (Nat.log2_self_le hm.ne'),
    Nat.mul_lt_mul_of_pos_right Nat.lt_log2_self (Nat.two_pow_pos k)⟩

theorem log2_div_two_pow {m k : Nat} (hm : 0 < m) (hk : k ≤ m.log2) :
    0 < m / 2 ^ k ∧ (m / 2 ^ k).log2 + k = m.log2 := by
  have hle : 2 ^ k ≤ m := (Nat.le_log2 hm.ne').mp hk
  have hpos : 0 < m / 2 ^ k := Nat.div_pos hle (Nat.two_pow_pos k)
  have hlog : (m / 2 ^ k).log2 = m.log2 - k := by
    rw [Nat.log2_eq_iff hpos.ne']
    constructor
    · rw [Nat.le_div_iff_mul_le (Nat.two_pow_pos k), ← Nat.pow_add, Nat.sub_add_cancel hk]
      exact Nat.log2_self_le hm.ne'
    · rw [Nat.div_lt_iff_lt_mul (Nat.two_pow_pos k), ← Nat.pow_add,
        show m.log2 - k + 1 + k = m.log2 + 1 by omega]
      exact Nat.lt_log2_self
  exact ⟨hpos, by omega⟩

theorem mantissa_shiftRight (n : Nat) : ∀ em : ExtendedMantissa,
    (em >>> n).mantissa = em.mantissa / 2 ^ n := by
  induction n with
  | zero => intro em; exact (Nat.div_one _).symm
  | succ n ih =>
    intro em
    change (em >>> n).mantissa / 2 = _
    rw [ih, Nat.div_div_eq_div_mul, Nat.pow_succ]

theorem roundedMantissa_mem (em : ExtendedMantissa) :
    em.mantissa ≤ em.roundedMantissa ∧ em.roundedMantissa ≤ em.mantissa + 1 := by
  obtain ⟨m, roundBit, stickyBit⟩ := em
  cases roundBit <;> cases stickyBit <;>
    simp only [ExtendedMantissa.roundedMantissa, ExtendedMantissa.accuracy,
      Accuracy.roundToNearestEven] <;> omega

theorem targetExponent_eq (t : Int) : binary32.targetExponent t = max (t - 24) (-149) := rfl

theorem shift_eq {m : Nat} {e : Int} (hm : 0 < m) (he : -149 ≤ e)
    (hle : e ≤ max (totalExponent m e - 24) (-149)) :
    ∃ em e', shiftToTargetExponent binary32 m e .exact = (em, e') ∧ 0 < em.mantissa ∧ -149 ≤ e' ∧
      totalExponent em.mantissa e' = totalExponent m e ∧ em.mantissa.log2 ≤ 23 ∧
        (e' = -149 ∨ em.mantissa.log2 = 23) := by
  have htotal : totalExponent m e = m.log2 + 1 + e := rfl
  set target : Int := max (totalExponent m e - 24) (-149) with htarget
  set j : Nat := (target - e).toNat with hj
  have hjlog : j ≤ m.log2 := by omega
  obtain ⟨hpos, hlog⟩ := log2_div_two_pow hm hjlog
  have hem : (ExtendedMantissa.ofMantissaAndAccuracy m .exact >>> j).mantissa = m / 2 ^ j :=
    mantissa_shiftRight j _
  refine ⟨_, e + j, rfl, ?_, by omega, ?_, ?_, ?_⟩
  · change 0 < (ExtendedMantissa.ofMantissaAndAccuracy m .exact >>> j).mantissa
    rw [hem]
    exact hpos
  · change totalExponent (ExtendedMantissa.ofMantissaAndAccuracy m .exact >>> j).mantissa _ = _
    rw [hem, totalExponent, htotal]
    omega
  · change (ExtendedMantissa.ofMantissaAndAccuracy m .exact >>> j).mantissa.log2 ≤ 23
    rw [hem]
    omega
  · change _ ∨ (ExtendedMantissa.ofMantissaAndAccuracy m .exact >>> j).mantissa.log2 = 23
    rw [hem]
    omega

/-- **Rounding keeps the sign and the leading place**, and gives what is canonical. -/
theorem round_eq (s : Sign) {m : Nat} {e : Int} (hm : 0 < m) (he : -149 ≤ e) :
    ∃ m' e' hm', UnpackedFloat.round binary32 s m e = .finite s m' e' hm' ∧
      Canonical (.finite s m' e' hm') ∧ totalExponent m e ≤ totalExponent m' e' := by
  set target : Int := binary32.targetExponent (totalExponent m e) with htarget
  set k : Nat := (e - target).toNat with hk
  have hk' : totalExponent (m <<< k) (e - k) = totalExponent m e := by
    rw [totalExponent, totalExponent, log2_shiftLeft hm]
    omega
  have hpos : 0 < m <<< k := by
    rw [Nat.shiftLeft_eq]
    exact Nat.mul_pos hm (Nat.two_pow_pos k)
  rw [targetExponent_eq] at htarget
  obtain ⟨em, e₁, hshift, hem, he₁, htotal, hlog, hfull⟩ := shift_eq hpos (e := e - k) (by omega)
    (by rw [hk']; omega)
  have hle := (roundedMantissa_mem em).1
  have hmono : em.mantissa.log2 ≤ em.roundedMantissa.log2 :=
    (Nat.le_log2 (by omega)).mpr ((Nat.log2_self_le hem.ne').trans hle)
  have htotal₁ : totalExponent em.mantissa e₁ ≤ totalExponent em.roundedMantissa e₁ := by
    rw [totalExponent, totalExponent]
    omega
  obtain ⟨em', e₂, hshift', hem', he₂, htotal', hlog', hfull'⟩ := shift_eq (m := em.roundedMantissa)
    (by omega) he₁ (by rw [totalExponent]; omega)
  have hround : UnpackedFloat.round binary32 s m e = .finite s em'.mantissa e₂ hem' := by
    have hfirst : shiftToTargetExponent binary32
        (m <<< (e - binary32.targetExponent (totalExponent m e)).toNat)
        (e - ((e - binary32.targetExponent (totalExponent m e)).toNat : Nat)) .exact = (em, e₁) :=
      hshift
    unfold UnpackedFloat.round decreaseExponent roundWithAccuracy
    dsimp only
    rw [hfirst]
    dsimp only
    rw [hshift']
    exact dif_neg hem'.ne'
  refine ⟨_, _, hem', hround, ⟨he₂, ?_, ?_⟩, by omega⟩
  · exact (Nat.log2_lt hem'.ne').mp (by omega)
  · rcases hfull' with h | h
    · exact Or.inl h
    · exact Or.inr ((Nat.le_log2 hem'.ne').mp h.ge)

end DraftHeads.Number
