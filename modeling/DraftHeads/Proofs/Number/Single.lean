import DraftHeads.Proofs.Number.Unpacked

/-! # The order of single precision numbers

* `unpacked`: sign, significand and exponent of a single precision number.
* `key`: the place of a number in the order of numbers; `lt_iff_key`: they are compared by it.
* `key_eq`: the place of a number by its word.
* `less_eq_precedes_of_zeros`: the order of the words is that of the numbers, unless the negative
  zero meets the positive one.
* `Proper`, `less_eq_precedes`: for proper numbers both orders are one. -/

namespace DraftHeads.Number

open Float.Model (UnpackedFloat)
open Float.Model.UnpackedFloat

/-- Sign, significand and exponent of a single precision number. -/
def unpacked (x : Float32) : UnpackedFloat := x.toModel.unpack

theorem canonical_unpacked (x : Float32) : Canonical (unpacked x) := canonical_unpack _

theorem unpacked_eq (x : Float32) : unpacked x = ofFields (signOf (x.toBits.toNat / 2 ^ 31))
    (x.toBits.toNat / 2 ^ 23 % 2 ^ 8) (x.toBits.toNat % 2 ^ 23) := unpack_eq _

theorem inRange_unpacked (x : Float32) : InRange (unpacked x) := inRange_unpack _

theorem notANumber_of_ofFields {sign : Sign} {exponent fraction : Nat}
    (h : ofFields sign exponent fraction = .notANumber) : exponent = 255 ∧ fraction ≠ 0 := by
  obtain ⟨h₁, h₂, heq⟩ | ⟨h₁, h₂, heq⟩ | ⟨h₁, h₂, heq⟩ | ⟨h₁, hpos, heq⟩ | ⟨h₁, h₂, hpos, heq⟩ :=
    ofFields_cases sign exponent fraction <;> rw [heq] at h
  · cases h
  · exact ⟨h₁, h₂⟩
  · cases h
  · cases h
  · cases h

theorem toBits_of_notANumber {x : Float32} (h : unpacked x = .notANumber) :
    x.toBits = 0x7fc00000 := by
  rw [unpacked_eq] at h
  obtain ⟨hexponent, hfraction⟩ := notANumber_of_ofFields h
  have hbits := x.toModel.valid.eq_packedNaN
    (BitVec.toNat_inj.mp ((toNat_unpackExponent _).trans hexponent))
    fun hzero => hfraction ((toNat_unpackMantissa _).symm.trans (congrArg BitVec.toNat hzero))
  exact UInt32.toBitVec_inj.mp hbits

/-! ### Order -/

/-- Does a sign stand for a negative number? -/
def isNegative : Sign → Bool
  | .negative => true
  | .positive => false

/-- The word of a number without its sign. -/
def magnitude : UnpackedFloat → Int
  | .infinity _ => 255 * 2 ^ 23
  | .notANumber => 0
  | .zero _ => 0
  | .finite _ m e _ => (e + 149) * 2 ^ 23 + m

/-- The sign of a number; what is not a number has none. -/
def sign : UnpackedFloat → Sign
  | .infinity s => s
  | .notANumber => .positive
  | .zero s => s
  | .finite s _ _ _ => s

/-- The place of a number in the order of numbers. -/
def key (u : UnpackedFloat) : Int := (sign u).apply (magnitude u)

theorem then_eq_lt_iff {e e' : Int} {m m' : Nat} :
    (compare e e').then (compare m m') = .lt ↔ e < e' ∨ e = e' ∧ m < m' := by
  rw [Ordering.then_eq_lt, compare_lt_iff_lt, compare_eq_iff_eq, compare_lt_iff_lt]

theorem then_eq_gt_iff {e e' : Int} {m m' : Nat} :
    (compare e e').then (compare m m') = .gt ↔ e' < e ∨ e = e' ∧ m' < m := by
  rw [Ordering.then_eq_gt, compare_gt_iff_gt, compare_eq_iff_eq, compare_gt_iff_gt]

theorem key_zero (s : Sign) : key (.zero s) = 0 := by
  cases s <;> rfl

theorem key_infinity (s : Sign) : key (.infinity s) = s.apply (255 * 2 ^ 23) := rfl

theorem key_finite (s : Sign) {m : Nat} {e : Int} {hm : 0 < m} (h : Canonical (.finite s m e hm))
    (h' : InRange (.finite s m e hm)) : key (.finite s m e hm) = s.apply ((e + 149) * 2 ^ 23 + m) ∧
      0 < (e + 149) * 2 ^ 23 + (m : Int) ∧ (e + 149) * 2 ^ 23 + (m : Int) < 255 * 2 ^ 23 := by
  obtain ⟨he, hlt, -⟩ := h
  change e ≤ 104 at h'
  exact ⟨rfl, by omega, by omega⟩

theorem apply_within {s : Sign} {k bound : Int} (hpos : 0 < k) (hlt : k < bound) :
    -bound < s.apply k ∧ s.apply k < bound := by
  cases s <;> simp only [Sign.apply] <;> omega

theorem apply_lt_iff {s : Sign} {k bound : Int} (h : -bound < k ∧ k < bound) :
    s.apply bound < k ↔ isNegative s = true := by
  cases s with
  | negative => exact iff_of_true h.1 rfl
  | positive => exact iff_of_false (not_lt.mpr h.2.le) Bool.false_ne_true

theorem lt_apply_iff {s : Sign} {k bound : Int} (h : -bound < k ∧ k < bound) :
    k < s.apply bound ↔ (!isNegative s) = true := by
  cases s with
  | negative => exact iff_of_false (not_lt.mpr h.1.le) Bool.false_ne_true
  | positive => exact iff_of_true h.2 rfl

theorem magnitude_lt_iff {s s' : Sign} {m m' : Nat} {e e' : Int} {hm : 0 < m} {hm' : 0 < m'}
    (h : Canonical (.finite s m e hm)) (h' : Canonical (.finite s' m' e' hm')) :
    (e + 149) * 2 ^ 23 + (m : Int) < (e' + 149) * 2 ^ 23 + m' ↔ e < e' ∨ e = e' ∧ m < m' := by
  obtain ⟨he, hlt, hfull⟩ := h
  obtain ⟨he', hlt', hfull'⟩ := h'
  rcases lt_trichotomy e e' with h | rfl | h
  · have : 2 ^ 23 ≤ m' := by omega
    omega
  · omega
  · have : 2 ^ 23 ≤ m := by omega
    omega

theorem lt_iff_key {u v : UnpackedFloat} (hu : Canonical u) (hu' : InRange u) (hv : Canonical v)
    (hv' : InRange v) (hnu : u ≠ .notANumber) (hnv : v ≠ .notANumber) :
    u.lt v = true ↔ key u < key v := by
  cases u with
  | notANumber => exact absurd rfl hnu
  | infinity s =>
    cases v with
    | notANumber => exact absurd rfl hnv
    | infinity t => cases s <;> cases t <;> decide
    | zero t => cases s <;> cases t <;> decide
    | finite t m' e' hm' =>
      have hlt : UnpackedFloat.lt (.infinity s) (.finite t m' e' hm') = isNegative s := by
        cases s <;> rfl
      obtain ⟨hkey, hpos, hlt'⟩ := key_finite t hv hv'
      rw [hlt, key_infinity, hkey, apply_lt_iff (apply_within hpos hlt')]
  | zero s =>
    cases v with
    | notANumber => exact absurd rfl hnv
    | infinity t => cases s <;> cases t <;> decide
    | zero t => cases s <;> cases t <;> decide
    | finite t m' e' hm' =>
      have hlt : UnpackedFloat.lt (.zero s) (.finite t m' e' hm') = !isNegative t := by
        cases t <;> rfl
      obtain ⟨hkey, hpos, hlt'⟩ := key_finite t hv hv'
      rw [hlt, key_zero, hkey, lt_apply_iff ⟨neg_lt_zero.mpr hpos, hpos⟩]
  | finite s m e hm =>
    obtain ⟨hkey, hpos, hlt⟩ := key_finite s hu hu'
    cases v with
    | notANumber => exact absurd rfl hnv
    | infinity t =>
      have hlt' : UnpackedFloat.lt (.finite s m e hm) (.infinity t) = !isNegative t := by
        cases s <;> cases t <;> rfl
      rw [hlt', key_infinity, hkey, lt_apply_iff (apply_within hpos hlt)]
    | zero t =>
      have hlt' : UnpackedFloat.lt (.finite s m e hm) (.zero t) = isNegative s := by
        cases s <;> rfl
      rw [hlt', key_zero, hkey, apply_lt_iff ⟨neg_lt_zero.mpr hpos, hpos⟩]
    | finite t m' e' hm' =>
      -- exponents are compared first, which the places of canonical numbers agree with
      obtain ⟨hkey', hpos', -⟩ := key_finite t hv hv'
      have hlt' := magnitude_lt_iff hu hv
      have hgt := magnitude_lt_iff hv hu
      rw [hkey, hkey']
      cases s <;> cases t
      · change (some ((compare e e').then (compare m m')).swap == some .lt) = true ↔ _
        rw [Sign.apply, Sign.apply, neg_lt_neg_iff, hgt, beq_iff_eq, Option.some_inj,
          Ordering.swap_eq_iff_eq_swap, Ordering.swap_lt, then_eq_gt_iff, eq_comm (a := e)]
      · rw [Sign.apply, Sign.apply]
        exact iff_of_true rfl (by omega)
      · rw [Sign.apply, Sign.apply]
        exact iff_of_false Bool.false_ne_true (by omega)
      · change (some ((compare e e').then (compare m m')) == some .lt) = true ↔ _
        rw [Sign.apply, Sign.apply, hlt', ← then_eq_lt_iff, beq_iff_eq, Option.some_inj]

theorem less_eq_lt (x y : Float32) : Scalar.less x y = (unpacked x).lt (unpacked y) := by
  change decide (decide ((unpacked x).lt (unpacked y) = true) = true) = _
  rw [Bool.decide_eq_true, Bool.decide_eq_true]

theorem key_ofFields {s : Sign} {exponent fraction : Nat}
    (h : ofFields s exponent fraction ≠ .notANumber) :
    key (ofFields s exponent fraction) = s.apply (exponent * 2 ^ 23 + fraction : Nat) := by
  obtain ⟨h₁, h₂, heq⟩ | ⟨-, -, heq⟩ | ⟨h₁, h₂, heq⟩ | ⟨h₁, hpos, heq⟩ | ⟨-, h₂, hpos, heq⟩ :=
    ofFields_cases s exponent fraction
  · rw [heq, h₁, h₂]
    rfl
  · exact absurd heq h
  · rw [heq, h₁, h₂]
    cases s <;> rfl
  · rw [heq, h₁]
    change s.apply ((-149 + 149) * 2 ^ 23 + fraction) = _
    congr 1
  · rw [heq]
    change s.apply ((exponent - 150 + 149) * 2 ^ 23 + (2 ^ 23 + fraction : Nat)) = _
    congr 1
    omega

/-- A number that is one, and not the negative zero. -/
structure Proper (x : Float32) : Prop where
  number : unpacked x ≠ .notANumber
  notNegativeZero : unpacked x ≠ .zero .negative

theorem key_eq {x : Float32} (hx : unpacked x ≠ .notANumber) : key (unpacked x) =
    if x.toBits.toNat < 2 ^ 31 then (x.toBits.toNat : Int) else 2 ^ 31 - x.toBits.toNat := by
  have hlt : x.toBits.toNat < 2 ^ 32 := x.toBits.toNat_lt
  have hkey := key_ofFields (unpacked_eq x ▸ hx)
  rw [← unpacked_eq] at hkey
  rw [hkey]
  split_ifs with h
  · have hsign : x.toBits.toNat / 2 ^ 31 = 0 := Nat.div_eq_of_lt h
    rw [hsign]
    simp [signOf, Sign.apply]
    omega
  · have hsign : x.toBits.toNat / 2 ^ 31 = 1 := by omega
    rw [hsign]
    simp [signOf, Sign.apply]
    omega

/-- **Both ways to compare** numbers are one, unless the negative zero meets the positive one. -/
theorem less_eq_precedes_of_zeros {x y : Float32} (hx : unpacked x ≠ .notANumber)
    (hy : unpacked y ≠ .notANumber) (hzeros : x.toBits.toNat ≠ 2 ^ 31 ∨ y.toBits.toNat ≠ 0) :
    Scalar.less x y = Analytic.precedes x y := by
  have hxlt : x.toBits.toNat < 2 ^ 32 := x.toBits.toNat_lt
  have hylt : y.toBits.toNat < 2 ^ 32 := y.toBits.toNat_lt
  have hlt := lt_iff_key (canonical_unpacked x) (inRange_unpacked x) (canonical_unpacked y)
    (inRange_unpacked y) hx hy
  have hword : Format.single.signWord = 2 ^ 31 := rfl
  rw [less_eq_lt, Bool.eq_iff_iff, hlt, key_eq hx, key_eq hy]
  change _ ↔ decide (Format.single.rank _ < Format.single.rank _) = true
  rw [decide_eq_true_iff, Format.rank, Format.rank, hword]
  split_ifs <;> omega

/-- **Both ways to compare** proper numbers are one. -/
theorem less_eq_precedes {x y : Float32} (hx : Proper x) (hy : Proper y) :
    Scalar.less x y = Analytic.precedes x y :=
  less_eq_precedes_of_zeros hx.number hy.number <| Or.inl fun heq => hx.notNegativeZero <| by
    rw [unpacked_eq, heq]
    rfl

end DraftHeads.Number
