import DraftHeads.Proofs.Number.Sums

/-! # Exponentials and logarithms of single precision numbers

* `singleDatum_eq`: the datum of a single precision number.
* `exp_nonNeg`, `exp_zero`: an exponential is not negative, and that of zero is one.
* `log_nonNeg`, `log_signed`: the logarithm of a number that is at least one is not negative, and
  that of a number that is at least two is positive. -/

namespace DraftHeads.Number

open Float.Model (UnpackedFloat totalExponent)
open Float.Model.UnpackedFloat

/-! ### Data and words -/

/-- The datum of a number. -/
def datum : UnpackedFloat → Datum
  | .notANumber => .nan false
  | .infinity s => .infinite (isNegative s)
  | .zero s => .finite (isNegative s) 0 (-149)
  | .finite s m e _ => .finite (isNegative s) m e

theorem decode_eq {n : Nat} (hn : n < 2 ^ 32)
    (h : ofFields (signOf (n / 2 ^ 31)) (n / 2 ^ 23 % 2 ^ 8) (n % 2 ^ 23) ≠ .notANumber) :
    Format.single.decode n =
      datum (ofFields (signOf (n / 2 ^ 31)) (n / 2 ^ 23 % 2 ^ 8) (n % 2 ^ 23)) := by
  have hsign : (n / 2 ^ 31 % 2 == 1) = isNegative (signOf (n / 2 ^ 31)) := by
    have : n / 2 ^ 31 = 0 ∨ n / 2 ^ 31 = 1 := by omega
    rcases this with h | h <;> rw [h] <;> rfl
  have hdecode : Format.single.decode n =
      if n / 2 ^ 23 % 2 ^ 8 = 255 then
        if n % 2 ^ 23 = 0 then .infinite (n / 2 ^ 31 % 2 == 1) else .nan (n / 2 ^ 31 % 2 == 1)
      else if n / 2 ^ 23 % 2 ^ 8 = 0 then .finite (n / 2 ^ 31 % 2 == 1) (n % 2 ^ 23) (-149)
      else .finite (n / 2 ^ 31 % 2 == 1) (2 ^ 23 + n % 2 ^ 23)
        (-149 + (n / 2 ^ 23 % 2 ^ 8 - 1 : Nat)) := by
    unfold Format.decode
    rw [Nat.shiftRight_eq_div_pow]
    rfl
  rw [hdecode, hsign]
  obtain ⟨h₁, h₂, heq⟩ | ⟨-, -, heq⟩ | ⟨h₁, h₂, heq⟩ | ⟨h₁, hpos, heq⟩ | ⟨h₁, h₂, hpos, heq⟩ :=
    ofFields_cases (signOf (n / 2 ^ 31)) (n / 2 ^ 23 % 2 ^ 8) (n % 2 ^ 23)
  · rw [heq, if_pos h₁, if_pos h₂]
    rfl
  · exact absurd heq h
  · rw [heq, if_neg (by omega), if_pos h₁, h₂]
    rfl
  · rw [heq, if_neg (by omega), if_pos h₁]
    rfl
  · rw [heq, if_neg h₁, if_neg h₂]
    change Datum.finite _ _ _ = Datum.finite _ _ _
    congr 1
    omega

theorem singleDatum_eq (x : Float32) : singleDatum x = datum (unpacked x) := by
  by_cases h : unpacked x = .notANumber
  · rw [singleDatum, toBits_of_notANumber h, h]
    rfl
  · rw [unpacked_eq] at h ⊢
    exact decode_eq x.toBits.toNat_lt h

theorem unpacked_ofBits {n : Nat} (h : n < 2 ^ 32) :
    unpacked (Float32.ofBits (UInt32.ofNat n)) =
      settle (ofFields (signOf (n / 2 ^ 31)) (n / 2 ^ 23 % 2 ^ 8) (n % 2 ^ 23)) := by
  have hn : (UInt32.ofNat n).toBitVec.toNat = n := by
    rw [UInt32.toNat_toBitVec, UInt32.toNat_ofNat_of_lt' h]
  change settle (unpack binary32 (UInt32.ofNat n).toBitVec) = _
  rw [unpack_eq, hn]

/-- The words up to that of infinity stand for numbers that are not negative, and only the first of
them for zero. -/
theorem ofFields_word {n : Nat} (h : n ≤ 255 * 2 ^ 23) :
    ofFields (signOf (n / 2 ^ 31)) (n / 2 ^ 23 % 2 ^ 8) (n % 2 ^ 23) = .zero .positive ∧ n = 0 ∨
      Signed .positive (ofFields (signOf (n / 2 ^ 31)) (n / 2 ^ 23 % 2 ^ 8) (n % 2 ^ 23)) := by
  have hsign : signOf (n / 2 ^ 31) = .positive := by
    rw [signOf, if_pos (by omega)]
  rw [hsign]
  obtain ⟨-, -, heq⟩ | ⟨h₁, h₂, -⟩ | ⟨h₁, h₂, heq⟩ | ⟨-, hpos, heq⟩ | ⟨-, -, hpos, heq⟩ :=
    ofFields_cases .positive (n / 2 ^ 23 % 2 ^ 8) (n % 2 ^ 23)
  · rw [heq]
    exact Or.inr .infinity
  · omega
  · exact Or.inl ⟨heq, by omega⟩
  · rw [heq]
    exact Or.inr (.finite _ _ _)
  · rw [heq]
    exact Or.inr (.finite _ _ _)

theorem nearest_le (m : Nat) (e : Int) : Format.single.nearest m 1 e ≤ 255 * 2 ^ 23 := by
  unfold Format.nearest
  split_ifs
  · exact Nat.zero_le _
  · exact Nat.min_le_right _ _

/-- A datum that is not negative. -/
inductive Datum.NonNeg : Datum → Prop
  | infinite : NonNeg (.infinite false)
  | finite (m : Nat) (e : Int) : NonNeg (.finite false m e)

theorem encode_le {d : Datum} (h : d.NonNeg) : Format.single.encode d ≤ 255 * 2 ^ 23 := by
  cases h with
  | infinite => exact le_rfl
  | finite m e => exact nearest_le m e

theorem nonNeg_singleOfDatum {d : Datum} (h : d.NonNeg) : NonNeg (unpacked (singleOfDatum d)) := by
  have hle := encode_le h
  rw [singleOfDatum, unpacked_ofBits (by omega)]
  refine settle_nonNeg (canonical_ofFields _ (Nat.mod_lt _ (by norm_num))) ?_
  rcases ofFields_word hle with ⟨h, -⟩ | h
  · exact Or.inl h
  · exact Or.inr h

theorem signed_singleOfDatum {d : Datum} (h : d.NonNeg) (h' : Format.single.encode d ≠ 0) :
    Signed .positive (unpacked (singleOfDatum d)) := by
  have hle := encode_le h
  rw [singleOfDatum, unpacked_ofBits (by omega)]
  rcases ofFields_word hle with ⟨-, h⟩ | h
  · exact absurd h h'
  · exact h.settle (canonical_ofFields _ (Nat.mod_lt _ (by norm_num)))

/-! ### Exponentials -/

namespace Elementary

theorem sumSeries_nonneg {step : Nat → Int → Int} (hstep : ∀ k t, 0 ≤ t → 0 ≤ step k t) :
    ∀ (n k : Nat) {term acc : Int}, 0 ≤ term → 0 ≤ acc → 0 ≤ sumSeries step n k term acc
  | 0, _, _, _, _, hacc => hacc
  | n + 1, k, term, acc, hterm, hacc => by
    rw [sumSeries]
    split_ifs
    · exact hacc
    · exact sumSeries_nonneg hstep n (k + 1) (hstep k term hterm) (Int.add_nonneg hacc hterm)

theorem unit_pos : (0 : Int) < unit := by decide +kernel

theorem ln2_ge : 2 ^ 255 ≤ ln2 := by decide +kernel

theorem ofFixed_nonNeg {x : Int} (hx : 0 ≤ x) (e : Int) : (ofFixed x e).NonNeg := by
  rw [ofFixed, decide_eq_false (by omega)]
  exact .finite _ _

theorem expOfFixed_nonNeg (x : Int) : (expOfFixed x).NonNeg := by
  unfold expOfFixed
  split_ifs
  · exact .infinite
  · exact .finite _ _
  · have hr : 0 ≤ x % ln2 := Int.emod_nonneg _ (by have := ln2_ge; omega)
    refine ofFixed_nonNeg (sumSeries_nonneg (fun k t ht => ?_) _ _ unit_pos.le le_rfl) _
    exact Int.ediv_nonneg (Int.ediv_nonneg (Int.mul_nonneg ht hr) unit_pos.le) (by omega)

theorem exp_nonNeg {d : Datum} (h : ∀ s, d ≠ .nan s) : (exp d).NonNeg := by
  cases d with
  | nan s => exact absurd rfl (h s)
  | infinite s =>
    cases s
    · exact .infinite
    · exact .finite _ _
  | finite s m e =>
    rw [exp]
    split_ifs
    · exact .finite _ _
    · exact .infinite
    · exact expOfFixed_nonNeg _

end Elementary

theorem datum_ne_nan {u : UnpackedFloat} (h : u ≠ .notANumber) (s : Bool) : datum u ≠ .nan s := by
  cases u with
  | notANumber => exact absurd rfl h
  | infinity t => exact Datum.noConfusion
  | zero t => exact Datum.noConfusion
  | finite t m e hm => exact Datum.noConfusion

theorem singleMap_eq (f : Datum → Datum) (x : Float32) :
    singleMap f x = singleOfDatum (f (datum (unpacked x))) := by
  rw [← singleDatum_eq]
  rfl

theorem exp_nonNeg {x : Float32} (h : unpacked x ≠ .notANumber) :
    NonNeg (unpacked (Analytic.exp x)) := by
  change NonNeg (unpacked (singleMap Elementary.exp x))
  rw [singleMap_eq]
  exact nonNeg_singleOfDatum (Elementary.exp_nonNeg (datum_ne_nan h))

theorem exp_notANumber {x : Float32} (h : unpacked x = .notANumber) :
    unpacked (Analytic.exp x) = .notANumber := by
  change unpacked (singleMap Elementary.exp x) = _
  rw [singleMap_eq, h]
  rfl

theorem exp_zero {x : Float32} {s : Sign} (h : unpacked x = .zero s) :
    AtLeast 1 (unpacked (Analytic.exp x)) := by
  change AtLeast 1 (unpacked (singleMap Elementary.exp x))
  have hword : ∀ b, Format.single.encode (Elementary.exp (.finite b 0 (-149))) = 127 * 2 ^ 23 := by
    decide +kernel
  have hone : ofFields (signOf (127 * 2 ^ 23 / 2 ^ 31)) (127 * 2 ^ 23 / 2 ^ 23 % 2 ^ 8)
      (127 * 2 ^ 23 % 2 ^ 23) = .finite .positive (2 ^ 23) (-23) (by decide) := rfl
  have hdatum : datum (.zero s) = .finite (isNegative s) 0 (-149) := rfl
  rw [singleMap_eq, h, hdatum, singleOfDatum, hword, unpacked_ofBits (by norm_num), hone]
  exact atLeast_settle ⟨by decide, by decide, by decide⟩ (by decide)

/-! ### Logarithms -/

namespace Elementary

theorem oddPowers_go_nonneg {square : Int} (hsquare : 0 ≤ square) : ∀ (n k : Nat) {power acc : Int},
    0 ≤ power → 0 ≤ acc → 0 ≤ oddPowers.go false square n k power acc
  | 0, _, _, _, _, hacc => hacc
  | n + 1, k, power, acc, hpower, hacc => by
    rw [oddPowers.go]
    simp only [Bool.false_eq_true, if_false]
    split_ifs
    · exact hacc
    · have hnext := Int.tdiv_nonneg (Int.mul_nonneg hpower hsquare) unit_pos.le
      exact oddPowers_go_nonneg hsquare n (k + 2) hnext
        (Int.add_nonneg hacc (Int.tdiv_nonneg hpower (Int.natCast_nonneg k)))

theorem oddPowers_nonneg {z : Int} (hz : 0 ≤ z) : 0 ≤ oddPowers false z :=
  oddPowers_go_nonneg (Int.ediv_nonneg (Int.mul_nonneg hz hz) unit_pos.le) _ _ hz le_rfl

theorem unit_le_fixed {m : Nat} (hm : 0 < m) (hlog : m.log2 < 24) :
    (unit : Int) ≤ fixed false m (-m.log2) := by
  have hshift : fixed false m (-m.log2) = (m <<< (256 - m.log2) : Nat) := by
    have hscale : ((-m.log2 : Int) + scale) = (256 - m.log2 : Nat) := by
      rw [show scale = 256 from rfl]
      omega
    rw [fixed]
    simp only [hscale, Int.natCast_nonneg, if_true, Int.toNat_natCast, Bool.false_eq_true, if_false]
  have hunit : unit = 2 ^ m.log2 * 2 ^ (256 - m.log2) := by
    rw [← Nat.pow_add, Nat.add_sub_cancel' (by omega)]
    rfl
  rw [hshift, hunit, Nat.shiftLeft_eq]
  exact_mod_cast Nat.mul_le_mul_right _ (Nat.log2_self_le hm.ne')

/-- **The logarithm of a number that is at least one** is at least that of the power of two below
it. -/
theorem log_eq {m : Nat} {e : Int} (hm : 0 < m) (hlog : m.log2 < 24) :
    ∃ x : Int, log (.finite false m e) = ofFixed x 0 ∧ (m.log2 + e) * ln2 ≤ x := by
  have hunit := unit_le_fixed hm hlog
  have heq : log (.finite false m e) = ofFixed (2 * oddPowers false
      ((fixed false m (-m.log2) - unit) * unit / (fixed false m (-m.log2) + unit)) +
        (m.log2 + e) * ln2) 0 := by
    simp only [log, if_neg hm.ne', Bool.false_eq_true, if_false]
  have hodd := oddPowers_nonneg (Int.ediv_nonneg
    (Int.mul_nonneg (Int.sub_nonneg_of_le hunit) unit_pos.le)
    (Int.add_nonneg (unit_pos.le.trans hunit) unit_pos.le))
  exact ⟨_, heq, by omega⟩

theorem encode_ofFixed_ne_zero {x : Int} (hx : 2 ^ 255 ≤ x) :
    Format.single.encode (ofFixed x 0) ≠ 0 := by
  have hpos : x.natAbs ≠ 0 := by omega
  have hlog : 255 ≤ x.natAbs.log2 := (Nat.le_log2 hpos).mpr (by omega)
  rw [ofFixed, decide_eq_false (by omega)]
  change Format.single.nearest x.natAbs 1 _ ≠ 0
  have hone : Nat.log2 1 = 0 := rfl
  have hleast : Format.single.leastExponent = -149 := rfl
  have hfraction : (Format.single.fractionBits : Int) = 23 := rfl
  have hscale : (scale : Int) = 256 := rfl
  have hinfinity : 0 < Format.single.infinityWord := by decide
  unfold Format.nearest
  rw [if_neg hpos]
  simp only [Format.magnitude, hone, hleast, hfraction, hscale]
  -- the leading place is far above the least exponent, so the exponent of the word is not zero
  have hplace : ∀ top : Int, 254 ≤ top →
      1 ≤ (max (top + (0 - 256) - 23) (-149) - -149).toNat := fun top h => by omega
  have hword : ∀ a b : Nat, 1 ≤ a →
      min (a <<< Format.single.fractionBits + b) Format.single.infinityWord ≠ 0 := fun a b h => by
    rw [show Format.single.fractionBits = 23 from rfl, Nat.shiftLeft_eq]
    omega
  refine hword _ _ (hplace _ ?_)
  split_ifs <;> omega

end Elementary

theorem exists_log_eq {k : Int} {x : Float32} (h : AtLeast k (unpacked x)) :
    unpacked x = .infinity .positive ∨
      ∃ y : Int, Analytic.log x = singleOfDatum (Elementary.ofFixed y 0) ∧
        ∃ t, k - 1 ≤ t ∧ t * Elementary.ln2 ≤ y := by
  have hcanonical := canonical_unpacked x
  generalize hx : unpacked x = u at h hcanonical
  cases h with
  | infinity => exact Or.inl rfl
  | finite m e hm h =>
    obtain ⟨y, hy, hle⟩ := Elementary.log_eq (e := e) hm ((Nat.log2_lt hm.ne').mpr hcanonical.2.1)
    refine Or.inr ⟨y, ?_, _, ?_, hle⟩
    · change singleMap Elementary.log x = _
      rw [singleMap_eq, hx]
      exact congrArg singleOfDatum hy
    · rw [totalExponent] at h
      omega

theorem log_infinity {x : Float32} (h : unpacked x = .infinity .positive) :
    unpacked (Analytic.log x) = .infinity .positive := by
  change unpacked (singleMap Elementary.log x) = _
  rw [singleMap_eq, h]
  rfl

theorem log_notANumber {x : Float32} (h : unpacked x = .notANumber) :
    unpacked (Analytic.log x) = .notANumber := by
  change unpacked (singleMap Elementary.log x) = _
  rw [singleMap_eq, h]
  rfl

theorem log_nonNeg {x : Float32} (h : AtLeast 1 (unpacked x)) :
    NonNeg (unpacked (Analytic.log x)) := by
  rcases exists_log_eq h with h | ⟨y, hy, t, ht, hle⟩
  · rw [log_infinity h]
    exact Or.inr .infinity
  · rw [hy]
    have hln2 := Elementary.ln2_ge
    have hpos : 0 ≤ t * Elementary.ln2 := Int.mul_nonneg (by omega) (by omega)
    exact nonNeg_singleOfDatum (Elementary.ofFixed_nonNeg (hpos.trans hle) 0)

/-- **The logarithm of a number that is at least two** is positive. -/
theorem log_signed {x : Float32} (h : AtLeast 2 (unpacked x)) :
    Signed .positive (unpacked (Analytic.log x)) := by
  rcases exists_log_eq h with h | ⟨y, hy, t, ht, hle⟩
  · rw [log_infinity h]
    exact .infinity
  · rw [hy]
    have hln2 := Elementary.ln2_ge
    have hy' : 2 ^ 255 ≤ y :=
      calc 2 ^ 255 ≤ 1 * Elementary.ln2 := by omega
        _ ≤ t * Elementary.ln2 := Int.mul_le_mul_of_nonneg_right (by omega) (by omega)
        _ ≤ y := hle
    exact signed_singleOfDatum (Elementary.ofFixed_nonNeg (by omega) 0)
      (Elementary.encode_ofFixed_ne_zero hy')

end DraftHeads.Number
