import DraftHeads.Proofs.Number.Rounding

/-! # Words and the numbers that they stand for

A word below that of infinity stands for the magnitude `significandOf w · 2 ^ placeOf w`.

* `decode_signed`: the datum of such a word with a sign; `exists_word`: every word of a finite datum
  is one.
* `nearest_congr`: the word that is nearest to a magnitude depends on its value only.
* `nearest_word`: the word nearest to the number of a word is that word.
* `exists_word_of_fits`: a magnitude that has room in a format is the number of a word. -/

namespace DraftHeads.Number.Format

variable (f : Format)

/-! ### Words -/

/-- The significand of the number of a word. -/
def significandOf (w : Nat) : Nat :=
  if w < 2 ^ f.fractionBits then w else 2 ^ f.fractionBits + w % 2 ^ f.fractionBits

/-- The exponent of the number of a word. -/
def placeOf (w : Nat) : Int := f.leastExponent + (w / 2 ^ f.fractionBits - 1 : Nat)

/-- The value of a word. -/
def valueOf (w : Nat) : ℚ := f.significandOf w * 2 ^ f.placeOf w

theorem infinityWord_eq : f.infinityWord = (2 ^ f.exponentBits - 1) * 2 ^ f.fractionBits := by
  rw [infinityWord, Nat.shiftLeft_eq, Nat.shiftLeft_eq, one_mul]

theorem signWord_eq : f.signWord = 2 ^ f.exponentBits * 2 ^ f.fractionBits := by
  rw [signWord, Nat.shiftLeft_eq, one_mul, pow_add]

theorem infinityWord_lt_signWord : f.infinityWord < f.signWord := by
  rw [infinityWord_eq, signWord_eq]
  exact Nat.mul_lt_mul_of_pos_right (Nat.sub_lt (Nat.two_pow_pos _) one_pos) (Nat.two_pow_pos _)

variable {f} {w : Nat}

theorem exponent_lt (hw : w < f.infinityWord) :
    w / 2 ^ f.fractionBits < 2 ^ f.exponentBits - 1 := by
  rwa [Nat.div_lt_iff_lt_mul (Nat.two_pow_pos _), ← infinityWord_eq]

theorem div_eq_zero_iff : w / 2 ^ f.fractionBits = 0 ↔ w < 2 ^ f.fractionBits := by
  rw [Nat.div_eq_zero_iff]
  simp

theorem place_add_significand (w : Nat) :
    (f.placeOf w - f.leastExponent).toNat * 2 ^ f.fractionBits + f.significandOf w = w := by
  rw [placeOf, add_sub_cancel_left, Int.toNat_natCast, significandOf]
  split_ifs with h
  · rw [div_eq_zero_iff.mpr h]
    simp
  · have hpos : w / 2 ^ f.fractionBits ≠ 0 := mt div_eq_zero_iff.mp h
    have hdiv := Nat.div_add_mod' w (2 ^ f.fractionBits)
    have hsucc := Nat.succ_pred_eq_of_ne_zero hpos
    rw [← Nat.add_assoc, ← Nat.succ_mul, ← Nat.pred_eq_sub_one, hsucc, hdiv]

theorem le_placeOf (w : Nat) : f.leastExponent ≤ f.placeOf w := by
  rw [placeOf]
  omega

theorem significandOf_lt (w : Nat) : f.significandOf w < 2 ^ (f.fractionBits + 1) := by
  have hmod := Nat.mod_lt w (Nat.two_pow_pos f.fractionBits)
  rw [significandOf, pow_succ]
  split_ifs <;> omega

theorem full_or_least (w : Nat) :
    2 ^ f.fractionBits ≤ f.significandOf w ∨
      f.significandOf w < 2 ^ f.fractionBits ∧ f.placeOf w = f.leastExponent := by
  rw [significandOf]
  split_ifs with h
  · right
    rw [placeOf, div_eq_zero_iff.mpr h]
    exact ⟨h, by simp⟩
  · exact Or.inl (Nat.le_add_right _ _)

theorem signed_mod (negative : Bool) (w : Nat) :
    f.signed negative w % 2 ^ f.fractionBits = w % 2 ^ f.fractionBits := by
  cases negative
  · rfl
  · rw [signed, if_pos rfl, signWord_eq, Nat.mul_add_mod']

theorem signed_div (negative : Bool) (hw : w < f.signWord) :
    f.signed negative w / 2 ^ f.fractionBits % 2 ^ f.exponentBits = w / 2 ^ f.fractionBits := by
  have hlt : w / 2 ^ f.fractionBits < 2 ^ f.exponentBits := by
    rwa [Nat.div_lt_iff_lt_mul (Nat.two_pow_pos _), ← signWord_eq]
  cases negative
  · exact Nat.mod_eq_of_lt hlt
  · rw [signed, if_pos rfl, signWord_eq, Nat.add_comm,
      Nat.add_mul_div_right _ _ (Nat.two_pow_pos _), Nat.add_mod_right, Nat.mod_eq_of_lt hlt]

theorem signed_sign (negative : Bool) (hw : w < f.signWord) :
    (f.signed negative w / f.signWord % 2 == 1) = negative := by
  have hlt : w / f.signWord = 0 := Nat.div_eq_of_lt hw
  cases negative
  · rw [signed, if_neg Bool.false_ne_true, hlt]
    rfl
  · rw [signed, if_pos rfl, Nat.add_div_left _ (Nat.zero_lt_of_lt hw), hlt]
    rfl

theorem exists_signed {n : Nat} (hn : n < 2 * f.signWord) :
    ∃ negative, ∃ w < f.signWord, n = f.signed negative w := by
  rcases Nat.lt_or_ge n f.signWord with h | h
  · exact ⟨false, n, h, rfl⟩
  · refine ⟨true, n - f.signWord, by omega, ?_⟩
    rw [signed, if_pos rfl]
    omega

theorem decode_eq_fields (negative : Bool) (hw : w < f.signWord) :
    f.decode (f.signed negative w) =
      if w / 2 ^ f.fractionBits = 2 ^ f.exponentBits - 1 then
        if w % 2 ^ f.fractionBits = 0 then .infinite negative else .nan negative
      else if w / 2 ^ f.fractionBits = 0 then
        .finite negative (w % 2 ^ f.fractionBits) f.leastExponent
      else .finite negative (2 ^ f.fractionBits + w % 2 ^ f.fractionBits) (f.placeOf w) := by
  have hpow : ∀ n, 1 <<< n = 2 ^ n := fun n => by rw [Nat.shiftLeft_eq, one_mul]
  unfold decode
  simp only [hpow, Nat.shiftRight_eq_div_pow, signed_mod, signed_div negative hw,
    signed_sign negative hw]
  rfl

theorem decode_signed (negative : Bool) (hw : w < f.infinityWord) :
    f.decode (f.signed negative w) = .finite negative (f.significandOf w) (f.placeOf w) := by
  rw [decode_eq_fields negative (hw.trans f.infinityWord_lt_signWord), if_neg (exponent_lt hw).ne,
    significandOf]
  by_cases h : w < 2 ^ f.fractionBits
  · rw [if_pos (div_eq_zero_iff.mpr h), if_pos h, placeOf, div_eq_zero_iff.mpr h,
      Nat.mod_eq_of_lt h]
    simp
  · rw [if_neg (mt div_eq_zero_iff.mp h), if_neg h]

theorem exists_word {n : Nat} (hn : n < 2 * f.signWord) {negative : Bool} {m : Nat} {e : Int}
    (h : f.decode n = .finite negative m e) :
    ∃ w < f.infinityWord, n = f.signed negative w ∧ m = f.significandOf w ∧ e = f.placeOf w := by
  obtain ⟨s, w, hw, rfl⟩ := exists_signed hn
  have hfinite : w < f.infinityWord := by
    -- otherwise all bits of the exponent are set
    by_contra hle
    have hge : 2 ^ f.exponentBits - 1 ≤ w / 2 ^ f.fractionBits := by
      rw [Nat.le_div_iff_mul_le (Nat.two_pow_pos _), ← infinityWord_eq]
      exact Nat.not_lt.mp hle
    have hlt : w / 2 ^ f.fractionBits < 2 ^ f.exponentBits := by
      rwa [Nat.div_lt_iff_lt_mul (Nat.two_pow_pos _), ← signWord_eq]
    rw [decode_eq_fields s hw, if_pos (by omega)] at h
    split_ifs at h
  rw [decode_signed s hfinite] at h
  obtain ⟨rfl, hm, he⟩ := Datum.finite.inj h
  exact ⟨w, hfinite, rfl, hm.symm, he.symm⟩

/-! ### Nearest words -/

theorem nearest_congr {m m' : Nat} {e e' : Int} (h : (m : ℚ) * 2 ^ e = m' * 2 ^ e') :
    f.nearest m 1 e = f.nearest m' 1 e' :=
  le_antisymm (f.nearest_mono h.le) (f.nearest_mono h.ge)

/-- **The word nearest to the number of a word** is that word. -/
theorem nearest_significandOf (hw : w < f.infinityWord) :
    f.nearest (f.significandOf w) 1 (f.placeOf w) = w := by
  have hword := place_add_significand (f := f) w
  by_cases hzero : f.significandOf w = 0
  · have hsmall : w < 2 ^ f.fractionBits := by
      by_contra h
      rw [significandOf, if_neg h] at hzero
      have := Nat.two_pow_pos f.fractionBits
      omega
    rw [significandOf, if_pos hsmall] at hzero
    rw [hzero]
    simp [nearest, significandOf]
  have hplace : f.lastPlace (f.significandOf w) (f.placeOf w) = f.placeOf w := by
    have hle := le_placeOf (f := f) w
    have hlog := (Nat.log2_lt hzero).mpr (significandOf_lt (f := f) w)
    rw [lastPlace]
    rcases full_or_least (f := f) w with hfull | ⟨hlt, hleast⟩
    · have := (Nat.le_log2 hzero).mpr hfull
      rw [max_eq_left (by omega)]
      omega
    · rw [max_eq_right (by omega), hleast]
  rw [nearest_eq f hzero, hplace, sub_self, rounded_zero, Nat.shiftLeft_eq, hword,
    Nat.min_eq_left hw.le]

theorem nearest_word {m : Nat} {e : Int} (hw : w < f.infinityWord)
    (h : (m : ℚ) * 2 ^ e = f.valueOf w) : f.nearest m 1 e = w :=
  (nearest_congr h).trans (nearest_significandOf hw)

theorem word_of_parts {k m : Nat} (hlt : m < 2 ^ (f.fractionBits + 1))
    (hfull : k = 0 ∨ 2 ^ f.fractionBits ≤ m) (hk : k + 2 < 2 ^ f.exponentBits) :
    k * 2 ^ f.fractionBits + m < f.infinityWord ∧
      f.significandOf (k * 2 ^ f.fractionBits + m) = m ∧
      f.placeOf (k * 2 ^ f.fractionBits + m) = f.leastExponent + k := by
  have hpos := Nat.two_pow_pos f.fractionBits
  rw [infinityWord_eq]
  by_cases hm : m < 2 ^ f.fractionBits
  · obtain rfl : k = 0 := hfull.resolve_right (Nat.not_le.mpr hm)
    rw [Nat.zero_mul, Nat.zero_add]
    refine ⟨?_, if_pos hm, ?_⟩
    · calc m < 1 * 2 ^ f.fractionBits := by rwa [one_mul]
        _ ≤ _ := Nat.mul_le_mul_right _ (by omega)
    · rw [placeOf, Nat.div_eq_of_lt hm]
  · -- the leading bit of the significand is carried into the exponent
    obtain ⟨r, rfl⟩ := Nat.exists_eq_add_of_le (Nat.not_lt.mp hm)
    rw [pow_succ] at hlt
    have hr : r < 2 ^ f.fractionBits := by omega
    have hword : k * 2 ^ f.fractionBits + (2 ^ f.fractionBits + r) =
        r + 2 ^ f.fractionBits * (k + 1) := by ring
    have hdiv : (r + 2 ^ f.fractionBits * (k + 1)) / 2 ^ f.fractionBits = k + 1 := by
      rw [Nat.add_mul_div_left _ _ hpos, Nat.div_eq_of_lt hr, Nat.zero_add]
    have hmod : (r + 2 ^ f.fractionBits * (k + 1)) % 2 ^ f.fractionBits = r := by
      rw [Nat.add_mul_mod_self_left, Nat.mod_eq_of_lt hr]
    rw [hword]
    refine ⟨?_, ?_, ?_⟩
    · rw [← Nat.div_lt_iff_lt_mul hpos, hdiv]
      omega
    · rw [significandOf, hmod, if_neg]
      rw [← div_eq_zero_iff, hdiv]
      exact Nat.succ_ne_zero k
    · rw [placeOf, hdiv, Nat.add_sub_cancel]

/-- **A magnitude that has room in a format** is the number of a word. -/
theorem exists_word_of_fits {m : Nat} {e : Int} (hm : m ≠ 0) (hleast : f.leastExponent ≤ e)
    (hbits : m < 2 ^ (f.fractionBits + 1))
    (hlarge : (f.lastPlace m e - f.leastExponent).toNat + 2 < 2 ^ f.exponentBits) :
    ∃ w < f.infinityWord, f.valueOf w = m * 2 ^ e := by
  have hlog := (Nat.log2_lt hm).mpr hbits
  set p := f.lastPlace m e with hp
  have hple : p ≤ e := max_le (by omega) hleast
  have hleastp : f.leastExponent ≤ p := le_max_right _ _
  have hshift : (m.log2 : Int) + e - f.fractionBits ≤ p := le_max_left _ _
  obtain ⟨j, hj⟩ : ∃ j : Nat, e = p + j := ⟨(e - p).toNat, by omega⟩
  have hlt : m * 2 ^ j < 2 ^ (f.fractionBits + 1) := by
    calc m * 2 ^ j < 2 ^ (m.log2 + 1) * 2 ^ j :=
          Nat.mul_lt_mul_of_pos_right Nat.lt_log2_self (Nat.two_pow_pos j)
      _ = 2 ^ (m.log2 + 1 + j) := (pow_add _ _ _).symm
      _ ≤ 2 ^ (f.fractionBits + 1) := Nat.pow_le_pow_right two_pos (by omega)
  have hfull : (p - f.leastExponent).toNat = 0 ∨ 2 ^ f.fractionBits ≤ m * 2 ^ j := by
    rcases hleastp.eq_or_lt with heq | hlt
    · exact Or.inl (by omega)
    · right
      have hnormal : p = m.log2 + e - f.fractionBits := by
        have : p = max (m.log2 + e - f.fractionBits) f.leastExponent := rfl
        omega
      calc 2 ^ f.fractionBits = 2 ^ (m.log2 + j) := by congr 1; omega
        _ = 2 ^ m.log2 * 2 ^ j := pow_add _ _ _
        _ ≤ m * 2 ^ j := Nat.mul_le_mul_right _ (Nat.log2_self_le hm)
  obtain ⟨hw, hsignificand, hplace⟩ := word_of_parts hlt hfull hlarge
  refine ⟨_, hw, ?_⟩
  have hexponent : f.leastExponent + (p - f.leastExponent).toNat = p := by omega
  rw [valueOf, hsignificand, hplace, hexponent, hj, zpow_add₀ two_ne_zero, zpow_natCast]
  push_cast
  ring

end DraftHeads.Number.Format
