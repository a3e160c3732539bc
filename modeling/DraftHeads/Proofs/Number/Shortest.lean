import DraftHeads.Number.Double
import DraftHeads.Proofs.Number.Digits
import DraftHeads.Proofs.Number.Quotient
import Mathlib.Tactic.NormNum

/-! # The shortest decimals read back

* `Decimal.nearestWord_congr`: decimals of one value have one nearest word, unless they are so large
  or so small that their size decides.
* `Decimal.shortest_reads`: the digits that are written for a double are those of a decimal whose
  nearest word is that double.
* `Double.ofDecimal_shortest`: reading the digits of a finite double gives the double.
* `Double.Same`: equality of doubles, all that is not a number being the same. -/

namespace DraftHeads.Number

namespace Decimal

variable {f : Format} {w : Nat} {d d' : Decimal}

/-! ### Values -/

/-- The value of a decimal. -/
def value (d : Decimal) : ℚ := d.significand * 10 ^ d.exponent

theorem value_eq_zero_iff : d.value = 0 ↔ d.significand = 0 := by
  have hten : (10 : ℚ) ^ d.exponent ≠ 0 := zpow_ne_zero _ (by norm_num)
  rw [value, mul_eq_zero, or_iff_left hten, Nat.cast_eq_zero]

/-- The size of the decimal leaves its nearest word open. -/
def InReach (d : Decimal) : Prop :=
  -5000 ≤ leadingPlace d.significand 1 + d.exponent ∧
    leadingPlace d.significand 1 + d.exponent ≤ 5000

theorem nearestWord_of_inReach (h : d.InReach) : d.nearestWord f =
    f.nearest (d.significand * 10 ^ d.exponent.toNat) (10 ^ (-d.exponent).toNat) 0 := by
  obtain ⟨hlow, hhigh⟩ := h
  simp only [nearestWord]
  split_ifs with hzero
  · rw [hzero, Nat.zero_mul, Format.nearest, if_pos rfl]
  · omega
  · omega
  · rfl

theorem quotient_eq_value (d : Decimal) :
    ((d.significand * 10 ^ d.exponent.toNat : Nat) : ℚ) / (10 ^ (-d.exponent).toNat : Nat) *
      2 ^ (0 : Int) = d.value := by
  have hten : (10 : ℚ) ≠ 0 := by norm_num
  rw [value, zpow_zero, mul_one, Nat.cast_mul, Nat.cast_pow, Nat.cast_pow, Nat.cast_ofNat,
    mul_div_assoc, ← zpow_natCast, ← zpow_natCast, ← zpow_sub₀ hten]
  congr 2
  omega

theorem ten_pow_ne_zero (n : Nat) : (10 : Nat) ^ n ≠ 0 := (Nat.pow_pos (by decide)).ne'

/-- **Decimals of one value** that are in reach have one nearest word. -/
theorem nearestWord_congr (hd : d.InReach) (hd' : d'.InReach) (h : d.value = d'.value) :
    d.nearestWord f = d'.nearestWord f := by
  rw [nearestWord_of_inReach hd, nearestWord_of_inReach hd']
  refine Format.nearest_quotient (ten_pow_ne_zero _) (ten_pow_ne_zero _) ?_
  rw [quotient_eq_value, quotient_eq_value, h]

/-- The nearest word of a decimal in reach that is the value of a word. -/
theorem nearestWord_of_value (hd : d.InReach) (hw : w < f.infinityWord)
    (h : d.value = f.valueOf w) : d.nearestWord f = w := by
  rw [nearestWord_of_inReach hd]
  exact Format.nearest_quotient_word hw (ten_pow_ne_zero _) ((quotient_eq_value d).trans h)

/-! ### Sizes -/

/-- The decimal has at most so many bits, and its exponent is at most so far from zero. -/
structure Within (bits places : Nat) (d : Decimal) : Prop where
  size : d.significand.log2 ≤ bits
  low : -(places : Int) ≤ d.exponent
  high : d.exponent ≤ places

theorem Within.inReach {bits places : Nat} (h : d.Within bits places) (hbits : bits ≤ 10000)
    (hplaces : places ≤ 1200) : d.InReach := by
  have hone : Nat.log2 1 = 0 := by decide
  obtain ⟨hsize, hlow, hhigh⟩ := h
  unfold InReach
  simp only [leadingPlace, hone]
  split_ifs <;> omega

theorem log2_mul_pow_le (m : Nat) {b c : Nat} (hb : b ≤ 2 ^ c) (k : Nat) :
    (m * b ^ k).log2 ≤ m.log2 + c * k := by
  by_cases hzero : m * b ^ k = 0
  · rw [hzero]
    exact Nat.zero_le _
  refine Nat.le_of_lt_succ ((Nat.log2_lt hzero).mpr ?_)
  calc m * b ^ k < 2 ^ (m.log2 + 1) * 2 ^ (c * k) := by
        rw [Nat.pow_mul]
        exact Nat.mul_lt_mul_of_lt_of_le Nat.lt_log2_self (Nat.pow_le_pow_left hb k)
          (Nat.pow_pos (Nat.two_pow_pos c))
    _ = 2 ^ (m.log2 + c * k).succ := by
        rw [← Nat.pow_add]
        congr 1
        omega

theorem log2_le_of_le {m n : Nat} (h : m ≤ n) : m.log2 ≤ n.log2 := by
  by_cases hm : m = 0
  · rw [hm]
    exact Nat.zero_le _
  · exact (Nat.le_log2 (by omega)).mpr ((Nat.log2_self_le hm).trans h)

theorem log2_succ_le (n : Nat) : (n + 1).log2 ≤ n.log2 + 1 := by
  refine Nat.le_of_lt_succ ((Nat.log2_lt n.succ_ne_zero).mpr ?_)
  have hlt := Nat.lt_log2_self (n := n)
  have hpow := Nat.pow_lt_pow_right (a := 2) (by decide) (Nat.lt_succ_self (n.log2 + 1))
  omega

/-! ### Trimming and writing -/

theorem trim_succ (n : Nat) (d : Decimal) : d.trim (n + 1) =
    if d.significand ≠ 0 ∧ d.significand % 10 = 0 then
      trim n ⟨d.significand / 10, d.exponent + 1⟩ else d := rfl

/-- **Trimming** changes the form of a decimal only. -/
theorem value_trim (n : Nat) (d : Decimal) : (d.trim n).value = d.value := by
  induction n generalizing d with
  | zero => rfl
  | succ n ih =>
    rw [trim_succ]
    split_ifs with h
    · rw [ih]
      have hten : (10 : ℚ) ≠ 0 := by norm_num
      have hsig : d.significand = d.significand / 10 * 10 := by omega
      rw [value, value, zpow_add₀ hten, zpow_one]
      conv_rhs => rw [hsig]
      push_cast
      ring
    · rfl

theorem within_trim {bits places : Nat} (n : Nat) (h : d.Within bits places) :
    (d.trim n).Within bits (places + n) := by
  induction n generalizing d places with
  | zero => exact h
  | succ n ih =>
    rw [trim_succ]
    obtain ⟨hsize, hlow, hhigh⟩ := h
    split_ifs
    · rw [show places + (n + 1) = places + 1 + n by omega]
      refine ih ⟨(log2_le_of_le (Nat.div_le_self _ _)).trans hsize, ?_, ?_⟩ <;> push_cast <;> omega
    · exact ⟨hsize, by omega, by omega⟩

theorem value_asWritten (d : Decimal) : d.asWritten.value = d.value := by
  rw [asWritten]
  split_ifs with h
  · obtain ⟨n, hn⟩ := Int.eq_ofNat_of_zero_le h
    rw [value, value, hn, Int.toNat_natCast, zpow_natCast, zpow_neg, zpow_one]
    push_cast
    ring
  · rfl

theorem within_asWritten {bits places : Nat} (h : d.Within bits places) :
    d.asWritten.Within (bits + 4 * (places + 1)) (places + 1) := by
  obtain ⟨hsize, hlow, hhigh⟩ := h
  rw [asWritten]
  split_ifs with hexp
  · refine ⟨?_, by dsimp only; omega, by dsimp only; omega⟩
    have hlog := log2_mul_pow_le (b := 10) (c := 4) d.significand (by decide) (d.exponent.toNat + 1)
    rw [Nat.mul_comm]
    dsimp only
    omega
  · exact ⟨by omega, by omega, by omega⟩

/-! ### The shortest decimal -/

theorem value_exact (m : Nat) (e : Int) : (exact m e).value = m * 2 ^ e := by
  rw [exact]
  split_ifs with h
  · obtain ⟨n, rfl⟩ := Int.eq_ofNat_of_zero_le h
    rw [value, Int.toNat_natCast, Nat.shiftLeft_eq, zpow_natCast, zpow_zero, mul_one]
    push_cast
    rfl
  · obtain ⟨n, hn⟩ := Int.eq_ofNat_of_zero_le (Int.neg_nonneg.mpr (Int.not_le.mp h).le)
    obtain rfl : e = -n := by omega
    have hten : (10 : ℚ) = 5 * 2 := by norm_num
    rw [value, neg_neg, Int.toNat_natCast, zpow_neg, zpow_neg, zpow_natCast, zpow_natCast, hten,
      mul_pow]
    change (((m * 5 ^ n : Nat) : ℚ)) * _ = _
    push_cast
    field_simp

/-- **What is found on a grid** reads back, and lies on the grid. -/
theorem neighbour?_eq_some {num den : Nat} {k : Int} (h : neighbour? f w num den k = some d) :
    d.nearestWord f = w ∧ d.exponent = k ∧
      d.significand ≤ num * 10 ^ (-k).toNat + 1 := by
  unfold neighbour? at h
  dsimp only at h
  have hmem := List.mem_of_find?_eq_some h
  have hreads := @List.find?_some _ (fun d : Decimal => decide (d.nearestWord f = w)) _ _ h
  have hle : num * Nat.pow 10 (-k).toNat / (den * Nat.pow 10 k.toNat) ≤ num * 10 ^ (-k).toNat :=
    Nat.div_le_self _ _
  refine ⟨of_decide_eq_true hreads, ?_⟩
  obtain rfl | rfl : d = ⟨num * Nat.pow 10 (-k).toNat / (den * Nat.pow 10 k.toNat), k⟩ ∨
      d = ⟨num * Nat.pow 10 (-k).toNat / (den * Nat.pow 10 k.toNat) + 1, k⟩ := by
    split_ifs at hmem <;> simp only [List.mem_cons, List.not_mem_nil, or_false] at hmem
    · exact hmem
    · exact hmem.symm
  · exact ⟨rfl, hle.trans (Nat.le_succ _)⟩
  · exact ⟨rfl, Nat.succ_le_succ hle⟩

/-- The decimal that is trimmed to the shortest one: the first that is found on a grid. -/
def candidate (f : Format) (w m : Nat) (e : Int) : Decimal :=
  let num := m <<< e.toNat
  let den := 1 <<< (-e).toNat
  (((List.range 17).map fun n : Nat => leadingPlace num den - n).findSome?
    (neighbour? f w num den)).getD (exact m e)

theorem shortest_of_finite (hw : w < f.infinityWord) : shortest f w =
    if f.significandOf w = 0 then ⟨0, 0⟩
    else (candidate f w (f.significandOf w) (f.placeOf w)).trim 17 := by
  have hdecode : f.decode w = .finite false (f.significandOf w) (f.placeOf w) :=
    Format.decode_signed false hw
  rw [shortest, hdecode]
  rfl

/-! ### Doubles -/

theorem double_placeOf (hw : w < Format.double.infinityWord) :
    -1074 ≤ Format.double.placeOf w ∧ Format.double.placeOf w ≤ 971 := by
  have hleast : Format.double.leastExponent = -1074 := by decide
  have hexp := Format.exponent_lt hw
  rw [Format.placeOf, hleast]
  have : 2 ^ Format.double.exponentBits - 1 = 2047 := by decide
  omega

theorem double_significandOf (w : Nat) : (Format.double.significandOf w).log2 ≤ 52 := by
  by_cases hzero : Format.double.significandOf w = 0
  · rw [hzero]
    decide
  · exact Nat.le_of_lt_succ ((Nat.log2_lt hzero).mpr (Format.significandOf_lt w))

theorem within_exact {m : Nat} {e : Int} (hm : m.log2 ≤ 52) (he : -1074 ≤ e ∧ e ≤ 971) :
    (exact m e).Within 3300 1100 := by
  rw [exact]
  split_ifs with h
  · have := log2_mul_pow_le (b := 2) (c := 1) m le_rfl e.toNat
    rw [Nat.shiftLeft_eq]
    exact ⟨by dsimp only; omega, by dsimp only; omega, by dsimp only; omega⟩
  · have := log2_mul_pow_le (b := 5) (c := 3) m (by decide) (-e).toNat
    refine ⟨?_, by dsimp only; omega, by dsimp only; omega⟩
    change (m * 5 ^ (-e).toNat).log2 ≤ 3300
    omega

theorem within_neighbour? {m : Nat} {e : Int} (hm : m.log2 ≤ 52) (he : -1074 ≤ e ∧ e ≤ 971)
    {n : Nat} (hn : n < 17) (h : neighbour? f w (m <<< e.toNat) (1 <<< (-e).toNat)
      (leadingPlace (m <<< e.toNat) (1 <<< (-e).toNat) - n) = some d) :
    d.Within 3300 1100 := by
  have hnum : (m <<< e.toNat).log2 ≤ 1023 := by
    have := log2_mul_pow_le (b := 2) (c := 1) m le_rfl e.toNat
    rw [Nat.shiftLeft_eq]
    omega
  have hden : (1 <<< (-e).toNat).log2 ≤ 1074 := by
    have := log2_mul_pow_le (b := 2) (c := 1) 1 le_rfl (-e).toNat
    have hone : Nat.log2 1 = 0 := by decide
    rw [Nat.shiftLeft_eq]
    omega
  have hplace : -325 ≤ leadingPlace (m <<< e.toNat) (1 <<< (-e).toNat) ∧
      leadingPlace (m <<< e.toNat) (1 <<< (-e).toNat) ≤ 308 := by
    simp only [leadingPlace]
    split_ifs <;> omega
  obtain ⟨-, hexp, hle⟩ := neighbour?_eq_some h
  have hsize := (log2_le_of_le hle).trans (log2_succ_le _)
  have hpow := log2_mul_pow_le (b := 10) (c := 4) (m <<< e.toNat) (by decide)
    (-(leadingPlace (m <<< e.toNat) (1 <<< (-e).toNat) - n)).toNat
  exact ⟨by omega, by omega, by omega⟩

theorem candidate_reads (hw : w < Format.double.infinityWord) :
    (candidate .double w (Format.double.significandOf w) (Format.double.placeOf w)).nearestWord
        .double = w ∧
      (candidate .double w (Format.double.significandOf w) (Format.double.placeOf w)).Within
        3300 1100 := by
  have hm := double_significandOf w
  have he := double_placeOf hw
  unfold candidate
  dsimp only
  cases hfound : ((List.range 17).map fun n : Nat =>
      leadingPlace (Format.double.significandOf w <<< (Format.double.placeOf w).toNat)
        (1 <<< (-Format.double.placeOf w).toNat) - n).findSome?
        (neighbour? .double w (Format.double.significandOf w <<< (Format.double.placeOf w).toNat)
          (1 <<< (-Format.double.placeOf w).toNat)) with
  | none =>
    have hwithin := within_exact hm he
    refine ⟨nearestWord_of_value (hwithin.inReach (by decide) (by decide)) hw ?_, hwithin⟩
    rw [Option.getD_none, value_exact]
    rfl
  | some d =>
    obtain ⟨k, hk, hd⟩ := List.exists_of_findSome?_eq_some hfound
    obtain ⟨n, hn, rfl⟩ := List.mem_map.mp hk
    exact ⟨(neighbour?_eq_some hd).1, within_neighbour? hm he (List.mem_range.mp hn) hd⟩

/-- **The digits that are written for a double** are those of a decimal that reads back. -/
theorem shortest_reads (hw : w < Format.double.infinityWord) :
    (shortest .double w).asWritten.nearestWord .double = w := by
  rw [shortest_of_finite hw]
  split_ifs with hzero
  · have hword : w = 0 := by
      rw [← Format.nearest_significandOf hw, hzero, Format.nearest, if_pos rfl]
    rw [hword]
    decide
  · obtain ⟨hreads, hwithin⟩ := candidate_reads hw
    set d := candidate .double w (Format.double.significandOf w) (Format.double.placeOf w)
    have hwritten := within_asWritten (within_trim 17 hwithin)
    rw [← nearestWord_congr (hwithin.inReach (by decide) (by decide))
      (hwritten.inReach (by decide) (by decide)) ?_]
    · exact hreads
    · rw [value_asWritten, value_trim]

theorem shortest_exponent (hw : w < Format.double.infinityWord)
    (h : (shortest .double w).significand = 0) : (shortest .double w).exponent ≤ 0 := by
  rw [shortest_of_finite hw] at h ⊢
  split_ifs at h ⊢ with hzero
  · exact le_rfl
  · have hreads := (candidate_reads hw).1
    rw [← value_eq_zero_iff, value_trim, value_eq_zero_iff] at h
    rw [nearestWord, if_pos h] at hreads
    rw [← hreads] at hzero
    exact absurd rfl hzero

end Decimal

namespace Double

theorem signed_magnitude (x : Double) :
    (⟨UInt64.ofNat (Format.double.signed x.isNegative x.magnitude)⟩ : Double) = x := by
  have hlt : x.word.toNat < 2 * Format.double.signWord := x.word.toNat_lt
  have hword : Format.double.signed x.isNegative x.magnitude = x.word.toNat := by
    rw [Format.signed, isNegative, magnitude]
    split_ifs with h <;> simp only [decide_eq_true_eq] at h
    · rw [Nat.mod_eq_sub_mod h, Nat.mod_eq_of_lt (by omega)]
      omega
    · exact Nat.mod_eq_of_lt (Nat.not_le.mp h)
  rw [hword, UInt64.ofNat_toNat]

/-- **Reading the digits of a double** that is neither infinite nor not a number gives the
double. -/
theorem ofDecimal_shortest {x : Double} (h : x.isFinite) :
    ofDecimal x.isNegative
      (.ofDigits x.shortest.positional.1 (Decimal.places x.shortest.positional.2) 0) = x := by
  have hword : x.magnitude < Format.double.infinityWord := of_decide_eq_true h
  rw [ofDecimal, Decimal.ofDigits_positional, shortest, Decimal.shortest_reads hword,
    signed_magnitude]

theorem whole_shortest {x : Double} (h : x.isFinite) :
    Decimal.Whole x.shortest.positional.1 :=
  Decimal.positional_whole (Decimal.shortest_exponent (of_decide_eq_true h))

/-- Two doubles are the same number, or neither is a number. -/
def Same (x y : Double) : Prop := x = y ∨ x.isNaN ∧ y.isNaN

/-- The double, with one word for all that is not a number. -/
def settled (x : Double) : Double := if x.isNaN then .ofDatum (.nan false) else x

theorem isNaN_settled (x : Double) : x.settled.isNaN = x.isNaN := by
  rw [settled]
  split_ifs with h
  · rw [h]
    decide
  · rfl

theorem same_iff_settled {x y : Double} : x.Same y ↔ x.settled = y.settled := by
  refine ⟨?_, fun h => ?_⟩
  · rintro (rfl | ⟨hx, hy⟩)
    · rfl
    · rw [settled, settled, if_pos hx, if_pos hy]
  · by_cases hx : x.isNaN
    · have hy : y.isNaN := by rw [← isNaN_settled, ← h, isNaN_settled, hx]
      exact Or.inr ⟨hx, hy⟩
    · have hy : ¬ y.isNaN := by rwa [← isNaN_settled, ← h, isNaN_settled]
      rw [settled, settled, if_neg hx, if_neg hy] at h
      exact Or.inl h

theorem settled_same (x : Double) : x.settled.Same x := by
  rw [Same, isNaN_settled, settled]
  split_ifs with h
  · exact Or.inr ⟨h, h⟩
  · exact Or.inl rfl

theorem ofDatum_infinite {x : Double} (hnan : x.isNaN = false) (hfinite : x.isFinite = false) :
    ofDatum (.infinite x.isNegative) = x := by
  have hword : x.magnitude = Format.double.infinityWord :=
    le_antisymm (Nat.not_lt.mp (of_decide_eq_false hnan))
      (Nat.not_lt.mp (of_decide_eq_false hfinite))
  conv_rhs => rw [← signed_magnitude x, hword]
  rfl

end Double

end DraftHeads.Number
