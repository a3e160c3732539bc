import DraftHeads.Number.Decimal
import Mathlib.Algebra.Group.Nat.Defs
import Mathlib.Data.List.Basic
import Mathlib.Data.List.Induction

/-! # Digits

The digits of a number, and what they say when they are read.

* `digitsValue_digits`: the digits of a natural number read back as the number.
* `Whole`: digits that have no zero in front; `whole_digits`, and `digits_digitsValue`: they are the
  digits of the number that they read as.
* `Decimal.asWritten`: a decimal with the places that its text has; `positional_whole` and
  `ofDigits_positional` say that its text can be read and stands for it. -/

namespace DraftHeads.Number.Decimal

theorem digitsValue_cons (acc : Nat) (c : Char) (cs : List Char) :
    digitsValue acc (c :: cs) = digitsValue (10 * acc + (c.toNat - '0'.toNat)) cs := (rfl)

theorem digitsValue_eq (acc : Nat) (cs : List Char) :
    digitsValue acc cs = Nat.ofDigitChars 10 cs acc := by
  induction cs generalizing acc with
  | nil => rfl
  | cons c cs ih => rw [digitsValue_cons, ih, Nat.ofDigitChars_cons]

/-- **Digits read back** as the number that they were written for. -/
theorem digitsValue_digits (n : Nat) : digitsValue 0 (digits n) = n := by
  rw [digitsValue_eq, digits, Nat.ofDigitChars_ten_toDigits]

theorem isDigit_of_mem_digits {n : Nat} {c : Char} (hc : c ∈ digits n) : c.isDigit :=
  Nat.isDigit_of_mem_toDigits (by decide) (by decide) hc

/-- Digits in front of a point: at least one, and a zero in front only if it is the only one. -/
structure Whole (cs : List Char) : Prop where
  isDigit : ∀ c ∈ cs, c.isDigit
  nonempty : cs ≠ []
  alone : cs.head? = some '0' → cs = ['0']

theorem Whole.take {cs : List Char} (h : Whole cs) {n : Nat} (hn : n ≠ 0) : Whole (cs.take n) where
  isDigit _ hc := h.isDigit _ (List.mem_of_mem_take hc)
  nonempty heq := (List.take_eq_nil_iff.mp heq).elim hn h.nonempty
  alone hhead := by
    rw [List.head?_take, if_neg hn] at hhead
    rw [h.alone hhead]
    exact List.take_of_length_le (Nat.one_le_iff_ne_zero.mpr hn)

theorem head_digits {n : Nat} (h : (digits n).head? = some '0') : n = 0 := by
  induction n using Nat.strongRecOn with
  | ind n ih =>
    unfold digits at h ih
    rcases Nat.lt_or_ge n 10 with hlt | hge
    · have heq : Nat.toDigits 10 n = ['0'] := by
        rw [Nat.toDigits_of_lt_base hlt] at h ⊢
        rw [Option.some.inj h]
      rw [← Nat.ofDigitChars_ten_toDigits (n := n), heq]
      rfl
    · -- the first digit is that of a tenth
      rw [Nat.toDigits_of_base_le (by decide) hge, List.head?_append_of_ne_nil _
        Nat.toDigits_ne_nil] at h
      have := ih (n / 10) (by omega) h
      omega

theorem whole_digits (n : Nat) : Whole (digits n) where
  isDigit _ := isDigit_of_mem_digits
  nonempty := Nat.toDigits_ne_nil
  alone h := by
    rw [head_digits h]
    rfl

theorem digit_lt_ten {c : Char} (hc : c.isDigit) : c.toNat - '0'.toNat < 10 := by
  obtain ⟨hlow, hhigh⟩ := Char.isDigit_iff_toNat.mp hc
  exact Nat.sub_lt_left_of_lt_add hlow (Nat.lt_succ_of_le hhigh)

theorem toDigits_of_isDigit {c : Char} (hc : c.isDigit) :
    Nat.toDigits 10 (c.toNat - '0'.toNat) = [c] := by
  have hchar : (c.toNat - '0'.toNat).digitChar = c := by
    rw [← Char.toNat_inj, Nat.toNat_digitChar_of_lt_ten (digit_lt_ten hc)]
    exact Nat.add_sub_of_le (Char.isDigit_iff_toNat.mp hc).1
  rw [Nat.toDigits_of_lt_base (digit_lt_ten hc), hchar]

/-- **Digits without a zero in front** are those of the number that they read as. -/
theorem digits_digitsValue {cs : List Char} (h : Whole cs) : digits (digitsValue 0 cs) = cs := by
  rw [digitsValue_eq, digits]
  induction cs using List.reverseRecOn with
  | nil => exact absurd rfl h.nonempty
  | append_singleton ds c ih =>
    have hc := h.isDigit c (by simp)
    rw [Nat.ofDigitChars_append, Nat.ofDigitChars_cons, Nat.ofDigitChars_nil]
    rcases eq_or_ne ds [] with rfl | hne
    · rw [Nat.ofDigitChars_nil, Nat.mul_zero, Nat.zero_add, toDigits_of_isDigit hc,
        List.nil_append]
    · have hds : Whole ds := by
        have htake := h.take (n := ds.length) (by simpa using hne)
        rwa [List.take_left] at htake
      have hpos : 0 < Nat.ofDigitChars 10 ds 0 := by
        -- otherwise the digits in front of the last one are a single zero
        refine Nat.pos_of_ne_zero fun hzero => ?_
        have hdigits := ih hds
        rw [hzero, Nat.toDigits_zero] at hdigits
        subst hdigits
        have halone := h.alone rfl
        simp at halone
      rw [← Nat.toDigits_append_toDigits (by decide) hpos (digit_lt_ten hc), ih hds,
        toDigits_of_isDigit hc]

/-! ### Points -/

variable {d : Decimal}

/-- The decimal with the places that are written: at least one after the point. -/
def asWritten (d : Decimal) : Decimal :=
  if 0 ≤ d.exponent then ⟨10 ^ (d.exponent.toNat + 1) * d.significand, -1⟩ else d

/-- The digits after the point that are written. -/
def places (fraction : List Char) : List Char := if fraction.isEmpty then ['0'] else fraction

theorem positional_of_nonneg (h : 0 ≤ d.exponent) :
    d.positional = (digits d.significand ++ List.replicate d.exponent.toNat '0', []) := by
  rw [positional, if_pos h]

/-- The digits of a decimal with at least one in front of the point. -/
def padded (d : Decimal) : List Char :=
  List.replicate ((-d.exponent).toNat + 1 - (digits d.significand).length) '0' ++
    digits d.significand

theorem positional_of_neg (h : ¬ 0 ≤ d.exponent) : d.positional =
    (d.padded.take (d.padded.length - (-d.exponent).toNat),
      d.padded.drop (d.padded.length - (-d.exponent).toNat)) := by
  rw [positional, if_neg h]
  rfl

theorem lt_length_padded : (-d.exponent).toNat < d.padded.length := by
  rw [padded, List.length_append, List.length_replicate]
  omega

theorem isDigit_of_mem_padded {c : Char} (hc : c ∈ d.padded) : c.isDigit := by
  rw [padded, List.mem_append, List.mem_replicate] at hc
  rcases hc with ⟨-, rfl⟩ | hc
  · rfl
  · exact isDigit_of_mem_digits hc

theorem padded_of_lt (h : (-d.exponent).toNat < (digits d.significand).length) :
    d.padded = digits d.significand := by
  rw [padded, Nat.sub_eq_zero_of_le h, List.replicate_zero, List.nil_append]

/-- One zero is put in front of the point if there are no more digits than places after it. -/
theorem take_padded_of_le (h : (digits d.significand).length ≤ (-d.exponent).toNat) :
    d.padded.take (d.padded.length - (-d.exponent).toNat) = ['0'] := by
  have hone : d.padded.length - (-d.exponent).toNat = 1 := by
    rw [padded, List.length_append, List.length_replicate]
    omega
  rw [hone, padded, Nat.sub_add_comm h, List.replicate_succ]
  rfl

theorem positional_whole (hzero : d.significand = 0 → d.exponent ≤ 0) :
    Whole d.positional.1 := by
  by_cases h : 0 ≤ d.exponent
  · rw [positional_of_nonneg h]
    refine ⟨fun c hc => ?_, fun heq => ?_, fun hhead => ?_⟩
    · rcases List.mem_append.mp hc with hc | hc
      · exact isDigit_of_mem_digits hc
      · rw [List.eq_of_mem_replicate hc]
        rfl
    · exact Nat.toDigits_ne_nil (List.append_eq_nil_iff.mp heq).1
    · have hsig : d.significand = 0 := by
        refine head_digits ?_
        rwa [← List.head?_append_of_ne_nil (digits d.significand) Nat.toDigits_ne_nil]
      rw [hsig, show d.exponent = 0 from Int.le_antisymm (hzero hsig) h]
      rfl
  · rw [positional_of_neg h]
    dsimp only
    rcases Nat.lt_or_ge (-d.exponent).toNat (digits d.significand).length with hlong | hshort
    · rw [padded_of_lt hlong]
      exact (whole_digits _).take (by omega)
    · rw [take_padded_of_le hshort]
      exact whole_digits 0

theorem positional_fraction {c : Char} (hc : c ∈ places d.positional.2) : c.isDigit := by
  rw [places] at hc
  split_ifs at hc with hempty
  · rw [List.mem_singleton.mp hc]
    rfl
  · by_cases h : 0 ≤ d.exponent
    · rw [positional_of_nonneg h] at hc
      cases hc
    · rw [positional_of_neg h] at hc
      exact isDigit_of_mem_padded (List.mem_of_mem_drop hc)

theorem places_ne_nil (fraction : List Char) : places fraction ≠ [] := by
  rw [places]
  split_ifs with h
  · exact List.cons_ne_nil _ _
  · rwa [List.isEmpty_iff] at h

/-- **The text of a decimal stands for it.** -/
theorem ofDigits_positional (d : Decimal) :
    ofDigits d.positional.1 (places d.positional.2) 0 = d.asWritten := by
  by_cases h : 0 ≤ d.exponent
  · have hvalue : digitsValue 0 (digits d.significand ++ List.replicate d.exponent.toNat '0' ++
        ['0']) = 10 ^ (d.exponent.toNat + 1) * d.significand := by
      rw [List.append_assoc, ← List.replicate_succ', digitsValue_eq, Nat.ofDigitChars_append,
        Nat.ofDigitChars_replicate_zero, digits, Nat.ofDigitChars_ten_toDigits]
    rw [positional_of_nonneg h, asWritten, if_pos h, ofDigits]
    exact congrArg₂ Decimal.mk hvalue rfl
  · have hlen := lt_length_padded (d := d)
    have hdrop : (d.padded.drop (d.padded.length - (-d.exponent).toNat)).length =
        (-d.exponent).toNat := by
      rw [List.length_drop]
      omega
    have hplaces : places (d.padded.drop (d.padded.length - (-d.exponent).toNat)) =
        d.padded.drop (d.padded.length - (-d.exponent).toNat) := by
      refine if_neg fun hempty => ?_
      rw [List.isEmpty_iff.mp hempty, List.length_nil] at hdrop
      omega
    have hvalue : digitsValue 0 d.padded = d.significand := by
      rw [padded, digitsValue_eq, Nat.ofDigitChars_append, Nat.ofDigitChars_replicate_zero,
        Nat.mul_zero, digits, Nat.ofDigitChars_ten_toDigits]
    rw [positional_of_neg h, asWritten, if_neg h, ofDigits, hplaces, List.take_append_drop, hvalue,
      hdrop]
    refine congrArg (Decimal.mk d.significand) ?_
    omega

end DraftHeads.Number.Decimal
