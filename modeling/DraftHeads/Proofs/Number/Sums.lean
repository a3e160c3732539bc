import DraftHeads.Proofs.Number.Single

/-! # Sums and differences of single precision numbers

* `normalize_eq`: a sum that is not zero keeps its sign and its leading place.
* `notANumber_add`, `notANumber_sub`: what is not a number stays so.
* `Difference`, `difference_sub`: when a difference is not a number, when it is a zero, and what its
  sign is otherwise.
* `NonNeg`, `AtLeast`: lower bounds of sums; `AtLeast.add_both`: a sum of two numbers that are at
  least a power of two is at least the next one. -/

namespace DraftHeads.Number

open Float.Model (UnpackedFloat totalExponent)
open Float.Model.UnpackedFloat

/-- A number that was rounded, after it was put into a word. -/
def settle (u : UnpackedFloat) : UnpackedFloat := unpack binary32 (pack binary32 u)

theorem unpacked_sub (x y : Float32) :
    unpacked (x - y) = settle (sub binary32 (unpacked x) (unpacked y)) := rfl

theorem unpacked_add (x y : Float32) :
    unpacked (x + y) = settle (add binary32 (unpacked x) (unpacked y)) := rfl

@[simp] theorem settle_notANumber : settle .notANumber = .notANumber := rfl

@[simp] theorem settle_infinity (s : Sign) : settle (.infinity s) = .infinity s := by
  cases s <;> rfl

@[simp] theorem settle_zero (s : Sign) : settle (.zero s) = .zero s := by
  cases s <;> rfl

theorem settle_finite {s : Sign} {m : Nat} {e : Int} {hm : 0 < m}
    (h : Canonical (.finite s m e hm)) :
    settle (.finite s m e hm) = .finite s m e hm ∨ settle (.finite s m e hm) = .infinity s := by
  rcases unpack_pack h with h | ⟨s', m', e', hm', heq, -, h⟩
  · exact Or.inl h
  · cases heq
    exact Or.inr h

theorem settle_eq {u : UnpackedFloat} (h : Canonical u) (h' : InRange u) : settle u = u := by
  rcases unpack_pack h with h | ⟨s, m, e, hm, rfl, hlarge, -⟩
  · exact h
  · exact absurd (show e ≤ 104 from h') (not_le.mpr hlarge)

/-- A number that is not zero, and its sign. -/
inductive Signed (s : Sign) : UnpackedFloat → Prop
  | infinity : Signed s (.infinity s)
  | finite (m : Nat) (e : Int) (hm : 0 < m) : Signed s (.finite s m e hm)

theorem Signed.ne_notANumber {s : Sign} {u : UnpackedFloat} (h : Signed s u) : u ≠ .notANumber := by
  rintro rfl
  cases h

theorem Signed.ne_zero {s : Sign} {u : UnpackedFloat} (h : Signed s u) (t : Sign) :
    u ≠ .zero t := by
  rintro rfl
  cases h

theorem Signed.eq_of_infinity {s t : Sign} (h : Signed s (.infinity t)) : s = t := by
  cases h
  rfl

theorem signed_settle {s : Sign} {m : Nat} {e : Int} {hm : 0 < m}
    (h : Canonical (.finite s m e hm)) : Signed s (settle (.finite s m e hm)) := by
  rcases settle_finite h with h | h
  · rw [h]
    exact .finite m e hm
  · rw [h]
    exact .infinity

theorem signed_infinity (s : Sign) : Signed s (settle (.infinity s)) := by
  rw [settle_infinity]
  exact .infinity

theorem Signed.settle {s : Sign} {u : UnpackedFloat} (h : Signed s u) (hu : Canonical u) :
    Signed s (settle u) := by
  cases h with
  | infinity => exact signed_infinity s
  | finite m e hm => exact signed_settle hu

/-! ### What is not a number -/

theorem notANumber_add {x y : Float32}
    (h : unpacked x = .notANumber ∨ unpacked y = .notANumber) : unpacked (x + y) = .notANumber := by
  rw [unpacked_add]
  rcases h with h | h <;> rw [h]
  · cases unpacked y <;> exact settle_notANumber
  · cases unpacked x <;> exact settle_notANumber

theorem notANumber_sub {x y : Float32}
    (h : unpacked x = .notANumber ∨ unpacked y = .notANumber) : unpacked (x - y) = .notANumber := by
  rw [unpacked_sub]
  rcases h with h | h <;> rw [h]
  · cases unpacked y <;> exact settle_notANumber
  · cases unpacked x <;> exact settle_notANumber

theorem proper_of_zero {x : Float32} (h : unpacked x = .zero .positive) : Proper x := by
  constructor
  · rw [h]
    exact UnpackedFloat.noConfusion
  · rw [h]
    simp

theorem proper_of_signed {x : Float32} {s : Sign} (h : Signed s (unpacked x)) : Proper x :=
  ⟨h.ne_notANumber, h.ne_zero _⟩

/-! ### Rounded sums -/

/-- **A sum that is not zero keeps its sign and its leading place.** -/
theorem normalize_eq {d : Int} {e : Int} (he : -149 ≤ e) :
    d = 0 ∧ UnpackedFloat.normalize binary32 d e .positive = .zero .positive ∨
    d ≠ 0 ∧ ∃ s m' e' hm', d = s.apply d.natAbs ∧
      UnpackedFloat.normalize binary32 d e .positive = .finite s m' e' hm' ∧
      Canonical (.finite s m' e' hm') ∧ totalExponent d.natAbs e ≤ totalExponent m' e' := by
  unfold UnpackedFloat.normalize
  rcases lt_trichotomy d 0 with h | rfl | h
  · right
    obtain ⟨m', e', hm', hround, hcanonical, hle⟩ :=
      round_eq .negative (m := (-d).toNat) (by omega) he
    have habs : (-d).toNat = d.natAbs := by omega
    rw [habs] at hle
    refine ⟨h.ne, .negative, m', e', hm', by simp only [Sign.apply]; omega, ?_, hcanonical, hle⟩
    rw [compare_lt_iff_lt.mpr h]
    exact hround
  · left
    exact ⟨rfl, rfl⟩
  · right
    obtain ⟨m', e', hm', hround, hcanonical, hle⟩ :=
      round_eq .positive (m := d.toNat) (by omega) he
    have habs : d.toNat = d.natAbs := by omega
    rw [habs] at hle
    refine ⟨h.ne', .positive, m', e', hm', by simp only [Sign.apply]; omega, ?_, hcanonical, hle⟩
    rw [compare_gt_iff_gt.mpr h]
    exact hround

/-- Sums and differences of two finite numbers are counted in the lesser exponent and rounded. -/
theorem add_finite (s s' : Sign) (m m' : Nat) (e e' : Int) (hm : 0 < m) (hm' : 0 < m') :
    add binary32 (.finite s m e hm) (.finite s' m' e' hm') =
      UnpackedFloat.normalize binary32 (s.apply (m <<< (e - min e e').toNat : Nat) +
        s'.apply (m' <<< (e' - min e e').toNat : Nat)) (min e e') .positive := rfl

theorem sub_finite (s s' : Sign) (m m' : Nat) (e e' : Int) (hm : 0 < m) (hm' : 0 < m') :
    sub binary32 (.finite s m e hm) (.finite s' m' e' hm') =
      UnpackedFloat.normalize binary32 (s.apply (m <<< (e - min e e').toNat : Nat) -
        s'.apply (m' <<< (e' - min e e').toNat : Nat)) (min e e') .positive := rfl

theorem aligned_le {m m' : Nat} {e e' : Int} (hm : m < 2 ^ 24) (hfull : e = -149 ∨ 2 ^ 23 ≤ m)
    (he' : -149 ≤ e') (hfull' : e' = -149 ∨ 2 ^ 23 ≤ m')
    (h : (e + 149) * 2 ^ 23 + m ≤ (e' + 149) * 2 ^ 23 + m') (he : -149 ≤ e) (hm' : m' < 2 ^ 24) :
    m <<< (e - min e e').toNat ≤ m' <<< (e' - min e e').toNat := by
  rcases lt_trichotomy e e' with hlt | rfl | hlt
  · obtain ⟨k, hk⟩ : ∃ k, (e' - min e e').toNat = k + 1 := ⟨(e' - e).toNat - 1, by omega⟩
    have hzero : (e - min e e').toNat = 0 := by omega
    have hpow := Nat.two_pow_pos k
    rw [hk, hzero, Nat.shiftLeft_eq, Nat.shiftLeft_eq, Nat.pow_zero, Nat.mul_one, Nat.pow_succ]
    calc m ≤ m' * 2 := by omega
      _ ≤ m' * (2 ^ k * 2) := Nat.mul_le_mul_left _ (by omega)
  · simp only [min_self, sub_self, Int.toNat_zero, Nat.shiftLeft_zero]
    omega
  · omega

/-- What the difference `w` of two numbers can be. -/
inductive Difference (u v w : UnpackedFloat) : Prop
  | notANumber (h : w = .notANumber) (s : Sign) (hu : u = .infinity s) (hv : v = .infinity s)
  | negativeZero (h : w = .zero .negative) (hu : u = .zero .negative) (hv : v = .zero .positive)
  | zero (h : w = .zero .positive)
  | signed (s : Sign) (h : Signed s w) (hs : key u ≤ key v → s = .negative)

theorem difference_finite {s t : Sign} {m m' : Nat} {e e' : Int} {hm : 0 < m} {hm' : 0 < m'}
    (hu : Canonical (.finite s m e hm)) (hu' : InRange (.finite s m e hm))
    (hv : Canonical (.finite t m' e' hm')) (hv' : InRange (.finite t m' e' hm')) :
    Difference (.finite s m e hm) (.finite t m' e' hm')
      (settle (sub binary32 (.finite s m e hm) (.finite t m' e' hm'))) := by
  obtain ⟨hkey, hpos, -⟩ := key_finite s hu hu'
  obtain ⟨hkey', hpos', -⟩ := key_finite t hv hv'
  obtain ⟨he, hm24, hfull⟩ := hu
  obtain ⟨he', hm24', hfull'⟩ := hv
  have hle := fun h => aligned_le hm24 hfull he' hfull' h he hm24'
  have hge := fun h => aligned_le hm24' hfull' he hfull h he' hm24
  rw [min_comm e' e] at hge
  rw [sub_finite]
  generalize m <<< (e - min e e').toNat = a at hle hge ⊢
  generalize m' <<< (e' - min e e').toNat = b at hle hge ⊢
  rcases normalize_eq (d := s.apply a - t.apply b) (e := min e e') (by omega) with
    ⟨-, hzero⟩ | ⟨hne, r, m₁, e₁, hm₁, hsign, hround, hcanonical, -⟩
  · rw [hzero]
    exact .zero (settle_zero _)
  · rw [hround]
    refine .signed r (signed_settle hcanonical) fun h => ?_
    rw [hkey, hkey'] at h
    cases r
    · rfl
    · cases s <;> cases t <;> simp only [Sign.apply] at h hsign hne <;> omega

theorem negative_of_apply_le {s : Sign} {k bound : Int} (h : -bound < k ∧ k < bound)
    (hle : s.apply bound ≤ k) : s = .negative := by
  cases s with
  | negative => rfl
  | positive =>
    simp only [Sign.apply] at hle
    omega

theorem negative_of_le_apply {s : Sign} {k bound : Int} (h : -bound < k ∧ k < bound)
    (hle : k ≤ s.apply bound) : -s = .negative := by
  cases s with
  | negative =>
    simp only [Sign.apply] at hle
    omega
  | positive => rfl

/-- **What a difference can be**: not a number for equal infinities, the negative zero for the
negative zero without the positive one, the positive zero, or a number with the sign of the
difference. -/
theorem difference_sub {u v : UnpackedFloat} (hu : Canonical u) (hu' : InRange u) (hv : Canonical v)
    (hv' : InRange v) (hnu : u ≠ .notANumber) (hnv : v ≠ .notANumber) :
    Difference u v (settle (sub binary32 u v)) := by
  cases u with
  | notANumber => exact absurd rfl hnu
  | infinity s =>
    cases v with
    | notANumber => exact absurd rfl hnv
    | infinity t =>
      cases s <;> cases t
      · exact .notANumber rfl _ rfl rfl
      · exact .signed .negative (signed_infinity _) fun _ => rfl
      · exact .signed .positive (signed_infinity _) fun h => absurd h (by decide)
      · exact .notANumber rfl _ rfl rfl
    | zero t =>
      refine .signed s (signed_infinity s) fun h => ?_
      rw [key_infinity, key_zero] at h
      exact negative_of_apply_le (by decide) h
    | finite t m' e' hm' =>
      obtain ⟨hkey, hpos, hlt⟩ := key_finite t hv hv'
      refine .signed s (signed_infinity s) fun h => ?_
      rw [key_infinity, hkey] at h
      exact negative_of_apply_le (apply_within hpos hlt) h
  | zero s =>
    cases v with
    | notANumber => exact absurd rfl hnv
    | infinity t =>
      refine .signed (-t) (signed_infinity (-t)) fun h => ?_
      rw [key_infinity, key_zero] at h
      exact negative_of_le_apply (by decide) h
    | zero t =>
      cases s <;> cases t
      · exact .zero rfl
      · exact .negativeZero rfl rfl rfl
      · exact .zero rfl
      · exact .zero rfl
    | finite t m' e' hm' =>
      have hsigned : Signed (-t) (settle (.finite (-t) m' e' hm')) := signed_settle hv
      obtain ⟨hkey, hpos, -⟩ := key_finite t hv hv'
      refine .signed (-t) hsigned fun h => ?_
      rw [hkey, key_zero] at h
      exact negative_of_le_apply ⟨neg_lt_zero.mpr hpos, hpos⟩ h
  | finite s m e hm =>
    obtain ⟨hkey, hpos, hlt⟩ := key_finite s hu hu'
    cases v with
    | notANumber => exact absurd rfl hnv
    | infinity t =>
      refine .signed (-t) (signed_infinity (-t)) fun h => ?_
      rw [hkey, key_infinity] at h
      exact negative_of_le_apply (apply_within hpos hlt) h
    | zero t =>
      refine .signed s (signed_settle hu) fun h => ?_
      rw [hkey, key_zero] at h
      exact negative_of_apply_le ⟨neg_lt_zero.mpr hpos, hpos⟩ h
    | finite t m' e' hm' => exact difference_finite hu hu' hv hv'

/-! ### Lower bounds of sums -/

/-- A number that is not negative. -/
def NonNeg (u : UnpackedFloat) : Prop := u = .zero .positive ∨ Signed .positive u

theorem NonNeg.ne_notANumber {u : UnpackedFloat} (h : NonNeg u) : u ≠ .notANumber := by
  rcases h with rfl | h
  · exact UnpackedFloat.noConfusion
  · exact h.ne_notANumber

/-- A number that is at least `2 ^ (k - 1)`. -/
inductive AtLeast (k : Int) : UnpackedFloat → Prop
  | infinity : AtLeast k (.infinity .positive)
  | finite (m : Nat) (e : Int) (hm : 0 < m) (h : k ≤ totalExponent m e) :
    AtLeast k (.finite .positive m e hm)

theorem AtLeast.nonNeg {k : Int} {u : UnpackedFloat} (h : AtLeast k u) : NonNeg u := by
  cases h with
  | infinity => exact Or.inr .infinity
  | finite m e hm h => exact Or.inr (.finite m e hm)

theorem atLeast_settle {k : Int} {m : Nat} {e : Int} {hm : 0 < m}
    (hcanonical : Canonical (.finite .positive m e hm)) (h : k ≤ totalExponent m e) :
    AtLeast k (settle (.finite .positive m e hm)) := by
  rcases settle_finite hcanonical with heq | heq
  · rw [heq]
    exact .finite m e hm h
  · rw [heq]
    exact .infinity

theorem settle_nonNeg {u : UnpackedFloat} (hu : Canonical u) (h : NonNeg u) :
    NonNeg (settle u) := by
  rcases h with rfl | h
  · exact Or.inl (settle_zero _)
  · exact Or.inr (h.settle hu)

theorem log2_mono {m m' : Nat} (hm : 0 < m) (h : m ≤ m') : m.log2 ≤ m'.log2 :=
  (Nat.le_log2 (by omega)).mpr ((Nat.log2_self_le hm.ne').trans h)

theorem totalExponent_shiftLeft {m : Nat} (hm : 0 < m) {e e' : Int} (h : e' ≤ e) :
    totalExponent (m <<< (e - e').toNat) e' = totalExponent m e := by
  rw [totalExponent, totalExponent, log2_shiftLeft hm]
  omega

theorem add_positive {m m' : Nat} {e e' : Int} (hm : 0 < m) (hm' : 0 < m') (he : -149 ≤ e)
    (he' : -149 ≤ e') : ∃ a b m₁ e₁ hm₁, 0 < a ∧ 0 < b ∧
      totalExponent a (min e e') = totalExponent m e ∧
      totalExponent b (min e e') = totalExponent m' e' ∧
      add binary32 (.finite .positive m e hm) (.finite .positive m' e' hm') =
        .finite .positive m₁ e₁ hm₁ ∧
      Canonical (.finite .positive m₁ e₁ hm₁) ∧
      totalExponent (a + b) (min e e') ≤ totalExponent m₁ e₁ := by
  have ha := totalExponent_shiftLeft hm (min_le_left e e')
  have hb := totalExponent_shiftLeft hm' (min_le_right e e')
  have hapos : 0 < m <<< (e - min e e').toNat := by
    rw [Nat.shiftLeft_eq]
    exact Nat.mul_pos hm (Nat.two_pow_pos _)
  have hbpos : 0 < m' <<< (e' - min e e').toNat := by
    rw [Nat.shiftLeft_eq]
    exact Nat.mul_pos hm' (Nat.two_pow_pos _)
  rw [add_finite, Sign.apply, Sign.apply]
  generalize m <<< (e - min e e').toNat = a at *
  generalize m' <<< (e' - min e e').toNat = b at *
  rcases normalize_eq (d := (a : Int) + b) (e := min e e') (by omega) with
    ⟨hzero, -⟩ | ⟨hne, s, m₁, e₁, hm₁, hsign, hround, hcanonical, hle⟩
  · omega
  · have habs : ((a : Int) + b).natAbs = a + b := by omega
    rw [habs] at hsign hle
    cases s
    · simp only [Sign.apply] at hsign
      omega
    · exact ⟨a, b, m₁, e₁, hm₁, hapos, hbpos, ha, hb, hround, hcanonical, hle⟩

theorem add_symm (u v : UnpackedFloat) : add binary32 u v = add binary32 v u := by
  cases u with
  | notANumber => cases v <;> rfl
  | infinity s =>
    cases v with
    | infinity t => cases s <;> cases t <;> rfl
    | notANumber => rfl
    | zero t => rfl
    | finite t m' e' hm' => rfl
  | zero s =>
    cases v with
    | zero t => cases s <;> cases t <;> rfl
    | notANumber => rfl
    | infinity t => rfl
    | finite t m' e' hm' => rfl
  | finite s m e hm =>
    cases v with
    | finite t m' e' hm' =>
      rw [add_finite, add_finite, min_comm e e', Int.add_comm]
    | notANumber => rfl
    | infinity t => rfl
    | zero t => rfl

variable {u v : UnpackedFloat} {k : Int}

/-- **A sum is at least what one of its terms is at least.** -/
theorem AtLeast.add (h : AtLeast k u) (hu : Canonical u) (hv : Canonical v) (h' : NonNeg v) :
    AtLeast k (settle (add binary32 u v)) := by
  cases h with
  | infinity =>
    have hinf : add binary32 (.infinity .positive) v = .infinity .positive := by
      rcases h' with rfl | h'
      · rfl
      · cases h' <;> rfl
    rw [hinf, settle_infinity]
    exact .infinity
  | finite m e hm h =>
    rcases h' with rfl | h'
    · exact atLeast_settle hu h
    · cases h' with
      | infinity =>
        change AtLeast k (settle (.infinity .positive))
        rw [settle_infinity]
        exact .infinity
      | finite m' e' hm' =>
        obtain ⟨a, b, m₁, e₁, hm₁, ha, hb, hea, -, hadd, hcanonical, hle⟩ :=
          add_positive hm hm' hu.1 hv.1
        rw [hadd]
        refine atLeast_settle hcanonical ?_
        have := log2_mono ha (Nat.le_add_right a b)
        simp only [totalExponent] at hea hle h ⊢
        omega

theorem AtLeast.add_right (h : AtLeast k v) (hv : Canonical v) (hu : Canonical u) (h' : NonNeg u) :
    AtLeast k (settle (UnpackedFloat.add binary32 u v)) := by
  rw [add_symm]
  exact h.add hv hu h'

/-- **A sum of two numbers that are at least a power of two** is at least the next one. -/
theorem AtLeast.add_both (h : AtLeast k u) (h' : AtLeast k v) (hu : Canonical u)
    (hv : Canonical v) : AtLeast (k + 1) (settle (UnpackedFloat.add binary32 u v)) := by
  cases h with
  | infinity => exact AtLeast.add .infinity hu hv h'.nonNeg
  | finite m e hm h =>
    cases h' with
    | infinity => exact AtLeast.add_right .infinity hv hu (Or.inr (.finite m e hm))
    | finite m' e' hm' h' =>
      obtain ⟨a, b, m₁, e₁, hm₁, ha, hb, hea, heb, hadd, hcanonical, hle⟩ :=
        add_positive hm hm' hu.1 hv.1
      rw [hadd]
      refine atLeast_settle hcanonical ?_
      have hpow : ∀ n, n ≤ a.log2 → n ≤ b.log2 → n + 1 ≤ (a + b).log2 := fun n hn hn' => by
        rw [Nat.le_log2 (by omega), Nat.pow_succ]
        have := (Nat.le_log2 ha.ne').mp hn
        have := (Nat.le_log2 hb.ne').mp hn'
        omega
      have := hpow (k - 1 - min e e').toNat
      simp only [totalExponent] at hea heb hle h h' ⊢
      omega

theorem NonNeg.add (h : NonNeg u) (h' : NonNeg v) (hu : Canonical u) (hv : Canonical v) :
    NonNeg (settle (UnpackedFloat.add binary32 u v)) := by
  have hbound : ∀ {w : UnpackedFloat}, Signed .positive w → ∃ k, AtLeast k w := fun h => by
    cases h with
    | infinity => exact ⟨0, .infinity⟩
    | finite m e hm => exact ⟨_, .finite m e hm le_rfl⟩
  rcases h with rfl | h
  · rcases h' with rfl | h'
    · exact Or.inl (settle_zero _)
    · obtain ⟨k, hk⟩ := hbound h'
      exact (hk.add_right hv hu (Or.inl rfl)).nonNeg
  · obtain ⟨k, hk⟩ := hbound h
    exact (hk.add hu hv h').nonNeg

end DraftHeads.Number
