import DraftHeads.Proofs.Number.Elementary
import DraftHeads.Proofs.Number.Exact
import DraftHeads.Proofs.Number.Words
import DraftHeads.Tensor.AnyFormat

/-! # Numbers times one and times zero

A mask keeps a number by a product with one and drops it by a product with zero; what was dropped
does not matter to a sum, but that zeros may differ in their sign.

* `Maskable`: these laws, for the finite numbers of a type.
* `DType.maskable`: they hold of every number format. -/

namespace DraftHeads

open Number

/-- Two numbers are one, or both of them are zeros. -/
def SameUpToZero {α : Type} (IsZero : α → Prop) (x y : α) : Prop := x = y ∨ IsZero x ∧ IsZero y

/-- The laws of finite numbers that masks rest on. -/
structure Maskable {α : Type} [Zero α] [One α] [Add α] [Mul α] (IsFinite IsZero : α → Prop) :
    Prop where
  finite_of_zero : ∀ {x : α}, IsZero x → IsFinite x
  mul_one : ∀ {x : α}, IsFinite x → x * 1 = x
  mul_zero : ∀ {x : α}, IsFinite x → IsZero (x * 0)
  add_zero : ∀ {x z : α}, IsFinite x → IsZero z → SameUpToZero IsZero (x + z) x
  zero_add : ∀ {x z : α}, IsFinite x → IsZero z → SameUpToZero IsZero (z + x) x

theorem Maskable.of_laws {α : Type} [Zero α] [One α] [Add α] [Mul α] {IsFinite IsZero : α → Prop}
    (finite : ∀ x, IsFinite x) (eq_zero : ∀ x, IsZero x → x = 0) (mul_one : ∀ x : α, x * 1 = x)
    (zero : IsZero 0) (mul_zero : ∀ x : α, x * 0 = 0) (add_zero : ∀ x : α, x + 0 = x)
    (zero_add : ∀ x : α, 0 + x = x) : Maskable IsFinite IsZero where
  finite_of_zero _ := finite _
  mul_one _ := mul_one _
  mul_zero {x} _ := by rwa [mul_zero x]
  add_zero {x z} _ hz := Or.inl (by rw [eq_zero z hz, add_zero])
  zero_add {x z} _ hz := Or.inl (by rw [eq_zero z hz, zero_add])

namespace DType

/-- A number of a format that is neither infinite nor not a number. -/
def IsFinite (d : DType) (x : d.Elem) : Prop := ∃ s m e, d.datum x = .finite s m e

/-- A zero of a format, with either sign. -/
def IsZero (d : DType) (x : d.Elem) : Prop := ∃ s e, d.datum x = .finite s 0 e

end DType

namespace Number

open Float.Model (UnpackedFloat)
open Float.Model.UnpackedFloat

/-! ### Numbers of two formats of the processor -/

/-- The widths of a format. -/
def widthsOf (spec : Float.Model.Format) : Format :=
  ⟨spec.mantissaBitsWithoutImplicit, spec.exponentBits⟩

/-- A number and a datum of the same kind. -/
inductive SameKind : UnpackedFloat → Datum → Prop
  | nan (s : Bool) : SameKind .notANumber (.nan s)
  | infinite (t : Sign) (s : Bool) : SameKind (.infinity t) (.infinite s)
  | zero (t : Sign) (s : Bool) (e : Int) : SameKind (.zero t) (.finite s 0 e)
  | finite (t : Sign) (m : Nat) (e : Int) (hm : 0 < m) (s : Bool) (m' : Nat) (e' : Int)
    (hm' : m' ≠ 0) : SameKind (.finite t m e hm) (.finite s m' e' )

variable {spec : Float.Model.Format} {b : BitVec spec.numBits}

theorem Unpacks.sameKind {u : UnpackedFloat} (h : Unpacks b u) :
    SameKind u ((widthsOf spec).decode b.toNat) := by
  have hpow : ∀ n, 1 <<< n = 2 ^ n := fun n => by rw [Nat.shiftLeft_eq, one_mul]
  have hdecode : ∃ s e e', (widthsOf spec).decode b.toNat =
      if (unpackExponent b).toNat = 2 ^ spec.exponentBits - 1 then
        if (unpackMantissa b).toNat = 0 then .infinite s else .nan s
      else if (unpackExponent b).toNat = 0 then .finite s (unpackMantissa b).toNat e
      else .finite s (2 ^ spec.mantissaBitsWithoutImplicit + (unpackMantissa b).toNat) e' := by
    rw [toNat_exponent, toNat_mantissa]
    unfold Format.decode
    simp only [hpow, Nat.shiftRight_eq_div_pow]
    exact ⟨_, _, _, rfl⟩
  obtain ⟨s, e, e', hdecode⟩ := hdecode
  have htop : (-1#_ : BitVec spec.exponentBits).toNat = 2 ^ spec.exponentBits - 1 := by
    rw [BitVec.neg_one_eq_allOnes, BitVec.toNat_allOnes]
  have hzero : (0 : Nat) ≠ 2 ^ spec.exponentBits - 1 := by
    have := Nat.pow_lt_pow_right (a := 2) one_lt_two spec.he
    omega
  rw [hdecode]
  cases h with
  | notANumber exponent fraction =>
    have hne : (unpackMantissa b).toNat ≠ 0 := fun h =>
      fraction (BitVec.toNat_inj.mp (h.trans BitVec.toNat_zero.symm))
    rw [exponent, if_pos htop, if_neg hne]
    exact .nan s
  | infinity exponent fraction =>
    rw [exponent, fraction, if_pos htop, if_pos BitVec.toNat_zero]
    exact .infinite _ s
  | zero exponent fraction =>
    rw [exponent, fraction, BitVec.toNat_zero, BitVec.toNat_zero, if_neg hzero, if_pos rfl]
    exact .zero _ s e
  | subnormal exponent hpos =>
    rw [exponent, BitVec.toNat_zero, if_neg hzero, if_pos rfl]
    exact .finite _ _ _ _ s _ e hpos.ne'
  | normal positive small hpos =>
    rw [if_neg (by omega), if_neg positive.ne']
    exact .finite _ _ _ _ s _ e' hpos.ne'

theorem SameKind.isFinite_iff {u : UnpackedFloat} {d : Datum} (h : SameKind u d) :
    (∃ s m e, d = .finite s m e) ↔ u.isFinite = true := by
  cases h with
  | nan s => exact ⟨fun ⟨_, _, _, h⟩ => (nomatch h), fun h => nomatch h⟩
  | infinite t s => exact ⟨fun ⟨_, _, _, h⟩ => (nomatch h), fun h => nomatch h⟩
  | zero t s e => exact ⟨fun _ => rfl, fun _ => ⟨s, 0, e, rfl⟩⟩
  | finite t m e hm s m' e' hm' => exact ⟨fun _ => rfl, fun _ => ⟨s, m', e', rfl⟩⟩

theorem SameKind.isZero_iff {u : UnpackedFloat} {d : Datum} (h : SameKind u d) :
    (∃ s e, d = .finite s 0 e) ↔ ∃ t, u = .zero t := by
  cases h with
  | nan s => exact ⟨fun ⟨_, _, h⟩ => (nomatch h), fun ⟨_, h⟩ => nomatch h⟩
  | infinite t s => exact ⟨fun ⟨_, _, h⟩ => (nomatch h), fun ⟨_, h⟩ => nomatch h⟩
  | zero t s e => exact ⟨fun _ => ⟨t, rfl⟩, fun _ => ⟨s, e, rfl⟩⟩
  | finite t m e hm s m' e' hm' =>
    exact ⟨fun ⟨_, _, h⟩ => absurd (Datum.finite.inj h).2.1 hm', fun ⟨_, h⟩ => nomatch h⟩

/-! ### Masked words -/

/-- The number one. -/
def oneOf (spec : Float.Model.Format) : UnpackedFloat :=
  .finite .positive (2 ^ spec.mantissaBitsWithoutImplicit)
    (-(spec.mantissaBitsWithoutImplicit : Int)) (Nat.two_pow_pos _)

theorem mul_zero_eq (spec : Float.Model.Format) {u : UnpackedFloat} (h : u.isFinite = true)
    (t : Sign) : ∃ t', mul spec u (.zero t) = .zero t' := by
  cases u with
  | finite s m e hm => exact ⟨_, rfl⟩
  | zero s => exact ⟨_, rfl⟩
  | infinity s => cases h
  | notANumber => cases h

theorem add_zero_eq (spec : Float.Model.Format) (u : UnpackedFloat) (t : Sign) :
    (add spec u (.zero t) = u ∧ add spec (.zero t) u = u) ∨ ∃ s t₁ t₂, u = .zero s ∧
      add spec u (.zero t) = .zero t₁ ∧ add spec (.zero t) u = .zero t₂ := by
  cases u with
  | zero s =>
    right
    cases s <;> cases t <;> exact ⟨_, _, _, rfl, rfl, rfl⟩
  | finite s m e hm => exact Or.inl ⟨rfl, rfl⟩
  | infinity s => exact Or.inl ⟨rfl, rfl⟩
  | notANumber => exact Or.inl ⟨rfl, rfl⟩

/-- Numbers that are kept as words, with the sums and products of a format. -/
structure FloatWords (spec : Float.Model.Format) (α : Type) [Zero α] [One α] [Add α] [Mul α] where
  word : α → BitVec spec.numBits
  injective : ∀ {x y : α}, word x = word y → x = y
  zero_eq : unpack spec (word 0) = .zero .positive
  one_eq : unpack spec (word 1) = oneOf spec
  add_eq : ∀ x y : α,
    word (x + y) = pack spec (add spec (unpack spec (word x)) (unpack spec (word y)))
  mul_eq : ∀ x y : α,
    word (x * y) = pack spec (mul spec (unpack spec (word x)) (unpack spec (word y)))
  pack_zero : ∀ t, unpack spec (pack spec (.zero t)) = .zero t

namespace FloatWords

variable {α : Type} [Zero α] [One α] [Add α] [Mul α] (W : FloatWords spec α)

/-- A number that is neither infinite nor not a number. -/
def IsFinite (x : α) : Prop := (unpack spec (W.word x)).isFinite = true

/-- A zero with either sign. -/
def IsZero (x : α) : Prop := ∃ t, unpack spec (W.word x) = .zero t

variable {W} {x z : α}

theorem IsZero.isFinite (h : W.IsZero x) : W.IsFinite x := by
  obtain ⟨t, h⟩ := h
  rw [IsFinite, h]
  rfl

theorem IsFinite.ne_notANumber (h : W.IsFinite x) : unpack spec (W.word x) ≠ .notANumber := by
  intro heq
  rw [IsFinite, heq] at h
  cases h

theorem isZero_of_pack {t : Sign} (h : W.word x = pack spec (.zero t)) : W.IsZero x :=
  ⟨t, by rw [h, W.pack_zero]⟩

theorem eq_of_pack (hbits : 1 < spec.exponentBits) (h : W.IsFinite x)
    (hz : W.word z = pack spec (unpack spec (W.word x))) : z = x :=
  W.injective (hz.trans (pack_unpack hbits h.ne_notANumber))

theorem mul_isZero (h : W.IsFinite x) (hz : W.IsZero z) : W.IsZero (x * z) := by
  obtain ⟨t, hz⟩ := hz
  obtain ⟨t', heq⟩ := mul_zero_eq spec h t
  exact isZero_of_pack (by rw [W.mul_eq, hz, heq])

theorem maskable (W : FloatWords spec α) (hbits : 1 < spec.exponentBits) :
    Maskable W.IsFinite W.IsZero where
  finite_of_zero h := h.isFinite
  mul_one {x} h := eq_of_pack hbits h (by
    rw [W.mul_eq, W.one_eq]
    exact congrArg _ (unpacks _).mul_one_eq)
  mul_zero h := mul_isZero h ⟨_, W.zero_eq⟩
  add_zero {x z} h hz := by
    obtain ⟨t, hz⟩ := hz
    rcases add_zero_eq spec (unpack spec (W.word x)) t with ⟨heq, -⟩ | ⟨s, t₁, t₂, hx, heq, -⟩
    · exact Or.inl (eq_of_pack hbits h (by rw [W.add_eq, hz, heq]))
    · exact Or.inr ⟨isZero_of_pack (by rw [W.add_eq, hz, heq]), s, hx⟩
  zero_add {x z} h hz := by
    obtain ⟨t, hz⟩ := hz
    rcases add_zero_eq spec (unpack spec (W.word x)) t with ⟨-, heq⟩ | ⟨s, t₁, t₂, hx, -, heq⟩
    · exact Or.inl (eq_of_pack hbits h (by rw [W.add_eq, hz, heq]))
    · exact Or.inr ⟨isZero_of_pack (by rw [W.add_eq, hz, heq]), s, hx⟩

end FloatWords

/-- The words of single precision numbers. -/
def singleWords : FloatWords binary32 Float32 where
  word x := x.toModel.toBits.toBitVec
  injective {x y} h := by
    obtain ⟨⟨a, ha⟩⟩ := x
    obtain ⟨⟨b, hb⟩⟩ := y
    cases UInt32.toBitVec_inj.mp h
    rfl
  zero_eq := rfl
  one_eq := rfl
  add_eq _ _ := rfl
  mul_eq _ _ := rfl
  pack_zero t := by cases t <;> rfl

/-- The words of double precision numbers. -/
def doubleWords : FloatWords .binary64 Float where
  word x := x.toModel.toBits.toBitVec
  injective {x y} h := by
    obtain ⟨⟨a, ha⟩⟩ := x
    obtain ⟨⟨b, hb⟩⟩ := y
    cases UInt64.toBitVec_inj.mp h
    rfl
  zero_eq := rfl
  one_eq := rfl
  add_eq _ _ := rfl
  mul_eq _ _ := rfl
  pack_zero t := by cases t <;> rfl

theorem sameKind_single (x : Float32) :
    SameKind (unpack binary32 (singleWords.word x)) (singleDatum x) :=
  (unpacks (singleWords.word x)).sameKind

theorem sameKind_double (x : Float) :
    SameKind (unpack .binary64 (doubleWords.word x)) (doubleDatum x) :=
  (unpacks (doubleWords.word x)).sameKind

theorem isFinite_single : DType.IsFinite .f32 = singleWords.IsFinite :=
  funext fun x => propext (sameKind_single x).isFinite_iff

theorem isZero_single : DType.IsZero .f32 = singleWords.IsZero :=
  funext fun x => propext (sameKind_single x).isZero_iff

/-! ### Numbers of sixteen bits -/

/-- A format whose numbers are numbers of the single format. -/
structure Format.InSingle (f : Format) : Prop where
  fraction : f.fractionBits ≤ 23
  least : -149 ≤ f.leastExponent
  exponent : 3 ≤ 2 ^ f.exponentBits
  large : f.leastExponent + (2 ^ f.exponentBits : Nat) + f.fractionBits ≤ 130
  word : 2 * f.signWord = 2 ^ 16

theorem inSingle_half : Format.half.InSingle := by constructor <;> decide

theorem inSingle_brain : Format.brain.InSingle := by constructor <;> decide

variable {f : Format}

theorem Format.InSingle.exists_word (hf : f.InSingle) {w : Nat} (hw : w < f.infinityWord) :
    ∃ w' < single.infinityWord, single.valueOf w' = f.valueOf w := by
  have hleast : single.leastExponent = -149 := rfl
  by_cases hzero : f.significandOf w = 0
  · refine ⟨0, by decide, ?_⟩
    rw [valueOf, valueOf, hzero]
    simp [significandOf]
  have hlog := (Nat.log2_lt hzero).mpr (significandOf_lt (f := f) w)
  have hplace : f.placeOf w + 3 ≤ f.leastExponent + (2 ^ f.exponentBits : Nat) := by
    have := exponent_lt hw
    have := hf.exponent
    rw [placeOf]
    omega
  have hfraction := hf.fraction
  have := hf.least
  have := hf.large
  have := le_placeOf (f := f) w
  have hbits : single.fractionBits = 23 := rfl
  have hwidth : 2 ^ single.exponentBits = 256 := rfl
  refine exists_word_of_fits hzero (by omega) ?_ ?_
  · exact (significandOf_lt w).trans_le (Nat.pow_le_pow_right two_pos (by omega))
  · rw [lastPlace, hleast, hbits, hwidth]
    omega

theorem singleDatum_ofBits {n : Nat} (hn : n < 2 ^ 32) {s : Bool} {m : Nat} {e : Int}
    (h : Format.single.decode n = .finite s m e) :
    singleDatum (Float32.ofBits (UInt32.ofNat n)) = .finite s m e := by
  have hbits : (UInt32.ofNat n).toBitVec.toNat = n := by
    rw [UInt32.toNat_toBitVec, UInt32.toNat_ofNat_of_lt' hn]
  have hkind := (@unpacks binary32 (UInt32.ofNat n).toBitVec).sameKind
  rw [hbits] at hkind
  have hfinite := hkind.isFinite_iff.mp ⟨s, m, e, h⟩
  have hpack : pack binary32 (unpack binary32 (UInt32.ofNat n).toBitVec) =
      (UInt32.ofNat n).toBitVec :=
    pack_unpack (by decide) fun heq => by rw [heq] at hfinite; cases hfinite
  calc singleDatum (Float32.ofBits (UInt32.ofNat n))
      = Format.single.decode
          (pack binary32 (unpack binary32 (UInt32.ofNat n).toBitVec)).toNat := rfl
    _ = .finite s m e := by rw [hpack, hbits, h]

namespace Short

/-- **The number of the single format** for a number of sixteen bits has the same value. -/
theorem exists_singleDatum_widen (hf : f.InSingle) {x : Short f} {s : Bool} {m : Nat} {e : Int}
    (h : x.datum = .finite s m e) : ∃ w < f.infinityWord, x.word.toNat = f.signed s w ∧
      f.valueOf w = m * 2 ^ e ∧
      ∃ m' e', singleDatum x.widen = .finite s m' e' ∧ (m' : ℚ) * 2 ^ e' = m * 2 ^ e := by
  have hlt : x.word.toNat < 2 * f.signWord := by
    rw [hf.word]
    exact x.word.toNat_lt
  obtain ⟨w, hw, hword, rfl, rfl⟩ := Format.exists_word hlt h
  obtain ⟨w', hw', hvalue⟩ := hf.exists_word hw
  refine ⟨w, hw, hword, rfl, Format.single.significandOf w', Format.single.placeOf w', ?_, hvalue⟩
  have hencode : Format.single.encode (.finite s (f.significandOf w) (f.placeOf w)) =
      Format.single.signed s w' := by
    rw [Format.encode, Format.nearest_word hw' hvalue.symm]
  have hsmall : Format.single.signed s w' < 2 ^ 32 := by
    have hinf : Format.single.infinityWord < 2 ^ 31 := by decide
    have hsign : Format.single.signWord = 2 ^ 31 := by decide
    cases s <;> simp only [Format.signed, if_true, if_false, Bool.false_eq_true, hsign] <;> omega
  rw [widen, h, singleOfDatum, hencode]
  exact singleDatum_ofBits hsmall (Format.decode_signed s hw')

/-- **A number of sixteen bits comes back** from the single format. -/
theorem narrow_widen (hf : f.InSingle) {x : Short f} {s : Bool} {m : Nat} {e : Int}
    (h : x.datum = .finite s m e) : narrow x.widen = x := by
  obtain ⟨w, hw, hword, hvalue, m', e', hsingle, hvalue'⟩ := exists_singleDatum_widen hf h
  have hencode : f.encode (.finite s m' e') = x.word.toNat := by
    rw [hword, Format.encode, Format.nearest_word hw (hvalue'.trans hvalue.symm)]
  obtain ⟨word⟩ := x
  rw [narrow, hsingle, ofDatum, hencode, UInt16.ofNat_toNat]

/-- A number of sixteen bits that is neither infinite nor not a number. -/
def IsFinite (x : Short f) : Prop := ∃ s m e, x.datum = .finite s m e

/-- A zero of sixteen bits with either sign. -/
def IsZero (x : Short f) : Prop := ∃ s e, x.datum = .finite s 0 e

theorem IsFinite.widen (hf : f.InSingle) {x : Short f} (h : x.IsFinite) :
    singleWords.IsFinite x.widen := by
  obtain ⟨s, m, e, h⟩ := h
  obtain ⟨-, -, -, -, m', e', hsingle, -⟩ := exists_singleDatum_widen hf h
  exact (sameKind_single _).isFinite_iff.mp ⟨s, m', e', hsingle⟩

theorem IsZero.widen (hf : f.InSingle) {x : Short f} (h : x.IsZero) :
    singleWords.IsZero x.widen := by
  obtain ⟨s, e, h⟩ := h
  obtain ⟨-, -, -, -, m', e', hsingle, hvalue⟩ := exists_singleDatum_widen hf h
  have hzero : m' = 0 := by
    rw [Nat.cast_zero, zero_mul, mul_eq_zero] at hvalue
    exact_mod_cast hvalue.resolve_right (zpow_ne_zero _ two_ne_zero)
  subst hzero
  exact (sameKind_single _).isZero_iff.mp ⟨s, e', hsingle⟩

theorem isZero_narrow (hf : f.InSingle) {y : Float32} (h : singleWords.IsZero y) :
    (narrow y : Short f).IsZero := by
  obtain ⟨s, e, h⟩ := (sameKind_single y).isZero_iff.mpr h
  have hpos : 0 < f.infinityWord := by
    have := hf.exponent
    rw [Format.infinityWord_eq]
    exact Nat.mul_pos (by omega) (Nat.two_pow_pos _)
  have hencode : f.encode (.finite s 0 e) = f.signed s 0 := by
    simp [Format.encode, Format.nearest]
  have hlt : f.signed s 0 < 2 ^ 16 := by
    have := hf.word
    cases s <;> simp only [Format.signed, if_true, if_false, Bool.false_eq_true] <;> omega
  refine ⟨s, f.placeOf 0, ?_⟩
  rw [narrow, h, ofDatum, hencode, datum, UInt16.toNat_ofNat_of_lt' hlt,
    Format.decode_signed s hpos]
  simp [Format.significandOf]

theorem maskable (hf : f.InSingle) (hone : (1 : Short f).widen = One.one)
    (hzero : (0 : Short f).widen = Zero.zero) : Maskable (IsFinite (f := f)) IsZero where
  finite_of_zero := fun ⟨s, e, h⟩ => ⟨s, 0, e, h⟩
  mul_one {x} h := by
    obtain ⟨s, m, e, hx⟩ := id h
    change narrow (x.widen * (1 : Short f).widen) = x
    rw [hone]
    exact (congrArg narrow ((singleWords.maskable (by decide)).mul_one (h.widen hf))).trans
      (narrow_widen hf hx)
  mul_zero {x} h := by
    change (narrow (x.widen * (0 : Short f).widen) : Short f).IsZero
    rw [hzero]
    exact isZero_narrow hf ((singleWords.maskable (by decide)).mul_zero (h.widen hf))
  add_zero {x z} h hz := by
    obtain ⟨s, m, e, hx⟩ := id h
    have hback := narrow_widen hf hx
    refine ((singleWords.maskable (by decide)).add_zero (h.widen hf) (hz.widen hf)).imp
      (fun heq => ?_) fun ⟨hsum, hwide⟩ => ⟨isZero_narrow hf hsum, ?_⟩
    · change narrow (x.widen + z.widen) = x
      rw [heq, hback]
    · rw [← hback]
      exact isZero_narrow hf hwide
  zero_add {x z} h hz := by
    obtain ⟨s, m, e, hx⟩ := id h
    have hback := narrow_widen hf hx
    refine ((singleWords.maskable (by decide)).zero_add (h.widen hf) (hz.widen hf)).imp
      (fun heq => ?_) fun ⟨hsum, hwide⟩ => ⟨isZero_narrow hf hsum, ?_⟩
    · change narrow (z.widen + x.widen) = x
      rw [heq, hback]
    · rw [← hback]
      exact isZero_narrow hf hwide

end Short

end Number

/-! ### All formats -/

theorem DType.maskable : ∀ d : DType, Maskable d.IsFinite d.IsZero
  | .u8 => .of_laws (fun x => ⟨_, _, _, rfl⟩)
      (fun x h => by obtain ⟨s, e, h⟩ := h; exact UInt8.toNat_inj.mp (Datum.finite.inj h).2.1)
      (fun _ => UInt8.mul_one _) ⟨_, _, rfl⟩ (fun _ => UInt8.mul_zero) (fun _ => UInt8.add_zero _)
      (fun _ => UInt8.zero_add _)
  | .u32 => .of_laws (fun x => ⟨_, _, _, rfl⟩)
      (fun x h => by obtain ⟨s, e, h⟩ := h; exact UInt32.toNat_inj.mp (Datum.finite.inj h).2.1)
      (fun _ => UInt32.mul_one _) ⟨_, _, rfl⟩ (fun _ => UInt32.mul_zero)
      (fun _ => UInt32.add_zero _) (fun _ => UInt32.zero_add _)
  | .i64 => .of_laws (fun x => ⟨_, _, _, rfl⟩)
      (fun x h => by
        obtain ⟨s, e, h⟩ := h
        exact Int64.toInt_inj.mp (Int.natAbs_eq_zero.mp (Datum.finite.inj h).2.1))
      (fun _ => Int64.mul_one _) ⟨_, _, rfl⟩ (fun _ => Int64.mul_zero) (fun _ => Int64.add_zero _)
      (fun _ => Int64.zero_add _)
  | .f16 => Short.maskable inSingle_half (by decide +kernel) (by decide +kernel)
  | .bf16 => Short.maskable inSingle_brain (by decide +kernel) (by decide +kernel)
  | .f32 => by
    rw [isFinite_single, isZero_single]
    exact singleWords.maskable (by decide)
  | .f64 => by
    have hfinite : DType.IsFinite .f64 = doubleWords.IsFinite :=
      funext fun x => propext (sameKind_double x).isFinite_iff
    have hzero : DType.IsZero .f64 = doubleWords.IsZero :=
      funext fun x => propext (sameKind_double x).isZero_iff
    rw [hfinite, hzero]
    exact doubleWords.maskable (by decide)

end DraftHeads
