import DraftHeads.Proofs.Number.Masks
import DraftHeads.Proofs.Number.Single

/-! # Masks over numbers that are not finite

A product with one keeps every number, and a product with zero drops a finite one. What is infinite
or not a number leaks through: its product with zero is not a number, and neither is any sum with
that.

* `LeakyMask`: the laws of all numbers, finite or not.
* `LeakyMask.sumOf_masked`, `LeakyMask.sumOf_isNaN`: sums of numbers that were masked.
* `FloatWords.OneNaN.leakyMask`, `leakyMask_single`: the laws hold of numbers that are kept as
  words, and of single precision numbers. -/

namespace DraftHeads

open Number

/-- What is not a number, in a format. -/
def DType.IsNaN (d : DType) (x : d.Elem) : Prop := ∃ s, d.datum x = .nan s

section Laws

variable {α : Type} [Zero α] [One α] [Add α] [Mul α]

/-- The laws of all numbers of a type, finite or not, that masks rest on. -/
structure LeakyMask (IsFinite IsZero IsNaN : α → Prop) : Prop where
  mul_one : ∀ x : α, x * 1 = x
  mul_zero : ∀ {x : α}, IsFinite x → IsZero (x * 0)
  mul_zero_isNaN : ∀ {x : α}, ¬ IsFinite x → IsNaN (x * 0)
  add_zero : ∀ {x z : α}, IsZero z → SameUpToZero IsZero (x + z) x
  zero_add : ∀ {x z : α}, IsZero z → SameUpToZero IsZero (z + x) x
  add_isNaN : ∀ {x y : α}, IsNaN x ∨ IsNaN y → IsNaN (x + y)

/-- Numbers added from the left. -/
def sumOf : List α → α
  | [] => 0
  | x :: xs => xs.foldl (· + ·) x

namespace LeakyMask

variable {IsFinite IsZero IsNaN : α → Prop} (laws : LeakyMask IsFinite IsZero IsNaN)
include laws

theorem isZero_add {x z : α} (hx : IsZero x) (hz : IsZero z) : IsZero (x + z) := by
  rcases laws.add_zero (x := x) hz with h | ⟨h, -⟩
  · rwa [h]
  · exact h

theorem same_foldl {zs : List α} (hz : ∀ z ∈ zs, IsZero z) : ∀ {a x : α},
    SameUpToZero IsZero a x → SameUpToZero IsZero (zs.foldl (· + ·) a) x := by
  induction zs with
  | nil => exact id
  | cons z zs ih =>
    intro a x h
    rw [List.forall_mem_cons] at hz
    refine ih hz.2 ?_
    rcases h with rfl | ⟨ha, hx⟩
    · exact laws.add_zero hz.1
    · exact Or.inr ⟨laws.isZero_add ha hz.1, hx⟩

theorem isZero_foldl {zs : List α} (hz : ∀ z ∈ zs, IsZero z) {a : α} (ha : IsZero a) :
    IsZero (zs.foldl (· + ·) a) := by
  rcases laws.same_foldl hz (Or.inl (rfl : a = a)) with h | ⟨h, -⟩
  · rwa [h]
  · exact h

theorem isNaN_foldl {zs : List α} : ∀ {a : α}, IsNaN a → IsNaN (zs.foldl (· + ·) a) := by
  induction zs with
  | nil => exact id
  | cons z zs ih => exact fun h => ih (laws.add_isNaN (Or.inl h))

theorem sumOf_masked {before after : List α} {x : α} (hbefore : ∀ z ∈ before, IsZero z)
    (hafter : ∀ z ∈ after, IsZero z) : SameUpToZero IsZero (sumOf (before ++ x :: after)) x := by
  cases before with
  | nil => exact laws.same_foldl hafter (Or.inl rfl)
  | cons z zs =>
    rw [List.forall_mem_cons] at hbefore
    rw [List.cons_append, sumOf, List.foldl_append, List.foldl_cons]
    exact laws.same_foldl hafter (laws.zero_add (laws.isZero_foldl hbefore.2 hbefore.1))

theorem sumOf_isNaN {zs : List α} {x : α} (hmem : x ∈ zs) (hx : IsNaN x) : IsNaN (sumOf zs) := by
  obtain ⟨before, after, rfl⟩ := List.append_of_mem hmem
  cases before with
  | nil => exact laws.isNaN_foldl hx
  | cons z zs =>
    rw [List.cons_append, sumOf, List.foldl_append, List.foldl_cons]
    exact laws.isNaN_foldl (laws.add_isNaN (Or.inr hx))

end LeakyMask

end Laws

namespace Number

open Float.Model (UnpackedFloat)
open Float.Model.UnpackedFloat

variable {spec : Float.Model.Format} {α : Type} [Zero α] [One α] [Add α] [Mul α]

/-- What is infinite or not a number leaks through a mask. -/
theorem mul_zero_notANumber (spec : Float.Model.Format) {u : UnpackedFloat}
    (h : ¬ u.isFinite = true) (t : Sign) : mul spec u (.zero t) = .notANumber := by
  cases u with
  | zero s => exact absurd rfl h
  | finite s m e hm => exact absurd rfl h
  | infinity s => rfl
  | notANumber => rfl

theorem add_notANumber (spec : Float.Model.Format) {u v : UnpackedFloat}
    (h : u = .notANumber ∨ v = .notANumber) : add spec u v = .notANumber := by
  rcases h with rfl | rfl
  · rfl
  · cases u <;> rfl

theorem SameKind.isNaN_iff {u : UnpackedFloat} {d : Datum} (h : SameKind u d) :
    (∃ s, d = .nan s) ↔ u = .notANumber := by
  cases h with
  | nan s => exact ⟨fun _ => rfl, fun _ => ⟨s, rfl⟩⟩
  | infinite t s => exact ⟨fun ⟨_, h⟩ => (nomatch h), fun h => nomatch h⟩
  | zero t s e => exact ⟨fun ⟨_, h⟩ => (nomatch h), fun h => nomatch h⟩
  | finite t m e hm s m' e' hm' => exact ⟨fun ⟨_, h⟩ => (nomatch h), fun h => nomatch h⟩

namespace FloatWords

variable (W : FloatWords spec α)

/-- What is not a number. -/
def IsNaN (x : α) : Prop := unpack spec (W.word x) = .notANumber

/-- One word is kept for what is not a number. -/
structure OneNaN : Prop where
  unpack_pack : unpack spec (pack spec .notANumber) = .notANumber
  unique : ∀ {x y : α}, W.IsNaN x → W.IsNaN y → x = y

variable {W} {x z : α} (one : W.OneNaN)
include one

theorem OneNaN.isNaN_of_pack (h : W.word x = pack spec .notANumber) : W.IsNaN x := by
  rw [IsNaN, h, one.unpack_pack]

theorem OneNaN.eq_of_pack (hbits : 1 < spec.exponentBits)
    (hz : W.word z = pack spec (unpack spec (W.word x))) : z = x := by
  by_cases hnan : W.IsNaN x
  · refine one.unique (one.isNaN_of_pack ?_) hnan
    rw [hz, show unpack spec (W.word x) = .notANumber from hnan]
  · exact W.injective (hz.trans (pack_unpack hbits hnan))

/-- **Numbers that are kept as words leak through masks** unless they are finite. -/
theorem OneNaN.leakyMask (hbits : 1 < spec.exponentBits) :
    LeakyMask W.IsFinite W.IsZero W.IsNaN where
  mul_one x := one.eq_of_pack hbits (by
    rw [W.mul_eq, W.one_eq]
    exact congrArg _ (unpacks _).mul_one_eq)
  mul_zero h := mul_isZero h ⟨_, W.zero_eq⟩
  mul_zero_isNaN h := one.isNaN_of_pack (by rw [W.mul_eq, W.zero_eq, mul_zero_notANumber spec h])
  add_zero {x z} hz := by
    obtain ⟨t, hz⟩ := hz
    rcases add_zero_eq spec (unpack spec (W.word x)) t with ⟨heq, -⟩ | ⟨s, t₁, t₂, hx, heq, -⟩
    · exact Or.inl (one.eq_of_pack hbits (by rw [W.add_eq, hz, heq]))
    · exact Or.inr ⟨isZero_of_pack (by rw [W.add_eq, hz, heq]), s, hx⟩
  zero_add {x z} hz := by
    obtain ⟨t, hz⟩ := hz
    rcases add_zero_eq spec (unpack spec (W.word x)) t with ⟨-, heq⟩ | ⟨s, t₁, t₂, hx, -, heq⟩
    · exact Or.inl (one.eq_of_pack hbits (by rw [W.add_eq, hz, heq]))
    · exact Or.inr ⟨isZero_of_pack (by rw [W.add_eq, hz, heq]), s, hx⟩
  add_isNaN h := one.isNaN_of_pack (by rw [W.add_eq, add_notANumber spec h])

end FloatWords

theorem oneNaN_single : singleWords.OneNaN where
  unpack_pack := rfl
  unique {x y} hx hy := by
    refine singleWords.injective (congrArg UInt32.toBitVec ?_)
    exact (toBits_of_notANumber hx).trans (toBits_of_notANumber hy).symm

theorem isNaN_single : DType.IsNaN .f32 = singleWords.IsNaN :=
  funext fun x => propext (sameKind_single x).isNaN_iff

/-- **Single precision numbers leak through masks** unless they are finite. -/
theorem leakyMask_single :
    LeakyMask (DType.IsFinite .f32) (DType.IsZero .f32) (DType.IsNaN .f32) := by
  rw [isFinite_single, isZero_single, isNaN_single]
  exact oneNaN_single.leakyMask (by decide)

end Number

end DraftHeads
