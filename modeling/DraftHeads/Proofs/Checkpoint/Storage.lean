import DraftHeads.Checkpoint.TensorFile
import DraftHeads.Proofs.Tensor.Matrix
import Mathlib

/-! # Tensors that were stored

A number is stored by the bytes of its word, the lowest one first.

* `wordOfBytes_bytesOfWord`: the bytes of a word give it back.
* `StoredTensor.load_ofTensor`: a tensor that was stored is loaded as it was, whatever its number
  format. -/

namespace DraftHeads

/-! ### Words -/

@[simp] theorem length_bytesOfWord : ∀ (n w : Nat), (bytesOfWord n w).length = n
  | 0, _ => rfl
  | n + 1, w => by rw [bytesOfWord, List.length_cons, length_bytesOfWord n]

/-- **The bytes of a word give it back**, as far as they reach. -/
theorem wordOfBytes_bytesOfWord : ∀ (n w : Nat), wordOfBytes (bytesOfWord n w) = w % 256 ^ n
  | 0, w => by rw [bytesOfWord, wordOfBytes, pow_zero, Nat.mod_one]
  | n + 1, w => by
    rw [bytesOfWord, wordOfBytes, wordOfBytes_bytesOfWord n, pow_succ', Nat.mod_mul,
      UInt8.toNat_ofNat']

theorem ofInt_signedWord (x : Int64) :
    Int64.ofInt (signedWord 64 x.toUInt64.toNat) = x := by
  have hword : signedWord 64 x.toUInt64.toNat = x.toInt := by
    rw [Int64.toInt, BitVec.toInt_eq_toNat_bmod]
    rfl
  rw [hword, Int64.ofInt_toInt]

theorem DType.toWord_lt (d : DType) (x : d.Elem) :
    d.toWord x < 256 ^ (StoredFormat.ofDType d).size := by
  cases d with
  | u8 => exact UInt8.toNat_lt x
  | u32 => exact UInt32.toNat_lt x
  | i64 => exact UInt64.toNat_lt _
  | f16 => exact UInt16.toNat_lt _
  | bf16 => exact UInt16.toNat_lt _
  | f32 => exact UInt32.toNat_lt _
  | f64 => exact UInt64.toNat_lt _

namespace StoredTensor

/-! ### Tensors -/

theorem words_ofTensor (name : String) (t : AnyTensor) :
    (ofTensor name t).words = t.tensor.data.map t.dtype.toWord := by
  have hsize : ∀ bytes ∈ t.tensor.data.map fun x =>
      bytesOfWord (StoredFormat.ofDType t.dtype).size (t.dtype.toWord x),
      bytes.length = (StoredFormat.ofDType t.dtype).size := by
    intro bytes hbytes
    obtain ⟨x, -, rfl⟩ := List.mem_map.mp hbytes
    exact length_bytesOfWord _ _
  have hpieces := pieces_flatten hsize
  rw [List.length_map, t.tensor.length_data, ← List.flatMap_def] at hpieces
  change List.map wordOfBytes (pieces (StoredFormat.ofDType t.dtype).size
    (entryCount t.tensor.shape) (t.tensor.data.flatMap fun x =>
      bytesOfWord (StoredFormat.ofDType t.dtype).size (t.dtype.toWord x))) = _
  rw [hpieces, List.map_map]
  refine List.map_congr_left fun x _ => ?_
  rw [Function.comp_apply, wordOfBytes_bytesOfWord, Nat.mod_eq_of_lt (t.dtype.toWord_lt x)]

theorem ofWords_ofTensor {name : String} {d : DType} {t : Tensor d.Elem} {f : Nat → d.Elem}
    (h : ∀ x, f (d.toWord x) = x) : (ofTensor name ⟨d, t⟩).ofWords d f = .ok ⟨d, t⟩ := by
  have hdata : (t.data.map d.toWord).map f = t.data := by
    rw [List.map_map]
    exact (List.map_congr_left fun x _ => h x).trans (List.map_id _)
  obtain ⟨s, hs, hshape, hsdata⟩ := Tensor.ofData_eq t.length_data
  obtain rfl : s = t := Tensor.ext hshape hsdata
  rw [ofWords, words_ofTensor, hdata]
  change Tensor.ofData s.shape s.data >>= _ = _
  rw [hs]
  rfl

/-- **A tensor that was stored is loaded as it was.** -/
theorem load_ofTensor (name : String) (t : AnyTensor) : (ofTensor name t).load = .ok t := by
  obtain ⟨d, t⟩ := t
  cases d with
  | u8 => exact ofWords_ofTensor fun x => UInt8.ofNat_toNat
  | u32 => exact ofWords_ofTensor fun x => UInt32.ofNat_toNat
  | i64 => exact ofWords_ofTensor ofInt_signedWord
  | f16 => exact ofWords_ofTensor fun x => congrArg Number.Short.mk UInt16.ofNat_toNat
  | bf16 => exact ofWords_ofTensor fun x => congrArg Number.Short.mk UInt16.ofNat_toNat
  | f32 =>
    refine ofWords_ofTensor fun x => ?_
    exact (congrArg Float32.ofBits UInt32.ofNat_toNat).trans (Float32.ofBits_toBits x)
  | f64 =>
    refine ofWords_ofTensor fun x => ?_
    exact (congrArg Float.ofBits UInt64.ofNat_toNat).trans (Float.ofBits_toBits x)

end StoredTensor

end DraftHeads
