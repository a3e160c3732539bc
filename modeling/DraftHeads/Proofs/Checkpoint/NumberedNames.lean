import DraftHeads.Proofs.Checkpoint.ListingOrder
import DraftHeads.Proofs.Number.Digits
import Mathlib.Data.List.SplitBy

/-! # Names with numbers

Names that are alike up to a number come in the order of their numbers, in whatever directories they
are, and whatever follows the numbers.

* `Path.fileName?_join`: the file name of a plain name in a directory is the name.
* `Chunk.ofName_number`: a number in a name is a chunk of its own, and what is around it has the
  chunks that it has alone; `naturalKey_numbered`.
* `numbered_before`: the order of names with numbers, and of the files that a directory has. -/

namespace DraftHeads

/-! ### Plain names -/

section Parts

variable {sep : Char} {l : List Char}

theorem cutAt_ne_nil (sep : Char) (l : List Char) : cutAt sep l ≠ [] := by
  cases l with
  | nil => simp [cutAt]
  | cons c l =>
    rw [cutAt]
    split_ifs
    · simp
    · split <;> simp

theorem cutAt_append (sep : Char) (l r : List Char) :
    cutAt sep (l ++ sep :: r) = cutAt sep l ++ cutAt sep r := by
  induction l with
  | nil => simp [cutAt]
  | cons c l ih =>
    rw [List.cons_append, cutAt, cutAt, ih]
    split_ifs
    · rfl
    · cases hparts : cutAt sep l with
      | nil => exact absurd hparts (cutAt_ne_nil sep l)
      | cons part parts => rfl

theorem cutAt_of_not_mem (h : sep ∉ l) : cutAt sep l = [l] := by
  induction l with
  | nil => rfl
  | cons c l ih =>
    rw [List.mem_cons, not_or] at h
    rw [cutAt, if_neg (Ne.symm h.1), ih h.2]

end Parts

namespace Path

/-- A name that can stand in a directory. -/
structure IsPlain (name : String) : Prop where
  not_empty : name ≠ ""
  not_point : name ≠ "."
  not_points : name ≠ ".."
  not_slash : '/' ∉ name.toList

variable {name : String}

theorem getLast?_spelledParts_join (h : IsPlain name) (d : Path) :
    (d.join name).spelledParts.getLast? = some name := by
  have halone : cutAt '/' name.toList = [name.toList] := cutAt_of_not_mem h.not_slash
  have hbelow : ∀ l : List Char,
      ((cutAt '/' (l ++ '/' :: name.toList)).map String.ofList).getLast? = some name := by
    intro l
    rw [cutAt_append, halone, List.map_append, List.map_singleton, String.ofList_toList,
      List.getLast?_append, List.getLast?_singleton, Option.some_or]
  rw [join]
  split_ifs with hroot hslash
  · rw [spelledParts, halone, List.map_singleton, String.ofList_toList, List.getLast?_singleton]
  · obtain ⟨l, hl⟩ := List.getLast?_eq_some_iff.mp hslash
    rw [spelledParts, String.toList_append, hl, List.append_assoc]
    exact hbelow l
  · rw [spelledParts, String.toList_append, String.toList_append, List.append_assoc]
    exact hbelow d.text.toList

theorem fileName?_join (h : IsPlain name) (d : Path) : (d.join name).fileName? = some name := by
  obtain ⟨parts, hparts⟩ := List.getLast?_eq_some_iff.mp (getLast?_spelledParts_join h d)
  have hlast : (d.join name).parts.getLast? = some name := by
    have hkeep : [name].filter (fun s => s ≠ "" ∧ s ≠ ".") = [name] :=
      List.filter_eq_self.mpr (by simp [h.not_empty, h.not_point])
    rw [Path.parts, hparts, List.filter_append, hkeep]
    split_ifs
    · rw [← List.cons_append, List.getLast?_append, List.getLast?_singleton, Option.some_or]
    · rw [List.getLast?_append, List.getLast?_singleton, Option.some_or]
  rw [fileName?, hlast]
  exact if_neg (not_or.mpr ⟨h.not_point, h.not_points⟩)

end Path

/-! ### Numbers in names -/

/-- The value of a text of digits. -/
def numeralValue (s : String) : ℕ := Nat.ofDigitChars 10 s.toList 0

/-- Digits, at least one. -/
structure IsNumeral (s : String) : Prop where
  not_empty : s ≠ ""
  isDigit : ∀ c ∈ s.toList, c.isDigit

namespace Chunk

variable {l m ds : List Char}

/-- The chunks of a name. -/
def ofName (cs : List Char) : List Chunk := (runs cs).map ofRun

theorem naturalKey_eq {q : Path} {name : String} (h : q.fileName? = some name) :
    naturalKey q = ofName name.toList := by
  rw [naturalKey, h, Option.getD_some, ofName]

theorem runs_append (h : ∀ c ∈ l.getLast?, ∀ c' ∈ m.head?, c.isDigit ≠ c'.isDigit) :
    runs (l ++ m) = runs l ++ runs m :=
  List.splitBy_append fun c hc c' hc' => beq_eq_false_iff_ne.mpr (h c hc c' hc')

theorem runs_digits (hne : ds ≠ []) (hdigits : ∀ c ∈ ds, c.isDigit) : runs ds = [ds] := by
  refine List.splitBy_of_isChain hne (List.Pairwise.isChain ?_)
  refine List.pairwise_of_forall_mem_list fun c hc c' hc' => ?_
  rw [hdigits c hc, hdigits c' hc']
  rfl

theorem ofName_number (hl : ∀ c ∈ l.getLast?, c.isDigit = false)
    (hm : ∀ c ∈ m.head?, c.isDigit = false) (hne : ds ≠ []) (hdigits : ∀ c ∈ ds, c.isDigit)
    (hfit : Nat.ofDigitChars 10 ds 0 < UInt64.size) :
    ofName (l ++ ds ++ m) = ofName l ++ number (Nat.ofDigitChars 10 ds 0) :: ofName m := by
  have hlast : ∀ c ∈ (l ++ ds).getLast?, c.isDigit := by
    intro c hc
    rw [List.getLast?_append_of_ne_nil _ hne] at hc
    exact hdigits c (List.mem_of_getLast? hc)
  have hruns : runs (l ++ ds ++ m) = runs l ++ [ds] ++ runs m := by
    rw [runs_append fun c hc c' hc' => by rw [hlast c hc, hm c' hc']; decide,
      runs_append fun c hc c' hc' => by
        rw [hl c hc, hdigits c' (List.mem_of_head? hc')]; decide,
      runs_digits hne hdigits]
  have hnumber : ofRun ds = number (Nat.ofDigitChars 10 ds 0) := by
    rw [ofRun, Number.Decimal.digitsValue_eq]
    exact if_pos ⟨List.all_eq_true.mpr hdigits, hfit⟩
  rw [ofName, hruns, List.map_append, List.map_append, List.map_singleton, hnumber,
    List.append_assoc]
  rfl

end Chunk

theorem index_lt_of_key_lt {α κ : Type} [Preorder κ] {key : α → κ} {l : List α} {x y : α} {i j : ℕ}
    (h : l.Pairwise fun x y => key x ≤ key y) (hx : l[i]? = some x) (hy : l[j]? = some y)
    (hlt : key x < key y) : i < j := by
  obtain ⟨hi, rfl⟩ := List.getElem?_eq_some_iff.mp hx
  obtain ⟨hj, rfl⟩ := List.getElem?_eq_some_iff.mp hy
  by_contra hle
  rcases (not_lt.mp hle).eq_or_lt with rfl | hji
  · exact lt_irrefl _ hlt
  · exact (List.pairwise_iff_getElem.mp h j i hj hi hji).not_gt hlt

/-! ### The order of names with numbers -/

section Numbered

variable {p a b s t : String}

theorem isPlain_numbered (ha : IsNumeral a) (hp : '/' ∉ p.toList) (hs : '/' ∉ s.toList) :
    Path.IsPlain (p ++ a ++ s) := by
  obtain ⟨c, hc⟩ := List.exists_mem_of_ne_nil a.toList fun hnil =>
    ha.not_empty (String.toList_eq_nil_iff.mp hnil)
  have hmem : c ∈ (p ++ a ++ s).toList := by simp [hc]
  have hdigit := ha.isDigit c hc
  have hother : ∀ name : String, name.toList.any Char.isDigit = false → p ++ a ++ s ≠ name := by
    rintro name hname rfl
    rw [List.any_eq_true.mpr ⟨c, hmem, hdigit⟩] at hname
    cases hname
  refine ⟨hother "" (by decide), hother "." (by decide), hother ".." (by decide), ?_⟩
  rw [String.toList_append, String.toList_append, List.mem_append, List.mem_append]
  rintro ((hslash | hslash) | hslash)
  · exact hp hslash
  · exact absurd (ha.isDigit _ hslash) (by decide)
  · exact hs hslash

/-- **The key of a name with a number** has the value of the number between the chunks of what is
around it. -/
theorem naturalKey_numbered (ha : IsNumeral a) (hp : ∀ c ∈ p.toList.getLast?, c.isDigit = false)
    (hs : ∀ c ∈ s.toList.head?, c.isDigit = false) (hpslash : '/' ∉ p.toList)
    (hsslash : '/' ∉ s.toList) (hfit : numeralValue a < UInt64.size) (d : Path) :
    naturalKey (d.join (p ++ a ++ s)) =
      Chunk.ofName p.toList ++ .number (numeralValue a) :: Chunk.ofName s.toList := by
  rw [Chunk.naturalKey_eq (Path.fileName?_join (isPlain_numbered ha hpslash hsslash) d),
    String.toList_append, String.toList_append]
  exact Chunk.ofName_number hp hs (fun hnil => ha.not_empty (String.toList_eq_nil_iff.mp hnil))
    ha.isDigit hfit

/-- **Names with numbers come in the order of the numbers**, whatever directories they are in and
whatever follows the numbers; among the files that are found in a directory each one with the
smaller number comes first. -/
theorem numbered_before (ha : IsNumeral a) (hb : IsNumeral b)
    (hlt : numeralValue a < numeralValue b) (hfit : numeralValue b < UInt64.size)
    (hp : ∀ c ∈ p.toList.getLast?, c.isDigit = false) (hs : ∀ c ∈ s.toList.head?, c.isDigit = false)
    (ht : ∀ c ∈ t.toList.head?, c.isDigit = false)
    (hplain : '/' ∉ p.toList ∧ '/' ∉ s.toList ∧ '/' ∉ t.toList) :
    (∀ d d' : Path, keyBefore (naturalKey (d.join (p ++ a ++ s)))
      (naturalKey (d'.join (p ++ b ++ t))) = true) ∧
    ∀ tree directory located, Located.inDirectory tree directory = .ok located → ∀ i j : ℕ,
      located.weights[i]? = some (directory.join (p ++ a ++ s)) →
        located.weights[j]? = some (directory.join (p ++ b ++ t)) → i < j := by
  have hnumber : Chunk.number (numeralValue a) < Chunk.number (numeralValue b) :=
    (Chunk.before_iff_lt _ _).mp (decide_eq_true hlt)
  have hbefore : ∀ d d' : Path,
      naturalKey (d.join (p ++ a ++ s)) < naturalKey (d'.join (p ++ b ++ t)) := by
    intro d d'
    rw [naturalKey_numbered ha hp hs hplain.1 hplain.2.1 (hlt.trans hfit),
      naturalKey_numbered hb hp ht hplain.1 hplain.2.2 hfit]
    exact List.append_left_lt (List.cons_lt_cons_iff.mpr (Or.inl hnumber))
  refine ⟨fun d d' => (keyBefore_iff_lt _ _).mpr (hbefore d d'), ?_⟩
  intro tree directory located hok i j hi hj
  obtain ⟨-, names, -, -, hweights⟩ := Located.inDirectory_eq_ok_iff.mp hok
  have hsorted : located.weights.Pairwise fun q q' => naturalKey q ≤ naturalKey q' :=
    hweights ▸ naturalSort_pairwise
  exact index_lt_of_key_lt hsorted hi hj (hbefore directory directory)

/-- Two comes before ten, leading zeros or not, and though the directory lists ten first. -/
theorem numbered_before_ten :
    keyBefore (naturalKey ⟨"a/m-0002.safetensors"⟩) (naturalKey ⟨"b/m-10-of-12.safetensors"⟩) =
      true ∧
    ∃ located, Located.inDirectory
        (Located.listedTree ["m-10-of-12.safetensors", "m-0002.safetensors"]) ⟨"s"⟩ = .ok located ∧
      located.weights.Perm [⟨"s/m-10-of-12.safetensors"⟩, ⟨"s/m-0002.safetensors"⟩] ∧
        ∀ i j : ℕ, located.weights[i]? = some ⟨"s/m-0002.safetensors"⟩ →
          located.weights[j]? = some ⟨"s/m-10-of-12.safetensors"⟩ → i < j := by
  obtain ⟨hkeys, hlisted⟩ := @numbered_before "m-" "0002" "10" ".safetensors" "-of-12.safetensors"
    ⟨by decide, List.all_eq_true.mp (by decide)⟩ ⟨by decide, List.all_eq_true.mp (by decide)⟩
    (by decide) (by decide) (by simp) (by simp) (by simp) (by decide)
  obtain ⟨located, hlocated, hweights⟩ := @Located.exists_inDirectory_listedTree
    ["m-10-of-12.safetensors", "m-0002.safetensors"]
    [⟨"s/m-10-of-12.safetensors"⟩, ⟨"s/m-0002.safetensors"⟩] (by decide +kernel) (by decide +kernel)
    (by decide +kernel) (by decide)
  refine ⟨hkeys ⟨"a"⟩ ⟨"b"⟩, located, hlocated, ?_, hlisted _ ⟨"s"⟩ located hlocated⟩
  rw [hweights]
  exact naturalSort_perm

end Numbered

end DraftHeads
