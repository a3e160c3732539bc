import DraftHeads.Proofs.Toml.Numbers
import DraftHeads.Proofs.Toml.Strings

/-! # Documents read back

* `Reads`: a text that reads as a value wherever a value may stand.
* `value_valueText`: the text of every value that can be written reads back.
* `parse?_document?`: **a document reads back**, its keys being bare and different. -/

namespace DraftHeads.Toml

open Number Number.Decimal

namespace Value

/-- The value as it reads back. -/
def settled : Value → Value
  | double x => .double x.settled
  | v => v

/-- An integer does not lie below those of sixty-four bits. -/
def NotBelow : Value → Prop
  | integer i => -(UInt64.size / 2 : Nat) ≤ i
  | _ => True

/-- No integer in the value lies below those of sixty-four bits. -/
def InRange : Value → Prop
  | array items => ∀ v ∈ items, v.NotBelow
  | v => v.NotBelow

end Value

variable {rest : List Char} {c : Char}

/-! ### Scalars -/

theorem Ends.noQuote (h : Ends rest) : NoQuote rest := by
  cases h <;> constructor <;> simp

/-- May a scalar start with the character? -/
def Starts (c : Char) : Prop := c ∉ [' ', '\t', '\n', '\r', '#', '[', ']', '\x7b']

/-- A text that reads as a scalar. -/
structure Reads (v : Value) (text : List Char) : Prop where
  starts : ∃ c more, text = c :: more ∧ Starts c
  scalar_append {rest : List Char} (h : Ends rest) : scalar (text ++ rest) = some (v, rest)

theorem quoteText_cons (cs : List Char) :
    ∃ c more, quoteText cs = c :: more ∧ (c = '"' ∨ c = '\'') := by
  unfold quoteText
  cases quotingOf cs <;> exact ⟨_, _, rfl, by decide⟩

theorem reads_quoteText (s : String) : Reads (.string s) (quoteText s.toList) := by
  obtain ⟨c, more, htext, hc⟩ := quoteText_cons s.toList
  refine ⟨⟨c, more, htext, ?_⟩, fun {rest} h => ?_⟩
  · rcases hc with rfl | rfl <;> unfold Starts <;> decide
  · have hstring := string_quoteText h.noQuote s.toList
    rw [htext] at hstring ⊢
    rw [List.cons_append] at hstring ⊢
    unfold scalar
    dsimp only
    rw [if_pos hc, hstring]
    exact congrArg (fun t => some (Value.string t, rest)) String.ofList_toList

/-- May a number start with the character? -/
def StartsNumber (c : Char) : Prop := c.isDigit ∨ c = '-' ∨ c = 'i' ∨ c = 'n'

theorem StartsNumber.starts (h : StartsNumber c) : Starts c ∧ c ∉ ['"', '\'', 't', 'f'] := by
  rcases h with h | rfl | rfl | rfl
  · constructor
    · intro hmem
      simp only [List.mem_cons, List.not_mem_nil, or_false] at hmem
      rcases hmem with rfl | rfl | rfl | rfl | rfl | rfl | rfl | rfl <;> cases h
    · intro hmem
      simp only [List.mem_cons, List.not_mem_nil, or_false] at hmem
      rcases hmem with rfl | rfl | rfl | rfl <;> cases h
  all_goals
    unfold Starts
    decide

theorem scalar_number {cs : List Char} (hc : StartsNumber c) (hdate : dateTime? (c :: cs) = none) :
    scalar (c :: cs) =
      match double (c :: cs) with
      | some (x, r) => some (.double x, r)
      | none => (integer (c :: cs)).map fun (i, r) => (.integer i, r) := by
  have hother := hc.starts.2
  simp only [List.mem_cons, List.not_mem_nil, or_false, not_or] at hother
  obtain ⟨hdouble, hsingle, ht, hf⟩ := hother
  unfold scalar
  dsimp only
  rw [if_neg (by simp [hdouble, hsingle]), if_neg ht, if_neg hf]
  generalize dateTime? (c :: cs) = date? at hdate ⊢
  subst hdate
  rfl

theorem startsNumber_integerText (i : Int) :
    ∃ c more, integerText i = c :: more ∧ StartsNumber c := by
  obtain ⟨d, more, hds, hd⟩ := exists_cons_of_whole (whole_digits i.natAbs)
  rw [integerText_eq, hds]
  cases decide (i < 0) with
  | true => exact ⟨'-', d :: more, rfl, Or.inr (Or.inl rfl)⟩
  | false => exact ⟨d, more, rfl, Or.inl hd⟩

theorem startsNumber_doubleText (x : Double) :
    ∃ c more, doubleText x = c :: more ∧ StartsNumber c := by
  cases hfinite : x.isFinite with
  | true =>
    obtain ⟨d, more, hds, hd⟩ := exists_cons_of_whole (Double.whole_shortest hfinite)
    rw [doubleText_of_finite hfinite, hds]
    cases x.isNegative with
    | true => exact ⟨'-', _, rfl, Or.inr (Or.inl rfl)⟩
    | false => exact ⟨d, _, rfl, Or.inl hd⟩
  | false =>
    unfold doubleText
    dsimp only
    rw [hfinite]
    cases x.isNegative <;> cases x.isNaN <;>
      exact ⟨_, _, rfl, by unfold StartsNumber; decide⟩

theorem reads_integerText {i : Int} (hlow : -(UInt64.size / 2 : Nat) ≤ i)
    (hhigh : i < (UInt64.size / 2 : Nat)) : Reads (.integer i) (integerText i) := by
  obtain ⟨c, more, htext, hc⟩ := startsNumber_integerText i
  refine ⟨⟨c, more, htext, hc.starts.1⟩, fun {rest} h => ?_⟩
  have hdate := dateTime?_integerText i h
  have hdouble := double_integerText i h
  have hinteger := integer_integerText hlow hhigh h
  rw [htext, List.cons_append] at hdate hdouble hinteger ⊢
  rw [scalar_number hc hdate, hdouble, hinteger]
  rfl

theorem reads_doubleText (x : Double) : Reads (.double x.settled) (doubleText x) := by
  obtain ⟨c, more, htext, hc⟩ := startsNumber_doubleText x
  refine ⟨⟨c, more, htext, hc.starts.1⟩, fun {rest} h => ?_⟩
  have hdate := dateTime?_doubleText x rest
  have hdouble := double_doubleText x h
  rw [htext, List.cons_append] at hdate hdouble ⊢
  rw [scalar_number hc hdate, hdouble]

theorem Reads.value_append {v : Value} {text : List Char} (h : Reads v text) (fuel level : Nat)
    (hrest : Ends rest) : value (fuel + 1) level (text ++ rest) = some (v, rest) := by
  obtain ⟨c, more, rfl, hc⟩ := h.starts
  rw [← h.scalar_append hrest, List.cons_append, value]
  all_goals
    intro _ heq
    rw [(List.cons.inj heq).1] at hc
    exact hc (by decide)

/-! ### Arrays -/

theorem skipLines_stop (hblank : isBlank c = false) (hmark : c ≠ '#') (hn : c ≠ '\n')
    (hr : c ≠ '\r') (fuel : Nat) (cs : List Char) :
    skipLines (fuel + 1) (c :: cs) = some (c :: cs) := by
  rw [skipLines, skipBlanks, List.dropWhile_cons_of_neg (by simp [hblank])]
  split
  · next heq => exact absurd (List.cons.inj heq).1 hmark
  · rw [newline?_cons hn hr]

theorem isBlank_of_starts (hc : Starts c) : isBlank c = false := by
  unfold Starts at hc
  simp_all [isBlank]

theorem skipLines_starts (hc : Starts c) (fuel : Nat) (cs : List Char) :
    skipLines (fuel + 1) (c :: cs) = some (c :: cs) := by
  refine skipLines_stop (isBlank_of_starts hc) ?_ ?_ ?_ fuel cs
  all_goals
    rintro rfl
    exact hc (by decide)

/-- An item of an array on a line of its own. -/
def itemLine (text : List Char) : List Char := [' ', ' ', ' ', ' '] ++ text ++ [',', '\n']

theorem skipLines_itemLine (hc : Starts c) (fuel : Nat) (cs : List Char) :
    skipLines (fuel + 2) ('\n' :: ' ' :: ' ' :: ' ' :: ' ' :: c :: cs) = some (c :: cs) :=
  skipLines_starts hc fuel cs

theorem items_succ {v : Value} {text cs : List Char} (h : Reads v text) {fuel level : Nat}
    (hskip : skipLines (cs.length + 1) cs = some (text ++ rest)) (hrest : Ends rest) :
    items (fuel + 2) level cs = (do
      match ← skipLines (rest.length + 1) rest with
      | ']' :: rest => some ([v], rest)
      | ',' :: rest => (items (fuel + 1) level rest).map fun (vs, r) => (v :: vs, r)
      | _ => none) := by
  have hvalue := h.value_append fuel level hrest
  obtain ⟨c, more, rfl, hc⟩ := h.starts
  rw [items, hskip]
  simp only [Option.bind_eq_bind, Option.bind_some]
  rw [List.cons_append] at hvalue ⊢
  split
  · next heq =>
    rw [(List.cons.inj heq).1] at hc
    exact absurd (by decide) hc
  · rw [hvalue]
    rfl

theorem items_last {v : Value} {text cs : List Char} (h : Reads v text) {fuel level : Nat}
    (hskip : skipLines (cs.length + 1) cs = some (text ++ ']' :: rest)) :
    items (fuel + 2) level cs = some ([v], rest) := by
  rw [items_succ h hskip (.array rest), skipLines_stop rfl (by decide) (by decide) (by decide)]
  rfl

theorem items_next {v : Value} {text cs : List Char} (h : Reads v text) {fuel level : Nat}
    (hskip : skipLines (cs.length + 1) cs = some (text ++ ',' :: rest)) :
    items (fuel + 2) level cs =
      (items (fuel + 1) level rest).map fun (vs, r) => (v :: vs, r) := by
  rw [items_succ h hskip (.item rest), skipLines_stop rfl (by decide) (by decide) (by decide)]
  rfl

/-- **The items of an array** that are on lines of their own. -/
theorem items_lines {vs : List Value} {texts : List (List Char)} (h : List.Forall₂ Reads vs texts)
    {fuel level : Nat} (hfuel : vs.length + 1 < fuel) (rest : List Char) :
    items fuel level ('\n' :: (texts.flatMap itemLine ++ ']' :: rest)) = some (vs, rest) := by
  induction h generalizing fuel with
  | nil =>
    obtain ⟨fuel, rfl⟩ : ∃ n, fuel = n + 2 := ⟨fuel - 2, by rw [List.length_nil] at hfuel; omega⟩
    rfl
  | @cons v text vs texts hv _ ih =>
    obtain ⟨fuel, rfl⟩ : ∃ n, fuel = n + 2 := ⟨fuel - 2, by rw [List.length_cons] at hfuel; omega⟩
    rw [List.length_cons] at hfuel
    obtain ⟨c, more, htext, hc⟩ := hv.starts
    have hline : '\n' :: ((text :: texts).flatMap itemLine ++ ']' :: rest) =
        '\n' :: ' ' :: ' ' :: ' ' :: ' ' ::
          (text ++ ',' :: '\n' :: (texts.flatMap itemLine ++ ']' :: rest)) := by
      simp [itemLine, List.append_assoc]
    rw [hline, items_next hv, ih (by omega)]
    · rfl
    · rw [htext]
      exact skipLines_itemLine hc _ _

theorem length_le_flatMap_itemLine (texts : List (List Char)) :
    texts.length ≤ (texts.flatMap itemLine).length := by
  induction texts with
  | nil => exact Nat.zero_le _
  | cons text texts ih =>
    rw [List.flatMap_cons, List.length_append, List.length_cons, itemLine]
    simp only [List.length_append, List.length_cons]
    omega

theorem arrayText_lines {texts : List (List Char)} (h : 2 ≤ texts.length) :
    arrayText texts = '[' :: '\n' :: (texts.flatMap itemLine ++ [']']) := by
  match texts, h with
  | _ :: _ :: _, _ => rfl

theorem value_bracket {vs : List Value} {cs : List Char} {fuel : Nat}
    (h : items fuel 1 cs = some (vs, rest)) :
    value (fuel + 1) 0 ('[' :: cs) = some (.array vs, rest) := by
  rw [value, if_pos (by decide), h]
  rfl

theorem value_arrayText {vs : List Value} {texts : List (List Char)}
    (h : List.Forall₂ Reads vs texts) (rest : List Char) {fuel : Nat}
    (hfuel : (arrayText texts).length + 1 < fuel) :
    value fuel 0 (arrayText texts ++ rest) = some (.array vs, rest) := by
  have hlen := h.length_eq
  obtain ⟨fuel, rfl⟩ : ∃ n, fuel = n + 3 := ⟨fuel - 3, by
    have : 2 ≤ (arrayText texts).length := by
      match texts with
      | [] => exact le_rfl
      | [_] => simp [arrayText]
      | _ :: _ :: _ => rw [arrayText_lines (by simp)]; simp
    omega⟩
  cases h with
  | nil => exact value_bracket rfl
  | @cons v text vs texts hv htexts =>
    cases htexts with
    | nil =>
      obtain ⟨c, more, htext, hc⟩ := hv.starts
      change value _ 0 ('[' :: (text ++ [']'] ++ rest)) = _
      refine value_bracket (items_last hv ?_)
      rw [List.append_assoc, htext]
      exact skipLines_starts hc _ _
    | @cons w text' vs texts hw htexts =>
      have hlines : 2 ≤ (text :: text' :: texts).length := by simp
      have hall := List.Forall₂.cons hv (List.Forall₂.cons hw htexts)
      have hle := length_le_flatMap_itemLine (text :: text' :: texts)
      rw [arrayText_lines hlines] at hfuel ⊢
      rw [List.length_cons, List.length_cons, List.length_append] at hfuel
      have hfuel : (v :: w :: vs).length + 1 < fuel + 2 := by omega
      change value _ 0 ('[' :: ('\n' :: (_ ++ [']']) ++ rest)) = _
      refine value_bracket ?_
      rw [List.cons_append, List.append_assoc]
      exact items_lines hall hfuel rest

/-! ### Values -/

/-- The text of an integer in an array. -/
def integerText? : Value → Option (List Char)
  | .integer i => if i < (UInt64.size / 2 : Nat) then some (integerText i) else none
  | _ => none

theorem reads_of_integerText? {v : Value} {text : List Char} (h : integerText? v = some text)
    (hlow : v.NotBelow) : Reads v text := by
  cases v with
  | integer i =>
    rw [integerText?] at h
    split_ifs at h with hhigh
    rw [← Option.some.inj h]
    exact reads_integerText hlow hhigh
  | _ => cases h

theorem valueText?_array (items : List Value) : valueText? (.array items) =
    (items.mapM integerText? >>= fun texts => some (arrayText texts)) := rfl

theorem isSome_mapM {α β : Type} {f : α → Option β} {xs : List α} :
    (xs.mapM f).isSome ↔ ∀ x ∈ xs, (f x).isSome := by
  induction xs with
  | nil => simp
  | cons x xs ih =>
    rw [List.mapM_cons, List.forall_mem_cons, ← ih]
    cases f x <;> cases xs.mapM f <;> simp

theorem valueText?_array_isSome (items : List Value) :
    (valueText? (.array items)).isSome ↔ ∀ v ∈ items, (integerText? v).isSome := by
  rw [valueText?_array, ← isSome_mapM]
  cases items.mapM integerText? <;> rfl

theorem reads_of_mapM {items : List Value} {texts : List (List Char)}
    (h : items.mapM integerText? = some texts) (hlow : ∀ v ∈ items, v.NotBelow) :
    List.Forall₂ Reads items texts := by
  induction items generalizing texts with
  | nil =>
    obtain rfl := Option.some.inj h
    exact .nil
  | cons v items ih =>
    obtain ⟨hv, hitems⟩ := List.forall_mem_cons.mp hlow
    simp only [List.mapM_cons, Option.bind_eq_bind, Option.bind_eq_some_iff, Option.pure_def,
      Option.some.injEq] at h
    obtain ⟨text, htext, more, hmore, rfl⟩ := h
    exact .cons (reads_of_integerText? htext hv) (ih hmore hitems)

theorem valueText?_cases {v : Value} {text : List Char} (h : valueText? v = some text)
    (hrange : v.InRange) : Reads v.settled text ∨
      ∃ items texts, v = .array items ∧ text = arrayText texts ∧
        List.Forall₂ Reads items texts := by
  cases v with
  | string s =>
    obtain rfl := Option.some.inj h
    exact Or.inl (reads_quoteText s)
  | double x =>
    obtain rfl := Option.some.inj h
    exact Or.inl (reads_doubleText x)
  | integer i => exact Or.inl (reads_of_integerText? h hrange)
  | array items =>
    rw [valueText?_array, Option.bind_eq_bind, Option.bind_eq_some_iff] at h
    obtain ⟨texts, htexts, harray⟩ := h
    exact Or.inr ⟨items, texts, rfl, (Option.some.inj harray).symm, reads_of_mapM htexts hrange⟩
  | bool | dateTime | table => cases h

/-- **The text of a value reads back**, wherever a value may stand. -/
theorem value_valueText {v : Value} {text : List Char} (h : valueText? v = some text)
    (hrange : v.InRange) (hrest : Ends rest) {fuel : Nat} (hfuel : text.length + 1 < fuel) :
    value fuel 0 (text ++ rest) = some (v.settled, rest) := by
  rcases valueText?_cases h hrange with hreads | ⟨items, texts, rfl, rfl, hitems⟩
  · obtain ⟨fuel, rfl⟩ : ∃ n, fuel = n + 1 := ⟨fuel - 1, by omega⟩
    exact hreads.value_append fuel 0 hrest
  · exact value_arrayText hitems rest hfuel

theorem skipBlanks_valueText {v : Value} {text : List Char} (h : valueText? v = some text)
    (hrange : v.InRange) (rest : List Char) : skipBlanks (text ++ rest) = text ++ rest := by
  obtain ⟨c, more, rfl, hc⟩ : ∃ c more, text = c :: more ∧ isBlank c = false := by
    rcases valueText?_cases h hrange with hreads | ⟨items, texts, rfl, rfl, hitems⟩
    · obtain ⟨c, more, rfl, hc⟩ := hreads.starts
      exact ⟨c, more, rfl, isBlank_of_starts hc⟩
    · match texts with
      | [] | [_] | _ :: _ :: _ => exact ⟨'[', _, rfl, rfl⟩
  rw [List.cons_append, skipBlanks, List.dropWhile_cons_of_neg (by simp [hc])]

/-! ### Keys -/

/-- A key that needs no quotes. -/
structure BareKey (name : String) : Prop where
  nonempty : name.toList ≠ []
  isBare : ∀ c ∈ name.toList, isBare c

theorem BareKey.exists_cons {name : String} (h : BareKey name) :
    ∃ c more, name.toList = c :: more ∧ Toml.isBare c := by
  cases hname : name.toList with
  | nil => exact absurd hname h.nonempty
  | cons c more => exact ⟨c, more, rfl, h.isBare c (by rw [hname]; exact List.mem_cons_self)⟩

theorem not_mem_of_isBare (h : isBare c) :
    c ∉ [' ', '\t', '\n', '\r', '#', '[', '"', '\'', '\uFEFF'] := by
  intro hmem
  simp only [List.mem_cons, List.not_mem_nil, or_false] at hmem
  rcases hmem with rfl | rfl | rfl | rfl | rfl | rfl | rfl | rfl | rfl <;>
    exact absurd h (by decide)

theorem lineString_bare (h : isBare c) (cs : List Char) : lineString (c :: cs) = none := by
  have hnot := not_mem_of_isBare h
  unfold lineString
  split <;> simp_all

theorem simpleKey_bare {name : String} (h : BareKey name) (rest : List Char) :
    simpleKey (name.toList ++ ' ' :: rest) = some (name, ' ' :: rest) := by
  obtain ⟨c, more, hname, hc⟩ := h.exists_cons
  have htake : (name.toList ++ ' ' :: rest).takeWhile isBare = name.toList := by
    rw [List.takeWhile_append_of_pos h.isBare, List.takeWhile_cons_of_neg (by decide),
      List.append_nil]
  have hdrop : (name.toList ++ ' ' :: rest).dropWhile isBare = ' ' :: rest := by
    rw [List.dropWhile_append_of_pos h.isBare, List.dropWhile_cons_of_neg (by decide)]
  have hline : lineString (name.toList ++ ' ' :: rest) = none := by
    rw [hname]
    exact lineString_bare hc _
  simp only [simpleKey, hline, htake, hdrop]
  rw [if_neg (by simp [h.nonempty]), String.ofList_toList]

theorem skipBlanks_bare {name : String} (h : BareKey name) (rest : List Char) :
    skipBlanks (name.toList ++ rest) = name.toList ++ rest := by
  obtain ⟨c, more, hname, hc⟩ := h.exists_cons
  have hnot := not_mem_of_isBare hc
  have hblank : isBlank c = false := by simp_all [isBlank]
  rw [hname, List.cons_append, skipBlanks, List.dropWhile_cons_of_neg (by simp [hblank])]

theorem key_bare {name : String} (h : BareKey name) (rest : List Char) :
    key (name.toList ++ ' ' :: '=' :: rest) = some ([name], '=' :: rest) := by
  rw [key, keyParts, skipBlanks_bare h, simpleKey_bare h]
  rfl

/-! ### Lines -/

/-- The line of an entry. -/
def entryLine (name : String) (text : List Char) : List Char :=
  name.toList ++ [' ', '=', ' '] ++ text ++ ['\n']

theorem assignment_entryLine {name : String} {v : Value} {text : List Char} (hname : BareKey name)
    (h : valueText? v = some text) (hrange : v.InRange) (d : Draft) (more : List Char) :
    assignment d (entryLine name text ++ more) =
      (d.assign [name] v.settled).map fun d => (d, more) := by
  have hline : entryLine name text ++ more =
      name.toList ++ ' ' :: '=' :: ' ' :: (text ++ '\n' :: more) := by
    simp [entryLine, List.append_assoc]
  have hblank : skipBlanks (' ' :: (text ++ '\n' :: more)) = text ++ '\n' :: more :=
    skipBlanks_valueText h hrange _
  have hfuel : text.length + 1 < 2 * (' ' :: (text ++ '\n' :: more)).length + 4 := by
    rw [List.length_cons, List.length_append]
    omega
  rw [hline, assignment, key_bare hname]
  simp only [Option.bind_eq_bind, Option.bind_some, hblank,
    value_valueText h hrange (.line more) hfuel]
  change (d.assign [name] v.settled >>= fun d => some (d, more)) = _
  cases d.assign [name] v.settled <;> rfl

theorem assign_new {name : String} {done : List (String × Item)} (hnew : name ∉ done.map Prod.fst)
    (v : Value) : Draft.assign ⟨.blank, ⟨.written, done⟩, [], false⟩ [name] v =
      some ⟨.blank, ⟨.written, done ++ [(name, .value v)]⟩, [], false⟩ := by
  have hfind : Section.find? ⟨.written, done⟩ name = none := by
    rw [Section.find?, Option.map_eq_none_iff, List.find?_eq_none]
    intro e he heq
    exact hnew (List.mem_map.mpr ⟨e, he, eq_of_beq heq⟩)
  have hassign : Section.assign [] name v ⟨.written, done⟩ =
      some ⟨.written, done ++ [(name, .value v)]⟩ := by
    rw [Section.assign, Section.change, hfind, Section.put, hfind]
    rfl
  change (Section.assign [] name v ⟨.written, done⟩ >>= fun s => some (Draft.mk _ s _ _)) = _
  rw [hassign]
  rfl

theorem lines_entryLine {name : String} {v : Value} {text : List Char} (hname : BareKey name)
    (h : valueText? v = some text) (hrange : v.InRange) {done : List (String × Item)}
    (hnew : name ∉ done.map Prod.fst) (fuel : Nat) (more : List Char) :
    lines (fuel + 1) ⟨.blank, ⟨.written, done⟩, [], false⟩ (entryLine name text ++ more) =
      lines fuel ⟨.blank, ⟨.written, done ++ [(name, .value v.settled)]⟩, [], false⟩ more := by
  have hassign := assignment_entryLine hname h hrange ⟨.blank, ⟨.written, done⟩, [], false⟩ more
  rw [assign_new hnew] at hassign
  obtain ⟨c, tail, hchars, hc⟩ := hname.exists_cons
  have hnot := not_mem_of_isBare hc
  simp only [List.mem_cons, List.not_mem_nil, or_false, not_or] at hnot
  have hblank := skipBlanks_bare hname ([' ', '=', ' '] ++ text ++ ['\n'] ++ more)
  have hline : entryLine name text ++ more =
      name.toList ++ ([' ', '=', ' '] ++ text ++ ['\n'] ++ more) := by
    simp [entryLine, List.append_assoc]
  rw [← hline] at hblank
  rw [lines, hblank]
  rw [hline, hchars, List.cons_append] at hassign ⊢
  split
  · cases ‹_ :: _ = []›
  · next heq => exact absurd (List.cons.inj heq).1 hnot.2.2.2.2.2.1
  · next heq =>
    obtain ⟨rfl, rfl⟩ := List.cons.inj heq
    rw [if_neg hnot.2.2.2.2.1, newline?_cons hnot.2.2.1 hnot.2.2.2.1, hassign]
    rfl

theorem documentText?_cons {name : String} {v : Value} {entries : List (String × Value)}
    {text : List Char} (h : documentText? ((name, v) :: entries) = some text) :
    ∃ line more, valueText? v = some line ∧ documentText? entries = some more ∧
      text = entryLine name line ++ more := by
  simp only [documentText?, Option.bind_eq_bind, Option.bind_eq_some_iff, Option.some.injEq] at h
  obtain ⟨line, hline, more, hmore, rfl⟩ := h
  exact ⟨line, more, hline, hmore, by simp [entryLine, List.append_assoc]⟩

theorem documentText?_isSome {entries : List (String × Value)} :
    (documentText? entries).isSome ↔ ∀ e ∈ entries, (valueText? e.2).isSome := by
  induction entries with
  | nil => simp [documentText?]
  | cons e entries ih =>
    rw [documentText?, List.forall_mem_cons, ← ih]
    cases valueText? e.2 <;> cases documentText? entries <;> simp

/-- **The lines of a document** add their entries one by one. -/
theorem lines_documentText {entries : List (String × Value)} {text : List Char}
    (h : documentText? entries = some text) (hnames : ∀ e ∈ entries, BareKey e.1)
    (hrange : ∀ e ∈ entries, e.2.InRange) {done : List (String × Item)}
    (hnodup : (done.map Prod.fst ++ entries.map Prod.fst).Nodup) {fuel : Nat}
    (hfuel : text.length < fuel) :
    lines fuel ⟨.blank, ⟨.written, done⟩, [], false⟩ text =
      some ⟨.written, done ++ entries.map fun e => (e.1, .value e.2.settled)⟩ := by
  induction entries generalizing text done fuel with
  | nil =>
    obtain rfl := Option.some.inj h
    obtain ⟨fuel, rfl⟩ : ∃ n, fuel = n + 1 := ⟨fuel - 1, by omega⟩
    rw [List.map_nil, List.append_nil]
    rfl
  | cons e entries ih =>
    obtain ⟨name, v⟩ := e
    obtain ⟨line, more, hline, hmore, rfl⟩ := documentText?_cons h
    obtain ⟨hname, hnames⟩ := List.forall_mem_cons.mp hnames
    obtain ⟨hv, hrange⟩ := List.forall_mem_cons.mp hrange
    obtain ⟨fuel, rfl⟩ : ∃ n, fuel = n + 1 := ⟨fuel - 1, by omega⟩
    have hnew : name ∉ done.map Prod.fst := fun hmem =>
      (List.nodup_append.mp hnodup).2.2 name hmem name List.mem_cons_self rfl
    have hnext : ((done ++ [(name, Item.value v.settled)]).map Prod.fst ++
        entries.map Prod.fst).Nodup := by
      simpa [List.map_append, List.append_assoc] using hnodup
    have hshort : more.length < fuel := by
      have : 0 < (entryLine name line).length := by simp [entryLine]
      rw [List.length_append] at hfuel
      omega
    rw [lines_entryLine hname hline hv hnew, ih hmore hnames hrange hnext hshort, List.append_assoc]
    rfl

theorem entriesToValues_values (entries : List (String × Value)) :
    entriesToValues (entries.map fun e => (e.1, Item.value e.2)) = entries := by
  induction entries with
  | nil => rfl
  | cons e entries ih => rw [List.map_cons, entriesToValues, ih, Item.toValue]

theorem skipMark_documentText {entries : List (String × Value)} {text : List Char}
    (h : documentText? entries = some text) (hnames : ∀ e ∈ entries, BareKey e.1) :
    skipMark text = text := by
  cases entries with
  | nil =>
    obtain rfl := Option.some.inj h
    rfl
  | cons e entries =>
    obtain ⟨name, v⟩ := e
    obtain ⟨line, more, -, -, rfl⟩ := documentText?_cons h
    obtain ⟨c, tail, hchars, hc⟩ := (hnames _ List.mem_cons_self).exists_cons
    have hmark : c.toNat ≠ 0xFEFF := fun heq => by
      have : c = '\uFEFF' := Char.toNat_inj.mp heq
      exact not_mem_of_isBare hc (by rw [this]; decide)
    rw [entryLine, hchars]
    exact if_neg hmark

/-- **A document reads back.** -/
theorem parse?_document? {entries : List (String × Value)} {text : String}
    (h : document? entries = some text) (hnames : ∀ e ∈ entries, BareKey e.1)
    (hrange : ∀ e ∈ entries, e.2.InRange) (hnodup : (entries.map Prod.fst).Nodup) :
    parse? text = some (entries.map fun e => (e.1, e.2.settled)) := by
  obtain ⟨cs, hcs, rfl⟩ := Option.map_eq_some_iff.mp h
  have hlines := @lines_documentText entries cs hcs hnames hrange [] hnodup (cs.length + 1)
    (Nat.lt_succ_self _)
  have hvalues := entriesToValues_values (entries.map fun e => (e.1, e.2.settled))
  rw [List.map_map] at hvalues
  rw [parse?, String.toList_ofList, skipMark_documentText hcs hnames]
  change (lines _ _ _ >>= fun s => some (entriesToValues s.entries)) = _
  rw [show Draft.start = ⟨.blank, ⟨.written, []⟩, [], false⟩ from rfl, hlines]
  exact congrArg some hvalues

end DraftHeads.Toml
