import DraftHeads.Toml.Lexer
import DraftHeads.Toml.Printer
import Mathlib.Tactic.SplitIfs

/-! # Strings read back

A string is written in one of four forms, and each of them is read by a function of its own.

* `Escaped`: a character as it may stand between double quotes, and `escaped_escapeChar`.
* `basicBody_escapeText`, `literalBody_self`, `multiBasicBody_escapeText`, `multiLiteralBody_self`:
  the four forms read back.
* `string_quoteText`: **every string reads back**, whatever characters it is made of. -/

namespace DraftHeads.Toml

/-- What follows a string does not go on with quotes. -/
structure NoQuote (rest : List Char) : Prop where
  double : rest.head? ≠ some '"'
  single : rest.head? ≠ some '\''

variable {rest : List Char} {c : Char}

/-! ### Escapes -/

/-- The ways to write a character other than a double quote. -/
inductive Escaped (multiline : Bool) : Char → List Char → Prop
  | plain {c : Char} (hplain : isPlain c) (hquote : c ≠ '"') (hslash : c ≠ '\\') :
    Escaped multiline c [c]
  | short {e c : Char} (h : shortEscape? e = some c) (hfour : e ≠ 'u') (height : e ≠ 'U') :
    Escaped multiline c ['\\', e]
  | code {a b d e c : Char} (h : charOf? [a, b, d, e] = some c) :
    Escaped multiline c ['\\', 'u', a, b, d, e]
  | newline (h : multiline) : Escaped multiline '\n' ['\n']

theorem charOf?_hexFour :
    ∀ n < 128, n < 0x20 ∨ n = 0x7F → charOf? (hexFour n) = some (Char.ofNat n) := by
  decide

theorem escaped_escapeChar (multiline : Bool) (hquote : c ≠ '"') :
    Escaped multiline c (escapeChar multiline c) := by
  unfold escapeChar
  split_ifs with hslash hb ht hn hm hf hr hcontrol
  · rw [hslash]
    exact .short rfl (by decide) (by decide)
  · rw [hb]
    exact .short rfl (by decide) (by decide)
  · rw [ht]
    exact .short rfl (by decide) (by decide)
  · rw [hn]
    exact .newline hm
  · rw [hn]
    exact .short rfl (by decide) (by decide)
  · rw [hf]
    exact .short rfl (by decide) (by decide)
  · rw [hr]
    exact .short rfl (by decide) (by decide)
  · have hcode := charOf?_hexFour c.toNat (by omega) hcontrol
    rw [Char.ofNat_toNat] at hcode
    exact .code hcode
  · refine .plain ?_ hquote hslash
    rw [isPlain]
    simp only [Bool.or_eq_true, Bool.and_eq_true, decide_eq_true_eq, bne_iff_ne]
    omega

theorem escaped_quote (multiline : Bool) : Escaped multiline '"' ['\\', '"'] :=
  .short rfl (by decide) (by decide)

/-- The first character of an escape is no quote, and it ends a line only if the character does. -/
theorem Escaped.cons {multiline : Bool} {text : List Char} (h : Escaped multiline c text) :
    ∃ d more, text = d :: more ∧ d ≠ '"' ∧ d ≠ '\r' ∧ (d = '\n' → c = '\n') := by
  cases h with
  | plain hplain hquote hslash =>
    refine ⟨_, [], rfl, hquote, ?_, id⟩
    rintro rfl
    cases hplain
  | short | code => exact ⟨_, _, rfl, by decide, by decide, fun h => absurd h (by decide)⟩
  | newline h => exact ⟨_, [], rfl, by decide, by decide, id⟩

theorem escapeText_quote {multiline : Bool} {unescaped run : Nat} (cs : List Char) :
    escapeText multiline unescaped run ('"' :: cs) =
      if run < unescaped then '"' :: escapeText multiline unescaped (run + 1) cs
      else '\\' :: '"' :: escapeText multiline unescaped 0 cs := by
  rw [escapeText, if_pos rfl]

theorem escapeText_cons {multiline : Bool} {unescaped run : Nat} (hquote : c ≠ '"')
    (cs : List Char) : escapeText multiline unescaped run (c :: cs) =
      escapeChar multiline c ++ escapeText multiline unescaped 0 cs := by
  rw [escapeText, if_neg hquote]

/-! ### Basic strings -/

theorem basicBody_escaped {text : List Char} (h : Escaped false c text) (rest : List Char) :
    basicBody (text ++ rest) = push c (basicBody rest) := by
  cases h with
  | plain hplain hquote hslash =>
    rw [List.singleton_append, basicBody, if_pos hplain]
    all_goals simp_all
  | @short e c h hfour height =>
    change basicBody ('\\' :: e :: rest) = _
    rw [basicBody, h]
    all_goals simp_all
  | @code a b d e c h =>
    change basicBody ('\\' :: 'u' :: a :: b :: d :: e :: rest) = _
    rw [basicBody, h]
  | newline h => cases h

theorem basicBody_escapeText (run : Nat) (cs rest : List Char) :
    basicBody (escapeText false 0 run cs ++ '"' :: rest) = some (cs, rest) := by
  induction cs generalizing run with
  | nil => rw [escapeText, List.nil_append, basicBody]
  | cons c cs ih =>
    by_cases hquote : c = '"'
    · subst hquote
      rw [escapeText_quote, if_neg (Nat.not_lt_zero run)]
      refine (basicBody_escaped (escaped_quote false) _).trans ?_
      exact congrArg (push '"') (ih 0)
    · rw [escapeText_cons hquote, List.append_assoc,
        basicBody_escaped (escaped_escapeChar false hquote), ih]
      rfl

/-! ### Literal strings -/

theorem isPlain_of_not_isControl (h : isControl c = false) (hline : c ≠ '\n') : isPlain c := by
  unfold isControl at h
  unfold isPlain
  by_cases ht : c = '\t'
  · simp [ht]
  · simp_all

theorem literalBody_self {cs : List Char} (h : ∀ c ∈ cs, isPlain c ∧ c ≠ '\'') (rest : List Char) :
    literalBody (cs ++ '\'' :: rest) = some (cs, rest) := by
  induction cs with
  | nil => rw [List.nil_append, literalBody, if_pos rfl]
  | cons c cs ih =>
    obtain ⟨hc, hcs⟩ := List.forall_mem_cons.mp h
    rw [List.cons_append, literalBody, if_neg hc.2, if_pos hc.1, ih hcs]
    rfl

/-! ### Strings of several lines -/

theorem closing_none {quote : Char} (h : rest.head? ≠ some quote) :
    closing quote rest = ([], rest) := by
  unfold closing
  split <;> simp_all

theorem closing_one {quote : Char} (h : rest.head? ≠ some quote) :
    closing quote (quote :: rest) = ([quote], rest) := by
  unfold closing
  split <;> simp_all

theorem closing_two (quote : Char) (rest : List Char) :
    closing quote (quote :: quote :: rest) = ([quote, quote], rest) := by
  rw [closing, if_pos ⟨rfl, rfl⟩]

theorem newline?_cons (hn : c ≠ '\n') (hr : c ≠ '\r') (cs : List Char) :
    newline? (c :: cs) = none := by
  unfold newline?
  split <;> simp_all

theorem afterLineBreak?_escape {e : Char} (h : (shortEscape? e).isSome ∨ e = 'u')
    (cs : List Char) : afterLineBreak? (e :: cs) = none := by
  have hne : isBlank e = false ∧ e ≠ '\n' ∧ e ≠ '\r' := by
    unfold shortEscape? at h
    rcases h with h | rfl
    · split at h <;> first | exact absurd h (by decide) | decide
    · decide
  rw [afterLineBreak?, skipBlanks, List.dropWhile_cons_of_neg (by simp [hne.1]),
    newline?_cons hne.2.1 hne.2.2]
  rfl

theorem multiBasicBody_plain (hplain : isPlain c) (hslash : c ≠ '\\')
    (hquote : c = '"' → rest.take 2 ≠ ['"', '"']) (fuel : Nat) :
    multiBasicBody (fuel + 1) (c :: rest) = push c (multiBasicBody fuel rest) := by
  have hline : newline? (c :: rest) = none := by
    refine newline?_cons ?_ ?_ rest <;> rintro rfl <;> cases hplain
  rw [multiBasicBody]
  · simp only [hline, if_pos hplain]
  · rintro more hc rfl
    exact hquote hc rfl
  · exact hslash

theorem multiBasicBody_escaped {text : List Char} (h : Escaped true c text) (fuel : Nat)
    (rest : List Char) :
    multiBasicBody (fuel + 1) (text ++ rest) = push c (multiBasicBody fuel rest) := by
  cases h with
  | plain hplain hquote hslash =>
    exact multiBasicBody_plain hplain hslash (fun h => absurd h hquote) fuel
  | @short e c h hfour height =>
    have hbreak := afterLineBreak?_escape (Or.inl (Option.isSome_of_eq_some h)) rest
    change multiBasicBody (fuel + 1) ('\\' :: e :: rest) = _
    rw [multiBasicBody]
    simp only [hbreak]
    rw [h]
    · rfl
    · exact fun _ _ _ _ _ he _ => hfour he
    · exact fun _ _ _ _ _ _ _ _ _ he _ => height he
  | @code a b d e c h =>
    have hbreak := afterLineBreak?_escape (Or.inr rfl) (a :: b :: d :: e :: rest)
    change multiBasicBody (fuel + 1) ('\\' :: 'u' :: a :: b :: d :: e :: rest) = _
    rw [multiBasicBody]
    simp only [hbreak]
    rw [h]
    rfl
  | newline h =>
    rw [List.singleton_append]
    rfl

theorem multiBasicBody_close (fuel : Nat) (rest : List Char) :
    multiBasicBody (fuel + 1) ('"' :: '"' :: '"' :: rest) = some (closing '"' rest) := rfl

theorem escapeText_head (multiline : Bool) {unescaped run : Nat} {cs : List Char} (hcs : cs ≠ [])
    (h : cs.head? = some '"' → unescaped ≤ run) :
    ∃ d more, escapeText multiline unescaped run cs = d :: more ∧ d ≠ '"' := by
  cases cs with
  | nil => exact absurd rfl hcs
  | cons c cs =>
    by_cases hquote : c = '"'
    · subst hquote
      rw [escapeText_quote, if_neg (Nat.not_lt.mpr (h rfl))]
      exact ⟨_, _, rfl, by decide⟩
    · obtain ⟨d, more, hd, hne, -⟩ := (escaped_escapeChar multiline hquote).cons
      rw [escapeText_cons hquote, hd]
      exact ⟨d, _, rfl, hne⟩

/-- What follows a quote that is written does not start with two more, but at the end. -/
theorem take_escapeText {run : Nat} {cs : List Char} (hlast : cs ≠ [])
    (htwo : ¬ (cs = ['"'] ∧ run = 0)) (tail : List Char) :
    (escapeText true 2 (run + 1) cs ++ tail).take 2 ≠ ['"', '"'] := by
  by_cases hhead : cs.head? = some '"' → 2 ≤ run + 1
  · obtain ⟨d, more, hd, hne⟩ := escapeText_head true hlast hhead
    rw [hd]
    simp [hne]
  · obtain ⟨hsome, hzero⟩ := Classical.not_imp.mp hhead
    obtain ⟨more, rfl⟩ : ∃ more, cs = '"' :: more := List.head?_eq_some_iff.mp hsome
    have hmore : more ≠ [] := by
      rintro rfl
      exact htwo ⟨rfl, by omega⟩
    have hfull : more.head? = some '"' → 2 ≤ run + 1 + 1 := fun _ => by omega
    obtain ⟨d, _, hd, hne⟩ := escapeText_head true hmore hfull
    rw [escapeText_quote, if_pos (by omega), hd]
    simp [hne]

/-- **A basic string of several lines reads back.** The text between the quotes may end with two
more of them, which the closing quotes then follow. -/
theorem multiBasicBody_escapeText (hrest : NoQuote rest) (cs : List Char) (run fuel : Nat)
    (hfuel : cs.length < fuel) :
    multiBasicBody fuel (escapeText true 2 run cs ++ '"' :: '"' :: '"' :: rest) =
      some (cs, rest) := by
  induction cs generalizing run fuel with
  | nil =>
    obtain ⟨fuel, rfl⟩ := Nat.exists_eq_add_of_lt hfuel
    rw [escapeText, List.nil_append, multiBasicBody_close, closing_none hrest.double]
  | cons c cs ih =>
    obtain ⟨fuel, rfl⟩ : ∃ n, fuel = n + 1 := ⟨fuel - 1, by omega⟩
    rw [List.length_cons, Nat.add_lt_add_iff_right] at hfuel
    by_cases hquote : c = '"'
    · subst hquote
      rw [escapeText_quote]
      split_ifs with hrun
      · by_cases hlast : cs = []
        · subst hlast
          exact (multiBasicBody_close fuel _).trans (congrArg some (closing_one hrest.double))
        by_cases htwo : cs = ['"'] ∧ run = 0
        · obtain ⟨rfl, rfl⟩ := htwo
          exact (multiBasicBody_close fuel _).trans (congrArg some (closing_two _ _))
        have htake := take_escapeText hlast htwo ('"' :: '"' :: '"' :: rest)
        refine (multiBasicBody_plain rfl (by decide) (fun _ => htake) fuel).trans ?_
        rw [ih _ _ hfuel]
        rfl
      · refine (multiBasicBody_escaped (escaped_quote true) fuel _).trans ?_
        exact congrArg (push '"') (ih _ _ hfuel)
    · rw [escapeText_cons hquote, List.append_assoc,
        multiBasicBody_escaped (escaped_escapeChar true hquote), ih _ _ hfuel]
      rfl

/-! ### Literal strings of several lines -/

/-- The step of the search for the longest run of a character. -/
def runStep (q : Char) (state : Nat × Nat) (c : Char) : Nat × Nat :=
  if c = q then (max state.1 (state.2 + 1), state.2 + 1) else (state.1, 0)

theorem longestRun_eq (q : Char) (cs : List Char) :
    longestRun q cs = (cs.foldl (runStep q) (0, 0)).1 := rfl

theorem le_foldl_runStep (q : Char) (cs : List Char) (state : Nat × Nat) :
    state.1 ≤ (cs.foldl (runStep q) state).1 := by
  induction cs generalizing state with
  | nil => exact Nat.le_refl _
  | cons c cs ih =>
    refine Nat.le_trans ?_ (ih (runStep q state c))
    unfold runStep
    split_ifs
    · exact Nat.le_max_left _ _
    · exact Nat.le_refl _

theorem three_le_longestRun {q : Char} {cs : List Char} (h : [q, q, q] <:+: cs) :
    3 ≤ longestRun q cs := by
  obtain ⟨before, after, rfl⟩ := h
  rw [longestRun_eq, List.foldl_append, List.foldl_append]
  refine Nat.le_trans ?_ (le_foldl_runStep q after _)
  simp only [runStep, List.foldl_cons, List.foldl_nil, if_true]
  omega

theorem multiLiteralBody_plain (hc : c = '\n' ∨ isPlain c)
    (hquote : c = '\'' → rest.take 2 ≠ ['\'', '\'']) :
    multiLiteralBody (c :: rest) = push c (multiLiteralBody rest) := by
  rw [multiLiteralBody, if_pos hc]
  · rintro more heq rfl
    exact hquote heq rfl
  · rintro more rfl
    rcases hc with hc | hc <;> cases hc

theorem multiLiteralBody_self (hrest : NoQuote rest) {cs : List Char}
    (h : ∀ c ∈ cs, c = '\n' ∨ isPlain c) (hrun : ¬ ['\'', '\'', '\''] <:+: cs) :
    multiLiteralBody (cs ++ '\'' :: '\'' :: '\'' :: rest) = some (cs, rest) := by
  induction cs with
  | nil => rw [List.nil_append, multiLiteralBody, closing_none hrest.single]
  | cons c cs ih =>
    obtain ⟨hc, hcs⟩ := List.forall_mem_cons.mp h
    have hih := ih hcs fun hwithin => hrun (hwithin.trans (List.suffix_cons c cs).isInfix)
    have hstep : (c = '\'' → (cs ++ '\'' :: '\'' :: '\'' :: rest).take 2 ≠ ['\'', '\'']) →
        multiLiteralBody (c :: (cs ++ '\'' :: '\'' :: '\'' :: rest)) = some (c :: cs, rest) :=
      fun hquote => by
        rw [multiLiteralBody_plain hc hquote, hih]
        rfl
    by_cases hquote : c = '\''
    · subst hquote
      match cs, hrun, hstep with
      | [], _, _ => exact congrArg some (closing_one hrest.single)
      | [d], _, hstep =>
        by_cases hd : d = '\''
        · subst hd
          exact congrArg some (closing_two _ _)
        · exact hstep fun _ => by simp [hd]
      | d :: e :: more, hrun, hstep =>
        refine hstep fun _ htake => hrun ?_
        obtain ⟨rfl, rfl⟩ : d = '\'' ∧ e = '\'' := by simpa using htake
        exact (List.prefix_append ['\'', '\'', '\''] more).isInfix
    · exact hstep fun heq => absurd heq hquote

/-! ### Every string -/

theorem length_le_escapeText (multiline : Bool) (unescaped run : Nat) (cs : List Char) :
    cs.length ≤ (escapeText multiline unescaped run cs).length := by
  induction cs generalizing run with
  | nil => exact Nat.zero_le _
  | cons c cs ih =>
    by_cases hquote : c = '"'
    · subst hquote
      have hone := ih (run + 1)
      have hzero := ih 0
      rw [escapeText_quote]
      split_ifs <;> simp only [List.length_cons] <;> omega
    · obtain ⟨d, more, hd, -⟩ := (escaped_escapeChar multiline hquote).cons
      have hzero := ih 0
      rw [escapeText_cons hquote, hd]
      simp only [List.length_cons, List.length_append]
      omega

theorem skipNewline_opening {newline : Bool} {body : List Char}
    (h : newline = false → ∀ c ∈ body.head?, c ≠ '\n' ∧ c ≠ '\r') :
    skipNewline ((if newline then ['\n'] else []) ++ body) = body := by
  cases newline with
  | true => rfl
  | false =>
    cases body with
    | nil => rfl
    | cons c body =>
      obtain ⟨hn, hr⟩ := h rfl c rfl
      exact congrArg (fun after => after.getD (c :: body)) (newline?_cons hn hr body)

theorem quotingOf_literal {cs : List Char} (h : quotingOf cs = .literal) :
    ∀ c ∈ cs, isPlain c ∧ c ≠ '\'' := by
  simp only [quotingOf] at h
  split_ifs at h with _ hliteral
  intro c hc
  simp only [Bool.not_eq_eq_eq_not, Bool.not_true, List.any_eq_false, List.contains_eq_mem,
    decide_eq_false_iff_not] at hliteral
  obtain ⟨hcontrol, hquote, hline⟩ := hliteral
  refine ⟨isPlain_of_not_isControl (by simpa using hcontrol c hc) ?_, ?_⟩
  · rintro rfl
    exact hline hc
  · rintro rfl
    exact hquote hc

theorem quotingOf_multiLiteral {cs : List Char} (h : quotingOf cs = .multiLiteral) :
    (∀ c ∈ cs, c = '\n' ∨ isPlain c) ∧ ¬ ['\'', '\'', '\''] <:+: cs := by
  simp only [quotingOf] at h
  split_ifs at h with _ _ _ hmulti
  simp only [Bool.not_eq_eq_eq_not, Bool.not_true, List.any_eq_false] at hmulti
  refine ⟨fun c hc => ?_, fun hwithin => ?_⟩
  · by_cases hline : c = '\n'
    · exact Or.inl hline
    · exact Or.inr (isPlain_of_not_isControl (by simpa using hmulti.1 c hc) hline)
  · have := three_le_longestRun hwithin
    omega

theorem string_basic {body : List Char} (h : body.take 2 ≠ ['"', '"']) :
    string ('"' :: body) = basicBody body := by
  rw [string]
  · rfl
  · intro more heq
    rw [(List.cons.inj heq).2] at h
    exact h rfl
  · intro more heq
    cases heq

theorem string_literal {body : List Char} (h : body.take 2 ≠ ['\'', '\'']) :
    string ('\'' :: body) = literalBody body := by
  rw [string]
  · rfl
  · intro more heq
    cases heq
  · intro more heq
    rw [(List.cons.inj heq).2] at h
    exact h rfl

theorem take_two_cons {q d : Char} (hd : d ≠ q) (more : List Char) :
    (d :: more).take 2 ≠ [q, q] := by
  simp [hd]

theorem take_two_closing {q : Char} (h : rest.head? ≠ some q) : (q :: rest).take 2 ≠ [q, q] := by
  cases rest with
  | nil => simp
  | cons d rest =>
    have hd : d ≠ q := fun heq => h (congrArg some heq)
    simp [hd]

/-- The first character of a text between three quotes ends a line only if the text has several. -/
theorem escapeText_opening {run : Nat} {cs closing : List Char} (hline : cs.contains '\n' = false) :
    ∀ c ∈ (escapeText true 2 run cs ++ '"' :: closing).head?, c ≠ '\n' ∧ c ≠ '\r' := by
  cases cs with
  | nil =>
    rintro c ⟨⟩
    decide
  | cons c cs =>
    by_cases hquote : c = '"'
    · subst hquote
      rw [escapeText_quote]
      split_ifs <;> rintro c ⟨⟩ <;> decide
    · obtain ⟨d, more, hd, -, hr, hn⟩ := (escaped_escapeChar true hquote).cons
      rw [escapeText_cons hquote, hd]
      rintro d ⟨⟩
      refine ⟨fun heq => ?_, hr⟩
      obtain rfl := hn heq
      simp at hline

theorem string_quoteText (hrest : NoQuote rest) (cs : List Char) :
    string (quoteText cs ++ rest) = some (cs, rest) := by
  unfold quoteText
  cases hform : quotingOf cs with
  | basic =>
    have htake : (escapeText false 0 0 cs ++ '"' :: rest).take 2 ≠ ['"', '"'] := by
      by_cases hcs : cs = []
      · subst hcs
        exact take_two_closing hrest.double
      · obtain ⟨d, more, hd, hne⟩ := escapeText_head false hcs fun _ => Nat.zero_le 0
        rw [hd]
        exact take_two_cons hne _
    simp only [List.cons_append, List.append_assoc, List.nil_append]
    rw [string_basic htake, basicBody_escapeText]
  | literal =>
    have hplain := quotingOf_literal hform
    have htake : (cs ++ '\'' :: rest).take 2 ≠ ['\'', '\''] := by
      cases cs with
      | nil => exact take_two_closing hrest.single
      | cons c cs => exact take_two_cons (hplain c List.mem_cons_self).2 _
    simp only [List.cons_append, List.append_assoc, List.nil_append]
    rw [string_literal htake, literalBody_self hplain]
  | multiBasic =>
    have hopen : skipNewline ((if cs.contains '\n' then ['\n'] else []) ++
        (escapeText true 2 0 cs ++ '"' :: '"' :: '"' :: rest)) = _ :=
      skipNewline_opening escapeText_opening
    simp only [triple, List.cons_append, List.append_assoc, List.nil_append]
    rw [string, hopen]
    refine multiBasicBody_escapeText hrest cs 0 _ ?_
    have := length_le_escapeText true 2 0 cs
    rw [List.length_append]
    omega
  | multiLiteral =>
    obtain ⟨hplain, hrun⟩ := quotingOf_multiLiteral hform
    have hopen : skipNewline ((if cs.contains '\n' then ['\n'] else []) ++
        (cs ++ '\'' :: '\'' :: '\'' :: rest)) = _ :=
      skipNewline_opening fun hline c hc => by
        cases cs with
        | nil =>
          cases hc
          decide
        | cons d cs =>
          obtain rfl : d = c := Option.some.inj hc
          rcases hplain d List.mem_cons_self with rfl | hd
          · simp at hline
          · constructor <;> rintro rfl <;> cases hd
    simp only [triple, List.cons_append, List.append_assoc, List.nil_append]
    rw [string, hopen, multiLiteralBody_self hrest hplain hrun]

end DraftHeads.Toml
