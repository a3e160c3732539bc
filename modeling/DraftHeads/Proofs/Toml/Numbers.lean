import DraftHeads.Proofs.Number.Shortest
import DraftHeads.Toml.Parser
import DraftHeads.Toml.Printer

/-! # Numbers read back

* `Ends`: what may follow a number.
* `integer_integerText`: an integer of sixty-four bits reads back.
* `double_doubleText`: a double reads back, and what is not a number reads back as such.
* `dateTime?_integerText`, `dateTime?_doubleText`: neither of them is taken for a date or a time. -/

namespace DraftHeads.Toml

open Number Number.Decimal

/-- What may follow a number: the end of its line, of its item or of its array. -/
inductive Ends : List Char → Prop
  | line (rest : List Char) : Ends ('\n' :: rest)
  | item (rest : List Char) : Ends (',' :: rest)
  | array (rest : List Char) : Ends (']' :: rest)

variable {ds rest : List Char} {c : Char}

/-! ### Runs of digits -/

/-- What follows does not go on with a run of digits. -/
def StopsRun (isDigit : Char → Bool) (rest : List Char) : Prop :=
  ∀ c ∈ rest.head?, isDigit c = false ∧ c ≠ '_'

theorem digitsAfter_append {isDigit : Char → Bool} (hunderscore : isDigit '_' = false)
    (hds : ∀ c ∈ ds, isDigit c) (hrest : StopsRun isDigit rest) :
    digitsAfter isDigit (ds ++ rest) = (ds, rest) := by
  induction ds with
  | nil =>
    cases rest with
    | nil => rw [List.nil_append, digitsAfter]
    | cons c rest =>
      obtain ⟨hc, hne⟩ := hrest c rfl
      rw [List.nil_append, digitsAfter, if_neg (by simp [hc])]
      exact fun _ _ h _ => hne h
  | cons c ds ih =>
    obtain ⟨hc, hds⟩ := List.forall_mem_cons.mp hds
    rw [List.cons_append, digitsAfter, if_pos hc, ih hds]
    rintro _ _ rfl
    rw [hunderscore] at hc
    cases hc

theorem digitRun_append {isDigit : Char → Bool} (hunderscore : isDigit '_' = false)
    (hds : ∀ c ∈ ds, isDigit c) (hne : ds ≠ []) (hrest : StopsRun isDigit rest) :
    digitRun isDigit (ds ++ rest) = some (ds, rest) := by
  cases ds with
  | nil => exact absurd rfl hne
  | cons c ds =>
    obtain ⟨hc, hds⟩ := List.forall_mem_cons.mp hds
    rw [List.cons_append, digitRun, if_pos hc, digitsAfter_append hunderscore hds hrest]

theorem wholeDigits_append (hds : Whole ds) (hrest : StopsRun Char.isDigit rest) :
    wholeDigits (ds ++ rest) = some (ds, rest) := by
  by_cases hzero : ds.head? = some '0'
  · rw [hds.alone hzero]
    rfl
  · rw [wholeDigits, digitRun_append rfl hds.isDigit hds.nonempty hrest]
    intro more h
    refine hzero ?_
    rw [← List.head?_append_of_ne_nil ds hds.nonempty, h]
    rfl

theorem hexValue?_of_isDigit (hc : c.isDigit) : hexValue? c = some (c.toNat - '0'.toNat) := by
  obtain ⟨hlow, hhigh⟩ : 48 ≤ c.val ∧ c.val ≤ 57 := by simpa [Char.isDigit] using hc
  exact if_pos ⟨hlow, hhigh⟩

theorem valueIn_ten (hds : ∀ c ∈ ds, c.isDigit) : valueIn 10 ds = digitsValue 0 ds := by
  have hfrom : ∀ acc, ds.foldl (fun n c => 10 * n + (hexValue? c).getD 0) acc =
      digitsValue acc ds := fun acc => by
    induction ds generalizing acc with
    | nil => rfl
    | cons c ds ih =>
      obtain ⟨hc, hds⟩ := List.forall_mem_cons.mp hds
      rw [List.foldl_cons, ih hds, hexValue?_of_isDigit hc]
      rfl
  exact hfrom 0

/-! ### Signs and ends -/

/-- A sign in front of a number, which only a negative one has. -/
def signText (negative : Bool) : List Char := if negative then ['-'] else []

theorem sign_signText (negative : Bool) (hm : c ≠ '-') (hp : c ≠ '+') (cs : List Char) :
    sign (signText negative ++ c :: cs) = (negative, c :: cs) := by
  cases negative with
  | true => rfl
  | false =>
    change sign (c :: cs) = _
    unfold sign
    split <;> simp_all

theorem exists_cons_of_whole (hds : Whole ds) : ∃ c more, ds = c :: more ∧ c.isDigit := by
  cases ds with
  | nil => exact absurd rfl hds.nonempty
  | cons c more => exact ⟨c, more, rfl, hds.isDigit c List.mem_cons_self⟩

theorem sign_whole (negative : Bool) (hds : Whole ds) (cs : List Char) :
    sign (signText negative ++ (ds ++ cs)) = (negative, ds ++ cs) := by
  obtain ⟨c, more, rfl, hc⟩ := exists_cons_of_whole hds
  refine sign_signText negative ?_ ?_ (more ++ cs) <;> rintro rfl <;> cases hc

theorem specialDouble_whole (negative : Bool) (hds : Whole ds) (cs : List Char) :
    specialDouble negative (ds ++ cs) = none := by
  obtain ⟨c, more, rfl, hc⟩ := exists_cons_of_whole hds
  rw [List.cons_append, specialDouble]
  all_goals
    intro _ h
    rw [(List.cons.inj h).1] at hc
    cases hc

theorem Ends.stopsRun (h : Ends rest) : StopsRun Char.isDigit rest := by
  cases h <;> rintro c ⟨⟩ <;> decide

theorem Ends.fraction (h : Ends rest) : fraction rest = some (none, rest) := by
  cases h <;> rfl

theorem Ends.exponent (h : Ends rest) : exponent rest = some (none, rest) := by
  cases h <;> rfl

/-! ### Dates and times -/

theorem fixedDigits_eq_some {n lo hi v : Nat} {cs : List Char}
    (h : fixedDigits n lo hi cs = some (v, rest)) :
    ∃ ds, ds.length = n ∧ (∀ c ∈ ds, c.isDigit) ∧ cs = ds ++ rest := by
  unfold fixedDigits at h
  dsimp only at h
  split_ifs at h with hds
  obtain ⟨-, rfl⟩ := Prod.mk.inj (Option.some.inj h)
  exact ⟨cs.take n, hds.1, List.all_eq_true.mp hds.2.1, (List.take_append_drop n cs).symm⟩

theorem after?_eq_some {cs : List Char} (h : after? c cs = some rest) : cs = c :: rest := by
  unfold after? at h
  split at h
  · split_ifs at h with heq
    rw [heq, Option.some.inj h]
  · cases h

theorem date?_eq_some {cs : List Char} (h : date? cs = some rest) :
    ∃ ds more, ds.length = 4 ∧ (∀ c ∈ ds, c.isDigit) ∧ cs = ds ++ '-' :: more := by
  simp only [date?, Option.bind_eq_bind, Option.bind_eq_some_iff] at h
  obtain ⟨⟨_, tail⟩, hyear, more, hmark, -⟩ := h
  obtain ⟨ds, hlen, hds, rfl⟩ := fixedDigits_eq_some hyear
  obtain rfl : tail = '-' :: more := after?_eq_some hmark
  exact ⟨ds, more, hlen, hds, rfl⟩

theorem time?_eq_some {cs : List Char} (h : time? cs = some rest) :
    ∃ ds more, ds.length = 2 ∧ (∀ c ∈ ds, c.isDigit) ∧ cs = ds ++ ':' :: more := by
  simp only [time?, Option.bind_eq_bind, Option.bind_eq_some_iff] at h
  obtain ⟨⟨_, tail⟩, hhour, more, hmark, -⟩ := h
  obtain ⟨ds, hlen, hds, rfl⟩ := fixedDigits_eq_some hhour
  obtain rfl : tail = ':' :: more := after?_eq_some hmark
  exact ⟨ds, more, hlen, hds, rfl⟩

theorem dateTime?_eq_some {cs : List Char} (h : dateTime? cs = some rest) :
    ∃ ds mark more, ds ≠ [] ∧ (∀ c ∈ ds, c.isDigit) ∧ cs = ds ++ mark :: more ∧
      (mark = '-' ∨ mark = ':') := by
  cases hdate : date? cs with
  | some after =>
    obtain ⟨ds, more, hlen, hds, rfl⟩ := date?_eq_some hdate
    exact ⟨ds, '-', more, List.ne_nil_of_length_pos (by omega), hds, rfl, Or.inl rfl⟩
  | none =>
    rw [dateTime?, hdate] at h
    obtain ⟨ds, more, hlen, hds, rfl⟩ := time?_eq_some h
    exact ⟨ds, ':', more, List.ne_nil_of_length_pos (by omega), hds, rfl, Or.inr rfl⟩

theorem dateTime?_of_head (hc : c.isDigit = false) (cs : List Char) :
    dateTime? (c :: cs) = none := by
  refine Option.eq_none_iff_forall_not_mem.mpr fun r h => ?_
  obtain ⟨ds, mark, more, hne, hds, heq, -⟩ := dateTime?_eq_some h
  cases ds with
  | nil => exact hne rfl
  | cons d ds =>
    have := hds d List.mem_cons_self
    rw [← (List.cons.inj heq).1, hc] at this
    cases this

theorem dateTime?_whole (negative : Bool) (hds : Whole ds) (hc : c.isDigit = false)
    (hmark : c ≠ '-' ∧ c ≠ ':') : dateTime? (signText negative ++ (ds ++ c :: rest)) = none := by
  cases negative with
  | true => exact dateTime?_of_head rfl _
  | false =>
    refine Option.eq_none_iff_forall_not_mem.mpr fun r h => ?_
    obtain ⟨es, mark, more, hne, hes, heq, hmarks⟩ := dateTime?_eq_some h
    -- the first character that is not a digit is on one side the mark, on the other side `c`
    have hdrop : ∀ {xs : List Char} {x : Char} {tail : List Char}, (∀ c ∈ xs, c.isDigit) →
        x.isDigit = false → (xs ++ x :: tail).dropWhile Char.isDigit = x :: tail :=
      fun hxs hx => by
        rw [List.dropWhile_append_of_pos hxs, List.dropWhile_cons_of_neg (by simp [hx])]
    have hdigit : mark.isDigit = false := by rcases hmarks with rfl | rfl <;> rfl
    have hsame := congrArg (List.dropWhile Char.isDigit) heq
    rw [show signText false ++ (ds ++ c :: rest) = ds ++ c :: rest from rfl,
      hdrop hds.isDigit hc, hdrop hes hdigit] at hsame
    obtain rfl := (List.cons.inj hsame).1
    rcases hmarks with heq | heq
    · exact hmark.1 heq
    · exact hmark.2 heq

/-! ### Integers -/

theorem integerText_eq (i : Int) :
    integerText i = signText (decide (i < 0)) ++ digits i.natAbs := by
  rw [integerText, signText]
  simp only [decide_eq_true_eq]

theorem integerOf_natAbs {i : Int} (hlow : -(UInt64.size / 2 : Nat) ≤ i)
    (hhigh : i < (UInt64.size / 2 : Nat)) :
    integerOf (decide (i < 0)) i.natAbs = some i := by
  unfold integerOf
  by_cases h : i < 0
  · simp only [decide_eq_true h, if_true, true_and]
    split_ifs
    · exact congrArg some (by omega)
    · exact congrArg some (by omega)
    · omega
  · simp only [decide_eq_false h, Bool.false_eq_true, if_false, false_and]
    rw [if_pos (by omega)]
    exact congrArg some (by omega)

/-- An integer with its sign does not start like one of another base. -/
theorem Ends.not_based (h : Ends rest) (i : Int) {b : Char} (hb : b ≠ '\n' ∧ b ≠ ',' ∧ b ≠ ']')
    (more : List Char) : integerText i ++ rest ≠ '0' :: b :: more := by
  intro heq
  rw [integerText_eq] at heq
  cases hsign : decide (i < 0) with
  | true =>
    rw [hsign] at heq
    cases heq
  | false =>
    rw [hsign] at heq
    have hdigits : digits i.natAbs = ['0'] := by
      refine (whole_digits _).alone ?_
      rw [← List.head?_append_of_ne_nil _ (whole_digits i.natAbs).nonempty]
      exact congrArg List.head? heq
    rw [hdigits] at heq
    have hrest : rest = b :: more := (List.cons.inj heq).2
    rw [hrest] at h
    cases h with
    | line => exact hb.1 rfl
    | item => exact hb.2.1 rfl
    | array => exact hb.2.2 rfl

/-- **An integer of sixty-four bits reads back.** -/
theorem integer_integerText {i : Int} (hlow : -(UInt64.size / 2 : Nat) ≤ i)
    (hhigh : i < (UInt64.size / 2 : Nat)) (hrest : Ends rest) :
    integer (integerText i ++ rest) = some (i, rest) := by
  rw [integer]
  · rw [integerText_eq, List.append_assoc, sign_whole _ (whole_digits _)]
    dsimp only
    rw [wholeDigits_append (whole_digits _) hrest.stopsRun]
    change (do some (← integerOf _ (valueIn 10 (digits i.natAbs)), rest)) = _
    rw [valueIn_ten (whole_digits _).isDigit, digitsValue_digits, integerOf_natAbs hlow hhigh]
    rfl
  · exact fun more => hrest.not_based i (by decide) more
  · exact fun more => hrest.not_based i (by decide) more
  · exact fun more => hrest.not_based i (by decide) more

theorem double_integerText (i : Int) (hrest : Ends rest) :
    double (integerText i ++ rest) = none := by
  rw [double, integerText_eq, List.append_assoc, sign_whole _ (whole_digits _)]
  simp only [specialDouble_whole _ (whole_digits _),
    wholeDigits_append (whole_digits _) hrest.stopsRun, hrest.fraction, hrest.exponent,
    Option.bind_eq_bind, Option.bind_some]
  rfl

/-! ### Doubles -/

theorem fraction_point (hds : ∀ c ∈ ds, c.isDigit) (hne : ds ≠ []) (hrest : Ends rest) :
    fraction ('.' :: (ds ++ rest)) = some (some ds, rest) := by
  rw [fraction, digitRun_append rfl hds hne hrest.stopsRun]
  rfl

theorem double_point {negative : Bool} {whole : List Char} (hwhole : Whole whole)
    (hds : ∀ c ∈ ds, c.isDigit) (hne : ds ≠ []) (hrest : Ends rest)
    (hfinite : (Double.ofDecimal negative (.ofDigits whole ds 0)).isFinite) :
    double (signText negative ++ (whole ++ '.' :: (ds ++ rest))) =
      some (.ofDecimal negative (.ofDigits whole ds 0), rest) := by
  have hpoint : StopsRun Char.isDigit ('.' :: (ds ++ rest)) := by
    rintro c ⟨⟩
    decide
  rw [double, sign_whole _ hwhole]
  simp only [specialDouble_whole _ hwhole, wholeDigits_append hwhole hpoint,
    fraction_point hds hne hrest, hrest.exponent, Option.bind_eq_bind, Option.bind_some,
    Option.getD_some, Option.getD_none, hfinite]
  simp

theorem doubleText_of_finite {x : Double} (h : x.isFinite) : doubleText x =
    signText x.isNegative ++
      (x.shortest.positional.1 ++ '.' :: places x.shortest.positional.2) := by
  have hnan : x.isNaN = false := by
    have := of_decide_eq_true h
    exact decide_eq_false (by omega)
  rw [doubleText, hnan, h]
  simp only [Bool.false_eq_true, if_false, Bool.not_true, List.append_assoc]
  rfl

/-- **A double reads back**; what is not a number reads back as one word. -/
theorem double_doubleText (x : Double) (hrest : Ends rest) :
    double (doubleText x ++ rest) = some (x.settled, rest) := by
  cases hnan : x.isNaN with
  | true =>
    rw [doubleText, Double.settled, hnan]
    rfl
  | false =>
    rw [Double.settled, hnan, if_neg Bool.false_ne_true]
    cases hfinite : x.isFinite with
    | true =>
      have hvalue := Double.ofDecimal_shortest hfinite
      rw [doubleText_of_finite hfinite, List.append_assoc, List.append_assoc, List.cons_append,
        double_point (Double.whole_shortest hfinite) (fun _ => positional_fraction)
          (places_ne_nil _) hrest (by rw [hvalue, hfinite]), hvalue]
    | false =>
      have hinf : double (signText x.isNegative ++ 'i' :: 'n' :: 'f' :: rest) =
          some (.ofDatum (.infinite x.isNegative), rest) := by
        rw [double, sign_signText _ (by decide) (by decide)]
        rfl
      rw [Double.ofDatum_infinite hnan hfinite] at hinf
      rw [← hinf, doubleText, hnan, hfinite]
      simp [signText]

/-- **A double is not taken for a date or a time.** -/
theorem dateTime?_doubleText (x : Double) (rest : List Char) :
    dateTime? (doubleText x ++ rest) = none := by
  cases hfinite : x.isFinite with
  | true =>
    rw [doubleText_of_finite hfinite, List.append_assoc, List.append_assoc]
    exact dateTime?_whole _ (Double.whole_shortest hfinite) (by decide) (by decide)
  | false =>
    unfold doubleText
    dsimp only
    rw [hfinite]
    cases x.isNegative <;> cases x.isNaN <;> exact dateTime?_of_head rfl _

theorem dateTime?_integerText (i : Int) (hrest : Ends rest) :
    dateTime? (integerText i ++ rest) = none := by
  rw [integerText_eq, List.append_assoc]
  cases hrest <;> exact dateTime?_whole _ (whole_digits _) (by decide) (by decide)

end DraftHeads.Toml
