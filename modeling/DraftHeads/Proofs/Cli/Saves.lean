import DraftHeads.Cli.Command
import DraftHeads.Proofs.Cli.Defaults
import Mathlib.Data.String.Basic

/-! # Saving defaults

The program is called again and again. Each call has a command line of its own and finds the file of
the stored defaults as the call before it has left it.

* `Call.saved?`: the flags that a call asks to be saved.
* `Call.CanSave`: there is a log filter for the call, and all integers are in range;
  `code_eq_zero_iff`.
* `Call.outcome_of_canSave`, `Call.outcome_of_not_canSave`: a call that saves either writes the
  stored defaults merged with its flags, or fails and leaves the file alone;
  `Call.outcome_other`: all other calls leave it alone.
* `Call.saves_fold`: after any calls the stored defaults are those of the start merged with the
  flags of the calls that have saved, one after the other. -/

namespace DraftHeads

open Command

/-! ### Log filters of one part -/

namespace LogFilter

/-- Splitting goes through a text without a comma in one step, from any place on. -/
theorem splitOnAux_of_not_mem (l r : List Char) (h : ',' ∉ r) :
    String.splitOnAux (.ofList (l ++ r)) "," 0 ⟨String.utf8Len l⟩ 0 [] = [.ofList (l ++ r)] := by
  induction r generalizing l with
  | nil =>
    have hall := String.extract_of_valid [] l []
    rw [String.utf8Len_nil, Nat.zero_add, List.nil_append, List.append_nil] at hall
    rw [List.append_nil, String.splitOnAux, if_pos (by simp)]
    exact congrArg (fun s => [s]) hall
  | cons c r ih =>
    have hne : c ≠ ',' := fun heq => h (heq ▸ List.mem_cons_self)
    have hcomma : ¬ (String.Pos.Raw.get (.ofList (l ++ c :: r)) ⟨String.utf8Len l⟩ ==
        String.Pos.Raw.get "," 0) = true := by
      rw [String.get_of_valid l (c :: r), show String.Pos.Raw.get "," 0 = ',' by decide]
      simpa using hne
    have hstart : (⟨String.utf8Len l⟩ : String.Pos.Raw).unoffsetBy 0 = ⟨String.utf8Len l⟩ := rfl
    have hrest := ih (l ++ [c]) fun hmem => h (List.mem_cons_of_mem c hmem)
    rw [List.append_assoc, List.singleton_append, String.utf8Len_append, String.utf8Len_cons,
      String.utf8Len_nil, Nat.zero_add] at hrest
    rw [String.splitOnAux, if_neg (mt (String.atEnd_of_valid l (c :: r)).mp (List.cons_ne_nil c r)),
      if_neg hcomma, hstart, String.next_of_valid l c r]
    exact hrest

theorem parts_of_not_mem {text : String} (hne : text ≠ "") (h : ',' ∉ text.toList) :
    parts text = [text] := by
  have hsplit := splitOnAux_of_not_mem [] text.toList h
  rw [List.nil_append, String.ofList_toList] at hsplit
  have htext : text.splitOn "," = [text] := hsplit
  rw [parts, htext]
  simp [hne]

theorem parseLenient_of_not_mem {text : String} (hne : text ≠ "") (h : ',' ∉ text.toList) :
    parseLenient text = (fun d => ofDirectives d.toList) <$> wellFormed text := by
  rw [parseLenient, parts_of_not_mem hne h, List.mapM_cons]
  cases wellFormed text with
  | error e => rfl
  | ok d => cases d <;> rfl

end LogFilter

/-- A call of the program: what it finds around it besides the stored defaults, and its words. -/
structure Call where
  tree : FileTree
  hub : Hub
  /-- The log filter of the environment. -/
  logFilter : Option String
  words : List String

namespace Call

variable {path : Path} {stored : Option String} {c : Call} {flags : Defaults}

/-- What a call finds around it. -/
def around (path : Path) (stored : Option String) (c : Call) : Surroundings :=
  ⟨c.tree, c.hub, some path, stored, c.logFilter⟩

/-- The outcome of a call. -/
def outcome (path : Path) (stored : Option String) (c : Call) : Outcome :=
  execute (c.around path stored) c.words

/-- The flags that a call asks to be saved, the level of its log among them. -/
def saved? (c : Call) : Option Defaults :=
  match Invocation.parse? c.words with
  | some ⟨level, .saveDefaults flags⟩ => some { flags with logLevel := level }
  | _ => none

/-- The log filter of a call that saves some flags. -/
def filter (path : Path) (stored : Option String) (flags : Defaults) (c : Call) :
    Except LogFilterFault LogFilter :=
  chooseFilter (c.around path stored) flags.logLevel (storedDefaults stored).logLevel

/-! ### One call -/

theorem outcome_saved (h : c.saved? = some flags) : c.outcome path stored =
    match c.filter path stored flags with
    | .error _ => abortion (c.around path stored)
    | .ok _ =>
      match ((storedDefaults stored).merge flags).text? with
      | some text => ⟨0, s!"Saved config to {path.text}\n", [], none, some text⟩
      | none => Command.failure (c.around path stored) .unwritable := by
  unfold saved? at h
  split at h
  · next level saves hparse =>
    obtain rfl := Option.some.inj h
    rw [outcome, execute, hparse, filter]
    dsimp only [perform]
    rw [show (c.around path stored).stored = stored from rfl]
    generalize chooseFilter (c.around path stored) level (storedDefaults stored).logLevel = filter
    cases filter with
    | error e => rfl
    | ok filter =>
      simp only [act, saveDefaults, around]
      cases ((storedDefaults stored).merge { saves with logLevel := level }).text? <;> rfl
  · cases h

/-- May the call save: there is a log filter for it, and no integer is out of range. -/
def CanSave (path : Path) (stored : Option String) (flags : Defaults) (c : Call) : Prop :=
  (∃ filter, c.filter path stored flags = .ok filter) ∧
    ((storedDefaults stored).merge flags).Writable

theorem outcome_of_canSave (h : c.saved? = some flags) (hcan : c.CanSave path stored flags) :
    ∃ text, ((storedDefaults stored).merge flags).text? = some text ∧
      c.outcome path stored = ⟨0, s!"Saved config to {path.text}\n", [], none, some text⟩ := by
  obtain ⟨⟨filter, hfilter⟩, hwritable⟩ := hcan
  obtain ⟨text, htext⟩ := Option.isSome_iff_exists.mp (Defaults.text?_isSome_iff.mpr hwritable)
  exact ⟨text, htext, by rw [outcome_saved h, hfilter, htext]⟩

theorem outcome_of_not_canSave (h : c.saved? = some flags) (hcan : ¬ c.CanSave path stored flags) :
    (c.outcome path stored).code ≠ 0 ∧ (c.outcome path stored).stored = stored := by
  rw [outcome_saved h]
  cases hfilter : c.filter path stored flags with
  | error e => exact ⟨Nat.succ_ne_zero 100, rfl⟩
  | ok filter =>
    have hwritable : ¬ ((storedDefaults stored).merge flags).Writable := fun hwritable =>
      hcan ⟨⟨filter, hfilter⟩, hwritable⟩
    rw [← Defaults.text?_isSome_iff, Option.not_isSome_iff_eq_none] at hwritable
    rw [hwritable]
    exact ⟨one_ne_zero, rfl⟩

theorem code_eq_zero_iff (h : c.saved? = some flags) :
    (c.outcome path stored).code = 0 ↔ c.CanSave path stored flags := by
  refine ⟨fun hcode => ?_, fun hcan => ?_⟩
  · by_contra hcan
    exact (outcome_of_not_canSave h hcan).1 hcode
  · obtain ⟨text, -, houtcome⟩ := outcome_of_canSave h hcan
    rw [houtcome]

/-- The level of a log: an ideographic space, a target and a level. -/
def tornLevel : Defaults := { Defaults.unset with logLevel := some "\u3000a=info" }

/-- A call that saves the torn level. -/
def tornSave : Call := ⟨⟨[]⟩, .none, none, ["config", "save", "--log-level", "\u3000a=info"]⟩

/-- Values that have a text are not always saved: the log filter is set up first. -/
theorem writable_save_fails :
    tornSave.saved? = some tornLevel ∧ ((storedDefaults none).merge tornLevel).text?.isSome ∧
      (tornSave.outcome ⟨"defaults"⟩ none).code ≠ 0 := by
  have hsaved : tornSave.saved? = some tornLevel := by decide +kernel
  have htorn : LogFilter.wellFormed "\u3000a=info" = .error .torn := by decide +kernel
  have hfilter : tornSave.filter ⟨"defaults"⟩ none tornLevel = .error .torn := by
    change LogFilter.parseLenient "\u3000a=info" = _
    rw [LogFilter.parseLenient_of_not_mem (by decide) (by decide), htorn]
    rfl
  refine ⟨hsaved, Defaults.text?_isSome_iff.mpr (by decide +kernel), ?_⟩
  rw [outcome_saved hsaved, hfilter]
  exact Nat.succ_ne_zero 100

theorem stored_failure (around : Surroundings) (e : CommandFault) :
    (Command.failure around e).stored = around.stored := by
  unfold Command.failure
  split_ifs <;> rfl

theorem outcome_other (h : c.saved? = none) : (c.outcome path stored).stored = stored := by
  have hact : ∀ filter (i : Invocation), Invocation.parse? c.words = some i →
      (act (c.around path stored) (storedDefaults stored) filter i).stored = stored := by
    rintro filter ⟨level, action⟩ hparse
    unfold act
    cases action with
    | inspect source flags =>
      dsimp only
      split
      · rfl
      · exact stored_failure _ _
    | run source batch token flags =>
      dsimp only
      split
      · rfl
      · exact stored_failure _ _
    | showDefaults => rfl
    | saveDefaults flags =>
      rw [saved?, hparse] at h
      cases h
    | help => rfl
  rw [outcome, execute]
  split
  · next i hparse =>
    unfold perform
    dsimp only
    split
    · rfl
    · split
      · exact hact _ i hparse
      · rfl
  · rfl

/-! ### Calls in a row -/

/-- The file of the stored defaults after some calls. -/
def storedAfter (path : Path) : Option String → List Call → Option String
  | stored, [] => stored
  | stored, c :: calls => storedAfter path (c.outcome path stored).stored calls

/-- The flags that some calls have saved, in order. -/
def successes (path : Path) : Option String → List Call → List Defaults
  | _, [] => []
  | stored, c :: calls =>
    let saved := if (c.outcome path stored).code = 0 then c.saved?.toList else []
    saved ++ successes path (c.outcome path stored).stored calls

theorem storedDefaults_text? {d : Defaults} {text : String} (h : d.text? = some text) :
    (storedDefaults (some text)).Same d := by
  have hparse : storedDefaults (some text) = d.settled := by
    change (Defaults.parse? text).getD .unset = _
    rw [Defaults.parse?_text? h, Option.getD_some]
  rw [hparse]
  exact d.settled_same

/-- **One call** changes the stored defaults by the flags that it has saved, if any. -/
theorem storedDefaults_outcome (path : Path) (stored : Option String) (c : Call) :
    (storedDefaults (c.outcome path stored).stored).Same
      ((if (c.outcome path stored).code = 0 then c.saved?.toList else []).foldl Defaults.merge
        (storedDefaults stored)) := by
  have hsame : ∀ {saved : List Defaults}, (c.outcome path stored).stored = stored → saved = [] →
      (storedDefaults (c.outcome path stored).stored).Same
        (saved.foldl Defaults.merge (storedDefaults stored)) := by
    rintro _ hstored rfl
    rw [hstored, List.foldl_nil]
    exact .refl _
  cases hsaved : c.saved? with
  | none => exact hsame (outcome_other hsaved) (by simp)
  | some flags =>
    by_cases hcan : c.CanSave path stored flags
    · obtain ⟨text, htext, houtcome⟩ := outcome_of_canSave hsaved hcan
      rw [houtcome]
      exact storedDefaults_text? htext
    · obtain ⟨hcode, hstored⟩ := outcome_of_not_canSave hsaved hcan
      exact hsame hstored (if_neg hcode)

/-- **After any calls** the stored defaults are those of the start, merged with what was saved. -/
theorem storedDefaults_storedAfter (path : Path) (stored : Option String) (calls : List Call) :
    (storedDefaults (storedAfter path stored calls)).Same
      ((successes path stored calls).foldl Defaults.merge (storedDefaults stored)) := by
  induction calls generalizing stored with
  | nil => exact .refl _
  | cons c calls ih =>
    rw [storedAfter, successes, List.foldl_append]
    exact (ih _).trans ((storedDefaults_outcome path stored c).foldl _)

/-- **The stored defaults are the fold of the saves that succeed.** After any calls, a call that
saves succeeds exactly if there is a log filter for it and no integer is out of range; if it fails,
and if the call asks for something else, the file stays as it is. -/
theorem saves_fold (path : Path) (stored : Option String) (calls : List Call) :
    (storedDefaults (storedAfter path stored calls)).Same
      ((successes path stored calls).foldl Defaults.merge (storedDefaults stored)) ∧
    (storedDefaults (storedAfter path stored calls)).Same
      (.latest (storedDefaults stored :: successes path stored calls)) ∧
    ∀ c : Call,
      (c.saved? = none →
        (c.outcome path (storedAfter path stored calls)).stored = storedAfter path stored calls) ∧
      ∀ flags, c.saved? = some flags →
        ((c.outcome path (storedAfter path stored calls)).code = 0 ↔
          c.CanSave path (storedAfter path stored calls) flags) ∧
        ((c.outcome path (storedAfter path stored calls)).code ≠ 0 →
          (c.outcome path (storedAfter path stored calls)).stored =
            storedAfter path stored calls) := by
  have hfold := storedDefaults_storedAfter path stored calls
  refine ⟨hfold, Defaults.foldl_merge _ _ ▸ hfold, fun c => ⟨outcome_other, fun flags hsaved =>
    ⟨code_eq_zero_iff hsaved, fun hcode => ?_⟩⟩⟩
  exact (outcome_of_not_canSave hsaved (mt (code_eq_zero_iff hsaved).mpr hcode)).2

/-- A call that saves a seed. -/
def seedSave (seed : Nat) : Call :=
  ⟨⟨[]⟩, .none, none, ["config", "save", "--seed", toString seed]⟩

/-- After a save of the seed five, one of a seed beyond sixty-three bits fails. -/
theorem saves_fold_seeds :
    (storedDefaults (storedAfter ⟨"defaults"⟩ none [seedSave 5])).Same
      { Defaults.unset with seed := some 5 } ∧
    ((seedSave (2 ^ 63)).outcome ⟨"defaults"⟩
      (storedAfter ⟨"defaults"⟩ none [seedSave 5])).code ≠ 0 ∧
    ((seedSave (2 ^ 63)).outcome ⟨"defaults"⟩
      (storedAfter ⟨"defaults"⟩ none [seedSave 5])).stored =
        storedAfter ⟨"defaults"⟩ none [seedSave 5] := by
  obtain ⟨hfold, -, hnext⟩ := saves_fold ⟨"defaults"⟩ none [seedSave 5]
  have hsaved : (seedSave 5).saved? = some { Defaults.unset with seed := some 5 } := by
    decide +kernel
  have hlarge : (seedSave (2 ^ 63)).saved? =
      some { Defaults.unset with seed := some (2 ^ 63) } := by
    decide +kernel
  have hinfo : LogFilter.wellFormed "info" = .ok (some (some ⟨none, none, 3⟩)) := by
    decide +kernel
  have hfirst : ((seedSave 5).outcome ⟨"defaults"⟩ none).code = 0 := by
    refine (code_eq_zero_iff hsaved).mpr ⟨⟨⟨[⟨none, none, 3⟩]⟩, ?_⟩, by decide +kernel⟩
    change LogFilter.parseLenient "info" = _
    rw [LogFilter.parseLenient_of_not_mem (by decide) (by decide), hinfo]
    rfl
  obtain ⟨hiff, hkept⟩ := (hnext (seedSave (2 ^ 63))).2 _ hlarge
  have hcode : ((seedSave (2 ^ 63)).outcome ⟨"defaults"⟩
      (storedAfter ⟨"defaults"⟩ none [seedSave 5])).code ≠ 0 := fun hzero =>
    absurd ((hiff.mp hzero).2 (2 ^ 63) (by simp [Defaults.numbers, Defaults.merge])) (by decide)
  refine ⟨?_, hcode, hkept hcode⟩
  rw [successes, if_pos hfirst, hsaved] at hfold
  exact hfold

end Call

end DraftHeads
