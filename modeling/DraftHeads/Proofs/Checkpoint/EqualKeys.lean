import DraftHeads.Proofs.Checkpoint.NumberedNames

/-! # Names with equal keys

Two file names have the same key exactly if they differ in nothing but zeros in front of numbers.
The runs of a name are collected by one pass over its characters.

* `Chunk.IsRuns`: the runs of a text; `Chunk.IsRuns.runs_eq`: there is one way to cut it.
* `Collected.push_holds`, `Collected.collect_isRuns`: one character, and all of them; so
  `Collected.collect_eq`: what is collected are the runs.
* `Chunk.dropZeros`, `Chunk.plainRun`, `Chunk.plainName`: a number, a run and a name without zeros
  in front of their numbers; `Chunk.runs_plainName`: the runs of a name stay apart.
* `naturalKey_eq_iff`: which names have equal keys. -/

namespace DraftHeads

namespace Chunk

/-! ### Runs -/

/-- The runs of a text: put together they are the text, none is empty, each has digits only or no
digits at all, and neighbours are of different kinds. -/
structure IsRuns (cs : List Char) (rs : List (List Char)) : Prop where
  joined : rs.flatten = cs
  nonempty : ∀ run ∈ rs, run ≠ []
  uniform : ∀ run ∈ rs, ∃ digits : Bool, ∀ c ∈ run, c.isDigit = digits
  alternate : rs.IsChain fun run next => ∀ c ∈ run, ∀ c' ∈ next, c.isDigit ≠ c'.isDigit

/-- **There is one way to cut a text into runs.** -/
theorem IsRuns.runs_eq {cs : List Char} {rs : List (List Char)} (h : IsRuns cs rs) :
    runs cs = rs := by
  rw [← h.joined, runs]
  refine List.splitBy_flatten (fun hnil => h.nonempty [] hnil rfl) (fun run hrun => ?_) ?_
  · obtain ⟨digits, hkind⟩ := h.uniform run hrun
    refine List.Pairwise.isChain (List.pairwise_of_forall_mem_list fun c hc c' hc' => ?_)
    rw [hkind c hc, hkind c' hc', beq_self_eq_true]
  · refine List.IsChain.imp_of_mem_imp (fun run next hrun hnext hdiffer => ?_) h.alternate
    exact ⟨h.nonempty run hrun, h.nonempty next hnext, beq_eq_false_iff_ne.mpr
      (hdiffer _ (List.getLast_mem _) _ (List.head_mem _))⟩

theorem IsRuns.concat {cs run : List Char} {rs : List (List Char)} {c : Char}
    (h : IsRuns cs (rs ++ [run])) (hother : ∀ c' ∈ run, c'.isDigit ≠ c.isDigit) :
    IsRuns (cs ++ [c]) (rs ++ [run] ++ [[c]]) where
  joined := by rw [List.flatten_append, h.joined]; rfl
  nonempty := List.forall_mem_append.mpr ⟨h.nonempty, by simp⟩
  uniform := List.forall_mem_append.mpr ⟨h.uniform, by simp⟩
  alternate := by
    refine h.alternate.append (.singleton _) fun r hr r' hr' => ?_
    rw [List.getLast?_concat, Option.mem_some_iff] at hr
    rw [List.head?_cons, Option.mem_some_iff] at hr'
    subst hr hr'
    intro c₁ hc₁ c₂ hc₂
    rw [List.mem_singleton.mp hc₂]
    exact hother c₁ hc₁

theorem IsRuns.extend {cs run : List Char} {rs : List (List Char)} {c : Char}
    (h : IsRuns cs (rs ++ [run])) (hsame : ∀ c' ∈ run, c'.isDigit = c.isDigit) :
    IsRuns (cs ++ [c]) (rs ++ [run ++ [c]]) where
  joined := by
    rw [← h.joined]
    simp
  nonempty := List.forall_mem_append.mpr ⟨(List.forall_mem_append.mp h.nonempty).1, by simp⟩
  uniform := by
    have hrun : ∀ c' ∈ run ++ [c], c'.isDigit = c.isDigit :=
      List.forall_mem_append.mpr ⟨hsame, by simp⟩
    exact List.forall_mem_append.mpr ⟨(List.forall_mem_append.mp h.uniform).1,
      List.forall_mem_singleton.mpr ⟨c.isDigit, hrun⟩⟩
  alternate := by
    obtain ⟨hinit, -, hlast⟩ := List.isChain_append.mp h.alternate
    refine hinit.append (.singleton _) fun r hr r' hr' => ?_
    rw [List.head?_cons, Option.mem_some_iff] at hr'
    subst hr'
    intro c₁ hc₁ c₂ hc₂
    -- the run is not empty, so a character of its kind stands in for the new one
    obtain ⟨c', hc'⟩ := List.exists_mem_of_ne_nil run (h.nonempty run (by simp))
    have hdiffer := hlast r hr run (by simp) c₁ hc₁
    rcases List.mem_append.mp hc₂ with hc₂ | hc₂
    · exact hdiffer c₂ hc₂
    · rw [List.mem_singleton.mp hc₂, ← hsame c' hc']
      exact hdiffer c' hc'

end Chunk

/-! ### Collecting the runs -/

/-- What a pass over the characters of a name has collected: the runs that are finished, the run
that is not, and whether the last character was a digit. -/
structure Collected where
  finished : List (List Char)
  pending : List Char
  inDigits : Bool

namespace Collected

open Chunk (IsRuns)

/-- Before the first character. -/
def start : Collected := ⟨[], [], false⟩

/-- The next character: one of the other kind finishes the pending run. -/
def push (s : Collected) (c : Char) : Collected :=
  if c.isDigit ≠ s.inDigits ∧ s.pending ≠ [] then ⟨s.finished ++ [s.pending], [c], c.isDigit⟩
  else ⟨s.finished, s.pending ++ [c], c.isDigit⟩

/-- The runs at the end of the name: the pending one too, if there is one. -/
def result (s : Collected) : List (List Char) :=
  if s.pending = [] then s.finished else s.finished ++ [s.pending]

/-- The runs of a name, collected character by character. -/
def collect (cs : List Char) : List (List Char) := (cs.foldl push start).result

/-- The finished runs and the pending one are the runs of what was read, and the pending run is of
the kind of the last character. Nothing is finished before a run is pending. -/
structure Holds (s : Collected) (read : List Char) : Prop where
  isRuns : IsRuns read s.result
  kind : ∀ c ∈ s.pending, c.isDigit = s.inDigits
  started : s.pending = [] → s.finished = []

theorem start_holds : start.Holds [] :=
  ⟨⟨rfl, by simp [start, result], by simp [start, result], .nil⟩, by simp [start], fun _ => rfl⟩

section Push

variable {s : Collected} {read : List Char} {c : Char}

theorem Holds.isRuns_pending (h : s.Holds read) (hne : s.pending ≠ []) :
    IsRuns read (s.finished ++ [s.pending]) := by
  have hruns := h.isRuns
  rwa [result, if_neg hne] at hruns

theorem Holds.of_isRuns {s : Collected} (hne : s.pending ≠ [])
    (hruns : IsRuns read (s.finished ++ [s.pending]))
    (kind : ∀ c ∈ s.pending, c.isDigit = s.inDigits) : s.Holds read :=
  ⟨by rwa [result, if_neg hne], kind, fun hnil => absurd hnil hne⟩

/-- **One character** keeps what is collected the runs of what was read. -/
theorem push_holds (h : s.Holds read) (c : Char) : (s.push c).Holds (read ++ [c]) := by
  by_cases hnil : s.pending = []
  · -- the first character
    have hfinished := h.started hnil
    have hread : read = [] := by
      have hjoined := h.isRuns.joined
      rw [result, if_pos hnil, hfinished] at hjoined
      exact hjoined.symm
    rw [push, if_neg fun hand => hand.2 hnil, hnil, hfinished, hread]
    exact .of_isRuns (List.cons_ne_nil c []) ⟨rfl, by simp, by simp, .singleton _⟩ (by simp)
  · have hruns := h.isRuns_pending hnil
    by_cases hkind : c.isDigit = s.inDigits
    · rw [push, if_neg fun hand => hand.1 hkind]
      have hsame : ∀ c' ∈ s.pending, c'.isDigit = c.isDigit := fun c' hc' => by
        rw [h.kind c' hc', hkind]
      refine .of_isRuns (by simp) (hruns.extend hsame) fun c' hc' => ?_
      rcases List.mem_append.mp hc' with hc' | hc'
      · exact hsame c' hc'
      · rw [List.mem_singleton.mp hc']
    · rw [push, if_pos ⟨hkind, hnil⟩]
      have hother : ∀ c' ∈ s.pending, c'.isDigit ≠ c.isDigit := fun c' hc' => by
        rw [h.kind c' hc']
        exact Ne.symm hkind
      exact .of_isRuns (List.cons_ne_nil c []) (hruns.concat hother) (by simp)

theorem foldl_push_holds (h : s.Holds read) : ∀ cs : List Char,
    (cs.foldl push s).Holds (read ++ cs) := by
  intro cs
  induction cs generalizing s read with
  | nil => simpa using h
  | cons c cs ih =>
    have hnext := ih (push_holds h c)
    rwa [List.append_assoc, List.singleton_append] at hnext

end Push

/-- **What is collected from a name** are its runs. -/
theorem collect_isRuns (cs : List Char) : IsRuns cs (collect cs) :=
  (foldl_push_holds start_holds cs).isRuns

theorem collect_eq (cs : List Char) : collect cs = Chunk.runs cs :=
  (collect_isRuns cs).runs_eq.symm

end Collected

namespace Chunk

open Number.Decimal (digits digitsValue Whole)

theorem isRuns_runs (cs : List Char) : IsRuns cs (runs cs) :=
  Collected.collect_eq cs ▸ Collected.collect_isRuns cs

/-! ### Zeros in front -/

/-- Digits without the zeros in front of them; the last digit stays, zero or not. -/
def dropZeros : List Char → List Char
  | '0' :: c :: cs => dropZeros (c :: cs)
  | cs => cs

/-- Does a run stand for a number of sixty-four bits? -/
def IsNumber (run : List Char) : Prop := run.all Char.isDigit ∧ digitsValue 0 run < UInt64.size

instance (run : List Char) : Decidable (IsNumber run) := inferInstanceAs (Decidable (_ ∧ _))

/-- A run without zeros in front, if it stands for a number. -/
def plainRun (run : List Char) : List Char := if IsNumber run then dropZeros run else run

/-- A name without zeros in front of its numbers. -/
def plainName (cs : List Char) : List Char := (runs cs).flatMap plainRun

theorem dropZeros_suffix (cs : List Char) : dropZeros cs <:+ cs := by
  fun_induction dropZeros cs with
  | case1 c cs ih => exact ih.trans (List.suffix_cons '0' (c :: cs))
  | case2 cs hcs => exact List.suffix_rfl

theorem dropZeros_ne_nil {cs : List Char} (h : cs ≠ []) : dropZeros cs ≠ [] := by
  fun_induction dropZeros cs with
  | case1 c cs ih => exact ih (List.cons_ne_nil c cs)
  | case2 cs hcs => exact h

theorem digitsValue_dropZeros (cs : List Char) :
    digitsValue 0 (dropZeros cs) = digitsValue 0 cs := by
  fun_induction dropZeros cs with
  | case1 c cs ih =>
    rw [ih, Number.Decimal.digitsValue_cons 0 '0']
    rfl
  | case2 cs hcs => rfl

theorem head_dropZeros {cs : List Char} (h : (dropZeros cs).head? = some '0') :
    dropZeros cs = ['0'] := by
  fun_induction dropZeros cs with
  | case1 c cs ih => exact ih h
  | case2 cs hcs =>
    obtain ⟨rest, rfl⟩ := List.head?_eq_some_iff.mp h
    cases rest with
    | nil => rfl
    | cons c rest => exact absurd rfl (hcs c rest)

theorem digits_eq_dropZeros {run : List Char} (hne : run ≠ []) (hdigits : ∀ c ∈ run, c.isDigit) :
    digits (digitsValue 0 run) = dropZeros run := by
  have hwhole : Whole (dropZeros run) :=
    ⟨fun c hc => hdigits c ((dropZeros_suffix run).subset hc), dropZeros_ne_nil hne, head_dropZeros⟩
  rw [← digitsValue_dropZeros, Number.Decimal.digits_digitsValue hwhole]

/-! ### Keys and names -/

theorem plainRun_suffix (run : List Char) : plainRun run <:+ run := by
  rw [plainRun]
  split_ifs
  · exact dropZeros_suffix run
  · exact List.suffix_rfl

theorem plainRun_ne_nil {run : List Char} (h : run ≠ []) : plainRun run ≠ [] := by
  rw [plainRun]
  split_ifs
  · exact dropZeros_ne_nil h
  · exact h

theorem ofRun_plainRun (run : List Char) : ofRun (plainRun run) = ofRun run := by
  rw [plainRun]
  split_ifs with h
  · have hall : (dropZeros run).all Char.isDigit := List.all_eq_true.mpr fun c hc =>
      List.all_eq_true.mp h.1 c ((dropZeros_suffix run).subset hc)
    have hdrop : ofRun (dropZeros run) = number (digitsValue 0 (dropZeros run)) :=
      if_pos ⟨hall, (digitsValue_dropZeros run).symm ▸ h.2⟩
    rw [hdrop, digitsValue_dropZeros]
    exact (if_pos h).symm
  · rfl

/-- How a chunk is written without zeros in front. -/
def written : Chunk → List Char
  | number n => digits n
  | text s => s.toList

theorem written_ofRun {run : List Char} (hne : run ≠ []) : (ofRun run).written = plainRun run := by
  rw [plainRun]
  split_ifs with h
  · have hnumber : ofRun run = number (digitsValue 0 run) := if_pos h
    rw [hnumber, written, digits_eq_dropZeros hne (List.all_eq_true.mp h.1)]
  · have htext : ofRun run = text (String.ofList run) := if_neg h
    rw [htext, written, String.toList_ofList]

/-- **The runs of a name stay apart** when zeros in front of its numbers go. -/
theorem runs_plainName (cs : List Char) : runs (plainName cs) = (runs cs).map plainRun := by
  have h := isRuns_runs cs
  refine IsRuns.runs_eq ⟨List.flatMap_def.symm, fun run hrun => ?_, fun run hrun => ?_, ?_⟩
  · obtain ⟨r, hr, rfl⟩ := List.mem_map.mp hrun
    exact plainRun_ne_nil (h.nonempty r hr)
  · obtain ⟨r, hr, rfl⟩ := List.mem_map.mp hrun
    obtain ⟨kind, hkind⟩ := h.uniform r hr
    exact ⟨kind, fun c hc => hkind c ((plainRun_suffix r).subset hc)⟩
  · rw [List.isChain_map]
    refine h.alternate.imp fun r r' hdiffer c hc c' hc' => ?_
    exact hdiffer c ((plainRun_suffix r).subset hc) c' ((plainRun_suffix r').subset hc')

theorem ofName_plainName (cs : List Char) : ofName (plainName cs) = ofName cs := by
  rw [ofName, runs_plainName, List.map_map, ofName]
  exact List.map_congr_left fun run _ => ofRun_plainRun run

theorem plainName_eq (cs : List Char) : plainName cs = (ofName cs).flatMap written := by
  rw [plainName, ofName, List.flatMap_map]
  exact List.flatMap_congr fun run hrun => (written_ofRun ((isRuns_runs cs).nonempty run hrun)).symm

theorem ofName_eq_iff {cs ds : List Char} :
    ofName cs = ofName ds ↔ plainName cs = plainName ds := by
  constructor
  · intro h
    rw [plainName_eq, plainName_eq, h]
  · intro h
    rw [← ofName_plainName cs, ← ofName_plainName ds, h]

end Chunk

/-- The characters of a path's file name; there are none if it has no file name. -/
def Path.nameChars (p : Path) : List Char := (p.fileName?.getD "").toList

/-- **Two file names have equal keys** exactly if they are equal without zeros in front of their
numbers below `2^64`. The key compares the runs that are collected from the name: put together they
are the name, none is empty, each has digits only or no digits, and none can be made longer. -/
theorem naturalKey_eq_iff (p q : Path) :
    (naturalKey p = naturalKey q ↔
      Chunk.plainName p.nameChars = Chunk.plainName q.nameChars) ∧
    let collected := Collected.collect p.nameChars
    naturalKey p = collected.map Chunk.ofRun ∧ Chunk.IsRuns p.nameChars collected ∧
      Chunk.plainName p.nameChars = collected.flatMap Chunk.plainRun := by
  refine ⟨Chunk.ofName_eq_iff, ?_, Collected.collect_isRuns p.nameChars, ?_⟩
  · rw [Collected.collect_eq]
    rfl
  · rw [Collected.collect_eq, Chunk.plainName]

/-- A number of more than sixty-four bits keeps the zeros in front of it. -/
example : naturalKey ⟨"a/m-007"⟩ = naturalKey ⟨"m-7"⟩ ∧
    naturalKey ⟨"m-018446744073709551616"⟩ ≠ naturalKey ⟨"m-18446744073709551616"⟩ := by
  decide +kernel

end DraftHeads
