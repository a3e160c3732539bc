import DraftHeads.Cli.Command
import DraftHeads.Proofs.Cli.Defaults

/-! # Saved defaults read back

Values are saved if their integers fit a TOML document, and then they read back as they were: any
values may be unset, and texts, lists and doubles may be whatever they are. Other values are refused
with a fault of their own, before anything is written.

* `saveDefaults_eq_ok_iff`, `saveDefaults_eq_error_iff`: what is written, and when nothing is.
* `saved_readBack`: the values that can be saved read back, and all others are refused.
* `wideSeed_refused`: a seed of sixty-four bits that cannot be saved. -/

namespace DraftHeads

open Number

namespace Defaults

variable {d : Defaults}

theorem settled_eq_self (h : ∀ x ∈ d.normEps, x.isNaN = false) : d.settled = d := by
  have heps : d.normEps.map Double.settled = d.normEps := by
    cases hx : d.normEps with
    | none => rfl
    | some x =>
      rw [Option.map_some, Double.settled, h x hx, if_neg Bool.false_ne_true]
  rw [settled, heps]

end Defaults

namespace Command

variable {d : Defaults} {path : Path} {text printed : String}

theorem saveDefaults_eq_ok_iff : saveDefaults (some path) d = .ok (text, printed) ↔
    d.text? = some text ∧ printed = s!"Saved config to {path.text}\n" := by
  rw [saveDefaults]
  cases d.text? with
  | none => simp
  | some written => simp [eq_comm]

theorem saveDefaults_eq_error_iff {e : CommandFault} :
    saveDefaults (some path) d = .error e ↔ ¬ d.Writable ∧ e = .unwritable := by
  rw [← Defaults.text?_isSome_iff, saveDefaults]
  cases d.text? with
  | none => simp [eq_comm]
  | some written => simp

/-- **Values that can be saved read back**: those whose integers have at most sixty-three bits, the
double being a number. All others are refused. -/
theorem saved_readBack (path : Path) (d : Defaults) (h : ∀ x ∈ d.normEps, x.isNaN = false) :
    (d.Writable → ∃ text, saveDefaults (some path) d =
        .ok (text, s!"Saved config to {path.text}\n") ∧
      Defaults.parse? text = some d ∧ storedDefaults (some text) = d) ∧
    (¬ d.Writable → saveDefaults (some path) d = .error .unwritable) := by
  refine ⟨fun hwritable => ?_, fun hwide => saveDefaults_eq_error_iff.mpr ⟨hwide, rfl⟩⟩
  obtain ⟨text, htext⟩ := Option.isSome_iff_exists.mp (Defaults.text?_isSome_iff.mpr hwritable)
  have hread : Defaults.parse? text = some d := by
    rw [Defaults.parse?_text? htext, Defaults.settled_eq_self h]
  refine ⟨text, saveDefaults_eq_ok_iff.mpr ⟨htext, rfl⟩, hread, ?_⟩
  change (Defaults.parse? text).getD .unset = d
  rw [hread, Option.getD_some]

/-- Values at the ends of their ranges: an empty text and one with quotes of both kinds, ends of
lines and a control character, the largest integers that can be saved, an empty list, and the
largest double below zero. -/
def extremes : Defaults where
  dtype := some ""
  device := some "\"\"\"'''\\\n\r\x07"
  tokens := some (2 ^ 63 - 1)
  branching := some []
  maxBatch := some 0
  normEps := some ⟨0x8000000000000001⟩
  seed := some (2 ^ 63 - 1)
  logLevel := none

/-- They are saved and read back; with a larger seed they are refused. -/
theorem saved_readBack_extremes :
    (∃ text, saveDefaults (some ⟨"defaults"⟩) extremes =
        .ok (text, "Saved config to defaults\n") ∧ Defaults.parse? text = some extremes) ∧
      saveDefaults (some ⟨"defaults"⟩) { extremes with seed := some (2 ^ 63) } =
        .error .unwritable := by
  have hnumber : ∀ x ∈ extremes.normEps, x.isNaN = false := by decide +kernel
  obtain ⟨text, hsaved, hread, -⟩ :=
    (saved_readBack ⟨"defaults"⟩ extremes hnumber).1 (by decide +kernel)
  refine ⟨⟨text, hsaved, hread⟩, ?_⟩
  exact (saved_readBack ⟨"defaults"⟩ { extremes with seed := some (2 ^ 63) } hnumber).2
    (by decide +kernel)

/-- **A seed of sixty-four bits is refused**, as a document has no integers beyond `2^63 - 1`. -/
theorem wideSeed_refused : 2 ^ 63 < UInt64.size ∧ ∀ path,
    saveDefaults (some path) { Defaults.unset with seed := some (2 ^ 63) } = .error .unwritable :=
  ⟨by decide, fun _ => saveDefaults_eq_error_iff.mpr ⟨by decide +kernel, rfl⟩⟩

end Command

end DraftHeads
