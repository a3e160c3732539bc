import DraftHeads.Policy
import DraftHeads.Toml.Parser
import DraftHeads.Toml.Printer

/-! # Persistent defaults

The values that a user may set once and for all, each of them set or unset. They are kept in a TOML
document and merged with the flags of a command, which win over them.

* `Defaults.merge`: a value of the second set wins over one of the first, field by field.
* `Defaults.policy`: the policy of a run, unset fields being as in the standard policy.
* `Defaults.parse?`, `Defaults.text?`: reading and writing the document; integers beyond `2^63 - 1`
  cannot be written. -/

namespace DraftHeads

open Number

/-- Values that may be set. -/
structure Defaults where
  dtype : Option String
  device : Option String
  tokens : Option Nat
  branching : Option (List Nat)
  maxBatch : Option Nat
  normEps : Option Double
  seed : Option Nat
  logLevel : Option String
deriving DecidableEq, Repr

namespace Defaults

/-- Nothing is set. -/
def unset : Defaults := ⟨none, none, none, none, none, none, none, none⟩

/-- The values of the second set where it has one, and those of the first elsewhere. -/
def merge (a b : Defaults) : Defaults where
  dtype := b.dtype <|> a.dtype
  device := b.device <|> a.device
  tokens := b.tokens <|> a.tokens
  branching := b.branching <|> a.branching
  maxBatch := b.maxBatch <|> a.maxBatch
  normEps := b.normEps <|> a.normEps
  seed := b.seed <|> a.seed
  logLevel := b.logLevel <|> a.logLevel

/-- The policy of a run. -/
def policy (d : Defaults) : Policy Double where
  tokens? := d.tokens
  branching? := d.branching
  maxBatch := d.maxBatch.getD Policy.standard.maxBatch
  normEps := d.normEps.getD Policy.standard.normEps

/-! ### The document -/

/-- The value of a key, which may be missing and has to be of the right kind. -/
def field {α : Type} (key : String) (read : Toml.Value → Option α)
    (entries : List (String × Toml.Value)) : Option (Option α) :=
  match Toml.lookup? key entries with
  | none => some none
  | some v => (read v).map some

/-- The values in a document; keys that have no meaning are not looked at. -/
def ofEntries? (entries : List (String × Toml.Value)) : Option Defaults := do
  return {
    dtype := ← field "dtype" Toml.Value.string? entries
    device := ← field "device" Toml.Value.string? entries
    tokens := ← field "num_speculative_tokens" Toml.Value.natural? entries
    branching := ← field "top_k_per_head" Toml.Value.naturals? entries
    maxBatch := ← field "max_batch_for_speculation" Toml.Value.natural? entries
    normEps := ← field "norm_eps" Toml.Value.double? entries
    seed := ← field "seed" Toml.Value.natural? entries
    logLevel := ← field "log_level" Toml.Value.string? entries }

/-- The entry of a value that may be unset. -/
def entry {α : Type} (key : String) (write : α → Toml.Value) (x : Option α) :
    List (String × Toml.Value) :=
  match x with
  | none => []
  | some a => [(key, write a)]

/-- A natural number in a document. -/
def naturalValue (n : Nat) : Toml.Value := .integer n

/-- The entries of the values that are set. -/
def toEntries (d : Defaults) : List (String × Toml.Value) :=
  entry "dtype" .string d.dtype ++ entry "device" .string d.device ++
    entry "num_speculative_tokens" naturalValue d.tokens ++
    entry "top_k_per_head" (fun ks => .array (ks.map naturalValue)) d.branching ++
    entry "max_batch_for_speculation" naturalValue d.maxBatch ++
    entry "norm_eps" .double d.normEps ++ entry "seed" naturalValue d.seed ++
    entry "log_level" .string d.logLevel

/-- The values in the text of a document. -/
def parse? (text : String) : Option Defaults := Toml.parse? text >>= ofEntries?

/-- The text of the document of some values. -/
def text? (d : Defaults) : Option String := Toml.document? d.toEntries

end Defaults

end DraftHeads
