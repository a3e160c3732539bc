import DraftHeads.Config

/-! # The policy of a run

A policy says how many heads run, how many candidates each of them branches into, up to which batch
size there is any speculation, and the epsilon of the normalisers. It does not depend on the
checkpoint. -/

namespace DraftHeads

open Number

/-- The policy of a run; `π` holds the epsilon. -/
structure Policy (π : Type) where
  /-- The number of heads to run; all of the checkpoint if there is none. -/
  tokens? : Option Nat
  /-- The number of candidates of each head; one for every head if there is none. -/
  branching? : Option (List Nat)
  /-- Larger batches are not speculated on. -/
  maxBatch : Nat
  normEps : π

namespace Policy

/-- One in a million. -/
def standardEps : Double := .ofDecimal false ⟨1, -6⟩

/-- Batches of up to 128 rows are speculated on. -/
def standardMaxBatch : Nat := 128

/-- All heads run and each has one candidate. -/
def standard : Policy Double := ⟨none, none, standardMaxBatch, standardEps⟩

variable {π : Type}

/-- The number of heads that run. -/
def headCount (p : Policy π) (c : Config) : Nat := p.tokens?.getD c.headCount

/-- The branching list for a number of heads. -/
def branching (p : Policy π) (heads : Nat) : List Nat :=
  p.branching?.getD (List.replicate heads 1)

/-- The same policy with its epsilon in another form. -/
def mapEps {ρ : Type} (f : π → ρ) (p : Policy π) : Policy ρ :=
  ⟨p.tokens?, p.branching?, p.maxBatch, f p.normEps⟩

/-- The keys of a policy in the order of its fields. -/
def keys : List String :=
  ["num_speculative_tokens", "top_k_per_head", "max_batch_for_speculation", "norm_eps"]

/-- A value that may be null. -/
def nullable {α : Type} (read : Json.Value → Option α) : Json.Value → Option (Option α)
  | .null => some none
  | v => (read v).map some

/-- The policy of its fields, each of them there or not. -/
def ofFields? (tokens branching maxBatch eps : Option Json.Value) : Option (Policy Double) := do
  let orElse {α : Type} (v? : Option Json.Value) (default : α) (read : Json.Value → Option α) :
      Option α :=
    match v? with
    | none => some default
    | some v => read v
  return {
    tokens? := ← orElse tokens none (nullable Json.Value.natural?)
    branching? := ← orElse branching none (nullable Json.Value.naturals?)
    maxBatch := ← orElse maxBatch standardMaxBatch Json.Value.natural?
    normEps := ← orElse eps standardEps Json.Value.double? }

/-- The policy that a JSON value gives: an object, or an array with the fields in order. -/
def ofValue? : Json.Value → Option (Policy Double)
  | .object members => do
    ofFields? (← Config.field ["num_speculative_tokens"] members)
      (← Config.field ["top_k_per_head"] members)
      (← Config.field ["max_batch_for_speculation"] members)
      (← Config.field ["norm_eps"] members)
  | .array items =>
    if items.length ≤ keys.length then ofFields? items[0]? items[1]? items[2]? items[3]? else none
  | _ => none

/-- The policy that a JSON text gives. Members of other keys are not looked at. -/
def parse? (text : String) : Option (Policy Double) :=
  Json.parseKnown? keys.contains text >>= ofValue?

end Policy

end DraftHeads
