import DraftHeads.Number.Decimal
import DraftHeads.Tensor.AnyFormat

/-! # Named choices

The number formats, devices and forms of the log that a user may ask for by name. -/

namespace DraftHeads

/-- A device that tensors live on. -/
inductive Device where
  | cpu
deriving Repr, DecidableEq

/-- Why a name is not a choice. -/
inductive ChoiceFault where
  | unknownFormat (name : String)
  | unknownDevice (name : String)
  /-- The device is known, but there is no support for devices of its kind. -/
  | unsupportedDevice (kind : String)
deriving Repr, DecidableEq

/-- The words of a fault, with all names that would have been right. -/
def ChoiceFault.message : ChoiceFault → String
  | unknownFormat name => s!"Unknown dtype '{name}'. Supported: f32, f16, bf16"
  | unknownDevice name => s!"Unknown device '{name}'. Supported: cpu, cuda, cuda:N, metal"
  | unsupportedDevice kind => s!"the candle crate has not been built with {kind} support"

/-- A natural number below a bound, with digits only but for a plus sign in front. -/
def boundedNat? (bound : Nat) (cs : List Char) : Option Nat :=
  let ds :=
    match cs with
    | '+' :: rest => rest
    | _ => cs
  if ds.isEmpty ∨ !ds.all Char.isDigit then none
  else
    let n := Number.Decimal.digitsValue 0 ds
    if n < bound then some n else none

/-- The number format of weights with a name; single precision without one. -/
def chooseFormat (name : Option String) : Except ChoiceFault DType :=
  let name := name.getD "f32"
  if ["f32", "fp32", "float32"].contains name then .ok .f32
  else if ["f16", "fp16", "float16", "half"].contains name then .ok .f16
  else if ["bf16", "bfloat16"].contains name then .ok .bf16
  else .error (.unknownFormat name)

/-- The device with a name; the processor without one. -/
def chooseDevice (name : Option String) : Except ChoiceFault Device :=
  let name := name.getD "cpu"
  if name = "cpu" then .ok .cpu
  else if name = "cuda" then .error (.unsupportedDevice "cuda")
  else if name = "metal" then .error (.unsupportedDevice "metal")
  else
    let cs := name.toList
    let start := "cuda:".toList
    if start.isPrefixOf cs ∧ (boundedNat? UInt64.size (cs.drop start.length)).isSome then
      .error (.unsupportedDevice "cuda")
    else .error (.unknownDevice name)

/-- The form of the log. -/
inductive LogForm where
  | pretty
  | json
deriving Repr, DecidableEq

/-- The name of a form of the log. -/
def LogForm.name : LogForm → String
  | pretty => "Pretty"
  | json => "Json"

/-- The form of the log with a name, in letters of either case. -/
def chooseLogForm (name : Option String) : LogForm :=
  if (name.getD "").toLower = "json" then .json else .pretty

end DraftHeads
