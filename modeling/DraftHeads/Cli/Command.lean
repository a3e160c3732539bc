import DraftHeads.Checkpoint.Loading
import DraftHeads.Cli.Arguments
import DraftHeads.Cli.LogRecord
import DraftHeads.Noise

/-! # Commands

What the commands do, as functions of their surroundings: the files, the hub, the stored defaults
and the log settings.

* `inspect` prints the configuration of a checkpoint and which parameters its heads use.
* `run` drafts from seeded hidden states and logs the best token of every head.
* `config show` and `config save` print and change the stored defaults.

`execute` runs a command line; one that is not used rightly does nothing and has the exit code two.
One that asks for help only gives help, the text of which is left out here. -/

namespace DraftHeads

open Number

/-- What a command finds around it. -/
structure Surroundings where
  tree : FileTree
  hub : Hub
  /-- The file of the stored defaults, if there is a directory for it. -/
  defaultsPath : Option Path
  /-- The text of the file of the stored defaults, if it is there. -/
  stored : Option String
  /-- The log filter of the environment. -/
  logFilter : Option String

/-- Why a command fails. -/
inductive CommandFault where
  | library (cause : Fault)
  | choice (cause : ChoiceFault)
  /-- The token is not in the vocabulary. -/
  | tokenOutside (token vocab : Nat)
  /-- The defaults cannot be written. -/
  | unwritable
  | noConfigDirectory
deriving Repr

/-- The words of a fault, where it has any. -/
def CommandFault.message? : CommandFault → Option String
  | library cause => cause.message?
  | choice cause => some cause.message
  | tokenOutside token vocab =>
    some s!"--token {token} is outside the vocabulary (size {vocab})"
  | unwritable => none
  | noConfigDirectory => some "No config directory available"

/-- Does the fault end the program? -/
def CommandFault.isFatal : CommandFault → Bool
  | library cause => cause.isFatal
  | _ => false

/-- The outcome of a command. -/
structure Outcome where
  code : Nat
  output : String
  records : List LogRecord
  fault : Option CommandFault
  /-- The text of the file of the stored defaults afterwards. -/
  stored : Option String

namespace Command

/-- The stored defaults; a text that cannot be read counts as none. -/
def storedDefaults (stored : Option String) : Defaults :=
  (stored >>= Defaults.parse?).getD .unset

/-- A natural number after blanks that fill it up to a width. -/
def padded (width n : Nat) : String :=
  let text := toString n
  "".pushn ' ' (width - text.length) ++ text

/-- A double with six places after the point. -/
def sixPlaces (x : Float) : String :=
  match doubleDatum x with
  | .finite s m e => (if s then "-" else "") ++ Decimal.fixedPlaces 6 m e
  | .infinite s => if s then "-inf" else "inf"
  | .nan _ => "NaN"

/-- The line of a head in the table of slots. -/
def slotLine (head : Nat) (s : Slot) : String :=
  "  ".intercalate [padded 4 head, padded 3 s.embedding, padded 4 s.stateProjection,
    padded 4 s.outputProjection, padded 2 s.norm]

/-- The report on a checkpoint. -/
def report (files : Located) (routing : Routing) (m : Model Float32 Float) : String :=
  let p := m.parameters
  let own := (routing.namesWith "speculator.").length
  let lines := [
    files.config.toValue.pretty, "",
    s!"files: {routing.files.length}  tensors: {routing.routes.length}  speculator tensors: {own}",
    s!"heads: {m.heads}  top-k: {shapeText m.branching}  state weight: " ++
      s!"{sixPlaces m.mixing.state}  embed weight: {sixPlaces m.mixing.embed}",
    "head  emb  proj  head  ln"] ++
    p.slots.zipIdx.map (fun s => slotLine s.2 s.1) ++ [
    s!"distinct parameters: {p.embeddings.length} embeddings, " ++
      s!"{p.stateProjections.length} state projections, " ++
      s!"{p.outputProjections.length} output projections, {p.norms.length} norms"]
  String.join (lines.map (· ++ "\n"))

/-- Prints the report on a checkpoint. -/
def inspect (around : Surroundings) (source : String) (d : Defaults) :
    Except CommandFault String :=
  (do
    let files ← Located.locate around.tree around.hub source
    let routing ← Routing.build around.tree files.weights
    let weights ← routing.weights around.tree
    let m : Model Float32 Float ← Model.build files.config (d.policy.mapEps Double.toFloat)
      ((weights.reader .f32).below "speculator") .single
    return report files routing m : Except Fault String).mapError .library

/-- The lowest single precision number. -/
def lowest : Float32 := Float32.ofBits 0xff7fffff

/-- The first entry of a distribution that is larger than all before it and the lowest number, with
its index; index zero and the lowest number if there is none. -/
def mostLikely (dist : List Float32) : Nat × Float32 :=
  dist.zipIdx.foldl (fun best x => if Scalar.less best.2 x.1 then (x.2, x.1) else best) (0, lowest)

/-- What a run logs of its trace. -/
def recordsOf (batch heads : Nat) (trace : Trace Float32) : List LogRecord :=
  trace.steps.zipIdx.map (fun (step, head) =>
      .candidateRows head step.multiplicity step.candidates.data.length) ++
    (pieces heads batch trace.allProbs.rows).zipIdx.flatMap fun (dists, row) =>
      dists.zipIdx.map fun (dist, head) =>
        let (token, prob) := mostLikely dist
        .draft row head token prob

/-- The number of bytes of an entry of the hidden states, and of a token. -/
def entrySize : Nat := 4

/-- Drafts from seeded hidden states. There may be only as many rows as memory has addresses for. -/
def run (around : Surroundings) (source : String) (batch token : Nat) (d : Defaults) :
    Except CommandFault (List LogRecord) := do
  let .cpu ← (chooseDevice d.device).mapError .choice
  let format ← (chooseFormat d.dtype).mapError .choice
  let files ← (Located.locate around.tree around.hub source).mapError .library
  if files.config.vocabSize ≤ token then throw (.tokenOutside token files.config.vocabSize)
  let m ← (loadSpeculator around.tree files d.policy format .single).mapError .library
  let width := m.model.sizes.emb
  (checkBytes (batch * max width 1) entrySize).mapError fun e => .library (.layer (.whole e))
  let noise := Noise.samples (UInt64.ofNat (d.seed.getD 0)) (batch * width)
  let trace ← (do
    let hidden ← (Tensor.ofData [batch, width] noise).mapError fun e => Fault.layer (.whole e)
    m.trace ⟨format, (AnyTensor.mk .f32 hidden).cast format⟩
      ⟨.u32, Tensor.fill [batch] (UInt32.ofNat token)⟩ : Except Fault (Trace Float32)).mapError
      .library
  return recordsOf batch m.model.heads trace

/-- The text that is shown of the stored defaults. -/
def showDefaults (path : Option Path) (d : Defaults) : String × Option CommandFault :=
  let first :=
    match path with
    | some p => s!"# {p.text}\n"
    | none => "# no config directory available\n"
  match d.text? with
  | some text => (first ++ text, none)
  | none => (first, some .unwritable)

/-- The new text of the file of the stored defaults, and what is printed. -/
def saveDefaults (path : Option Path) (d : Defaults) : Except CommandFault (String × String) :=
  match path with
  | none => .error .noConfigDirectory
  | some p =>
    match d.text? with
    | none => .error .unwritable
    | some text => .ok (text, s!"Saved config to {p.text}\n")

/-- The log filter of a command: that of the environment if it is well formed, else that of the
level of the command line, else that of the stored one. -/
def chooseFilter (around : Surroundings) (level stored : Option String) :
    Except LogFilterFault LogFilter :=
  let own := LogFilter.parseLenient ((level <|> stored).getD "info")
  match around.logFilter with
  | none => own
  | some text =>
    match LogFilter.parse text with
    | .ok filter => .ok filter
    | .error .malformed => own
    | .error .torn => .error .torn

/-- The outcome of a command that ends the program at once. -/
def abortion (around : Surroundings) : Outcome := ⟨101, "", [], none, around.stored⟩

/-- The outcome of a command that fails. -/
def failure (around : Surroundings) (e : CommandFault) : Outcome :=
  if e.isFatal then abortion around else ⟨1, "", [], some e, around.stored⟩

/-- The outcome of a command line that asks for help. -/
def helped (around : Surroundings) : Outcome := ⟨0, "", [], none, around.stored⟩

/-- The outcome of an action under a log filter. -/
def act (around : Surroundings) (stored : Defaults) (filter : LogFilter) (c : Invocation) :
    Outcome :=
  match c.action with
  | .inspect source flags =>
    match inspect around source (stored.merge flags) with
    | .ok text => ⟨0, text, [], none, around.stored⟩
    | .error e => failure around e
  | .run source batch token flags =>
    match run around source batch token (stored.merge flags) with
    | .ok records => ⟨0, "", records.filter (LogRecord.passes filter), none, around.stored⟩
    | .error e => failure around e
  | .showDefaults =>
    let (text, fault) := showDefaults around.defaultsPath stored
    ⟨if fault.isSome then 1 else 0, text, [], fault, around.stored⟩
  | .saveDefaults flags =>
    match saveDefaults around.defaultsPath (stored.merge { flags with logLevel := c.logLevel }) with
    | .ok (text, printed) => ⟨0, printed, [], none, some text⟩
    | .error e => failure around e
  | .help => helped around

/-- The outcome of a well formed command line. A log filter with a torn word ends the program before
anything is done, but help is given before there is a log. -/
def perform (around : Surroundings) (c : Invocation) : Outcome :=
  let stored := storedDefaults around.stored
  match c.action with
  | .help => helped around
  | _ =>
    match chooseFilter around c.logLevel stored.logLevel with
    | .ok filter => act around stored filter c
    | .error _ => abortion around

/-- The outcome of a command line. -/
def execute (around : Surroundings) (words : List String) : Outcome :=
  match Invocation.parse? words with
  | some c => perform around c
  | none => ⟨2, "", [], none, around.stored⟩

end Command

end DraftHeads
