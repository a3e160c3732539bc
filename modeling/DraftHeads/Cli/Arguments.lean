import DraftHeads.Cli.Choice
import DraftHeads.Cli.Defaults
import DraftHeads.Number.Decimal

/-! # Command lines

A command line is a list of words. A command has options, which start with two dashes and take a
value, and either positional words or subcommands. The value of an option follows an equals sign or
is the next word, which may then not start with a dash, unless it is a single one; after two dashes
on their own all words are positional. Where an option may stand the help may be asked for instead,
and where a subcommand may stand, help on a command; no word after that is looked at.

* `Gathered.gather`: the words of one command sorted into options, positional words and subcommand.
* `Invocation.parse?`: the command that the words stand for; there is none if they are not used
  rightly. -/

namespace DraftHeads

open Number

/-- The words of a command, sorted. -/
structure Gathered where
  options : List (String × String)
  positionals : List String
  /-- The subcommand and the words after it. -/
  subcommand : Option (String × List String)
  /-- Is the help asked for after these words? -/
  help : Bool

namespace Gathered

/-- No words. -/
def empty : Gathered := ⟨[], [], none, false⟩

/-- Does a word ask for help? A short option may have others behind it in the same word. -/
def asksHelp (word : String) : Bool := word == "--help" || ['-', 'h'].isPrefixOf word.toList

/-- The words of a command whose options have the given names, as far as help is not asked for. A
command with subcommands has no positional words, and has one more subcommand that gives help. -/
def gather (names subcommands : List String) : (escaped : Bool) → List String → Option Gathered
  | _, [] => some empty
  | escaped, word :: rest =>
    let cs := word.toList
    if escaped then
      if subcommands.isEmpty then
        (gather names subcommands true rest).map fun g =>
          { g with positionals := word :: g.positionals }
      else none
    else if word = "--" then gather names subcommands true rest
    else if asksHelp word then some { empty with help := true }
    else if ['-', '-'].isPrefixOf cs then
      let body := cs.drop 2
      let name := String.ofList (body.takeWhile (· != '='))
      if !names.contains name then none
      else
        match body.dropWhile (· != '=') with
        | _ :: value =>
          (gather names subcommands false rest).map fun g =>
            { g with options := (name, String.ofList value) :: g.options }
        | [] =>
          match rest with
          | value :: rest =>
            if value.toList.head? = some '-' ∧ value ≠ "-" then none
            else
              (gather names subcommands false rest).map fun g =>
                { g with options := (name, value) :: g.options }
          | [] => none
    else if cs.head? = some '-' ∧ word ≠ "-" then none
    else if subcommands.isEmpty then
      (gather names subcommands false rest).map fun g =>
        { g with positionals := word :: g.positionals }
    else if subcommands.contains word ∨ word = "help" then
      some { empty with subcommand := some (word, rest) }
    else none

/-- The values of an option, in order. -/
def values (g : Gathered) (name : String) : List String :=
  (g.options.filter fun o => o.1 == name).map Prod.snd

/-- The value of an option that may be given once. -/
def value? (g : Gathered) (name : String) : Option (Option String) :=
  match g.values name with
  | [] => some none
  | [v] => some (some v)
  | _ => none

/-- The value of an option that may be given once, read as something else. -/
def read? {α : Type} (g : Gathered) (name : String) (read : String → Option α) :
    Option (Option α) := do
  match ← g.value? name with
  | none => some none
  | some v => (read v).map some

end Gathered

/-! ### Values of options -/

/-- A natural number of sixty-four bits. -/
def readWord (s : String) : Option Nat := boundedNat? UInt64.size s.toList

/-- A token, which is a number of thirty-two bits; zero may have a sign. -/
def readToken (s : String) : Option Nat :=
  match s.toList with
  | '-' :: ds => if !ds.isEmpty ∧ ds.all (· == '0') then some 0 else none
  | cs => boundedNat? UInt32.size cs

/-- A list of natural numbers with commas between them. -/
def readWords (s : String) : Option (List Nat) :=
  (s.splitOn ",").mapM readWord

/-- The digits of a number with a point or an exponent; digits may be missing on one side of the
point. -/
def readDigits (cs : List Char) : Option Decimal := do
  let whole := cs.takeWhile Char.isDigit
  let rest := cs.dropWhile Char.isDigit
  let (fraction, rest) :=
    match rest with
    | '.' :: r => (r.takeWhile Char.isDigit, r.dropWhile Char.isDigit)
    | r => ([], r)
  if whole.isEmpty ∧ fraction.isEmpty then none
  else
    match rest with
    | [] => some (.ofDigits whole fraction 0)
    | c :: r =>
      if c = 'e' ∨ c = 'E' then
        let (negative, ds) :=
          match r with
          | '-' :: r => (true, r)
          | '+' :: r => (false, r)
          | r => (false, r)
        if ds.isEmpty ∨ !ds.all Char.isDigit then none
        else
          let e : Int := Decimal.digitsValue 0 ds
          some (.ofDigits whole fraction (if negative then -e else e))
      else none

/-- A double, written in any of the usual ways. -/
def readDouble (s : String) : Option Double :=
  let (negative, cs) :=
    match s.toList with
    | '-' :: rest => (true, rest)
    | '+' :: rest => (false, rest)
    | cs => (false, cs)
  let word := (String.ofList cs).toLower
  if word = "inf" ∨ word = "infinity" then some (.ofDatum (.infinite negative))
  else if word = "nan" then some (.ofDatum (.nan negative))
  else (readDigits cs).map (Double.ofDecimal negative)

/-! ### Commands -/

/-- What a command line asks for. -/
inductive Action where
  | inspect (source : String) (flags : Defaults)
  | run (source : String) (batch token : Nat) (flags : Defaults)
  | showDefaults
  | saveDefaults (flags : Defaults)
  | help
deriving Repr

/-- The checkpoint that an action reads. -/
def Action.source? : Action → Option String
  | inspect source _ => some source
  | run source _ _ _ => some source
  | showDefaults | saveDefaults _ | help => none

/-- A command line: the level of the log and what is to be done. -/
structure Invocation where
  logLevel : Option String
  action : Action
deriving Repr

namespace Invocation

/-- The option that every command has. -/
def globalName : String := "log-level"

/-- The options that say how much is drafted. -/
def speculationNames : List String := ["top-k", "num-speculative-tokens"]

/-- The flags of a command; options that it does not have are unset. -/
def flags? (g : Gathered) : Option Defaults := do
  let branching ← (g.values "top-k").mapM readWords
  return {
    dtype := ← g.value? "dtype"
    device := ← g.value? "device"
    tokens := ← g.read? "num-speculative-tokens" readWord
    branching := if branching.isEmpty then none else some branching.flatten
    maxBatch := ← g.read? "max-batch-for-speculation" readWord
    normEps := ← g.read? "norm-eps" readDouble
    seed := ← g.read? "seed" readWord
    logLevel := none }

/-- The one positional word of a command. -/
def source? (g : Gathered) : Option String :=
  match g.positionals with
  | [s] => some s
  | _ => none

/-- The words of a command, its level of the log put in place of the one before. -/
def enter (names subcommands : List String) (level : Option String) (words : List String) :
    Option (Gathered × Option String) := do
  let g ← Gathered.gather (globalName :: names) subcommands false words
  let own ← g.value? globalName
  some (g, own <|> level)

/-- What is done after the words of a command without subcommands, of which a number may be
positional: help is given if it is asked for. -/
def finish (level : Option String) (g : Gathered) (positionals : Nat) (action : Option Action) :
    Option Invocation :=
  if g.help then
    if g.positionals.length ≤ positionals then some ⟨level, .help⟩ else none
  else action.map fun a => ⟨level, a⟩

/-- The words that name a subcommand of `config`, or none of them. -/
def configTopics : List (List String) := [[], ["show"], ["save"], ["help"]]

/-- The words that name a command. -/
def topics : List (List String) :=
  [[], ["inspect"], ["run"], ["help"]] ++ configTopics.map ("config" :: ·)

/-- Help on the command that the words name. -/
def helpOn (topics : List (List String)) (level : Option String) (words : List String) :
    Option Invocation :=
  if topics.contains words then some ⟨level, .help⟩ else none

/-- The action of a subcommand of `config` and the words after its name. -/
def configAction? (level : Option String) (name : String) (words : List String) :
    Option Invocation := do
  if name = "help" then helpOn configTopics level words
  else if name = "show" then
    let (g, level) ← enter [] [] level words
    finish level g 0 (if g.positionals.isEmpty then some .showDefaults else none)
  else
    let (g, level) ← enter
      (["dtype", "device", "seed", "max-batch-for-speculation", "norm-eps"] ++ speculationNames)
      [] level words
    let flags ← flags? g
    finish level g 0 (if g.positionals.isEmpty then some (.saveDefaults flags) else none)

/-- The action of a command and the words after its name. -/
def action? (level : Option String) (command : String) (words : List String) :
    Option Invocation := do
  if command = "inspect" then
    let (g, level) ← enter speculationNames [] level words
    let flags ← flags? g
    finish level g 1 ((source? g).map fun source => .inspect source flags)
  else if command = "run" then
    let (g, level) ←
      enter (["batch", "token", "seed", "dtype", "device"] ++ speculationNames) [] level words
    let batch ← g.read? "batch" readWord
    let token ← g.read? "token" readToken
    let flags ← flags? g
    finish level g 1
      ((source? g).map fun source => .run source (batch.getD 1) (token.getD 0) flags)
  else if command = "help" then helpOn topics level words
  else
    let (g, level) ← enter [] ["show", "save"] level words
    if g.help then return ⟨level, .help⟩
    let (name, words) ← g.subcommand
    configAction? level name words

/-- The command of a command line. -/
def parse? (words : List String) : Option Invocation := do
  let (g, level) ← enter [] ["inspect", "run", "config"] none words
  if g.help then return ⟨level, .help⟩
  let (command, words) ← g.subcommand
  action? level command words

end Invocation

end DraftHeads
