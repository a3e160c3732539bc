import DraftHeads.Cli.Choice
import DraftHeads.Cli.LogFilter
import DraftHeads.Json.Printer

/-! # Log records

What a run logs: how many candidate rows every head has, and the best token of every head for every
row of the batch. A record has a level, by which a filter lets it through or not, and one line of
text in either form of the log. -/

namespace DraftHeads

open Number

/-- What a run logs. -/
inductive LogRecord where
  /-- The candidate rows of a head: how many for each row of the batch, and how many tokens were
  chosen. -/
  | candidateRows (head multiplicity candidates : Nat)
  /-- The best token of a head for a row of the batch, and its probability. -/
  | draft (row head token : Nat) (prob : Float32)

namespace LogRecord

/-- The name of the program, from which all records come. -/
def origin : String := "speculator"

/-- Drafts are what a run is for; the rows in between are for those who look closer. -/
def level : LogRecord → LogLevel
  | candidateRows _ _ _ => .debug
  | draft _ _ _ _ => .info

/-- What a record is about. -/
def subject : LogRecord → String
  | candidateRows _ _ _ => "candidate rows"
  | draft _ _ _ _ => "draft"

/-- The values of a record with their names. -/
def values : LogRecord → List (String × Json.Numeral)
  | candidateRows head multiplicity candidates =>
    [("head", .natural head), ("multiplicity", .natural multiplicity),
      ("candidates", .natural candidates)]
  | draft row head token prob =>
    [("row", .natural row), ("head", .natural head), ("token", .natural token),
      ("prob", .double (.ofDatum (singleDatum prob)))]

/-- The names of the fields of a record; the first one is that of its subject. -/
def fields (r : LogRecord) : List String := "message" :: r.values.map Prod.fst

/-- Does a filter let the record through? -/
def passes (filter : LogFilter) (r : LogRecord) : Bool := filter.allows origin r.fields r.level

/-- The line of a record. -/
def line (form : LogForm) (r : LogRecord) : String :=
  match form with
  | .json =>
    let fields := ("message", Json.Value.string r.subject) ::
      r.values.map fun (name, n) => (name, Json.Value.number n)
    (Json.Value.object [("level", .string r.level.title), ("fields", .object fields),
      ("target", .string origin)]).compact
  | .pretty =>
    " ".intercalate (s!"{r.level.title} {origin}: {r.subject}" ::
      r.values.map fun (name, n) => s!"{name}={n.text}")

end LogRecord

end DraftHeads
