import DraftHeads.Number.Decimal
import DraftHeads.Text.Alphanumeric
import DraftHeads.Text.Blank

/-! # Log filters

A filter is a list of directives between commas. A directive is a level, a target, or a target and a
level with an equals sign between them; a target without a level lets everything through. Between
brackets after the target a directive may name a span, and between braces a field: then it concerns
only what happens within the span, or only events with the field. No event of a command happens
within a span, and none has its fields compared with a value, so directives that ask for that decide
nothing.

Of the directives that concern an event the most specific one decides: the one with the longest
target, and of several such, one with a field.

* `LogFilter.directive?` reads a directive. Its shape is that of the text without the blanks around
  it, but its words are cut out of the text with them, at the same places. A place counts bytes, so
  blanks in front may make a word end inside a character; such a word is *torn*.
* `LogFilter.parse`, `LogFilter.parseLenient`: a filter, all of whose directives have to be well
  formed, and one without the malformed ones.
* `LogFilter.allows`: does a filter let an event through? -/

namespace DraftHeads

/-- The levels of log events, the most urgent first. -/
inductive LogLevel where
  | error
  | warn
  | info
  | debug
  | trace
deriving Repr, DecidableEq

namespace LogLevel

/-- The number of levels up to this one. -/
def rank : LogLevel → Nat
  | error => 1
  | warn => 2
  | info => 3
  | debug => 4
  | trace => 5

/-- The name of a level in a record. -/
def title : LogLevel → String
  | error => "ERROR"
  | warn => "WARN"
  | info => "INFO"
  | debug => "DEBUG"
  | trace => "TRACE"

end LogLevel

/-- A directive: up to which rank of levels events are let through that come from a target and
have a field. -/
structure LogDirective where
  target : Option String
  field : Option String
  rank : Nat
deriving Repr, DecidableEq

/-- What is wrong with the text of a directive. -/
inductive LogFilterFault where
  | malformed
  /-- A word ends inside a character. -/
  | torn
deriving Repr, DecidableEq

/-- The directives of a filter that concern events. -/
structure LogFilter where
  directives : List LogDirective
deriving Repr, DecidableEq

namespace LogDirective

/-- The length of the target, an empty one being longer than none. -/
def targetSize (d : LogDirective) : Nat :=
  match d.target with
  | none => 0
  | some t => t.utf8ByteSize + 1

/-- Is the second directive at least as specific as the first one? Two fields are compared as
texts. -/
def yieldsTo (a b : LogDirective) : Bool :=
  if a.targetSize = b.targetSize then
    match a.field, b.field with
    | none, _ => true
    | some _, none => false
    | some f, some g => decide (¬ g < f)
  else decide (a.targetSize < b.targetSize)

/-- Does the directive concern events of an origin with some fields? -/
def concerns (origin : String) (fields : List String) (d : LogDirective) : Bool :=
  d.target.all (fun t => t.toList.isPrefixOf origin.toList) && d.field.all fields.contains

end LogDirective

namespace LogFilter

/-! ### Reading directives -/

/-- The names of the ranks. -/
def rankNames : List (String × Nat) :=
  [("off", 0), ("error", 1), ("warn", 2), ("info", 3), ("debug", 4), ("trace", 5)]

/-- The rank that lets everything through. -/
def fullRank : Nat := 5

/-- The rank that a text names, by a word in letters of either case or by its number. -/
def rank? (text : String) : Option Nat :=
  let cs := text.toList
  let ds := if cs.head? = some '+' then cs.drop 1 else cs
  if !ds.isEmpty ∧ ds.all Char.isDigit then
    let n := Number.Decimal.digitsValue 0 ds
    if n ≤ fullRank then some n else none
  else (rankNames.find? fun e => e.1 == text.toLower).map Prod.snd

/-- The number of bytes of some characters. -/
def byteCount (cs : List Char) : Nat := (String.ofList cs).utf8ByteSize

/-- The part of a text between two places. -/
def word (text : String) (start stop : Nat) : Except LogFilterFault String :=
  match String.fromUTF8? (text.toUTF8.extract start stop) with
  | some s => .ok s
  | none => .error .torn

/-- The rank that the rest of a text names; none lets everything through. -/
def rankFrom (text : String) (start : Nat) : Except LogFilterFault Nat := do
  let level ← word text start text.utf8ByteSize
  if level = "" then return fullRank
  match rank? level with
  | some r => return r
  | none => throw .malformed

/-- The rank after a closing bracket, which ends before `place`. -/
def rankAfter (text : String) (place : Nat) : List Char → Except LogFilterFault Nat
  | [] => .ok fullRank
  | '=' :: _ => rankFrom text (place + 1)
  | _ => .error .malformed

/-- The directive with a target and what follows an opening bracket, which ends before `place`; none
if it does not concern events. -/
def bracketed? (text : String) (target : Option String) (place : Nat) (cs : List Char) :
    Except LogFilterFault (Option LogDirective) := do
  let name := cs.takeWhile fun c => c != ']' && c != '{'
  let nameStop := place + byteCount name
  match cs.drop name.length with
  | ']' :: rest =>
    let _ ← word text place nameStop
    let _ ← rankAfter text (nameStop + 1) rest
    return none
  | '{' :: rest =>
    let span ← word text place nameStop
    let inner := rest.takeWhile (· != '}')
    let innerStop := nameStop + 1 + byteCount inner
    match rest.drop inner.length with
    | '}' :: rest =>
      let field ← word text (nameStop + 1) innerStop
      if field = "" then throw .malformed
      match rest with
      | ']' :: rest =>
        let rank ← rankAfter text (innerStop + 2) rest
        return if span = "" ∧ !field.toList.contains '=' then some ⟨target, some field, rank⟩
          else none
      | _ => throw .malformed
    | _ => throw .malformed
  | _ => throw .malformed

/-- May the character start a directive? -/
def startsDirective (c : Char) : Bool :=
  Text.isAlphanumeric c || c == '-' || c == ':' || c == '_'

/-- Reads a directive; none if it does not concern events. -/
def directive? (text : String) : Except LogFilterFault (Option LogDirective) := do
  let cs := Text.trim text.toList
  match cs with
  | [] => throw .malformed
  | '[' :: rest => bracketed? text none 1 rest
  | c :: _ =>
    if !startsDirective c then throw .malformed
    let head := cs.takeWhile fun c => c != '=' && c != '['
    let stop := byteCount head
    match cs.drop head.length with
    | [] =>
      match rank? text with
      | some r => return some ⟨none, none, r⟩
      | none => return some ⟨some text, none, fullRank⟩
    | '=' :: _ =>
      let target ← word text 0 stop
      return some ⟨some target, none, ← rankFrom text (stop + 1)⟩
    | _ :: rest =>
      let target ← word text 0 stop
      bracketed? text (some target) (stop + 1) rest

/-! ### Filters -/

/-- The filter of some directives. Without any it is the one that lets errors through. -/
def ofDirectives (ds : List (Option LogDirective)) : LogFilter :=
  if ds.isEmpty then ⟨[⟨none, none, 1⟩]⟩ else ⟨ds.filterMap id⟩

/-- The parts of a text between commas that are not empty. -/
def parts (text : String) : List String := (text.splitOn ",").filter (· ≠ "")

/-- The filter that a text gives. -/
def parse (text : String) : Except LogFilterFault LogFilter :=
  ofDirectives <$> (parts text).mapM directive?

/-- A directive, if it is well formed. -/
def wellFormed (part : String) : Except LogFilterFault (Option (Option LogDirective)) :=
  match directive? part with
  | .ok d => .ok (some d)
  | .error .malformed => .ok none
  | .error .torn => .error .torn

/-- The filter that a text gives, malformed directives being left out. -/
def parseLenient (text : String) : Except LogFilterFault LogFilter :=
  (fun ds => ofDirectives (ds.filterMap id)) <$> (parts text).mapM wellFormed

/-- The directive that decides over events of an origin with some fields; of equally specific ones
it is the last one. -/
def deciding? (origin : String) (fields : List String) (f : LogFilter) : Option LogDirective :=
  (f.directives.filter (LogDirective.concerns origin fields)).foldl
    (fun best? d =>
      match best? with
      | some best => if best.yieldsTo d then some d else some best
      | none => some d)
    none

/-- Does a filter let an event through? -/
def allows (f : LogFilter) (origin : String) (fields : List String) (level : LogLevel) : Bool :=
  match f.deciding? origin fields with
  | some d => decide (level.rank ≤ d.rank)
  | none => false

end LogFilter

end DraftHeads
