import DraftHeads.Checkpoint.Path
import DraftHeads.Number.Decimal

/-! # The natural order of file names

File names are compared run by run, a *run* being a maximal stretch of digits or of other
characters. Runs of digits compare by their value and come before other runs; a run of digits whose
value does not fit sixty-four bits compares as a text. So `shard-2` comes before `shard-10`. -/

namespace DraftHeads

/-- A run of a file name, as it is compared. -/
inductive Chunk where
  | number (n : Nat)
  | text (s : String)
deriving Repr, DecidableEq

namespace Chunk

/-- The maximal stretches of digits and of other characters. -/
def runs (cs : List Char) : List (List Char) := cs.splitBy fun a b => a.isDigit == b.isDigit

/-- How a run is compared. -/
def ofRun (run : List Char) : Chunk :=
  let value := Number.Decimal.digitsValue 0 run
  if run.all Char.isDigit ∧ value < UInt64.size then number value else text (String.ofList run)

/-- Numbers by value, then texts. -/
def before : Chunk → Chunk → Bool
  | number a, number b => decide (a < b)
  | number _, text _ => true
  | text _, number _ => false
  | text s, text t => decide (s < t)

end Chunk

/-- The chunks of a path's file name; there are none if it has no file name. -/
def naturalKey (p : Path) : List Chunk :=
  (Chunk.runs ((p.fileName?.getD "").toList)).map Chunk.ofRun

/-- The first difference decides; a key comes after its beginnings. -/
def keyBefore : List Chunk → List Chunk → Bool
  | _, [] => false
  | [], _ :: _ => true
  | a :: as, b :: bs => a.before b || (a == b && keyBefore as bs)

/-- The items in natural order; items with equal keys keep their order. -/
def naturalSort {α : Type} (path : α → Path) (items : List α) : List α :=
  let keyed := items.map fun x => (naturalKey (path x), x)
  (keyed.mergeSort fun a b => !keyBefore b.1 a.1).map Prod.snd

end DraftHeads
