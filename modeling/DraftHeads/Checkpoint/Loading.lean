import DraftHeads.Checkpoint.Discovery
import DraftHeads.Checkpoint.Routing
import DraftHeads.Draft.Head

/-! # Models from files

A speculator is read from its own tensor files; a language model head is read from the files of the
base model together with those of the speculator, and no tensor may occur in both. -/

namespace DraftHeads

open Number

/-- The speculator of a checkpoint, in a number format. -/
def loadSpeculator (tree : FileTree) (files : Located) (policy : Policy Double) (d : DType)
    (g : Group) : Except Fault AnyModel := do
  let routing ← Routing.build tree files.weights
  let weights ← routing.weights tree
  return ⟨d, ← Model.build files.config (policy.mapEps Double.toFloat)
    ((weights.reader d).below "speculator") g⟩

/-- The language model head of a base model and a speculator, in a number format. -/
def loadHead (tree : FileTree) (base : List Path) (files : Located) (policy : Policy Double)
    (d : DType) (g : Group) : Except Fault AnyHead := do
  let routing ← (← Routing.build tree base).addFiles tree files.weights
  let weights ← routing.weights tree
  return ⟨d, ← LanguageHead.load files.config (policy.mapEps Double.toFloat) (weights.reader d) g⟩

end DraftHeads
