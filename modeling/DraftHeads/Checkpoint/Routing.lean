import DraftHeads.Checkpoint.FileTree
import DraftHeads.Checkpoint.Weights
import DraftHeads.Fault

/-! # Routes of weights

A routing says which file every tensor of a checkpoint comes from. A name belongs to one file: a
second file that has it is a conflict, while the same file may be added again.

* `Routing.claim`, `Routing.addNames`, `Routing.addFile`: names claimed for a file.
* `Routing.build`: the routing of a list of files.
* `Routing.Adds`, `Routing.Builds`: what both may come to. The names of a file are looked through in
  a table without an order of its own, so `addFile` and `build` choose one of many orders.
* `Routing.weights`: the source of weights over all files. -/

namespace DraftHeads

/-- The file of every name, in ascending order of the names, and the files in the order in which
they were added. -/
structure Routing where
  routes : List (String × Path)
  files : List Path
deriving Repr

namespace Routing

/-- No file has been added. -/
def empty : Routing := ⟨[], []⟩

/-- The file of a name. -/
def fileFor? (r : Routing) (name : String) : Option Path :=
  (r.routes.find? fun e => e.1 == name).map Prod.snd

/-- The names that start with a text. -/
def namesWith (r : Routing) (start : String) : List String :=
  (r.routes.map Prod.fst).filter fun name => start.toList.isPrefixOf name.toList

/-- The routing in which a name belongs to a file. -/
def claim (r : Routing) (path : Path) (name : String) : Except Fault Routing :=
  match r.fileFor? name with
  | some owner =>
    if owner.same path then .ok r else .error (.conflict name owner.text path.text)
  | none => .ok { r with routes := Json.insertMember name path r.routes }

/-- The routing with a file in its list of files. -/
def register (r : Routing) (path : Path) : Routing :=
  if r.files.any fun f => f.same path then r else { r with files := r.files ++ [path] }

/-- Claims names for a file, one after the other. After a conflict the names before it stay claimed
and the file is not registered. -/
def addNames (r : Routing) (path : Path) : List String → Routing × Except Fault Unit
  | [] => (r.register path, .ok ())
  | name :: names =>
    match r.claim path name with
    | .ok r' => addNames r' path names
    | .error e => (r, .error e)

/-- The tensors of a file, in the order of their places in it. -/
def readFile (tree : FileTree) (path : Path) : Except Fault (List StoredTensor) :=
  match tree.readBytes? path >>= TensorFile.decode? with
  | some tensors => .ok tensors
  | none => .error (.layer (.whole .unreadable))

/-- Claims the names of the tensors of a file, and gives their number. The names are claimed in the
order of the places of their tensors, which is one of those of `Adds`. -/
def addFile (tree : FileTree) (r : Routing) (path : Path) : Routing × Except Fault Nat :=
  match readFile tree path with
  | .error e => (r, .error e)
  | .ok tensors =>
    let (r', outcome) := r.addNames path (tensors.map (·.name))
    (r', outcome.map fun _ => tensors.length)

/-- The routing with some more files. -/
def addFiles (tree : FileTree) (r : Routing) : List Path → Except Fault Routing
  | [] => .ok r
  | path :: paths =>
    match addFile tree r path with
    | (r', .ok _) => addFiles tree r' paths
    | (_, .error e) => .error e

/-- The routing of a list of files. -/
def build (tree : FileTree) (paths : List Path) : Except Fault Routing := addFiles tree empty paths

/-- What adding a file may come to: its names are claimed in any order. -/
inductive Adds (tree : FileTree) (r : Routing) (path : Path) : Routing → Except Fault Nat → Prop
  | unreadable {e : Fault} (read : readFile tree path = .error e) : Adds tree r path r (.error e)
  | claimed {tensors : List StoredTensor} (read : readFile tree path = .ok tensors)
    (names : List String) (order : names.Perm (tensors.map (·.name))) :
    Adds tree r path (r.addNames path names).1
      ((r.addNames path names).2.map fun _ => names.length)

/-- What adding a list of files may come to. -/
inductive AddsAll (tree : FileTree) : Routing → List Path → Except Fault Routing → Prop
  | done (r : Routing) : AddsAll tree r [] (.ok r)
  | added {r r' : Routing} {path : Path} {paths : List Path} {n : Nat}
    {outcome : Except Fault Routing} (first : Adds tree r path r' (.ok n))
    (rest : AddsAll tree r' paths outcome) : AddsAll tree r (path :: paths) outcome
  | refused {r r' : Routing} {path : Path} {e : Fault} (first : Adds tree r path r' (.error e))
    (paths : List Path) : AddsAll tree r (path :: paths) (.error e)

/-- What building the routing of a list of files may come to. -/
def Builds (tree : FileTree) (paths : List Path) (outcome : Except Fault Routing) : Prop :=
  AddsAll tree empty paths outcome

/-- The source of weights over all files. -/
def weights (tree : FileTree) (r : Routing) : Except Fault Weights := do
  return .files (← r.files.mapM (readFile tree))

end Routing

end DraftHeads
