import DraftHeads.Checkpoint.NaturalOrder
import DraftHeads.Checkpoint.FileTree
import DraftHeads.Config

/-! # Finding a checkpoint

A checkpoint is a configuration and a list of tensor files in natural order. It is in a local
directory, or in the local snapshot of a repository of the hub; what is not in the snapshot cannot
be had.

* `Located.inDirectory`: the configuration and all tensor files of a directory.
* `Located.inRepository`: the one tensor file of a repository, or the ones that its index names.
* `Located.locate`: the first for the path of a directory, the second for all other names. -/

namespace DraftHeads

/-- A checkpoint that was found. -/
structure Located where
  config : Config
  /-- The tensor files in natural order. -/
  weights : List Path

/-- The local snapshots of the repositories of the hub. -/
structure Hub where
  snapshot? : String → Option Path

namespace Hub

/-- The hub without any snapshot. -/
def none : Hub := ⟨fun _ => .none⟩

/-- A file of a repository. -/
def get (hub : Hub) (tree : FileTree) (repository name : String) : Except Fault Path :=
  match hub.snapshot? repository with
  | .none => .error .hub
  | some directory =>
    let path := directory.join name
    if (tree.find? path).isSome then .ok path else .error .hub

end Hub

namespace Located

/-- Reads a configuration. -/
def readConfig (tree : FileTree) (path : Path) : Except Fault Config :=
  match tree.readText? path with
  | some text => Config.parse text
  | none => .error .io

/-- Is the entry a tensor file, by its extension? -/
def isTensorFile (p : Path) : Bool := p.extension? == some "safetensors"

/-- The configuration and the tensor files of a directory. -/
def inDirectory (tree : FileTree) (directory : Path) : Except Fault Located := do
  let config ← readConfig tree (directory.join "config.json")
  match tree.list? directory with
  | none => .error .io
  | some names =>
    let weights := (names.map directory.join).filter isTensorFile
    if weights.isEmpty then .error (.configuration (.noWeightFiles directory.text))
    else return ⟨config, naturalSort id weights⟩

/-- The list without items that equal the one before them. -/
def dedupAdjacent : List String → List String
  | [] => []
  | [s] => [s]
  | s :: t :: rest =>
    if s = t then dedupAdjacent (t :: rest) else s :: dedupAdjacent (t :: rest)

/-- The file names in an index: the strings among the values of its weight map, in natural order. -/
def indexedNames (index : Json.Value) : Except Fault (List String) :=
  match index.get? "weight_map" with
  | some (.object members) =>
    .ok (dedupAdjacent (naturalSort Path.mk (members.filterMap fun m => m.2.string?)))
  | _ => .error (.configuration .noWeightMap)

/-- The tensor files of a repository. -/
def repositoryFiles (tree : FileTree) (hub : Hub) (repository : String) :
    Except Fault (List Path) :=
  match hub.get tree repository "model.safetensors" with
  | .ok path => .ok [path]
  | .error _ => do
    let path ← hub.get tree repository "model.safetensors.index.json"
    match tree.readText? path with
    | none => .error .io
    | some text =>
      match Json.parse? text with
      | none => .error .json
      | some index => (← indexedNames index.sorted).mapM (hub.get tree repository)

/-- The configuration and the tensor files of a repository. -/
def inRepository (tree : FileTree) (hub : Hub) (repository : String) : Except Fault Located := do
  let config ← readConfig tree (← hub.get tree repository "config.json")
  return ⟨config, ← repositoryFiles tree hub repository⟩

/-- The checkpoint of a directory, or of a repository if the source is not a directory. -/
def locate (tree : FileTree) (hub : Hub) (source : String) : Except Fault Located :=
  if tree.isDirectory ⟨source⟩ then inDirectory tree ⟨source⟩ else inRepository tree hub source

end Located

end DraftHeads
