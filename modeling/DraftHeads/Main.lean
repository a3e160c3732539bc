import DraftHeads.Cli.Command

/-! # The program

Reads what a command needs from the machine, runs it and does what its outcome says. A checkpoint is
read from its directory or, if there is none with the name, from the snapshot that the hub keeps of
a repository; what is not on the machine is not fetched. -/

namespace DraftHeads.Program

/-! ### Places -/

/-- The file of the stored defaults, below the directory of settings or that of the user. -/
def defaultsPath? (settings home : Option String) : Option Path :=
  let below (directory : String) : Path := (Path.mk directory).join "mlp-speculator/config.toml"
  match settings.filter fun d => (Path.mk d).isAbsolute with
  | some d => some (below d)
  | none => home.map fun h => below ((Path.mk h).join ".config").text

/-- The directory where the hub keeps a repository. -/
def repositoryPath? (hubHome home : Option String) (repository : String) : Option Path :=
  let root : Option Path :=
    hubHome.map Path.mk <|> home.map fun h => (Path.mk h).join ".cache/huggingface"
  root.map fun r => (r.join "hub").join ("models--" ++ repository.replace "/" "--")

/-- May a file of a directory belong to a checkpoint? -/
def isCheckpointFile (name : String) : Bool :=
  name == "config.json" || name == "model.safetensors.index.json" || Located.isTensorFile ⟨name⟩

/-! ### Reading -/

/-- The text of a file, if it is there. -/
def readText? (p : Path) : IO (Option String) := do
  match ← (IO.FS.readFile p.text).toBaseIO with
  | .ok text => return some text
  | .error _ => return none

/-- The names in a directory, if it is one. -/
def list? (p : Path) : IO (Option (List String)) := do
  match ← ((← IO.currentDir) / p.text).readDir.toBaseIO with
  | .ok entries => return some (entries.toList.map (·.fileName))
  | .error _ => return none

/-- A tree with the directory at a path and the files in it that belong to a checkpoint. -/
def readDirectory (tree : FileTree) (p : Path) : IO FileTree := do
  let some names ← list? p | return tree
  names.foldlM
    (fun tree name => do
      let file := p.join name
      if !isCheckpointFile name then return tree
      match ← (IO.FS.readBinFile file.text).toBaseIO with
      | .ok bytes => return tree.add file (.file bytes.toList)
      | .error _ => return tree.add file .directory)
    (tree.add p .directory)

/-- The snapshot that the hub keeps of a repository. -/
def snapshot? (repository : String) : IO (Option Path) := do
  let some place := repositoryPath? (← IO.getEnv "HF_HOME") (← IO.getEnv "HOME") repository
    | return none
  let some commit ← readText? (place.join "refs/main") | return none
  return some ((place.join "snapshots").join commit.trimAscii.toString)

/-- What a command that reads some checkpoint finds. -/
def surroundings (source : Option String) : IO Surroundings := do
  let defaultsPath := defaultsPath? (← IO.getEnv "XDG_CONFIG_HOME") (← IO.getEnv "HOME")
  let stored ← defaultsPath.mapM readText?
  let snapshot ← source.mapM snapshot?
  let directories := (source.map Path.mk).toList ++ snapshot.join.toList
  return {
    tree := ← directories.foldlM readDirectory ⟨[]⟩
    hub := ⟨fun repository => if source = some repository then snapshot.join else none⟩
    defaultsPath := defaultsPath
    stored := stored.join
    logFilter := ← IO.getEnv "RUST_LOG" }

/-! ### Writing -/

/-- Writes the file of the stored defaults. -/
def writeDefaults (p : Path) (text : String) : IO Unit := do
  let directory := "/".intercalate (p.spelledParts.dropLast)
  IO.FS.createDirAll directory
  IO.FS.writeFile p.text text

/-- Does what an outcome says. -/
def carryOut (around : Surroundings) (form : LogForm) (out : Outcome) : IO UInt32 := do
  match around.defaultsPath, out.stored with
  | some p, some text => if around.stored ≠ out.stored then writeDefaults p text
  | _, _ => pure ()
  IO.print out.output
  out.records.forM fun r => IO.eprintln (r.line form)
  match out.fault with
  | some fault => IO.eprintln ("Error: " ++ fault.message?.getD "the checkpoint cannot be read")
  | none => pure ()
  return UInt32.ofNat out.code

end DraftHeads.Program

/-- Runs the command line. -/
def main (args : List String) : IO UInt32 := do
  let source := (DraftHeads.Invocation.parse? args).bind fun c => c.action.source?
  let around ← DraftHeads.Program.surroundings source
  let form := DraftHeads.chooseLogForm (← IO.getEnv "SPECULATOR_LOG_FORMAT")
  DraftHeads.Program.carryOut around form (DraftHeads.Command.execute around args)
