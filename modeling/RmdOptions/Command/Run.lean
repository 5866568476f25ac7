import RmdOptions.Command.Usage
import RmdOptions.Config.File
import RmdOptions.Options.Json
import RmdOptions.Panel

/-!
# Running the command

The command reads the configuration and the file, opens a panel on the chunk that is asked for, and
either prints the options that the chunk sets or commits the edit. The edited file is printed, or
written back. All files are on a disk that is passed in, and what the command does is a value: what
it prints, and the disk afterwards.

* `Disk` — files by their paths;
* `RunError` — why a run fails;
* `Arguments.run` — a run.
-/

namespace RmdOptions

/-- Files by their paths, each the bytes it holds. -/
abbrev Disk := List (Text × ByteArray)

namespace Disk

/-- The text of a file, if there is such a file and its bytes are UTF-8. -/
def text? (disk : Disk) (path : Text) : Option Text :=
  match Keyed.find? path disk with
  | none => none
  | some bytes => (String.fromUTF8? bytes).map String.toList

/-- Writes a text to a file. -/
def write (disk : Disk) (path text : Text) : Disk :=
  Keyed.put path (String.ofList text).toUTF8 disk

end Disk

/-- Why a run fails. -/
inductive RunError where
  /-- the configuration cannot be had -/
  | config (path : Text) (cause : ConfigError)
  /-- the file cannot be read -/
  | file (path : Text)
  /-- the chunk cannot be opened -/
  | chunk (cause : OpenError)
  /-- the edit is refused -/
  | commit (cause : CommitError)
  deriving DecidableEq

/-- What is said about an error. -/
def RunError.message : RunError → String
  | .config path _ => s!"failed to load config {String.ofList path}"
  | .file path => s!"failed to read {String.ofList path}"
  | .chunk cause => cause.message
  | .commit cause => cause.message

/-- What a run has done. -/
structure RunResult where
  /-- what it has printed -/
  printed : Text
  /-- the files afterwards -/
  disk : Disk

namespace Arguments

/-- The configuration that is asked for. -/
def loadConfig (arguments : Arguments) (disk : Disk) : Except RunError Config :=
  match arguments.config with
  | none => .ok {}
  | some path =>
    match disk.text? path with
    | none => .error (.config path .unreadable)
    | some t => (Config.fromJson t).mapError (.config path)

/-- The file that is asked for, as a document. -/
def loadFile (arguments : Arguments) (disk : Disk) : Except RunError Document :=
  match disk.text? arguments.file with
  | none => .error (.file arguments.file)
  | some t => .ok (.load t)

/-- Runs the command. -/
def run (arguments : Arguments) (disk : Disk) : Except RunError RunResult := do
  let config ← arguments.loadConfig disk
  let doc ← arguments.loadFile disk
  let panel ← (Panel.openOn doc arguments.chunk config).mapError .chunk
  if arguments.printBaseline then
    let options := panel.baseline.options?.getD .empty
    return ⟨options.toJson.pretty ++ ['\n'], disk⟩
  else
    let (_, edited, _) ← (panel.commit doc arguments.edits).mapError .commit
    if arguments.inPlace then return ⟨[], disk.write arguments.file edited.saved⟩
    else return ⟨edited.saved, disk⟩

end Arguments

end RmdOptions
