import RmdOptions.Command.Run

/-!
# The program

Reads the files that the arguments name, runs the command on them, and prints or writes what it
gives.
-/

namespace RmdOptions.Program

/-- How the command is used. -/
def usage : String :=
  "Edit the options call of a chunk of an R Markdown document\n\n" ++
  "Usage: rmd-options [OPTIONS] <FILE>\n\n" ++
  "Options:\n" ++
  "  --chunk <LINE>        line of the chunk header, counted from one (default: setup chunk)\n" ++
  "  --echo <VALUE>        value for echo\n" ++
  "  --eval <VALUE>        value for eval\n" ++
  "  --include <VALUE>     value for include\n" ++
  "  --message <BOOL>      set message to TRUE or FALSE\n" ++
  "  --warning <BOOL>      set warning to TRUE or FALSE\n" ++
  "  --fig-width <VALUE>   value for fig.width\n" ++
  "  --fig-height <VALUE>  value for fig.height\n" ++
  "  --config <PATH>       configuration file\n" ++
  "  --print-baseline      print the options that are set and exit\n" ++
  "  --in-place            write the file instead of printing it\n" ++
  "  -h, --help            print this help\n" ++
  "  -V, --version         print the version\n"

/-- What is said about a command line that is not understood. -/
def usageMessage : UsageError → String
  | .displayHelp => usage
  | .displayVersion => "rmd-options 0.1.0\n"
  | .unknownArgument => "error: unexpected argument\n"
  | .tooManyValues => "error: a flag takes no value\n"
  | .argumentConflict => "error: an argument is given twice\n"
  | .invalidValue => "error: a value is missing or not possible\n"
  | .valueValidation => "error: a value cannot be read\n"
  | .missingRequiredArgument => "error: no file is given\n"

/-- The file at a path, if it can be read. -/
def readFile (path : Text) : IO Disk := do
  try
    let bytes ← IO.FS.readBinFile (String.ofList path)
    return [(path, bytes)]
  catch _ => return []

/-- Runs the command on the files that it names. -/
def runCommand (arguments : Arguments) : IO UInt32 := do
  let configFile ← match arguments.config with
    | some path => readFile path
    | none => pure []
  let disk := configFile ++ (← readFile arguments.file)
  match arguments.run disk with
  | .error e =>
    IO.eprintln s!"Error: {e.message}"
    return 1
  | .ok result =>
    if arguments.inPlace && !arguments.printBaseline then
      if let some bytes := Keyed.find? arguments.file result.disk then
        IO.FS.writeBinFile (String.ofList arguments.file) bytes
    IO.print (String.ofList result.printed)
    return 0

end RmdOptions.Program

open RmdOptions in
/-- The entry point. -/
def main (args : List String) : IO UInt32 := do
  match Arguments.parse (args.map String.toList) with
  | .ok arguments => Program.runCommand arguments
  | .error e =>
    if e = .displayHelp ∨ e = .displayVersion then
      IO.print (Program.usageMessage e)
      return 0
    else
      IO.eprint (Program.usageMessage e)
      return 2
