import TypeGrammar.Run

/-!
# The program

Takes a snapshot of the files that a command can see, runs the command on it, and carries out its
outcome: the texts are printed and the files are written. Exit code 2 stands for arguments that are
no command, and 1 also for settings that cannot be read.
-/

namespace TypeGrammar

namespace Program

/-- A path as the system knows it. -/
def place (path : FilePath) :=
  System.mkFilePath ("/" :: path)

/-- What stands at a path: a directory, a file with its text, or nothing. -/
def entryAt (path : FilePath) : IO (List FileEntry) := do
  if ← (place path).isDir then return [⟨path, none⟩]
  else if ← (place path).pathExists then return [⟨path, some (← IO.FS.readFile (place path))⟩]
  else return []

/-- The directories and the listings below a directory. Links to directories are not followed. -/
partial def entriesBelow (directory : FilePath) : IO (List FileEntry) := do
  let mut found := []
  for inner in ← (place directory).readDir do
    let path := directory ++ [inner.fileName]
    if (← inner.path.symlinkMetadata).type == .dir then
      found := found ++ [⟨path, none⟩] ++ (← entriesBelow path)
    else if inner.fileName.endsWith ".ty" then
      found := found ++ (← entryAt path)
  return found

/-- The files and directories that matter for a path: those on the way to it, those below it, and
the settings at or above it. -/
def entriesFor (base : FilePath) (path : String) : IO (List FileEntry) := do
  let start := if Files.isAbsolute path then [] else base
  let names := Files.names path
  let stops := (List.range (names.length + 1)).map fun n => (names.take n).foldl Files.enter start
  let target := names.foldl Files.enter start
  let settings := (List.range (target.length + 1)).map fun n => target.take n ++ [Settings.fileName]
  let mut found := []
  for stop in stops ++ settings do
    found := found ++ (← entryAt stop)
  if ← (place target).isDir then
    found := found ++ (← entriesBelow target)
  return found

/-- The snapshot for a command. -/
def snapshot (command : Command) : IO Files := do
  let base := Files.names (← IO.currentDir).toString
  let found ← command.path?.toList.mapM (entriesFor base)
  return ⟨base, found.flatten ++ (← entryAt (base ++ ["<stdin>"]))⟩

/-- The whole text of a stream. -/
partial def readAll (stream : IO.FS.Stream) (read : String) : IO String := do
  let line ← stream.getLine
  if line.isEmpty then return read else readAll stream (read ++ line)

/-- Carries out an outcome and gives its exit code. -/
def carryOut (outcome : Run.Outcome) : IO UInt32 := do
  for (path, text) in outcome.written do
    IO.FS.writeFile (place path) text
  IO.eprint outcome.stderr
  IO.print outcome.stdout
  return outcome.exit.toUInt32

/-- The message for a command that does not run to its end. -/
def faultMessage : Run.Fault → String
  | .usage => "Usage: tyexpr [check|format|view] [OPTIONS] [PATH]"
  | .settings .malformed => "error: malformed " ++ Settings.fileName
  | .settings .noTable => "error: a section of " ++ Settings.fileName ++ " is no table"
  | .settings .isDirectory => "error: " ++ Settings.fileName ++ " is a directory"
  | .isDirectory => "error: a listing is a directory"

/-- The exit code for a command that does not run to its end. -/
def faultCode : Run.Fault → UInt32
  | .usage => 2
  | _ => 1

/-- Runs a command. -/
def perform (command : Command) : IO UInt32 := do
  let files ← snapshot command
  let input ← if command.readsInput then readAll (← IO.getStdin) "" else pure ""
  match Run.perform files input command with
  | .ok outcome => carryOut outcome
  | .error fault =>
    IO.eprintln (faultMessage fault)
    return faultCode fault

/-- Runs the program with its arguments. -/
def start (args : List String) : IO UInt32 :=
  match Command.ofArguments? args with
  | some command => perform command
  | none => do
    IO.eprintln (faultMessage .usage)
    return faultCode .usage

end Program

end TypeGrammar

/-- The entry point of the program. -/
def main (args : List String) : IO UInt32 :=
  TypeGrammar.Program.start args
