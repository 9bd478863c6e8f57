import TypeGrammar.Coloring
import TypeGrammar.Command
import TypeGrammar.Listing
import TypeGrammar.Outline
import TypeGrammar.Settings
import TypeGrammar.Text.Escape

/-!
# Running commands

A run of a command is a function from the command, a snapshot of the files and the standard input to
an outcome; the outcome tells what is printed and which files are written. What is printed holds no
terminal colours, except for a listing that `format` writes to the standard output.
-/

namespace TypeGrammar

namespace Run

/-- What a run of the program does. -/
structure Outcome where
  exit : Nat
  stdout : String
  stderr : String
  written : List (FilePath × String)

/-- Why a command does not run to its end. -/
inductive Fault where
  | usage
  | settings (f : SettingsFault)
  | isDirectory

/-- What a command has printed and written so far. -/
structure Record where
  stdout : List String
  stderr : List String
  written : List (FilePath × String)

namespace Record

/-- Nothing yet. -/
def empty : Record := ⟨[], [], []⟩

/-- One record after another. -/
def append (a b : Record) : Record :=
  ⟨a.stdout ++ b.stdout, a.stderr ++ b.stderr, a.written ++ b.written⟩

/-- Lines on the standard output. -/
def print (lines : List String) : Record :=
  ⟨lines.map fun l => Text.withoutEscapes l ++ "\n", [], []⟩

/-- Lines on the standard error. -/
def report (lines : List String) : Record :=
  ⟨[], lines.map fun l => Text.withoutEscapes l ++ "\n", []⟩

/-- A text on the standard output as it is. -/
def emit (text : String) : Record :=
  ⟨[text], [], []⟩

/-- A file with a new text. -/
def write (path : FilePath) (text : String) : Record :=
  ⟨[], [], [(path, text)]⟩

/-- The outcome with an exit code. -/
def finish (r : Record) (exit : Nat) : Outcome :=
  ⟨exit, String.join r.stdout, String.join r.stderr, r.written⟩

end Record

/-! ## Listings among the files -/

/-- A listing: its name as it is shown, its path and its text. -/
structure Target where
  name : String
  path : FilePath
  text : String

/-- The name of a path below a shown directory. -/
def nameBelow (directory : String) (relative : FilePath) : String :=
  let tail := String.intercalate "/" relative
  if directory = "." then tail
  else if directory.endsWith "/" then directory ++ tail
  else directory ++ "/" ++ tail

/-- The listing in a file. -/
def target (fs : Files) (name : String) (path : FilePath) : Except Fault Target :=
  match fs.content? path with
  | some content => .ok ⟨name, path, Files.readText content⟩
  | none => .error .isDirectory

/-- The listings that a path names: those below a directory, or a single file. -/
def targets (fs : Files) (path : String) (located : FilePath) : Except Fault (List Target) :=
  if fs.isDirectory located then
    (fs.below located ".ty").mapM fun relative =>
      target fs (nameBelow (Files.display path) relative) (located ++ relative)
  else do
    return [← target fs (Files.display path) located]

/-- How diagnostics are shown while a listing is worked on. -/
def layoutFor (fs : Files) (color : Bool) (known : Option Target) : Layout :=
  ⟨color, fs.sourceLines (known.toList.map fun t => (t.name, t.text))⟩

/-- The diagnostics of a listing as they are printed. -/
def reportAll (layout : Layout) (ds : List Diagnostic) : Record :=
  Record.report (ds.map layout.render)

/-! ## Commands -/

/-- The settings for a path. -/
def settingsFor (fs : Files) (path : String) : Except Fault Settings :=
  (Settings.forPath fs path).mapError .settings

/-- Reads all types of the listings and reports what is wrong. -/
def check (fs : Files) (path : String) (located : FilePath) (withoutPlus : Bool) :
    Except Fault Outcome := do
  let settings ← settingsFor fs path
  let plus := settings.allowPlus.truth && !withoutPlus
  let ts ← targets fs path located
  if ts.isEmpty then
    return (Record.report ["warning: no .ty files found"]).finish 0
  else
    let read := ts.map fun t => (t, Listing.entries t.name plus (Text.lines t.text))
    let reports := read.map fun (t, es) =>
      reportAll (layoutFor fs settings.color.truth (some t)) (Listing.diagnostics es)
    let record := reports.foldl Record.append .empty
    if read.any fun (_, es) => es.any fun (_, e) => e.isFaulty then return record.finish 1
    else
      let count := (read.flatMap fun (_, es) => Listing.types es).length
      let line := "checked " ++ toString count ++ " types in " ++ toString ts.length ++
        " files, no errors"
      return (record.append (.print [line])).finish 0

/-- Formats the standard input. -/
def formatInput (fs : Files) (settings : Settings) (options : FormatOptions) (input : String) :
    Outcome :=
  let color := options.color.getD settings.color.truth
  let text := Files.readText input
  match Listing.format text "<stdin>" settings.allowPlus.truth with
  | .error ds => (reportAll (layoutFor fs color none) ds).finish 1
  | .ok formatted =>
    if options.check then Record.empty.finish (if formatted = text then 0 else 1)
    else
      let shown := colored formatted color
      (Record.emit (if color then shown else Text.withoutEscapes shown)).finish 0

/-- What formatting does to one listing, and if all is well with it. -/
def formatTarget (fs : Files) (settings : Settings) (options : FormatOptions) (t : Target) :
    Record × Bool :=
  let color := options.color.getD settings.color.truth
  match Listing.format t.text t.name settings.allowPlus.truth with
  | .error ds => (reportAll (layoutFor fs color (some t)) ds, false)
  | .ok formatted =>
    if formatted = t.text then (.empty, true)
    else if options.check then (.print ["would reformat " ++ t.name], false)
    else ((Record.write t.path formatted).append (.print ["formatted " ++ t.name]), true)

/-- Formats listings, or the standard input. -/
def format (fs : Files) (path : String) (located : FilePath) (options : FormatOptions)
    (input : String) : Except Fault Outcome := do
  let settings ← settingsFor fs path
  if options.stdin then return formatInput fs settings options input
  else
    let ts ← targets fs path located
    if ts.isEmpty then
      return (Record.report ["no .ty files found"]).finish 0
    else
      let done := ts.map (formatTarget fs settings options)
      let record := (done.map (·.1)).foldl Record.append .empty
      return record.finish (if done.all (·.2) then 0 else 1)

/-- What `view` prints of one entry. -/
def viewEntry (layout : Layout) (number : Nat) : Listing.Entry → Record
  | .skipped => .empty
  | .faulty e => reportAll layout e.diagnostics
  | .type t => .print (("line " ++ toString number ++ ": " ++ t.text) :: t.outline.lines 1)

/-- Shows the outlines of the types of a listing. Places are shown with the path as it was given. -/
def view (fs : Files) (path : String) (located : FilePath) (withoutPlus : Bool) :
    Except Fault Outcome := do
  let t ← target fs (Files.display path) located
  let settings ← settingsFor fs path
  let plus := settings.allowPlus.truth && !withoutPlus
  let layout := layoutFor fs settings.color.truth (some t)
  let es := Listing.entries path plus (Text.lines t.text)
  let record := (es.map fun (n, e) => viewEntry layout n e).foldl Record.append .empty
  return record.finish (if es.any fun (_, e) => e.isFaulty then 1 else 0)

/-! ## Running a command -/

/-- What is printed for `--help`. -/
def help : String :=
  "Usage: tyexpr [check|format|view] [OPTIONS] [PATH]\n\n" ++
    "check   Parse every type in .ty files and report errors.\n" ++
    "format  Reprint types in canonical form.\n" ++
    "view    View the syntax tree of every type in a .ty file.\n"

/-- What is printed for `--version`. -/
def version : String :=
  "tyexpr, version 0.1.0"

/-- Where the path of a command is. It has to be that of a file or directory. -/
def locate (fs : Files) (path : String) : Except Fault FilePath :=
  match fs.locate? path with
  | some located => .ok located
  | none => .error .usage

/-- Runs a command. -/
def perform (fs : Files) (input : String) : Command → Except Fault Outcome
  | .help => .ok ((Record.emit help).finish 0)
  | .version => .ok ((Record.print [version]).finish 0)
  | .check path withoutPlus => do check fs path (← locate fs path) withoutPlus
  | .format path options => do format fs path (← locate fs path) options input
  | .view path withoutPlus => do
    let located ← locate fs path
    if fs.isDirectory located then .error .usage else view fs path located withoutPlus

/-- Runs the program with its arguments. -/
def run (fs : Files) (input : String) (args : List String) : Except Fault Outcome :=
  match Command.ofArguments? args with
  | some command => perform fs input command
  | none => .error .usage

end Run

end TypeGrammar
