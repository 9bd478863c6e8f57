import TypeGrammar.Files
import TypeGrammar.Toml.Document

/-!
# Settings

The nearest `tyexpr.toml` at or above a path says whether a `+` may go on with a type, and whether
output is coloured. Where there is none, or where it says nothing, both are true. A setting may have
any value; it is on if the value counts as true.
-/

namespace TypeGrammar

/-- The settings of a program. -/
structure Settings where
  allowPlus : Toml.Value
  color : Toml.Value

/-- Why there are no settings. -/
inductive SettingsFault where
  | malformed
  | noTable
  | isDirectory
  deriving DecidableEq, Repr

namespace Settings

/-- The name of a settings file. -/
def fileName : String := "tyexpr.toml"

/-- The message where there is no settings file. -/
def notFoundMessage : String :=
  "No " ++ fileName ++ " found in any parent directory"

/-- The settings where nothing is said. -/
def standard : Settings := ⟨.bool true, .bool true⟩

/-- The settings file in a directory or in the nearest one above it. -/
def nearest? (fs : Files) (directory : FilePath) : Option FilePath :=
  (List.range (directory.length + 1)).reverse.findSome? fun n =>
    let candidate := directory.take n ++ [fileName]
    if fs.has candidate then some candidate else none

/-- The settings file for a path. -/
def find? (fs : Files) (start : String) : Option FilePath :=
  let path := fs.resolve start
  nearest? fs (if fs.isFile path then path.dropLast else path)

/-- The value of a setting in a table of a document. -/
def setting (entries : Toml.Entries) (table name : String) :
    Except SettingsFault (Option Toml.Value) :=
  match entries.get? table with
  | none => .ok none
  | some (.table inner) => .ok (Toml.Entries.get? inner name)
  | some _ => .error .noTable

/-- The settings that a document gives. -/
def ofEntries (entries : Toml.Entries) : Except SettingsFault Settings := do
  let allowPlus ← setting entries "parse" "allow_plus"
  let color ← setting entries "output" "color"
  return ⟨allowPlus.getD standard.allowPlus, color.getD standard.color⟩

/-- The settings for a path. -/
def forPath (fs : Files) (start : String) : Except SettingsFault Settings :=
  match find? fs start with
  | none => .ok standard
  | some path =>
    match fs.content? path with
    | none => .error .isDirectory
    | some text =>
      match Toml.parse? text with
      | none => .error .malformed
      | some entries => ofEntries entries

end Settings

end TypeGrammar
