import TypeGrammar.Text.Line

/-!
# Files

A snapshot of a file system: the working directory, and the files and directories below the root.
Paths are lists of names from the root. A path in a text may hold `.` and `..` and need not exist.
-/

namespace TypeGrammar

/-- The names from the root to a file or directory. -/
abbrev FilePath := List String

/-- A file with its text, or a directory. -/
structure FileEntry where
  path : FilePath
  content : Option String
  deriving DecidableEq, Repr

/-- The files and directories that a program can see. -/
structure Files where
  base : FilePath
  entries : List FileEntry

namespace Files

/-- The parts of a path text between the `/` in it. -/
def parts (path : String) : List String :=
  (path.toList.splitOn '/').map String.ofList

/-- The names in a path text, without empty ones and `.`. -/
def names (path : String) : List String :=
  (parts path).filter fun n => n != "" && n != "."

/-- True of a path text that starts at the root. -/
def isAbsolute (path : String) : Bool :=
  path.toList.head? == some '/'

/-- A path text as it is shown: no empty names, no `.` and no `/` at its end. -/
def display (path : String) : String :=
  let root := if isAbsolute path then "/" else ""
  let shown := root ++ String.intercalate "/" (names path)
  if shown = "" then "." else shown

/-- The path after one more name; `..` leads to the directory above. -/
def enter (path : FilePath) (name : String) : FilePath :=
  if name = ".." then path.dropLast else path ++ [name]

/-- The path that a path text stands for. -/
def resolve (fs : Files) (path : String) : FilePath :=
  (names path).foldl enter (if isAbsolute path then [] else fs.base)

/-- The text of a file. -/
def content? (fs : Files) (path : FilePath) : Option String :=
  (fs.entries.find? fun e => e.path == path && e.content.isSome).bind (·.content)

/-- True of a file. -/
def isFile (fs : Files) (path : FilePath) : Bool :=
  (fs.content? path).isSome

/-- True of a directory: it is listed, or something below it is. -/
def isDirectory (fs : Files) (path : FilePath) : Bool :=
  path.isPrefixOf fs.base ||
    fs.entries.any fun e => path.isPrefixOf e.path && (e.content.isNone || e.path != path)

/-- True of a file or a directory. -/
def has (fs : Files) (path : FilePath) : Bool :=
  fs.isFile path || fs.isDirectory path

/-- The path of an existing file or directory. Every name but the last has to be that of a
directory, and so has the last one before a `/`. -/
def locate? (fs : Files) (path : String) : Option FilePath :=
  if path = "" then none
  else
    let start := if isAbsolute path then [] else fs.base
    let step := fun (at' : Option FilePath) name =>
      match at' with
      | some dir =>
        if !fs.isDirectory dir then none
        else if name = "" ∨ name = "." then some dir
        else
          let next := enter dir name
          if fs.has next then some next else none
      | none => none
    (parts path).foldl step (some start)

/-- Text as it is read: line ends are unified. -/
def readText (content : String) : String :=
  String.ofList (Text.unifyBreaks content.toList)

/-- The text of a file, as it is read, by a path text. A `/` at the end of the path counts for
nothing. -/
def read? (fs : Files) (path : String) : Option String :=
  (fs.locate? (display path)).bind fun p => (fs.content? p).map readText

/-- The lines of a source: those of a known text with this name, or else those of the file. What
cannot be read has no lines. -/
def sourceLines (fs : Files) (known : List (String × String)) (name : String) : List String :=
  match known.find? fun (n, _) => n == name with
  | some (_, text) => Text.lines text
  | none => ((fs.read? name).map Text.lines).getD []

/-- The order of paths: name by name, and a path before those below it. -/
def before : FilePath → FilePath → Bool
  | [], _ => true
  | _ :: _, [] => false
  | a :: as, b :: bs => if a = b then before as bs else a < b

/-- Paths in order with one more path, in front of the first that comes after it. -/
def insert (path : FilePath) : List FilePath → List FilePath
  | [] => [path]
  | p :: ps => if before path p then path :: p :: ps else p :: insert path ps

/-- The paths below a directory whose last name ends in the given text, relative to the directory
and in order. -/
def below (fs : Files) (directory : FilePath) (ending : String) : List FilePath :=
  let inside := fs.entries.flatMap fun e =>
    if directory.isPrefixOf e.path then
      let relative := e.path.drop directory.length
      (List.range relative.length).map fun i => relative.take (i + 1)
    else []
  let named := inside.filter fun p => p.getLast?.any (·.endsWith ending)
  named.eraseDups.foldr insert []

end Files

end TypeGrammar
