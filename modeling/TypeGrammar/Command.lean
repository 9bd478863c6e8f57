/-!
# Commands

Three commands work on listings: `check` reports what is wrong with them, `format` writes them in
canonical form, and `view` shows the outlines of their types. Options may stand before and after the
path, and all that follows `--` is no option. Not every list of arguments is a command.
-/

namespace TypeGrammar

/-- The options of `format`; without a choice of colour the settings decide. -/
structure FormatOptions where
  check : Bool
  stdin : Bool
  color : Option Bool
  deriving DecidableEq, Repr

/-- What the arguments of the program ask for. -/
inductive Command where
  | help
  | version
  | check (path : String) (withoutPlus : Bool)
  | format (path : String) (options : FormatOptions)
  | view (path : String) (withoutPlus : Bool)
  deriving DecidableEq, Repr

namespace Command

/-- True of an argument that is an option. -/
def isOption (arg : String) : Bool :=
  arg.toList.head? = some '-' && 1 < arg.length && arg != "--"

/-- The flags and the other arguments, if all flags are known. -/
def splitArguments (flags : List String) : List String → Option (List String × List String)
  | [] => some ([], [])
  | arg :: rest =>
    if arg = "--" then some ([], rest)
    else if isOption arg then
      if flags.contains arg then
        (splitArguments flags rest).map fun (given, others) => (arg :: given, others)
      else none
    else (splitArguments flags rest).map fun (given, others) => (given, arg :: others)

/-- The only other argument, or the standard one if there is none. -/
def single? (others : List String) (standard : Option String) : Option String :=
  match others with
  | [] => standard
  | [path] => some path
  | _ => none

/-- The last choice of colour among the flags. -/
def colorChoice (given : List String) : Option Bool :=
  (given.reverse.find? fun f => f = "--color" ∨ f = "--no-color").map (· == "--color")

/-- The flags of `format`. -/
def formatOptions (given : List String) : FormatOptions :=
  ⟨given.contains "--check", given.contains "--stdin", colorChoice given⟩

/-- The flags that a command knows. -/
def flags? : String → Option (List String)
  | "check" => some ["--without-plus", "--help"]
  | "format" => some ["--check", "--stdin", "--color", "--no-color", "--help"]
  | "view" => some ["--without-plus", "--help"]
  | _ => none

/-- The command with a name, its flags and its other arguments. -/
def ofParts? (name : String) (given others : List String) : Option Command :=
  if given.contains "--help" then some help
  else
    match name with
    | "check" => (single? others (some ".")).map (check · (given.contains "--without-plus"))
    | "format" => (single? others (some ".")).map (format · (formatOptions given))
    | "view" => (single? others none).map (view · (given.contains "--without-plus"))
    | _ => none

/-- Reads the arguments after the options of the program. -/
def ofWords? : List String → Option Command
  | name :: args => do
    let (given, others) ← splitArguments (← flags? name) args
    ofParts? name given others
  | [] => none

/-- Reads the arguments of the program. Of its own options the first one counts. -/
def ofArguments? (args : List String) : Option Command :=
  let options := args.takeWhile isOption
  if options.any fun o => o != "--version" && o != "--help" then none
  else
    match options, args with
    | "--version" :: _, _ => some version
    | _ :: _, _ => some help
    | [], "--" :: words => ofWords? words
    | [], words => ofWords? words

/-- The path that a command works on. -/
def path? : Command → Option String
  | check path _ | format path _ | view path _ => some path
  | _ => none

/-- True of a command that reads the standard input. -/
def readsInput : Command → Bool
  | format _ options => options.stdin
  | _ => false

end Command

end TypeGrammar
