import ReflectionTables.TreeRuns
/-!
# The command line

Options, what they ask for, and what is printed.
-/

namespace ReflectionTables.CommandLine

open Generation Trees

inductive ValueOption
  | root
  | out
  | aggregate
  | supportHeader
  | namespaceName
deriving DecidableEq, Repr

inductive OptionName
  | value (option : ValueOption)
  | verbose
  | version
  | help
deriving DecidableEq, Repr

def OptionName.ofLong? : String → Option OptionName
  | "root" => some (.value .root)
  | "out" => some (.value .out)
  | "aggregate" => some (.value .aggregate)
  | "support-header" => some (.value .supportHeader)
  | "namespace" => some (.value .namespaceName)
  | "verbose" => some .verbose
  | "version" => some .version
  | "help" => some .help
  | _ => none

def OptionName.ofShort? : Char → Option OptionName
  | 'r' => some (.value .root)
  | 'o' => some (.value .out)
  | 'a' => some (.value .aggregate)
  | 'v' => some .verbose
  | 'V' => some .version
  | 'h' => some .help
  | _ => none

def ValueOption.isPath : ValueOption → Bool
  | .root | .out | .aggregate => true
  | .supportHeader | .namespaceName => false

structure Given where
  values : List (ValueOption × String) := []
  verbose : Bool := false
deriving DecidableEq, Repr

/-- Takes a value; an option is given once. -/
def Given.take? (given : Given) (option : ValueOption) (value : String) : Option Given :=
  if (given.values.lookup option).isSome || (option.isPath && value == "") then none
  else some { given with values := (option, value) :: given.values }

def Given.setVerbose? (given : Given) : Option Given :=
  if given.verbose then none else some { given with verbose := true }

def Given.get (given : Given) (option : ValueOption) (default : String) : String :=
  (given.values.lookup option).getD default

def Given.settings (given : Given) : Settings :=
  let outDir := SlashPath.ofText (given.get .out "generated")
  { root := .ofText (given.get .root ".")
    outDir
    aggregate :=
      match given.values.lookup .aggregate with
      | some path => .ofText path
      | none => defaultAggregate outDir
    style :=
      { supportHeader := given.get .supportHeader "reflection.h"
        namespaceName := given.get .namespaceName "reflect" } }

/-- What a command line asks for. -/
inductive Request
  | run (given : Given)
  | version
  | help
  | misused
deriving DecidableEq, Repr

/-- Options are read one by one, and the first that asks for a version or for help, or that is
misused, decides. -/
inductive Step
  | goOn (given : Given)
  /-- The next argument is the value of this option. -/
  | awaiting (given : Given) (option : ValueOption)
  | decided (request : Request)
deriving DecidableEq, Repr

def Step.ofGiven? : Option Given → Step
  | some given => .goOn given
  | none => .decided .misused

def longStep (given : Given) (name : String) (value? : Option String) : Step :=
  match OptionName.ofLong? name, value? with
  | some (.value option), some value => .ofGiven? (given.take? option value)
  | some (.value option), none => .awaiting given option
  | some .verbose, none => .ofGiven? given.setVerbose?
  | some .version, none => .decided .version
  | some .help, none => .decided .help
  | _, _ => .decided .misused

/-- Short options in a row; the first that takes a value takes the rest of the row. -/
def shortStep (given : Given) : List Char → Step
  | [] => .goOn given
  | c :: cs =>
    match OptionName.ofShort? c with
    | some (.value option) =>
      match cs with
      | [] => .awaiting given option
      | '=' :: value => .ofGiven? (given.take? option (String.ofList value))
      | value => .ofGiven? (given.take? option (String.ofList value))
    | some .verbose =>
      match given.setVerbose? with
      | some given => shortStep given cs
      | none => .decided .misused
    | some .version => .decided .version
    | some .help => .decided .help
    | none => .decided .misused

/-- Whether an argument is read as options. A single dash is not. -/
def isOption (arg : String) : Bool :=
  match arg.toList with
  | '-' :: _ :: _ => true
  | _ => false

/-- The step of one argument. There are no arguments but options. -/
def argumentStep (given : Given) (arg : String) : Step :=
  match arg.toList with
  | '-' :: '-' :: name =>
    let long := name.takeWhile (· != '=')
    let value? := if long.length < name.length then some (name.drop (long.length + 1)) else none
    longStep given (String.ofList long) (value?.map String.ofList)
  | '-' :: c :: cs => shortStep given (c :: cs)
  | _ => .decided .misused

def requestFrom (given : Given) : List String → Request
  | [] => .run given
  | ["--"] => .run given
  | arg :: args =>
    match argumentStep given arg, args with
    | .decided request, _ => request
    | .goOn given, args => requestFrom given args
    | .awaiting _ _, [] => .misused
    | .awaiting given option, value :: args =>
      if isOption value then .misused
      else
        match given.take? option value with
        | some given => requestFrom given args
        | none => .misused

def Request.ofArguments (args : List String) : Request := requestFrom {} args

structure Printed where
  code : Nat
  stdout : String := ""
  stderr : String := ""
deriving DecidableEq, Repr

def versionText : String := "reflgen 0.1.0\n"

def helpText : String := unlines
  ["Source-to-source reflection generator for C++-like headers",
   "",
   "Usage: reflgen [OPTIONS]",
   "",
   "Options:",
   "  -r, --root <ROOT>                      Source tree to scan [default: .]",
   "  -o, --out <OUT>                        Directory for the per-file artifacts " ++
     "[default: generated]",
   "  -a, --aggregate <AGGREGATE>            File-spanning declarations artifact " ++
     "[default: <OUT>/reflection_decls.h]",
   "      --support-header <SUPPORT_HEADER>  Include used for the reflection support header " ++
     "[default: reflection.h]",
   "      --namespace <NAMESPACE>            Namespace wrapping the generated definitions " ++
     "[default: reflect]",
   "  -v, --verbose                          Log at debug level and print every unparsed " ++
     "construct",
   "  -h, --help                             Print help",
   "  -V, --version                          Print version"]

/-- A cause of a failure under its number; further lines are indented. -/
def causeLines (number : Nat) (message : String) : List String :=
  match message.toList.splitOn '\n' with
  | [] => []
  | first :: others =>
    s!"    {number}: {String.ofList first}" ::
      others.map fun line => "       " ++ String.ofList line

def failureText (settings : Settings) (failure : RunFailure) : String :=
  unlines <|
    [s!"Error: generating reflection for {settings.root.text}", "", "Caused by:"] ++
    ((failure.message :: failure.causes).zipIdx.flatMap fun (message, number) =>
      causeLines number message)

def summaryLine (summary : Summary) : String :=
  s!"Processed {summary.files} files, wrote {summary.written} artifacts " ++
    s!"({summary.remarks.length} unparsed constructs)."

/-- Runs over a tree and tells what is printed. A run that was stopped prints nothing. -/
def perform (given : Given) (tree : FileTree) : Printed × FileTree :=
  match (run given.settings).run tree with
  | (.ok summary, tree) =>
    let remarks := if given.verbose then summary.remarks.map (·.text) else []
    ({ code := 0, stderr := unlines (remarks ++ [summaryLine summary]) }, tree)
  | (.error (.stopped _), tree) => ({ code := 101 }, tree)
  | (.error failure, tree) =>
    ({ code := 1, stderr := failureText given.settings failure }, tree)

/-- The command line over a tree. A misused one changes nothing. -/
def execute (args : List String) (tree : FileTree) : Printed × FileTree :=
  match Request.ofArguments args with
  | .run given => perform given tree
  | .version => ({ code := 0, stdout := versionText }, tree)
  | .help => ({ code := 0, stdout := helpText }, tree)
  | .misused => ({ code := 2 }, tree)

end ReflectionTables.CommandLine
