import CTree.Json.Writer
import CTree.Store.Path

/-!
# Arguments of the command line

The first argument names a command, and those behind it are its options and at most
one path. They are read from left to right: what is wrong with an argument is found
before anything behind it, and a call for help is answered as soon as it is met.
-/
namespace CTree.CommandLine
open CTree.Store (Path)

inductive Command
  /-- Write the document of a source to a file. -/
  | convert (input output : Path) (layout : Json.Layout)
  /-- Show the document of a source. -/
  | tree (input : Path) (layout : Json.Layout)
  /-- Run the fixtures below a path. -/
  | test (root : Path) (bless : Bool)
  deriving Repr, DecidableEq

inductive CommandName
  | convert
  | tree
  | test
  deriving Repr, DecidableEq

/-- What help can be asked about. -/
inductive Topic
  | program
  | command (name : CommandName)
  | help
  deriving Repr, DecidableEq

inductive Request
  | run (command : Command)
  | help (topic : Topic)
  | version
  deriving Repr, DecidableEq

inductive UsageError
  | missingCommand
  | unknownCommand (name : String)
  | unknownOption (argument : String)
  | repeatedOption (option : String)
  | missingValue (option : String)
  | unwantedValue (option : String)
  | emptyValue
  | tooManyPaths (argument : String)
  deriving Repr, DecidableEq

def UsageError.message : UsageError → String
  | missingCommand => "a command is required"
  | unknownCommand name => s!"there is no command '{name}'"
  | unknownOption argument => s!"there is no option '{argument}' here"
  | repeatedOption option => s!"the option '{option}' is given more than once"
  | missingValue option => s!"the option '{option}' needs a value"
  | unwantedValue option => s!"the option '{option}' takes no value"
  | emptyValue => "a path is empty"
  | tooManyPaths argument => s!"the argument '{argument}' is one too many"

namespace CommandName

def all : List CommandName := [convert, tree, test]

def text : CommandName → String
  | convert => "convert"
  | tree => "tree"
  | test => "test"

def ofText? (text : String) : Option CommandName := all.find? (·.text = text)

/-- The name of the option that takes no value. -/
def flag : CommandName → String
  | convert | tree => "compact"
  | test => "bless"

/-- Whether the option for an output path belongs to the command. -/
def takesOutput : CommandName → Bool
  | convert => true
  | tree | test => false

end CommandName

/-- The options and the path that were read. -/
structure Given where
  flag : Bool
  output : Option String
  path : Option String
  deriving Repr, DecidableEq

def Given.nothing : Given := ⟨false, none, none⟩

namespace Given

def setOutput (given : Given) (value : String) : Except UsageError Given :=
  if value = "" then .error .emptyValue
  else if given.output.isSome then .error (.repeatedOption "--output")
  else .ok { given with output := some value }

def setPath (given : Given) (value : String) : Except UsageError Given :=
  if given.path.isSome then .error (.tooManyPaths value)
  else if value = "" then .error .emptyValue
  else .ok { given with path := some value }

def setFlag (given : Given) (name : String) : Except UsageError Given :=
  if given.flag then .error (.repeatedOption ("--" ++ name)) else .ok { given with flag := true }

/-- The command with what was given, and with defaults for the rest. -/
def command (given : Given) : CommandName → Command
  | .convert =>
    .convert ⟨given.path.getD "input.txt"⟩ ⟨given.output.getD "output.txt"⟩ (layout given)
  | .tree => .tree ⟨given.path.getD "input.txt"⟩ (layout given)
  | .test => .test ⟨given.path.getD "tests/fixtures"⟩ given.flag
where
  layout (given : Given) : Json.Layout := if given.flag then .compact else .pretty

end Given

/-- One argument by its form. -/
inductive Form
  | path (text : String)
  /-- An option by its name: `--name`, or `--name=value`. -/
  | long (name : String) (value : Option String)
  /-- An option by its letter, `-x`, with what follows the letter. -/
  | short (letter : Char) (rest : List Char)
  /-- The argument `--`, behind which there are no options. -/
  | endOfOptions
  deriving Repr, DecidableEq

def Form.ofText (text : String) : Form :=
  match text.toList with
  | ['-', '-'] => .endOfOptions
  | '-' :: '-' :: s =>
    .long (String.ofList (s.takeWhile (· ≠ '=')))
      (match s.dropWhile (· ≠ '=') with
        | [] => none
        | _ :: value => some (String.ofList value))
  | '-' :: c :: s => .short c s
  | _ => .path text

/-- What the next argument can be. -/
inductive Expecting
  | anything
  /-- The value of the option for the output. -/
  | outputValue
  /-- A path, behind the end of the options. -/
  | onlyPaths
  deriving Repr, DecidableEq

/-- What an argument leads to: more arguments, or help at once. -/
inductive Step
  | next (given : Given) (expecting : Expecting)
  | help

/-- A value that is joined to a letter may have an equals sign before it. -/
def joinedValue : List Char → String
  | '=' :: value => String.ofList value
  | value => String.ofList value

/-- An option that is known by a letter or a word. -/
def readOption (name : CommandName) (given : Given) (text : String) : Form → Except UsageError Step
  | .path path => do return .next (← given.setPath path) .anything
  | .endOfOptions => .ok (.next given .onlyPaths)
  | .long "help" none | .short 'h' _ => .ok .help
  | .long "help" (some _) => .error (.unwantedValue "--help")
  | .long option value =>
    if option = "output" ∧ name.takesOutput then
      match value with
      | some value => do return .next (← given.setOutput value) .anything
      | none => .ok (.next given .outputValue)
    else if option ≠ name.flag then .error (.unknownOption text)
    else if value.isSome then .error (.unwantedValue text)
    else do return .next (← given.setFlag option) .anything
  | .short letter rest =>
    if letter = 'o' ∧ name.takesOutput then
      match rest with
      | [] => .ok (.next given .outputValue)
      | rest => do return .next (← given.setOutput (joinedValue rest)) .anything
    else .error (.unknownOption text)

def readArgument (name : CommandName) (given : Given) (expecting : Expecting) (text : String) :
    Except UsageError Step :=
  match expecting, Form.ofText text with
  | .onlyPaths, _ => do return .next (← given.setPath text) .onlyPaths
  | .outputValue, .path value => do return .next (← given.setOutput value) .anything
  | .outputValue, _ => .error (.missingValue "--output")
  | .anything, form => readOption name given text form

/-- Reads the arguments of a command. -/
def readArguments (name : CommandName) (given : Given) (expecting : Expecting) :
    List String → Except UsageError Request
  | [] =>
    if expecting = .outputValue then .error (.missingValue "--output")
    else .ok (.run (given.command name))
  | text :: arguments =>
    match readArgument name given expecting text with
    | .error e => .error e
    | .ok .help => .ok (.help (.command name))
    | .ok (.next given expecting) => readArguments name given expecting arguments

/-- Reads the arguments of `help`. -/
def readTopic : List String → Except UsageError Topic
  | [] => .ok .program
  | ["help"] => .ok .help
  | [text] =>
    match CommandName.ofText? text with
    | some name => .ok (.command name)
    | none => .error (.unknownCommand text)
  | text :: second :: _ =>
    .error (.unknownCommand
      (if text = "help" ∨ (CommandName.ofText? text).isSome then second else text))

/-- Reads all arguments. -/
def read : List String → Except UsageError Request
  | [] => .error .missingCommand
  | text :: arguments =>
    match Form.ofText text with
    | .path "help" => .help <$> readTopic arguments
    | .path text =>
      match CommandName.ofText? text with
      | none => .error (.unknownCommand text)
      | some name => readArguments name .nothing .anything arguments
    | .long "help" none | .short 'h' _ => .ok (.help .program)
    | .long "version" none | .short 'V' _ => .ok .version
    | .long .. | .short .. => .error (.unknownOption text)
    | .endOfOptions => .error .missingCommand

end CTree.CommandLine
