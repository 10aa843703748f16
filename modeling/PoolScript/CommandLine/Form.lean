/-!
# The forms of the commands

A command line names a command, whose form says what it takes: at most one operand, the
file or the topic of the command, and *flags*. A flag has a long name, written after two
hyphens, and some have a letter too, written after one; a flag either acts by itself or
sets a value.

The program itself has a form as well, for what stands before the name of the command.
-/

namespace PoolScript.CommandLine

/-- What a flag sets the value of. -/
inductive Setting where
  | config
  | stringPool
  | arrayPool
  | maxDepth

/-- What a flag does. -/
inductive Effect where
  | verbose
  | help
  | version
  | set (setting : Setting)

/-- A flag. -/
structure Flag where
  /-- The long name. -/
  name : String
  /-- The letter, if it has one. -/
  letter : Option Char := none
  /-- What its value is called, if it has one. -/
  value : Option String := none
  about : String
  effect : Effect

/-- The form of a command. -/
structure Form where
  /-- The words that call it. -/
  call : List String
  about : String
  /-- How its operand is shown and what it is, if it has one. -/
  operand : Option (String × String) := none
  /-- The flags, in the order they are listed. -/
  flags : List Flag
  /-- The names of the commands it is a choice of, and what they do. -/
  choices : List (String × String) := []

/-! ### Flags -/

namespace Flag

def verbose : Flag where
  name := "verbose"
  letter := 'v'
  about := "Log at debug level unless RUST_LOG says otherwise"
  effect := .verbose

def help : Flag where
  name := "help"
  letter := 'h'
  about := "Print help"
  effect := .help

def version : Flag where
  name := "version"
  letter := 'V'
  about := "Print version"
  effect := .version

def config : Flag where
  name := "config"
  value := "CONFIG"
  about := "TOML file with runtime limits"
  effect := .set .config

def stringPool : Flag where
  name := "string-pool"
  value := "STRING_POOL"
  about := "String pool capacity"
  effect := .set .stringPool

def arrayPool : Flag where
  name := "array-pool"
  value := "ARRAY_POOL"
  about := "Array pool capacity"
  effect := .set .arrayPool

def maxDepth : Flag where
  name := "max-depth"
  value := "MAX_DEPTH"
  about := "Maximum call depth"
  effect := .set .maxDepth

end Flag

/-! ### Forms -/

namespace Form

/-- The name of the program. -/
def program : String := "wms"

def run : Form where
  call := [program, "run"]
  about := "Run a script's `main` function"
  operand := some ("<FILE>", "Script to run")
  flags := [.config, .verbose, .stringPool, .arrayPool, .maxDepth, .help]

def parse : Form where
  call := [program, "parse"]
  about := "Parse and dump AST (debug)"
  operand := some ("<FILE>", "Script to parse")
  flags := [.verbose, .help]

def tokens : Form where
  call := [program, "tokens"]
  about := "Tokenize and dump tokens (debug)"
  operand := some ("<FILE>", "Script to tokenize")
  flags := [.verbose, .help]

def help : Form where
  call := [program, "help"]
  about := "Print this message or the help of the given subcommand(s)"
  operand := some ("[COMMAND]...", "Print help for the subcommand(s)")
  flags := []

/-- The form of the program itself. -/
def root : Form where
  call := [program]
  about := "WMS script runner"
  flags := [.verbose, .help, .version]
  choices := [("run", run.about), ("parse", parse.about), ("tokens", tokens.about),
    ("help", help.about)]

/-- The form of the command `name`. -/
def ofName? : String → Option Form
  | "run" => some run
  | "parse" => some parse
  | "tokens" => some tokens
  | "help" => some help
  | _ => none

/-- The flag of the long name `name`. -/
def named? (f : Form) (name : String) : Option Flag :=
  f.flags.find? (·.name = name)

/-- The flag of the letter `c`. -/
def lettered? (f : Form) (c : Char) : Option Flag :=
  f.flags.find? (·.letter = some c)

end Form

end PoolScript.CommandLine
