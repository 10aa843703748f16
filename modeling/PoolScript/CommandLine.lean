import PoolScript.CommandLine.Arguments
import PoolScript.CommandLine.Help
import PoolScript.Limits.Toml
import PoolScript.Session
import PoolScript.Tree.Json
import PoolScript.Tree.Parse

/-!
# The command line

Three commands: `run FILE` runs a script, within limits that come from a file and from
flags, the flags going first; `parse FILE` prints the tree of a script as JSON; and
`tokens FILE` prints its tokens with their spans. A command line may also ask for help or
for the version. What is printed and the exit code are a function of the files there are.
-/

namespace PoolScript.CommandLine

/-- The version of the program. -/
def version : String := "0.1.0"

/-- What a command prints, and its exit code. -/
structure Answer where
  exit : Nat
  output : String

namespace Answer

/-- The answer of a command that did what it had to. -/
def success (lines : List String) : Answer :=
  ⟨0, .join (lines.map (· ++ "\n"))⟩

/-- The answer of a command that did not, after printing `lines`. -/
def failure (lines : List String) : Answer :=
  ⟨1, .join (lines.map (· ++ "\n"))⟩

/-- The answer to arguments that make no command. -/
def misuse : Answer :=
  ⟨2, ""⟩

/-- The answer to a command line that gives no command. -/
def ofDetour : Detour → Answer
  | .help form => success form.page
  | .version => success [Form.program ++ " " ++ version]
  | .misuse => misuse

end Answer

/-- Floats in JSON have an exponent below `1e-5` and from `1e16` on. -/
def jsonFloat : Number.Layout where
  tie := .even
  positional k := -5 ≤ k && k < 16
  point := true
  plus := true

/-- A float in JSON, which has no infinities. -/
def floatToJson (x : Float) : Json :=
  if x.isFinite then .number (jsonFloat.render x) else .null

/-- The line of a token in a listing. -/
def tokenLine (t : Token × Span) : String :=
  t.1.describe ++ " @ " ++ t.2.text

/-- The limits of a run. -/
def limits? (files : String → Option String) (config : Option String) (overrides : Overrides) :
    Option Limits :=
  match config with
  | some file => ((files file).bind Limits.Toml.read?).map overrides.apply
  | none => some (overrides.apply .default)

/-- Loads a script and runs it. -/
def runScript (fuel : Nat) (source : String) (limits : Limits) : Option Answer :=
  match Program.parse source with
  | .error _ => some (.failure [])
  | .ok program =>
    (Session.run fuel (.new program limits)).map fun s =>
      let lines := s.state.out.lines.toList
      if s.lastError.isSome then .failure lines else .success lines

/-- What a command answers, given the contents of the files there are. -/
def Command.answer (fuel : Nat) (files : String → Option String) : Command → Option Answer
  | run file config overrides =>
    match limits? files config overrides, files file with
    | some limits, some source => runScript fuel source limits
    | _, _ => some (.failure [])
  | parse file =>
    match (files file).map Program.parse with
    | some (.ok program) => some (.success [(program.toJson floatToJson).text])
    | _ => some (.failure [])
  | tokens file =>
    match (files file).map Token.scan with
    | some (.ok ts) => some (.success (ts.map tokenLine))
    | _ => some (.failure [])

/-- What a command line answers, given the contents of the files there are. -/
def answer (fuel : Nat) (files : String → Option String) (args : List String) : Option Answer :=
  match Command.ofArgs {} args with
  | .ok command => command.answer fuel files
  | .error detour => some (.ofDetour detour)

end PoolScript.CommandLine
