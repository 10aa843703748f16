import PoolScript.CommandLine.Form
import PoolScript.Limits

/-!
# Reading a command line

The words before the name of a command are flags of the program. After it come the operand
and the flags of the command, in any order; after a word that is two hyphens there are
operands only.

* Letters may be given together after one hyphen, each of a flag that acts by itself.
* The value of a flag follows it, after an equals sign or as the next word, which then does
  not begin with a hyphen, unless it is one hyphen and nothing else.
* A flag is given once. The program and the command count separately.

Words are read from the left, and the first that asks for help, asks for the version or
is in error ends the reading.
-/

namespace PoolScript.CommandLine

/-- What a run overrides of its limits. -/
structure Overrides where
  stringPool : Option Nat := none
  arrayPool : Option Nat := none
  maxDepth : Option Nat := none

namespace Overrides

/-- Limits after overriding. -/
def apply (o : Overrides) (l : Limits) : Limits where
  stringPool := o.stringPool.getD l.stringPool
  arrayPool := o.arrayPool.getD l.arrayPool
  maxDepth := o.maxDepth.getD l.maxDepth

end Overrides

/-- The commands. -/
inductive Command where
  | run (file : String) (config : Option String) (overrides : Overrides)
  | parse (file : String)
  | tokens (file : String)

/-- Why a command line gives no command. -/
inductive Detour where
  | help (form : Form)
  | version
  | misuse

/-- The arguments of a command. -/
structure Arguments where
  file : Option String := none
  verbose : Bool := false
  config : Option String := none
  overrides : Overrides := {}

/-- A number in decimal digits, perhaps after a plus sign, in sixty-four bits. -/
def number? (text : String) : Option Nat :=
  let digits :=
    match text.toList with
    | '+' :: ds => ds
    | ds => ds
  if digits ≠ [] ∧ digits.all Char.isDigit then
    (some (digits.foldl (fun n c => 10 * n + (c.toNat - '0'.toNat)) 0)).filter (· < UInt64.size)
  else none

/-- Sets a value that is not set yet to what `text` says. -/
def setOnce {α : Type} (old : Option α) (text : Option α) : Except Detour (Option α) :=
  match old, text with
  | none, some new => .ok (some new)
  | _, _ => .error .misuse

/-- The path that `text` is. The empty text is none. -/
def path? (text : String) : Option String :=
  if text = "" then none else some text

namespace Arguments

/-- Takes the operand, if the command has one. -/
def setFile (form : Form) (a : Arguments) (text : String) : Except Detour Arguments :=
  if form.operand.isSome then return { a with file := ← setOnce a.file (path? text) }
  else .error .misuse

/-- Takes the value of a setting. -/
def set (a : Arguments) (setting : Setting) (text : String) : Except Detour Arguments := do
  let o := a.overrides
  match setting with
  | .config => return { a with config := ← setOnce a.config (path? text) }
  | .stringPool =>
    return { a with overrides := { o with stringPool := ← setOnce o.stringPool (number? text) } }
  | .arrayPool =>
    return { a with overrides := { o with arrayPool := ← setOnce o.arrayPool (number? text) } }
  | .maxDepth =>
    return { a with overrides := { o with maxDepth := ← setOnce o.maxDepth (number? text) } }

/-- Takes a flag without a value, if there is such a flag and it acts by itself. -/
def act (form : Form) (a : Arguments) (flag : Option Flag) : Except Detour Arguments :=
  match flag.map Flag.effect with
  | some .help => .error (.help form)
  | some .version => .error .version
  | some .verbose => if a.verbose then .error .misuse else .ok { a with verbose := true }
  | some (.set _) | none => .error .misuse

/-- Takes the flags of several letters. -/
def actAll (form : Form) (a : Arguments) (letters : List Char) : Except Detour Arguments :=
  letters.foldlM (fun a c => a.act form (form.lettered? c)) a

/-- Takes a flag with a value, if there is such a flag and it sets one. -/
def setFlag (a : Arguments) (flag : Option Flag) (text : String) : Except Detour Arguments :=
  match flag.map Flag.effect with
  | some (.set setting) => a.set setting text
  | _ => .error .misuse

end Arguments

/-- The kinds of words. -/
inductive Word where
  /-- A word that is no flag, such as a lone hyphen. -/
  | plain
  /-- Two hyphens: from here on, every word is an operand. -/
  | operands
  /-- The letters after a hyphen. -/
  | letters (cs : List Char)
  /-- The name of a flag, with the value it has in the same word. -/
  | flag (name : String) (value : Option String)

/-- The kind of a word. -/
def Word.ofString (word : String) : Word :=
  match word.toList with
  | ['-', '-'] => .operands
  | '-' :: '-' :: cs =>
    let value := match cs.dropWhile (· ≠ '=') with
      | _ :: value => some (.ofList value)
      | [] => none
    .flag (.ofList (cs.takeWhile (· ≠ '='))) value
  | '-' :: c :: cs => .letters (c :: cs)
  | _ => .plain

namespace Arguments

/-- Reads the arguments of a command. -/
def read (form : Form) (a : Arguments) : List String → Except Detour Arguments
  | [] => .ok a
  | word :: rest =>
    match Word.ofString word with
    | .operands => rest.foldlM (setFile form) a
    | .plain => do read form (← a.setFile form word) rest
    | .letters cs => do read form (← a.actAll form cs) rest
    | .flag name (some value) => do read form (← a.setFlag (form.named? name) value) rest
    | .flag name none =>
      match form.named? name with
      | some ⟨_, _, _, _, .set setting⟩ =>
        match rest with
        | value :: rest =>
          match Word.ofString value with
          | .plain => do read form (← a.set setting value) rest
          | _ => .error .misuse
        | [] => .error .misuse
      | flag => do read form (← a.act form flag) rest

/-- The file of a command, which has to be given. -/
def theFile (a : Arguments) : Except Detour String :=
  match a.file with
  | some file => .ok file
  | none => .error .misuse

end Arguments

/-- What a call for help asks about: the program, or the command it names. -/
def helpOn : List String → Detour
  | [] => .help .root
  | [name] => ((Form.ofName? name).map Detour.help).getD .misuse
  | _ => .misuse

namespace Command

/-- Reads a command line, after flags of the program. -/
def ofArgs (a : Arguments) : List String → Except Detour Command
  | [] => .error .misuse
  | "run" :: rest => do
    let a ← Arguments.read .run {} rest
    return .run (← a.theFile) a.config a.overrides
  | "parse" :: rest => do return .parse (← (← Arguments.read .parse {} rest).theFile)
  | "tokens" :: rest => do return .tokens (← (← Arguments.read .tokens {} rest).theFile)
  | "help" :: rest => .error (helpOn rest)
  | word :: rest =>
    match Word.ofString word with
    | .letters cs => do ofArgs (← a.actAll .root cs) rest
    | .flag name none => do ofArgs (← a.act .root (Form.root.named? name)) rest
    | _ => .error .misuse

/-- The files that a command reads. -/
def files : Command → List String
  | run file config _ => config.toList ++ [file]
  | parse file | tokens file => [file]

end Command

end PoolScript.CommandLine
