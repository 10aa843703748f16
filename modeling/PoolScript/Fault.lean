import PoolScript.Spelling
import PoolScript.Tree
import PoolScript.Value

/-!
# Faults

What can go wrong while a script runs. A *fault* is a cause, kept as data and worded by
one function; a *failure* is a fault together with the line of the innermost statement
that was being executed, once that is known.
-/

namespace PoolScript

/-- What a number, a text or a key was asked for. -/
inductive Wanted where
  | condition
  | int
  | float
  | number
  | str
  | key
deriving DecidableEq

namespace Wanted

/-- What was asked for, in words. -/
def text : Wanted → String
  | condition => "int or float condition"
  | int => "int"
  | float => "float"
  | number => "int or float"
  | str => "str"
  | key => "int, float or str key"

end Wanted

/-- What a handle should have led to. -/
inductive Referent where
  | string | array | element | frame
deriving DecidableEq

namespace Referent

/-- What should have been there, in words. -/
def text : Referent → String
  | string => "string"
  | array => "array"
  | element => "array element"
  | frame => "frame"

end Referent

/-- Why a table of host functions is refused. -/
inductive RegistrationFault where
  | emptyName
  | shadowsIntrinsic (name : String)
  | registeredTwice (name : String)
deriving DecidableEq

namespace RegistrationFault

/-- What is wrong, in words. -/
def message : RegistrationFault → String
  | emptyName => "foreign function with empty name"
  | shadowsIntrinsic name => s!"foreign function `{name}` shadows an intrinsic"
  | registeredTwice name => s!"foreign function `{name}` registered twice"

end RegistrationFault

/-- An assertion of the interpreter about itself. -/
inductive Assertion where
  /-- What a reference is counted to is there. -/
  | retainsLive (what : Referent) (h : Handle)
  /-- A count of references fits into thirty-two bits. -/
  | countFits
deriving DecidableEq

namespace Assertion

/-- What is said when the assertion fails. -/
def message : Assertion → String
  | retainsLive what h => s!"retain of stale {what.text} {h.text}"
  | countFits => "attempt to add with overflow"

end Assertion

/-- The cause of a failure. -/
inductive Fault where
  | undefinedVariable (name : String)
  /-- A function that is not known, and a known name like it. -/
  | undefinedFunction (name : String) (suggestion : Option String)
  | elseIfBeforeIf
  | elseBeforeIf
  | typeMismatch (wanted : Wanted) (got : ValueType)
  | operandMismatch (op : BinOp) (lhs rhs : ValueType)
  /-- Something that is no array, or nothing, where an array has to be. -/
  | arrayExpected (got : Option ValueType)
  | divisionByZero
  | poolExhausted (pool : String) (capacity : Nat)
  | stackOverflow (depth : Nat)
  | keyNotFound (key : String)
  | missingArgument (function : String) (expected got : Nat)
  | registration (fault : RegistrationFault)
  /-- A failure that a host function reports. -/
  | foreign (function message : String)
  /-- A handle that leads nowhere. -/
  | invalidHandle (what : Referent)
  /-- An assertion that failed. It is no failure of the script: whoever runs it is aborted, and what
      is said here of a run that fails so, of its state afterwards too, nobody sees. -/
  | aborted (failed : Assertion)
deriving DecidableEq

namespace Fault

/-- What is wrong, in words. -/
def message : Fault → String
  | undefinedVariable name => s!"variable not found: {name}"
  | undefinedFunction name suggestion =>
    s!"function not found: {name}" ++ Spelling.hint suggestion
  | elseIfBeforeIf => "else if before if"
  | elseBeforeIf => "else before if"
  | typeMismatch wanted got => s!"type error: expected {wanted.text}, got {got.name}"
  | operandMismatch op lhs rhs =>
    s!"type error: unsupported operands for {op.symbol}: {lhs.name} and {rhs.name}"
  | arrayExpected (some got) => s!"array expected, got {got.name}"
  | arrayExpected none => "array expected, got nothing"
  | divisionByZero => "division by zero"
  | poolExhausted pool capacity => s!"{pool} pool exhausted ({capacity} slots)"
  | stackOverflow depth => s!"stack overflow: call depth exceeds {depth}"
  | keyNotFound key => s!"key not found: {key}"
  | missingArgument function expected got =>
    s!"{function} expects {expected} argument(s), got {got}"
  | registration fault => fault.message
  | foreign function message => s!"{function}: {message}"
  | invalidHandle what => s!"invalid {what.text} handle"
  | aborted failed => failed.message

/-- The kinds of faults. A host can tell them apart, but for the last one, of which it is told
    nothing. -/
inductive Kind where
  | undefinedVariable | undefinedFunction | misplacedElse | typeError | divisionByZero
  | poolExhausted | stackOverflow | keyNotFound | missingArgument | registration | foreign
  | invalidHandle | aborted
deriving DecidableEq

/-- The kind of a fault. -/
def kind : Fault → Kind
  | undefinedVariable _ => .undefinedVariable
  | undefinedFunction _ _ => .undefinedFunction
  | elseIfBeforeIf | elseBeforeIf => .misplacedElse
  | typeMismatch _ _ | operandMismatch _ _ _ | arrayExpected _ => .typeError
  | divisionByZero => .divisionByZero
  | poolExhausted _ _ => .poolExhausted
  | stackOverflow _ => .stackOverflow
  | keyNotFound _ => .keyNotFound
  | missingArgument _ _ _ => .missingArgument
  | registration _ => .registration
  | foreign _ _ => .foreign
  | invalidHandle _ => .invalidHandle
  | aborted _ => .aborted

/-- Classes of kinds. -/
inductive Class where
  | typeError | nameError | rangeError | keyOrArityError | foreignError | internalError
deriving DecidableEq

namespace Kind

/-- The class of a kind. -/
def toClass : Kind → Class
  | typeError => .typeError
  | undefinedVariable | undefinedFunction | misplacedElse => .nameError
  | divisionByZero | poolExhausted | stackOverflow => .rangeError
  | keyNotFound | missingArgument => .keyOrArityError
  | registration | foreign => .foreignError
  | invalidHandle | aborted => .internalError

end Kind

end Fault

/-- A fault and the line it happened on. -/
structure Failure where
  fault : Fault
  line : Option Nat
deriving DecidableEq

namespace Failure

/-- A fault that no statement has been blamed for yet. -/
def of (fault : Fault) : Failure :=
  ⟨fault, none⟩

/-- The failure on the line `n`, unless an inner statement was blamed already. -/
def atLine (n : Nat) (f : Failure) : Failure :=
  { f with line := some (f.line.getD n) }

/-- The failure, in words, with its line. -/
def text (f : Failure) : String :=
  match f.line with
  | some n => s!"Runtime error at line {n}: {f.fault.message}"
  | none => s!"Runtime error: {f.fault.message}"

end Failure

end PoolScript
