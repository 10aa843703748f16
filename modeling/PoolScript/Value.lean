import PoolScript.Number.Double

/-!
# Values

A value of the language is an integer of sixty-four bits, a double, or a handle to a
string or an array, which live in the pools of a heap. A handle names a slot of a pool
and the generation it was handed out in, so that it is known to be stale when the slot
has been given to something else.

A *scalar* is what may be the key of an element, with the text of a string instead of a
handle.
-/

namespace PoolScript

/-- A slot of a pool in one of its generations. -/
structure Handle where
  index : Nat
  generation : UInt32
deriving DecidableEq, Repr, Inhabited

namespace Handle

/-- The handle as text, `#index.generation`. -/
def text (h : Handle) : String :=
  s!"#{h.index}.{h.generation.toNat}"

end Handle

/-- The types of values. -/
inductive ValueType where
  | int | float | str | array
deriving DecidableEq, Repr

namespace ValueType

/-- The name of a type. -/
def name : ValueType → String
  | int => "int"
  | float => "float"
  | str => "str"
  | array => "array"

end ValueType

/-- A value. -/
inductive Value where
  | int (n : Int64)
  | float (x : Double)
  | str (h : Handle)
  | array (h : Handle)
deriving DecidableEq, Inhabited

/-- The double nearest to an integer. -/
def intToFloat (n : Int64) : Float :=
  Float.ofInt n.toInt

namespace Value

/-- The type of a value. -/
def type : Value → ValueType
  | int _ => .int
  | float _ => .float
  | str _ => .str
  | array _ => .array

/-- The integer that a value is. -/
def asInt? : Value → Option Int64
  | int n => some n
  | _ => none

/-- The number that a value is, as a double. -/
def asFloat? : Value → Option Double
  | int n => some (.ofFloat (intToFloat n))
  | float x => some x
  | _ => none

/-- Whether a number counts as true: any number but zero does. Strings and arrays are
    neither true nor false. -/
def truth? : Value → Option Bool
  | int n => some (n != 0)
  | float x => some (x.number != 0.0)
  | _ => none

/-- The number that stands for a truth value. -/
def ofBool (b : Bool) : Value :=
  int (if b then 1 else 0)

/-- Whether a value has a handle, so that its copies are counted. -/
def isCounted : Value → Bool
  | str _ | array _ => true
  | _ => false

/-- Whether a value may be the key of an element. -/
def isKey : Value → Bool
  | array _ => false
  | _ => true

end Value

/-- A number or a text. -/
inductive Scalar where
  | int (n : Int64)
  | float (x : Double)
  | str (s : String)
deriving DecidableEq

namespace Scalar

/-- The text of a scalar. -/
def text : Scalar → String
  | int n => toString n.toInt
  | float x => x.text
  | str s => s

end Scalar

end PoolScript
