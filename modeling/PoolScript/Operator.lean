import PoolScript.Heap.Elements
import PoolScript.Number.Binary
import PoolScript.Number.Leading

/-!
# Operators

Numbers go with numbers: two integers give an integer and wrap around, and an integer
beside a double counts as a double. A sum may also have strings in it, in one of two
ways: text on the left takes the text of what is on the right behind it, and a number on
the left adds the number that the text on the right begins with. Texts can be compared
for equality. Nothing else has a meaning.

An operator consumes its operands, also when it fails.

Where an operator gives a NaN, its sign is up to the platform, which is a parameter here
(`NaNSign`).
-/

namespace PoolScript

/-- Whether the NaN that an operator gives for two doubles has its sign bit set. -/
abbrev NaNSign := BinOp → Double → Double → Bool

/-- No NaN that is computed has its sign bit set. -/
def NaNSign.clear : NaNSign := fun _ _ _ => false

namespace BinOp

variable (sign : NaNSign)

/-- The operator on two integers. -/
def onInts (op : BinOp) (a b : Int64) : Except Fault Value :=
  match op with
  | lt => .ok (.ofBool (a < b))
  | lte => .ok (.ofBool (a ≤ b))
  | gt => .ok (.ofBool (b < a))
  | gte => .ok (.ofBool (b ≤ a))
  | eq => .ok (.ofBool (a = b))
  | neq => .ok (.ofBool (a ≠ b))
  | plus => .ok (.int (a + b))
  | minus => .ok (.int (a - b))
  | mul => .ok (.int (a * b))
  | div => if b = 0 then .error .divisionByZero else .ok (.int (a / b))
  | mod => if b = 0 then .error .divisionByZero else .ok (.int (a % b))
  | and => .ok (.ofBool (a ≠ 0 ∧ b ≠ 0))
  | or => .ok (.ofBool (a ≠ 0 ∨ b ≠ 0))

/-- The operator on two doubles. A NaN is neither less than, nor equal to, nor greater
    than anything. -/
def onFloats (op : BinOp) (x y : Double) : Except Fault Value :=
  let a := x.number
  let b := y.number
  let number (r : Float) : Value := .float (.of r (sign op x y))
  match op with
  | lt => .ok (.ofBool (a < b))
  | lte => .ok (.ofBool (a ≤ b))
  | gt => .ok (.ofBool (b < a))
  | gte => .ok (.ofBool (b ≤ a))
  | eq => .ok (.ofBool (a == b))
  | neq => .ok (.ofBool (a != b))
  | plus => .ok (number (a + b))
  | minus => .ok (number (a - b))
  | mul => .ok (number (a * b))
  | div => if b == 0.0 then .error .divisionByZero else .ok (number (a / b))
  | mod => if b == 0.0 then .error .divisionByZero else .ok (number (Number.remainder a b))
  | and => .ok (.ofBool (a != 0.0 && b != 0.0))
  | or => .ok (.ofBool (a != 0.0 || b != 0.0))

/-- The operator on two numbers. -/
def onNumbers (op : BinOp) (lhs rhs : Value) : Except Fault Value :=
  match lhs, rhs with
  | .int a, .int b => op.onInts a b
  | lhs, rhs =>
    match lhs.asFloat?, rhs.asFloat? with
    | some x, some y => op.onFloats sign x y
    | _, _ => .error (.operandMismatch op lhs.type rhs.type)

end BinOp

namespace Heap

/-- The text of `rhs` behind the text of the string `lhs`, as a new string. -/
def concat (lhs : Handle) (rhs : Value) (heap : Heap) : Except Fault Value × Heap :=
  match heap.str lhs, heap.display rhs with
  | .ok s, .ok t => heap.allocString (s ++ t)
  | .error f, _ => (.error f, heap)
  | _, .error f => (.error f, heap)

/-- Whether the strings `a` and `b` have the same text. -/
def sameText (heap : Heap) (a b : Handle) : Except Fault Bool :=
  match heap.str a, heap.str b with
  | .ok s, .ok t => .ok (s == t)
  | .error f, _ => .error f
  | _, .error f => .error f

/-- What `op` gives for `lhs` and `rhs`. -/
def operate (sign : NaNSign) (op : BinOp) (lhs rhs : Value) (heap : Heap) :
    Except Fault Value × Heap :=
  match op, lhs, rhs with
  | .plus, .str _, .array _ => (op.onNumbers sign lhs rhs, heap)
  | .plus, .str a, rhs => heap.concat a rhs
  | .plus, .int a, .str b => ((heap.str b).map fun t => .int (a + Number.leadingInt t), heap)
  | .plus, .float x, .str b =>
    let sum (y : Float) : Value := .float (.of (x.number + y) (sign .plus x y))
    ((heap.str b).map fun t => sum (Number.leadingFloat t), heap)
  | .eq, .str a, .str b => ((heap.sameText a b).map .ofBool, heap)
  | .neq, .str a, .str b => ((heap.sameText a b).map fun same => .ofBool (!same), heap)
  | op, lhs, rhs => (op.onNumbers sign lhs rhs, heap)

/-- What `op` gives for `lhs` and `rhs`, which it consumes. -/
def binary (sign : NaNSign) (op : BinOp) (lhs rhs : Value) (heap : Heap) :
    Except Fault Value × Heap :=
  match heap.operate sign op lhs rhs with
  | (result, heap) => (result, heap.releaseAll [lhs, rhs])

/-- The number `operand` with the other sign. -/
def negate (operand : Value) (heap : Heap) : Except Fault Value × Heap :=
  match operand with
  | .int n => (.ok (.int (-n)), heap)
  | .float x => (.ok (.float x.neg), heap)
  | v => (.error (.typeMismatch .number v.type), heap.release v)

end Heap

end PoolScript
