import PoolScript.Heap.Elements
import PoolScript.Output

/-!
# Intrinsics

The functions that every script has. They need no frame, and consume their arguments,
also when they fail.
-/

namespace PoolScript

/-- The intrinsic functions. -/
inductive Intrinsic where
  | print | remove | size | isInt | isFloat | isStr | isArray
deriving DecidableEq

namespace Intrinsic

/-- All of them. -/
def all : List Intrinsic :=
  [print, remove, size, isInt, isFloat, isStr, isArray]

/-- The name that a script calls an intrinsic by. -/
def name : Intrinsic → String
  | print => "print"
  | remove => "remove"
  | size => "size"
  | isInt => "isint"
  | isFloat => "isfloat"
  | isStr => "isstr"
  | isArray => "isarray"

/-- The intrinsic of a name. -/
def ofName? (name : String) : Option Intrinsic :=
  all.find? (·.name == name)

/-- How many arguments an intrinsic needs. Further ones are ignored. -/
def arity : Intrinsic → Nat
  | remove => 2
  | _ => 1

/-- What the intrinsic gives for `args`. -/
def apply (i : Intrinsic) (args : List Value) (heap : Heap) (out : LineWriter) :
    Except Fault Value × Heap × LineWriter :=
  match i, args with
  | print, v :: _ =>
    match heap.display v with
    | .ok text => (.ok (.int 0), heap, out.write (text ++ "\n"))
    | .error f => (.error f, heap, out)
  | remove, .array a :: key :: _ =>
    match heap.removeValue a key with
    | (removed, heap) => (removed.map .ofBool, heap, out)
  | remove, v :: _ :: _ => (.error (.arrayExpected (some v.type)), heap, out)
  | size, .array a :: _ => ((heap.size a).map fun n => .int (.ofNat n), heap, out)
  | size, v :: _ => (.error (.arrayExpected (some v.type)), heap, out)
  | isInt, v :: _ => (.ok (.ofBool (v.type = .int)), heap, out)
  | isFloat, v :: _ => (.ok (.ofBool (v.type = .float)), heap, out)
  | isStr, v :: _ => (.ok (.ofBool (v.type = .str)), heap, out)
  | isArray, v :: _ => (.ok (.ofBool (v.type = .array)), heap, out)
  | i, args => (.error (.missingArgument i.name i.arity args.length), heap, out)

/-- What the intrinsic gives for `args`, which it consumes. -/
def call (i : Intrinsic) (args : List Value) (heap : Heap) (out : LineWriter) :
    Except Fault Value × Heap × LineWriter :=
  match i.apply args heap out with
  | (result, heap, out) => (result, heap.releaseAll args, out)

end Intrinsic

end PoolScript
