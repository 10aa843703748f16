import PoolScript.Heap.Elements

/-!
# Views of values

A view is what a value is at a moment, with the texts of strings and the elements of
arrays in place of handles, down to a given depth of arrays.
-/

namespace PoolScript

/-- What a value is, read from a heap. -/
inductive View where
  | int (n : Int64)
  | float (x : Double)
  | str (text : String)
  | array (entries : List (View × View))
  /-- An array deeper than the depth asked for. -/
  | elided
  /-- A string or an array that is no more. -/
  | stale (type : ValueType)

namespace Heap

/-- What `v` is, with arrays written down to the depth `depth`. -/
def view (heap : Heap) (depth : Nat) (v : Value) : View :=
  match v with
  | .int n => .int n
  | .float x => .float x
  | .str h =>
    match heap.strings.get? h with
    | some text => .str text
    | none => .stale .str
  | .array h =>
    match heap.elements h with
    | .error _ => .stale .array
    | .ok es =>
      match depth with
      | 0 => .elided
      | depth + 1 => .array (es.map fun e => (heap.view depth e.key, heap.view depth e.value))

end Heap

end PoolScript
