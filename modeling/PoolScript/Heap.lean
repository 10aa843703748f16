import PoolScript.Pool

/-!
# Heaps

A heap stores the strings and the arrays of a runtime in two pools. An array is a chain
of cells: a head, which carries the references to the array, and one cell for every
element, which owns a key and a value. New elements come directly after the head, so the
chain runs from the element inserted last to the one inserted first.

This module has the cells, the allocation of values and the counting of the references to
them, which is asserted to be of references that lead somewhere. `PoolScript.Heap.Release`
gives references back, and `PoolScript.Heap.Elements` reads and changes the chains.
-/

namespace PoolScript

/-- An element of an array: its key, its value and the cell of the next element. -/
structure Element where
  key : Value
  value : Value
  next : Option Handle
deriving DecidableEq

/-- A cell of a chain. -/
inductive Cell where
  | head (next : Option Handle)
  | element (e : Element)
deriving DecidableEq

namespace Cell

/-- The cell that comes next. -/
def next : Cell → Option Handle
  | head next => next
  | element e => e.next

/-- The cell with another one coming next. -/
def withNext (next : Option Handle) : Cell → Cell
  | head _ => head next
  | element e => element { e with next }

end Cell

/-- Where strings and arrays live. -/
structure Heap where
  strings : Pool String
  cells : Pool Cell

namespace Heap

/-- More slots than this no pool of a heap has. The number of slots fits into thirty-two bits then,
    as `Pool.clear` and the handles need it. Where more is allowed this is all there is here. -/
def maxSlots : Nat :=
  UInt32.size - 1

/-- The heap with nothing in it, and with room for so many strings and cells. -/
def empty (strings cells : Nat) : Heap :=
  ⟨.empty "string" (min strings maxSlots), .empty "array" (min cells maxSlots)⟩

/-- The heap with everything in it given up. -/
def clear : Heap → Heap
  | ⟨strings, cells⟩ => ⟨strings.clear, cells.clear⟩

/-! ### Allocation -/

/-- A new string. -/
def allocString (text : String) : Heap → Except Fault Value × Heap
  | ⟨strings, cells⟩ =>
    match strings.alloc text with
    | (h, strings) => (h.map .str, ⟨strings, cells⟩)

/-- A new array without elements. -/
def allocArray : Heap → Except Fault Value × Heap
  | ⟨strings, cells⟩ =>
    match cells.alloc (.head none) with
    | (h, cells) => (h.map .array, ⟨strings, cells⟩)

/-- The value of a scalar: a number, or a new string. -/
def allocScalar (s : Scalar) (heap : Heap) : Except Fault Value × Heap :=
  match s with
  | .int n => (.ok (.int n), heap)
  | .float x => (.ok (.float x), heap)
  | .str text => heap.allocString text

/-! ### Counting and pinning -/

/-- A copy of the value `v`, whose handle `h` is asserted to lead somewhere. -/
def copied (v : Value) (what : Referent) (h : Handle) : Except Fault Bool → Except Fault Value
  | .ok true => .ok v
  | .ok false => .error (.aborted (.retainsLive what h))
  | .error f => .error f

/-- A copy of `v`, with one more reference counted to what it refers to. -/
def retain (v : Value) (heap : Heap) : Except Fault Value × Heap :=
  match v, heap with
  | .str h, ⟨strings, cells⟩ =>
    match strings.retain h with
    | (found, strings) => (copied v .string h found, ⟨strings, cells⟩)
  | .array h, ⟨strings, cells⟩ =>
    match cells.retain h with
    | (found, cells) => (copied v .array h found, ⟨strings, cells⟩)
  | _, heap => (.ok v, heap)

/-- Pins what `v` refers to. -/
def pin (v : Value) (heap : Heap) : Heap :=
  match v, heap with
  | .str h, ⟨strings, cells⟩ => ⟨(strings.pin h).2, cells⟩
  | .array h, ⟨strings, cells⟩ => ⟨strings, (cells.pin h).2⟩
  | _, heap => heap

/-- The number of references to what `v` refers to. -/
def refs? (heap : Heap) : Value → Option Nat
  | .str h => heap.strings.refs? h
  | .array h => heap.cells.refs? h
  | _ => none

/-- Whether what `v` refers to is pinned. -/
def isPinned? (heap : Heap) : Value → Option Bool
  | .str h => heap.strings.isPinned? h
  | .array h => heap.cells.isPinned? h
  | _ => none

/-- Whether what `v` refers to is there. Numbers always are. -/
def isLive (heap : Heap) : Value → Bool
  | .str h => heap.strings.isLive h
  | .array h => heap.cells.isLive h
  | _ => true

/-- How many strings there are. -/
def liveStrings (heap : Heap) : Nat :=
  heap.strings.live

/-- How many cells there are, heads and elements. -/
def liveCells (heap : Heap) : Nat :=
  heap.cells.live

/-! ### Strings -/

/-- The text of the string `h`. -/
def str (heap : Heap) (h : Handle) : Except Fault String :=
  match heap.strings.get? h with
  | some text => .ok text
  | none => .error (.invalidHandle .string)

/-- The text of a value that is a string. -/
def text? (heap : Heap) : Value → Option String
  | .str h => heap.strings.get? h
  | _ => none

/-- The scalar that a value is. Arrays are none. -/
def scalar (heap : Heap) : Value → Except Fault Scalar
  | .int n => .ok (.int n)
  | .float x => .ok (.float x)
  | .str h => (heap.str h).map .str
  | .array _ => .error (.typeMismatch .key .array)

/-! ### Cells -/

/-- The element in the cell `cell`. -/
def element? (heap : Heap) (cell : Handle) : Option Element :=
  match heap.cells.get? cell with
  | some (.element e) => some e
  | _ => none

/-- The cell of the first element of the array `h`. -/
def first (heap : Heap) (h : Handle) : Except Fault (Option Handle) :=
  match heap.cells.get? h with
  | some (.head next) => .ok next
  | _ => .error (.invalidHandle .array)

/-- The cell after the cell `cell` of an element. -/
def next? (heap : Heap) (cell : Handle) : Option Handle :=
  (heap.element? cell).bind (·.next)

end Heap

end PoolScript
