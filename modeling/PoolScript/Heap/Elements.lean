import PoolScript.Heap.Release

/-!
# The elements of arrays

An array is read as the list of its elements in the order of its chain. A key is found
by type and content: strings by their text, doubles as numbers, so that `0.0` finds
`-0.0` and nothing finds a NaN.

A key that is found keeps its place and gets another value; one that is not found comes
to the front. Values that are moved into an array are given back when there is no way to
put them there.
-/

namespace PoolScript.Heap

/-! ### Walking the chain -/

/-- More cells than this no chain has. -/
def longest (heap : Heap) : Nat :=
  heap.cells.slots.size

/-- The elements from `link` on, `n` of them at most. -/
def elementsFrom (heap : Heap) : Nat → Option Handle → List Element
  | n + 1, some h =>
    match heap.element? h with
    | some e => e :: elementsFrom heap n e.next
    | none => []
  | _, _ => []

/-- The elements of the array `array`. -/
def elements (heap : Heap) (array : Handle) : Except Fault (List Element) :=
  (heap.first array).map (heap.elementsFrom heap.longest)

/-- How many elements the array `array` has. -/
def size (heap : Heap) (array : Handle) : Except Fault Nat :=
  (heap.elements array).map List.length

/-- Whether the key of an element is the one that is looked for. -/
def keyMatches (heap : Heap) (key : Value) (wanted : Scalar) : Bool :=
  match key, wanted with
  | .int a, .int b => a == b
  | .float a, .float b => a.number == b.number
  | .str h, .str b => heap.strings.get? h == some b
  | _, _ => false

/-- The first cell from `link` on whose key is `key`, among `n` cells, with its element. -/
def findFrom (heap : Heap) (key : Scalar) :
    Nat → Option Handle → Except Fault (Option (Handle × Element))
  | _, none => .ok none
  | 0, some _ => .error (.invalidHandle .element)
  | n + 1, some h =>
    match heap.element? h with
    | some e => if heap.keyMatches e.key key then .ok (some (h, e)) else findFrom heap key n e.next
    | none => .error (.invalidHandle .element)

/-- The cell of the array `array` whose key is `key`, with its element. -/
def find (heap : Heap) (array : Handle) (key : Scalar) :
    Except Fault (Option (Handle × Element)) :=
  match heap.first array with
  | .ok link => heap.findFrom key heap.longest link
  | .error f => .error f

/-- The same for a key that is a value. -/
def findValue (heap : Heap) (array : Handle) (key : Value) :
    Except Fault (Option (Handle × Element)) :=
  match heap.scalar key with
  | .ok s => heap.find array s
  | .error f => .error f

/-! ### Reading -/

/-- The value of `key` in the array `array`. -/
def get? (heap : Heap) (array : Handle) (key : Scalar) : Except Fault (Option Value) :=
  (heap.find array key).map fun found => found.map (·.2.value)

/-- A copy of the value of `key` in the array `array`, with one more reference counted to it. -/
def fetch (array : Handle) (key : Value) (heap : Heap) : Except Fault (Option Value) × Heap :=
  match heap.findValue array key with
  | .ok (some (_, e)) =>
    match heap.retain e.value with
    | (copy, heap) => (copy.map some, heap)
  | .ok none => (.ok none, heap)
  | .error f => (.error f, heap)

/-- Copies of the key and the value in the cell `cell`, with one more reference counted to each. -/
def entry (cell : Handle) (heap : Heap) : Except Fault (Option (Value × Value)) × Heap :=
  match heap.element? cell with
  | some e =>
    match heap.retain e.key with
    | (.error f, heap) => (.error f, heap)
    | (.ok key, heap) =>
      match heap.retain e.value with
      | (.ok value, heap) => (.ok (some (key, value)), heap)
      -- The assertion that failed aborts the run. The copy is given back so that the counts agree.
      | (.error f, heap) => (.error f, heap.release key)
  | none => (.ok none, heap)

/-! ### Writing -/

/-- Changes the cell `h`. -/
def modifyCell (h : Handle) (f : Cell → Cell) : Heap → Heap
  | ⟨strings, cells⟩ => ⟨strings, cells.modify h f⟩

/-- Puts `key` and `value` in front of the elements of `array`, which begin at `link`. -/
def insertFirst (array : Handle) (link : Option Handle) (key value : Value) :
    Heap → Except Fault Unit × Heap
  | ⟨strings, cells⟩ =>
    match cells.alloc (.element ⟨key, value, link⟩) with
    | (.ok h, cells) => (.ok (), ⟨strings, cells.modify array (·.withNext (some h))⟩)
    | (.error f, cells) => (.error f, ⟨strings, cells⟩)

/-- Moves `key` and `value` into the array `array`. Whether there is room for a new element is
    known before it is made: from then on nobody would give `key` and `value` back. -/
def set (array : Handle) (key value : Value) (heap : Heap) : Except Fault Unit × Heap :=
  match heap.findValue array key with
  | .ok (some (h, _)) =>
    match heap.element? h with
    | some e =>
      (.ok (), (heap.modifyCell h fun _ => .element { e with value }).releaseAll [e.value, key])
    | none => (.error (.invalidHandle .element), heap.releaseAll [key, value])
  | .ok none =>
    if heap.cells.isFull then
      (.error (.poolExhausted heap.cells.name heap.cells.capacity), heap.releaseAll [key, value])
    else
      match heap.first array with
      | .ok link => heap.insertFirst array link key value
      | .error f => (.error f, heap)
  | .error f => (.error f, heap.releaseAll [key, value])

/-- The cell that leads to `target`, among `n` cells from `link` on, which comes after `before`. -/
def leadingTo (heap : Heap) (target : Handle) : Nat → Handle → Option Handle → Option Handle
  | n + 1, before, some h =>
    if h = target then some before else leadingTo heap target n h (heap.next? h)
  | _, _, _ => none

/-- Takes the element `e` in the cell `h` out of the array `array`, whose elements begin at
    `link`. -/
def unlink (array : Handle) (link : Option Handle) (h : Handle) (e : Element) (heap : Heap) :
    Except Fault Unit × Heap :=
  match heap.leadingTo h heap.longest array link with
  | some before =>
    match heap.modifyCell before (·.withNext e.next) with
    | ⟨strings, cells⟩ =>
      (.ok (), releaseAll [e.key, e.value] ⟨strings, (cells.reclaim h).2⟩)
  | none => (.error (.invalidHandle .element), heap)

/-- Takes the element with the key `key` out of the array `array`. Says whether there was
    one. -/
def remove (array : Handle) (key : Scalar) (heap : Heap) : Except Fault Bool × Heap :=
  match heap.find array key with
  | .ok (some (h, e)) =>
    match heap.first array with
    | .ok link =>
      match heap.unlink array link h e with
      | (.ok (), heap) => (.ok true, heap)
      | (.error f, heap) => (.error f, heap)
    | .error f => (.error f, heap)
  | .ok none => (.ok false, heap)
  | .error f => (.error f, heap)

/-- The same for a key that is a value. -/
def removeValue (array : Handle) (key : Value) (heap : Heap) : Except Fault Bool × Heap :=
  match heap.scalar key with
  | .ok s => heap.remove array s
  | .error f => (.error f, heap)

/-! ### Text -/

/-- The text of a value inside an array. Arrays inside arrays are left out. -/
def innerText (heap : Heap) : Value → Except Fault String
  | .array _ => .ok "\x7b...\x7d"
  | v => (heap.scalar v).map Scalar.text

/-- The text of an element. -/
def elementText (heap : Heap) (e : Element) : Except Fault String :=
  match heap.innerText e.key, heap.innerText e.value with
  | .ok key, .ok value => .ok (key ++ ": " ++ value)
  | .error f, _ => .error f
  | _, .error f => .error f

/-- The text of a value, as `print` writes it. -/
def display (heap : Heap) : Value → Except Fault String
  | .array h =>
    match heap.elements h with
    | .ok es =>
      (es.mapM heap.elementText).map fun texts => "\x7b" ++ ", ".intercalate texts ++ "\x7d"
    | .error f => .error f
  | v => (heap.scalar v).map Scalar.text

end PoolScript.Heap
