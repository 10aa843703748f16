import PoolScript.Host
import PoolScript.Output
import PoolScript.Platform

/-!
# The state of a machine

What a running script changes: the heap, the frames of the calls that have not returned,
the printed lines and the journal of the host. The operations here are those that
statements and calls are made of. Each consumes the values that it is given, also when it
fails. Calls give their variables up in the order that the platform has for it.
-/

namespace PoolScript

/-- The state of a machine. The frame of the innermost call is in front, and so is the
    last line of the journal. -/
structure State where
  heap : Heap
  frames : List Frame
  out : LineWriter
  journal : List String

namespace State

/-- The state before anything has run. -/
def empty (strings cells : Nat) : State :=
  ⟨.empty strings cells, [], .empty, []⟩

/-- Changes the heap. -/
def onHeap {α : Type} (f : Heap → α × Heap) : State → α × State
  | ⟨heap, frames, out, journal⟩ =>
    match f heap with
    | (a, heap) => (a, ⟨heap, frames, out, journal⟩)

/-- Changes the writer of printed lines. -/
def onOut (f : LineWriter → LineWriter) : State → State
  | ⟨heap, frames, out, journal⟩ => ⟨heap, frames, f out, journal⟩

/-- Gives values back. -/
def releaseAll (vs : List Value) : State → State
  | ⟨heap, frames, out, journal⟩ => ⟨heap.releaseAll vs, frames, out, journal⟩

/-! ### Variables -/

/-- The value of the variable `name` of the innermost call, if it is set. -/
def lookup (s : State) (name : String) : Except Fault (Option Value) :=
  match s.frames with
  | frame :: _ => .ok (frame.get? name)
  | [] => .error (.invalidHandle .frame)

/-- A copy of the value of the variable `name`, with one more reference counted to it. -/
def load (name : String) : State → Except Fault Value × State
  | ⟨heap, frame :: frames, out, journal⟩ =>
    match frame.get? name with
    | some v =>
      match heap.retain v with
      | (copy, heap) => (copy, ⟨heap, frame :: frames, out, journal⟩)
    | none => (.error (.undefinedVariable name), ⟨heap, frame :: frames, out, journal⟩)
  | s => (.error (.invalidHandle .frame), s)

/-- Gives the variable `name` the value `v`. -/
def bind (name : String) (v : Value) : State → Except Fault Unit × State
  | ⟨heap, frame :: frames, out, journal⟩ =>
    match frame.set name v with
    | (old, frame) => (.ok (), ⟨heap.releaseAll old.toList, frame :: frames, out, journal⟩)
  | s => (.error (.invalidHandle .frame), s.releaseAll [v])

/-! ### Elements -/

/-- The value of `key` in the array in the variable `name`, with one more reference
    counted to it. The key stays. -/
def element (name : String) (key : Value) (s : State) : Except Fault Value × State :=
  match s.lookup name with
  | .ok (some (.array h)) =>
    match s.onHeap (Heap.fetch h key) with
    | (.ok (some v), s) => (.ok v, s)
    | (.ok none, s) =>
      match s.heap.display key with
      | .ok text => (.error (.keyNotFound text), s)
      | .error f => (.error f, s)
    | (.error f, s) => (.error f, s)
  | .ok (some v) => (.error (.arrayExpected (some v.type)), s)
  | .ok none => (.error (.undefinedVariable name), s)
  | .error f => (.error f, s)

/-- The value of `key` in the array in the variable `name`. -/
def loadElement (name : String) (key : Value) (s : State) : Except Fault Value × State :=
  match s.element name key with
  | (result, s) => (result, s.releaseAll [key])

/-- Lets the variable `name` be a new array, unless it is set. -/
def ensureArray (name : String) : State → Except Fault Unit × State
  | ⟨heap, frame :: frames, out, journal⟩ =>
    if frame.contains name then (.ok (), ⟨heap, frame :: frames, out, journal⟩)
    else
      match heap.allocArray with
      | (.ok v, heap) => bind name v ⟨heap, frame :: frames, out, journal⟩
      | (.error f, heap) => (.error f, ⟨heap, frame :: frames, out, journal⟩)
  | s => (.error (.invalidHandle .frame), s)

/-- Stores `value` under `key` in the array in the variable `name`. A variable that is not
    set becomes an array. -/
def storeElement (name : String) (key value : Value) (s : State) : Except Fault Unit × State :=
  match s.ensureArray name with
  | (.error f, s) => (.error f, s.releaseAll [key, value])
  | (.ok (), s) =>
    match s.lookup name with
    | .ok (some (.array h)) => s.onHeap (Heap.set h key value)
    | .ok other => (.error (.arrayExpected (other.map Value.type)), s.releaseAll [key, value])
    | .error f => (.error f, s.releaseAll [key, value])

/-! ### Calls -/

/-- Binds parameters to arguments as far as there are both, and gives up the arguments
    that are left. -/
def bindParams (heap : Heap) (frame : Frame) : List String → List Value → Heap × Frame
  | p :: ps, v :: vs =>
    match frame.set p v with
    | (old, frame) => bindParams (heap.releaseAll old.toList) frame ps vs
  | _, vs => (heap.releaseAll vs, frame)

/-- Enters a call, unless `depth` calls have not returned yet. -/
def enter (depth : Nat) (function : String) (params : List String) (args : List Value) :
    State → Except Fault Unit × State
  | ⟨heap, frames, out, journal⟩ =>
    if depth ≤ frames.length then
      (.error (.stackOverflow depth), ⟨heap.releaseAll args, frames, out, journal⟩)
    else
      match bindParams heap (.empty function) params args with
      | (heap, frame) => (.ok (), ⟨heap, frame :: frames, out, journal⟩)

/-- Leaves the innermost call with what it returns, zero if it did not say. The result is
    pinned while the other variables are given up. -/
def leave (order : TearDown) : State → Value × State
  | ⟨heap, frame :: frames, out, journal⟩ =>
    match frame.take Frame.resultName with
    | (result, frame) =>
      match heap.pinReturn (result.getD (.int 0)) with
      | (pinned, heap) =>
        match pinned.adopt (heap.releaseAll (order.list heap.slots frame)) with
        | (v, heap) => (v, ⟨heap, frames, out, journal⟩)
  | s => (.int 0, s)

/-- Gives up the variables of all calls, those of the innermost call first. -/
def unwind (order : TearDown) : State → State
  | ⟨heap, frames, out, journal⟩ =>
    let giveUp (heap : Heap) (frame : Frame) := heap.releaseAll (order.list heap.slots frame)
    ⟨frames.foldl giveUp heap, [], out, journal⟩

/-- The state with nothing in its heap and no call open. -/
def reset (order : TearDown) (s : State) : State :=
  match s.unwind order with
  | ⟨heap, frames, out, journal⟩ => ⟨heap.clear, frames, out, journal⟩

/-- Runs a host function on the frame of its call. -/
def runHost (p : HostProgram) : State → Except Fault Unit × State
  | ⟨heap, frame :: frames, out, journal⟩ =>
    match p.run heap frame [] journal with
    | (result, heap, frame, journal) => (result, ⟨heap, frame :: frames, out, journal⟩)
  | s => (.error (.invalidHandle .frame), s)

end State

end PoolScript
