import PoolScript.Frame
import PoolScript.Heap.View

/-!
# Host functions

A host adds functions to a script. A host function works on the frame of its call, which
holds its parameters: it makes *requests* by the names of variables, one after another,
and every reply decides how it goes on. What it leaves in the result variable is what the
call returns.

A request never shows a handle. One that fails leaves the frame and the heap as they
were, but for an element stored in a variable that is not set: the variable has become an
empty array by the time that storing fails.

Between requests it may *look* around, which changes neither the frame nor the heap. It
walks the elements of arrays with cursors, which it knows by their numbers. A cursor stays
with its element, also when others come and go; it is at nothing once the element is gone.
-/

namespace PoolScript

/-- What a host function can ask for. -/
inductive HostRequest where
  /-- The value of a variable, with arrays down to a depth. -/
  | get (name : String) (depth : Nat)
  | has (name : String)
  | typeOf (name : String)
  | getInt (name : String)
  | getFloat (name : String)
  | getStr (name : String)
  /-- The text of the value of a variable, if it is a string. -/
  | getText (name : String)
  /-- How many references there are to the value of a variable. -/
  | refs (name : String)
  /-- How many strings and cells there are. -/
  | live
  | setInt (name : String) (n : Int64)
  | setFloat (name : String) (x : Double)
  | setStr (name : String) (text : String)
  | makeArray (name : String)
  | arrayGet (name : String) (key : Scalar) (depth : Nat)
  | arraySet (name : String) (key value : Scalar)
  | arrayRemove (name : String) (key : Scalar)
  | arraySize (name : String)
  /-- The elements of an array, with arrays among them down to a depth. -/
  | entries (name : String) (depth : Nat)
deriving DecidableEq

namespace HostRequest

/-- What a request is answered with. -/
@[reducible] def Reply : HostRequest → Type
  | get _ _ => View
  | has _ => Bool
  | typeOf _ => Option ValueType
  | getInt _ => Int64
  | getFloat _ => Double
  | getStr _ => String
  | getText _ => Option String
  | refs _ => Option Nat
  | live => Nat × Nat
  | setInt _ _ | setFloat _ _ | setStr _ _ | makeArray _ => Unit
  | arrayGet _ _ _ => View
  | arraySet _ _ _ => Unit
  | arrayRemove _ _ => Bool
  | arraySize _ => Nat
  | entries _ _ => List (View × View)

end HostRequest

/-- Where a host function finds a value: in a variable, in the element that a cursor is at,
    or in the element number `i` of an array that is found somewhere. -/
inductive Place where
  | var (name : String)
  | keyAt (cursor : Nat)
  | valueAt (cursor : Nat)
  | keyIn (array : Place) (i : Nat)
  | valueIn (array : Place) (i : Nat)
deriving DecidableEq

/-- What a host function can look at. -/
inductive HostLook where
  /-- A new cursor at the first element of the array in a variable. -/
  | first (name : String)
  /-- A new cursor at the element after the one that a cursor is at. -/
  | next (cursor : Nat)
  /-- Whether two cursors are at the same element. -/
  | sameElement (a b : Nat)
  /-- The value at a place, with arrays down to a depth. -/
  | view (p : Place) (depth : Nat)
  /-- How many references there are to the value at a place. -/
  | refs (p : Place)
  | isPinned (p : Place)
  /-- Whether the values at two places are the same number, string or array. -/
  | same (p q : Place)
deriving DecidableEq

namespace HostLook

/-- What a look shows. A new cursor is shown as its number. -/
@[reducible] def Reply : HostLook → Type
  | first _ => Except Fault (Option Nat)
  | next _ => Option Nat
  | sameElement _ _ => Bool
  | view _ _ => Option View
  | refs _ => Option Nat
  | isPinned _ => Option Bool
  | same _ _ => Bool

end HostLook

/-- What a host function does: requests and looks whose replies choose what comes next, and
    lines noted in the journal of the host, up to its end. -/
inductive HostProgram where
  | done
  | raise (f : Fault)
  | request (r : HostRequest) (next : Except Fault r.Reply → HostProgram)
  | look (l : HostLook) (next : l.Reply → HostProgram)
  | note (line : String) (next : HostProgram)

/-- A function of the host. -/
structure HostFunction where
  name : String
  params : List String
  body : HostProgram

/-! ### Answering requests -/

namespace HostRequest

/-- The value of the variable `name`, which has to be set. -/
def value? (frame : Frame) (name : String) : Except Fault Value :=
  match frame.get? name with
  | some v => .ok v
  | none => .error (.undefinedVariable name)

/-- The array in the variable `name`. -/
def array? (frame : Frame) (name : String) : Except Fault Handle :=
  match value? frame name with
  | .ok (.array h) => .ok h
  | .ok v => .error (.arrayExpected (some v.type))
  | .error f => .error f

/-- Gives the variable `name` the value `v`. -/
def bind (name : String) (v : Value) (heap : Heap) (frame : Frame) : Heap × Frame :=
  match frame.set name v with
  | (old, frame) => (heap.releaseAll old.toList, frame)

/-- Gives the variable `name` a value that may have failed to be made. -/
def bindNew (name : String) (made : Except Fault Value × Heap) (frame : Frame) :
    Except Fault Unit × Heap × Frame :=
  match made with
  | (.ok v, heap) => (.ok (), bind name v heap frame)
  | (.error f, heap) => (.error f, heap, frame)

/-- Stores `value` under `key` in the array in the variable `name`. -/
def store (name : String) (key value : Scalar) (heap : Heap) (frame : Frame) :
    Except Fault Unit × Heap :=
  match heap.allocScalar key with
  | (.error f, heap) => (.error f, heap)
  | (.ok k, heap) =>
    match heap.allocScalar value with
    | (.error f, heap) => (.error f, heap.release k)
    | (.ok v, heap) =>
      match frame.get? name with
      | some (.array h) => heap.set h k v
      | other => (.error (.arrayExpected (other.map Value.type)), heap.releaseAll [k, v])

/-- Answers a request of a function whose call has the frame `frame`. -/
def answer (r : HostRequest) (heap : Heap) (frame : Frame) :
    Except Fault r.Reply × Heap × Frame :=
  match r with
  | get name depth => ((value? frame name).map (heap.view depth), heap, frame)
  | has name => (.ok (frame.contains name), heap, frame)
  | typeOf name => (.ok ((frame.get? name).map Value.type), heap, frame)
  | getInt name =>
    match value? frame name with
    | .ok (.int n) => (.ok n, heap, frame)
    | .ok v => (.error (.typeMismatch .int v.type), heap, frame)
    | .error f => (.error f, heap, frame)
  | getFloat name =>
    match value? frame name with
    | .ok v =>
      match v.asFloat? with
      | some x => (.ok x, heap, frame)
      | none => (.error (.typeMismatch .float v.type), heap, frame)
    | .error f => (.error f, heap, frame)
  | getStr name =>
    match value? frame name with
    | .ok (.str h) => (heap.str h, heap, frame)
    | .ok v => (.error (.typeMismatch .str v.type), heap, frame)
    | .error f => (.error f, heap, frame)
  | getText name => ((value? frame name).map heap.text?, heap, frame)
  | refs name => ((value? frame name).map heap.refs?, heap, frame)
  | live => (.ok (heap.liveStrings, heap.liveCells), heap, frame)
  | setInt name n => (.ok (), bind name (.int n) heap frame)
  | setFloat name x => (.ok (), bind name (.float x) heap frame)
  | setStr name text => bindNew name (heap.allocString text) frame
  | makeArray name => bindNew name heap.allocArray frame
  | arrayGet name key depth =>
    match array? frame name with
    | .ok h =>
      match heap.get? h key with
      | .ok (some v) => (.ok (heap.view depth v), heap, frame)
      | .ok none => (.error (.keyNotFound key.text), heap, frame)
      | .error f => (.error f, heap, frame)
    | .error f => (.error f, heap, frame)
  | arraySet name key value =>
    let made := if frame.contains name then (.ok (), heap, frame)
      else bindNew name heap.allocArray frame
    match made with
    | (.ok (), heap, frame) =>
      match store name key value heap frame with
      | (result, heap) => (result, heap, frame)
    | (.error f, heap, frame) => (.error f, heap, frame)
  | arrayRemove name key =>
    match array? frame name with
    | .ok h =>
      match heap.remove h key with
      | (removed, heap) => (removed, heap, frame)
    | .error f => (.error f, heap, frame)
  | arraySize name =>
    match array? frame name with
    | .ok h => (heap.size h, heap, frame)
    | .error f => (.error f, heap, frame)
  | entries name depth =>
    match array? frame name with
    | .ok h =>
      let pair (e : Element) := (heap.view depth e.key, heap.view depth e.value)
      ((heap.elements h).map (·.map pair), heap, frame)
    | .error f => (.error f, heap, frame)

end HostRequest

/-! ### Looking around -/

namespace Place

/-- The element number `i` of an array. -/
def elementIn (heap : Heap) (i : Nat) : Value → Option Element
  | .array h =>
    match heap.elements h with
    | .ok es => es[i]?
    | .error _ => none
  | _ => none

/-- The value at a place, for a function whose call has the frame `frame` and whose cursors
    are at the cells `cursors`. -/
def value? (heap : Heap) (frame : Frame) (cursors : List Handle) : Place → Option Value
  | var name => frame.get? name
  | keyAt c => (cursors[c]?.bind heap.element?).map (·.key)
  | valueAt c => (cursors[c]?.bind heap.element?).map (·.value)
  | keyIn p i => ((value? heap frame cursors p).bind (elementIn heap i)).map (·.key)
  | valueIn p i => ((value? heap frame cursors p).bind (elementIn heap i)).map (·.value)

end Place

namespace HostLook

/-- Sets a new cursor to `cell`, if that is a cell. -/
def setCursor (cell : Option Handle) (cursors : List Handle) : Option Nat × List Handle :=
  match cell with
  | some h => (some cursors.length, cursors ++ [h])
  | none => (none, cursors)

/-- Whether two values are the same number, string or array. -/
def sameValue : Value → Value → Bool
  | .int a, .int b => a == b
  | .float a, .float b => a.number == b.number
  | .str a, .str b => a == b
  | .array a, .array b => a == b
  | _, _ => false

/-- What a function sees whose call has the frame `frame`, and the cells that its cursors are
    at afterwards. -/
def see (l : HostLook) (heap : Heap) (frame : Frame) (cursors : List Handle) :
    l.Reply × List Handle :=
  match l with
  | first name =>
    match HostRequest.array? frame name with
    | .ok h =>
      match heap.first h with
      | .ok cell =>
        match setCursor cell cursors with
        | (n, cursors) => (.ok n, cursors)
      | .error f => (.error f, cursors)
    | .error f => (.error f, cursors)
  | next c => setCursor (cursors[c]?.bind heap.next?) cursors
  | sameElement a b => (cursors[a]? == cursors[b]?, cursors)
  | view p depth => ((p.value? heap frame cursors).map (heap.view depth), cursors)
  | refs p => ((p.value? heap frame cursors).bind heap.refs?, cursors)
  | isPinned p => ((p.value? heap frame cursors).bind heap.isPinned?, cursors)
  | same p q =>
    match p.value? heap frame cursors, q.value? heap frame cursors with
    | some v, some w => (sameValue v w, cursors)
    | _, _ => (false, cursors)

end HostLook

namespace HostProgram

/-- Runs a host function on the frame of its call, with its cursors at the cells `cursors`.
    New lines of the journal come in front. -/
def run (p : HostProgram) (heap : Heap) (frame : Frame) (cursors : List Handle)
    (journal : List String) : Except Fault Unit × Heap × Frame × List String :=
  match p with
  | done => (.ok (), heap, frame, journal)
  | raise f => (.error f, heap, frame, journal)
  | request r next =>
    match r.answer heap frame with
    | (reply, heap, frame) => (next reply).run heap frame cursors journal
  | look l next =>
    match l.see heap frame cursors with
    | (reply, cursors) => (next reply).run heap frame cursors journal
  | note line next => next.run heap frame cursors (line :: journal)

end HostProgram

end PoolScript
