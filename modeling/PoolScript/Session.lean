import PoolScript.Limits
import PoolScript.Machine

/-!
# Sessions

A session is a loaded program with the host functions registered for it and the heap that
its runs and calls leave behind. A *run* calls `main` on a heap that has been cleared; a
*call* calls any function with values that the host holds, and gives the host a value to
hold. Neither leaves a frame behind. When a run fails, the heap is cleared again; when a
call fails, only the variables of the calls that were open are given up.
-/

namespace PoolScript

/-- A loaded program and its state. -/
structure Session where
  limits : Limits
  functions : Table Func
  host : Registry
  platform : Platform
  state : State
  /-- Why the last run failed, if it did. -/
  lastError : Option Failure

namespace Session

/-- A session for `program`. Of several functions of one name the last counts. -/
def new (program : Program) (limits : Limits) (platform : Platform := .plain) : Session where
  limits
  functions := .ofList (program.funcs.map fun f => (f.name, f))
  host := .empty
  platform
  state := .empty limits.stringPool limits.arrayPool
  lastError := none

/-- Registers a table of host functions. -/
def register (fs : List HostFunction) : Session → Except Fault Unit × Session
  | ⟨limits, functions, host, platform, state, lastError⟩ =>
    match host.register fs with
    | (result, host) => (result, ⟨limits, functions, host, platform, state, lastError⟩)

/-- Whether the program has a function `name`. -/
def hasFunction (s : Session) (name : String) : Bool :=
  s.functions.contains name

/-- Changes the state. -/
def onState {α : Type} (f : State → α × State) : Session → α × Session
  | ⟨limits, functions, host, platform, state, lastError⟩ =>
    match f state with
    | (a, state) => (a, ⟨limits, functions, host, platform, state, lastError⟩)

/-- Changes the heap. -/
def onHeap {α : Type} (f : Heap → α × Heap) (s : Session) : α × Session :=
  s.onState (State.onHeap f)

/-- Gives a value of the host back. -/
def release (v : Value) (s : Session) : Session :=
  (s.onState fun state => ((), state.releaseAll [v])).2

/-- Lets a new sink have what is printed from now on. -/
def setSink (s : Session) : Session :=
  (s.onState fun state => ((), state.onOut .setSink)).2

/-- Calls `name` and goes on until the call has ended. -/
def callToEnd (code : Code) (fuel : Nat) (name : String) (args : List Value) (state : State) :
    Option (Except Failure Value × State) :=
  match Machine.call code name name args .halt state with
  | (control, state) => Machine.run code fuel control state

/-- Runs `main`. -/
def run (fuel : Nat) : Session → Option Session
  | ⟨limits, functions, host, platform, state, _⟩ =>
    let code : Code := ⟨functions, host, limits.maxDepth, platform⟩
    match callToEnd code fuel "main" [] (state.reset platform.order) with
    | some (.ok v, state) =>
      some ⟨limits, functions, host, platform, (state.releaseAll [v]).onOut .flush, none⟩
    | some (.error f, state) =>
      some ⟨limits, functions, host, platform, (state.reset platform.order).onOut .flush, some f⟩
    | none => none

/-- Calls the function `name` with arguments of the host, which it consumes. -/
def call (fuel : Nat) (name : String) (args : List Value) :
    Session → Option (Except Failure Value × Session)
  | ⟨limits, functions, host, platform, state, lastError⟩ =>
    let code : Code := ⟨functions, host, limits.maxDepth, platform⟩
    match callToEnd code fuel name args state with
    | some (.ok v, state) =>
      some (.ok v, ⟨limits, functions, host, platform, state.onOut .flush, lastError⟩)
    | some (.error f, state) =>
      some (.error f, ⟨limits, functions, host, platform,
        (state.unwind platform.order).onOut .flush, lastError⟩)
    | none => none

/-- The session, in words. -/
def describe (s : Session) : String :=
  s!"Runtime \x7b functions: {s.functions.size}, foreign: {s.host.size}, " ++
    s!"depth: {s.state.frames.length}, config: {s.limits.describe}, .. \x7d"

end Session

end PoolScript
