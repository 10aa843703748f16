import PoolScript.Host.Registry
import PoolScript.Machine.Control
import PoolScript.Machine.State
import PoolScript.Operator

/-!
# The machine

Scripts run step by step. A step looks at the control: an expression is taken apart or
evaluated, a value or a signal is handed to the continuation, a statement is begun, a
failure leaves one layer of the continuation behind. Steps never fail to be defined, and
a run is as many of them as its fuel allows.

* `Machine.step`: one step;
* `Machine.run`: steps until nothing is left to be done.
-/

namespace PoolScript

/-- What does not change while a script runs: the functions of the script, those of the
    host, how many calls may be open at a time, and what the platform decides. -/
structure Code where
  functions : Table Func
  host : Registry
  maxDepth : Nat
  platform : Platform

namespace Code

/-- The known function that a misspelt name may stand for. -/
def suggestion? (code : Code) (name : String) : Option String :=
  Spelling.closest? name
    (code.functions.names ++ code.host.names ++ Intrinsic.all.map Intrinsic.name) 2

end Code

namespace Machine

/-- Passes on a value, or a fault. -/
def settle (k : Cont .value) : Except Fault Value × State → Control × State
  | (.ok v, s) => (.value v k, s)
  | (.error f, s) => (.failing (.of f) k, s)

/-- Passes on a signal, or a fault. -/
def complete (signal : Signal) (k : Cont .signal) : Except Fault Unit × State → Control × State
  | (.ok (), s) => (.signal signal k, s)
  | (.error f, s) => (.failing (.of f) k, s)

/-! ### Calls -/

/-- Calls the function `callee`, which is written `name`: an intrinsic, or else a function
    of the host, or else one of the script. -/
def call (code : Code) (name callee : String) (args : List Value) (k : Cont .value) (s : State) :
    Control × State :=
  match Intrinsic.ofName? callee with
  | some i =>
    match s with
    | ⟨heap, frames, out, journal⟩ =>
      match i.call args heap out with
      | (result, heap, out) => settle k (result, ⟨heap, frames, out, journal⟩)
  | none =>
    match code.host.get? callee with
    | some f =>
      match s.enter code.maxDepth f.name f.params args with
      | (.error e, s) => (.failing (.of e) k, s)
      | (.ok (), s) =>
        match s.runHost f.body with
        | (.error e, s) => (.failing (.of e) k, s)
        | (.ok (), s) => settle k ((s.leave code.platform.order).map .ok id)
    | none =>
      match code.functions.get? callee with
      | some f =>
        match s.enter code.maxDepth f.name f.params args with
        | (.error e, s) => (.failing (.of e) k, s)
        | (.ok (), s) => (.block .absent f.body (.result k), s)
      | none =>
        (.failing (.of (.undefinedFunction name (code.suggestion? callee))) k, s.releaseAll args)

/-- The function that a call by `name` means: a variable that holds a string stands for
    the function of that name. -/
def callee (name : String) (s : State) : Except Fault String :=
  match s.lookup name with
  | .ok (some (.str h)) => s.heap.str h
  | .ok _ => .ok name
  | .error f => .error f

/-! ### Expressions -/

/-- Begins to evaluate an expression. -/
def evaluate (code : Code) (e : Expr) (k : Cont .value) (s : State) : Control × State :=
  match e with
  | .int n => (.value (.int n) k, s)
  | .float x => (.value (.float (.ofFloat x)) k, s)
  | .str text => settle k (s.onHeap (Heap.allocString text))
  | .var name => settle k (s.load name)
  | .index name sub => (.eval sub (.subscript name k), s)
  | .binary op lhs rhs => (.eval lhs (.rightOperand op rhs k), s)
  | .neg operand => (.eval operand (.negation k), s)
  | .call name args =>
    match callee name s with
    | .error f => (.failing (.of f) k, s)
    | .ok target =>
      match args with
      | [] => call code name target [] k s
      | arg :: rest => (.eval arg (.argument name target [] rest k), s)

/-! ### Loops -/

/-- Counts from `i` to `last`. -/
def countFrom (var : String) (i last : Int64) (body : List Stmt) (k : Cont .signal) (s : State) :
    Control × State :=
  if i ≤ last then
    match s.bind var (.int i) with
    | (.ok (), s) => (.block .absent body (.rangeBody var i last body k), s)
    | (.error f, s) => (.failing (.of f) k, s)
  else (.signal .normal k, s)

/-- Walks an array from the element in `cell` on. -/
def walkFrom (key value : String) (body : List Stmt) (subject : Value) (cell : Option Handle)
    (k : Cont .signal) (s : State) : Control × State :=
  match cell with
  | none => (.signal .normal k, s.releaseAll [subject])
  | some h =>
    let next := s.heap.next? h
    match s.onHeap (Heap.entry h) with
    | (.error f, s) => (.failing (.of f) k, s.releaseAll [subject])
    | (.ok none, s) => (.signal .normal k, s.releaseAll [subject])
    | (.ok (some (a, b)), s) =>
      match s.bind key a with
      | (.error f, s) => (.failing (.of f) k, s.releaseAll [b, subject])
      | (.ok (), s) =>
        match s.bind value b with
        | (.error f, s) => (.failing (.of f) k, s.releaseAll [subject])
        | (.ok (), s) =>
          (.block .absent body (.eachBody key value body subject h next k), s)

/-- The cell of the element to visit after the one in `cell`. Where the body of the loop
    took that one away, it is the element that came next before, if that is still there. -/
def nextToVisit (heap : Heap) (cell : Handle) (next : Option Handle) : Option Handle :=
  match heap.element? cell with
  | some e => e.next
  | none => next.filter fun h => (heap.element? h).isSome

/-! ### Handing on -/

/-- Hands a value to a continuation. -/
def receive (code : Code) (v : Value) (k : Cont .value) (s : State) : Control × State :=
  match k with
  | .halt => (.value v .halt, s)
  | .rightOperand op rhs k => (.eval rhs (.operator op v k), s)
  | .operator op lhs k => settle k (s.onHeap (Heap.binary code.platform.nanSign op lhs v))
  | .negation k => settle k (s.onHeap (Heap.negate v))
  | .subscript name k => settle k (s.loadElement name v)
  | .argument name target given [] k => call code name target (v :: given).reverse k s
  | .argument name target given (arg :: rest) k =>
    (.eval arg (.argument name target (v :: given) rest k), s)
  | .test line body rest k =>
    match v.truth? with
    | some true => (.block .absent body (.sequence line .taken rest k), s.releaseAll [v])
    | some false => (.block .untaken rest k, s.releaseAll [v])
    | none =>
      (.failing ((Failure.of (.typeMismatch .condition v.type)).atLine line) k, s.releaseAll [v])
  | .discard k => (.signal .normal k, s.releaseAll [v])
  | .assign name k => complete .normal k (s.bind name v)
  | .storedValue name e k => (.eval e (.store name v k), s)
  | .store name key k => complete .normal k (s.storeElement name key v)
  | .loopTest cond body k =>
    match v.truth? with
    | some true => (.block .absent body (.loopBody cond body k), s.releaseAll [v])
    | some false => (.signal .normal k, s.releaseAll [v])
    | none => (.failing (.of (.typeMismatch .condition v.type)) k, s.releaseAll [v])
  | .rangeLast var last body k =>
    match v with
    | .int first => (.eval last (.rangeBegin var first body k), s)
    | v => (.failing (.of (.typeMismatch .int v.type)) k, s.releaseAll [v])
  | .rangeBegin var first body k =>
    match v with
    | .int last => countFrom var first last body k s
    | v => (.failing (.of (.typeMismatch .int v.type)) k, s.releaseAll [v])
  | .eachBegin key value body k =>
    match v with
    | .array h =>
      match s.heap.first h with
      | .ok cell => walkFrom key value body v cell k s
      | .error f => (.failing (.of f) k, s.releaseAll [v])
    | v => (.failing (.of (.arrayExpected (some v.type))) k, s.releaseAll [v])
  | .returnValue k => complete .returned k (s.bind Frame.resultName v)

/-- Hands the signal of a list of statements to a continuation. -/
def resume (code : Code) (signal : Signal) (k : Cont .signal) (s : State) : Control × State :=
  match k with
  | .result k => settle k ((s.leave code.platform.order).map .ok id)
  | .sequence _ chain rest k =>
    match signal with
    | .normal => (.block chain rest k, s)
    | signal => (.signal signal k, s)
  | .loopBody cond body k =>
    match signal with
    | .normal | .continued => (.eval cond (.loopTest cond body k), s)
    | .broke => (.signal .normal k, s)
    | .returned => (.signal .returned k, s)
  | .rangeBody var i last body k =>
    match signal with
    | .normal | .continued =>
      if i = Int64.maxValue then (.signal .normal k, s) else countFrom var (i + 1) last body k s
    | .broke => (.signal .normal k, s)
    | .returned => (.signal .returned k, s)
  | .eachBody key value body subject cell next k =>
    match signal with
    | .normal | .continued =>
      walkFrom key value body subject (nextToVisit s.heap cell next) k s
    | .broke => (.signal .normal k, s.releaseAll [subject])
    | .returned => (.signal .returned k, s.releaseAll [subject])

/-! ### Statements -/

/-- Begins the first of a list of statements. A branch of a conditional needs another one
    right before it. -/
def execute (chain : Chain) (stmts : List Stmt) (k : Cont .signal) : Control :=
  match stmts with
  | [] => .signal .normal k
  | stmt :: rest =>
    let after := Cont.sequence stmt.line .absent rest k
    match stmt with
    | .ifThen line cond body => .eval cond (.test line body rest k)
    | .elseIf line cond body =>
      match chain with
      | .absent => .failing ⟨.elseIfBeforeIf, some line⟩ k
      | .untaken => .eval cond (.test line body rest k)
      | .taken => .block .taken rest k
    | .elseThen line body =>
      match chain with
      | .absent => .failing ⟨.elseBeforeIf, some line⟩ k
      | .untaken => .block .absent body after
      | .taken => .block .absent rest k
    | .empty _ => .block .absent rest k
    | .expr _ e => .eval e (.discard after)
    | .assign _ name e => .eval e (.assign name after)
    | .assignElement _ name sub e => .eval sub (.storedValue name e after)
    | .whileLoop _ cond body => .eval cond (.loopTest cond body after)
    | .forRange _ var first last body => .eval first (.rangeLast var last body after)
    | .forEach _ key value array body => .eval array (.eachBegin key value body after)
    | .ret _ none => .signal .returned k
    | .ret _ (some e) => .eval e (.returnValue after)
    | .break _ => .signal .broke k
    | .continue _ => .signal .continued k

/-! ### Failing -/

/-- Leaves one layer of a continuation behind, and gives the values it holds back. -/
def fail (f : Failure) {a : Awaits} (k : Cont a) (s : State) : Control × State :=
  match k with
  | .halt => (.failing f .halt, s)
  | .operator _ lhs k => (.failing f k, s.releaseAll [lhs])
  | .argument _ _ given _ k => (.failing f k, s.releaseAll given.reverse)
  | .test line _ _ k => (.failing (f.atLine line) k, s)
  | .sequence line _ _ k => (.failing (f.atLine line) k, s)
  | .store _ key k => (.failing f k, s.releaseAll [key])
  | .eachBody _ _ _ subject _ _ k => (.failing f k, s.releaseAll [subject])
  | .rightOperand _ _ k | .negation k | .subscript _ k => (.failing f k, s)
  | .result k => (.failing f k, s)
  | .discard k | .assign _ k | .storedValue _ _ k | .loopTest _ _ k | .rangeLast _ _ _ k
  | .rangeBegin _ _ _ k | .eachBegin _ _ _ k | .returnValue k => (.failing f k, s)
  | .loopBody _ _ k | .rangeBody _ _ _ _ k => (.failing f k, s)

/-! ### Running -/

/-- One step. -/
def step (code : Code) (c : Control) (s : State) : Control × State :=
  match c with
  | .eval e k => evaluate code e k s
  | .value v k => receive code v k s
  | .block chain stmts k => (execute chain stmts k, s)
  | .signal signal k => resume code signal k s
  | .failing f k => fail f k s

/-- Steps until nothing is left to be done, `fuel` of them at most. -/
def run (code : Code) (fuel : Nat) (c : Control) (s : State) :
    Option (Except Failure Value × State) :=
  match c.result? with
  | some result => some (result, s)
  | none =>
    match fuel with
    | 0 => none
    | fuel + 1 =>
      match step code c s with
      | (c, s) => run code fuel c s

end Machine

end PoolScript
