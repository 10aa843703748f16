import PoolScript.Fault

/-!
# What a machine has to do

A running script is a *control*, what is to be done now, over a *continuation*, what is
left to be done after it. A continuation awaits either the value of an expression or the
signal that a list of statements ends with, and owns the values that it holds, until it
passes them on or gives them back.

The statements that have been begun and not ended are in the continuation with their
lines: a failure that unwinds it is blamed on the first of them that it meets.
-/

namespace PoolScript

/-- Where a list of statements stands in a chain of conditionals. -/
inductive Chain where
  /-- The last statement was no conditional that another branch can follow. -/
  | absent
  /-- No branch has been taken yet. -/
  | untaken
  /-- A branch has been taken. -/
  | taken
deriving DecidableEq

/-- How a list of statements ends. -/
inductive Signal where
  | normal
  | returned
  | broke
  | continued
deriving DecidableEq

/-- What a continuation waits for. -/
inductive Awaits where
  | value
  | signal
deriving DecidableEq

/-- What is left to be done. -/
inductive Cont : Awaits → Type where
  /-- Nothing: the value is the result of the run. -/
  | halt : Cont .value
  /-- Evaluate the right operand of an operator. -/
  | rightOperand (op : BinOp) (rhs : Expr) (k : Cont .value) : Cont .value
  /-- Apply an operator. -/
  | operator (op : BinOp) (lhs : Value) (k : Cont .value) : Cont .value
  /-- Change the sign. -/
  | negation (k : Cont .value) : Cont .value
  /-- Load an element of the array in a variable. -/
  | subscript (name : String) (k : Cont .value) : Cont .value
  /-- Evaluate the arguments `rest` of a call after those in `given`, the last one given in
      front. The function is written `name` and called `callee`. -/
  | argument (name callee : String) (given : List Value) (rest : List Expr) (k : Cont .value) :
      Cont .value
  /-- Leave a call whose body has ended. -/
  | result (k : Cont .value) : Cont .signal
  /-- Decide on the branch `body` of the conditional on `line`, with `rest` after it. -/
  | test (line : Nat) (body rest : List Stmt) (k : Cont .signal) : Cont .value
  /-- Go on with `rest` after the statement on `line`. -/
  | sequence (line : Nat) (chain : Chain) (rest : List Stmt) (k : Cont .signal) : Cont .signal
  /-- Give the value back. -/
  | discard (k : Cont .signal) : Cont .value
  /-- Assign to a variable. -/
  | assign (name : String) (k : Cont .signal) : Cont .value
  /-- Evaluate what is to be stored under a key. -/
  | storedValue (name : String) (value : Expr) (k : Cont .signal) : Cont .value
  /-- Store under a key. -/
  | store (name : String) (key : Value) (k : Cont .signal) : Cont .value
  /-- Decide whether a loop goes on. -/
  | loopTest (cond : Expr) (body : List Stmt) (k : Cont .signal) : Cont .value
  /-- Test again after the body of a loop. -/
  | loopBody (cond : Expr) (body : List Stmt) (k : Cont .signal) : Cont .signal
  /-- Evaluate the last value of a range. -/
  | rangeLast (var : String) (last : Expr) (body : List Stmt) (k : Cont .signal) : Cont .value
  /-- Begin to count. -/
  | rangeBegin (var : String) (first : Int64) (body : List Stmt) (k : Cont .signal) : Cont .value
  /-- Count on after the body ran with `i`. -/
  | rangeBody (var : String) (i last : Int64) (body : List Stmt) (k : Cont .signal) :
      Cont .signal
  /-- Begin to walk an array. -/
  | eachBegin (key value : String) (body : List Stmt) (k : Cont .signal) : Cont .value
  /-- Walk on after the body ran for the element in `cell`, before which the next element
      was in the cell `next`. -/
  | eachBody (key value : String) (body : List Stmt) (subject : Value) (cell : Handle)
      (next : Option Handle) (k : Cont .signal) : Cont .signal
  /-- Return the value. -/
  | returnValue (k : Cont .signal) : Cont .value

/-- What is to be done. -/
inductive Control where
  | eval (e : Expr) (k : Cont .value)
  | value (v : Value) (k : Cont .value)
  | block (chain : Chain) (stmts : List Stmt) (k : Cont .signal)
  | signal (s : Signal) (k : Cont .signal)
  | failing (f : Failure) {a : Awaits} (k : Cont a)

namespace Control

/-- The result of a run, when nothing is left to be done. -/
def result? : Control → Option (Except Failure Value)
  | value v .halt => some (.ok v)
  | failing f .halt => some (.error f)
  | _ => none

end Control

end PoolScript
