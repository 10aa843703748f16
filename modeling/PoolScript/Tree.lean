/-!
# Programs as trees

A program is a list of functions, a function has a list of statements, and statements
hold expressions. Functions and statements know the line they begin on. The branches of
a conditional are neighbours in their list, an `if` followed by any number of `else if`
and perhaps an `else`; nothing in the tree ties them together.
-/

namespace PoolScript

/-- The binary operators. -/
inductive BinOp where
  | lt | lte | gt | gte | eq | neq | plus | minus | mul | div | mod | and | or
deriving DecidableEq, Repr

namespace BinOp

/-- The spelling of an operator. -/
def symbol : BinOp → String
  | lt => "<"
  | lte => "<="
  | gt => ">"
  | gte => ">="
  | eq => "=="
  | neq => "!="
  | plus => "+"
  | minus => "-"
  | mul => "*"
  | div => "/"
  | mod => "%"
  | and => "&&"
  | or => "||"

/-- How tightly an operator binds: more tightly on a higher level. Operators of one
    level are taken from left to right. -/
def level : BinOp → Nat
  | or => 0
  | and => 1
  | eq | neq => 2
  | lt | lte | gt | gte => 3
  | plus | minus => 4
  | mul | div | mod => 5

end BinOp

/-- Expressions. -/
inductive Expr where
  | int (n : Int64)
  | float (x : Float)
  | str (s : String)
  /-- The value of a variable. -/
  | var (name : String)
  /-- The element of the array `name` with the key `subscript`. -/
  | index (name : String) (subscript : Expr)
  | call (name : String) (args : List Expr)
  | binary (op : BinOp) (lhs rhs : Expr)
  | neg (operand : Expr)

/-- Statements, with the line that each begins on. -/
inductive Stmt where
  | empty (line : Nat)
  | expr (line : Nat) (e : Expr)
  | assign (line : Nat) (name : String) (value : Expr)
  /-- The element of the array `name` with the key `subscript` becomes `value`. -/
  | assignElement (line : Nat) (name : String) (subscript value : Expr)
  | ifThen (line : Nat) (cond : Expr) (body : List Stmt)
  | elseIf (line : Nat) (cond : Expr) (body : List Stmt)
  | elseThen (line : Nat) (body : List Stmt)
  | whileLoop (line : Nat) (cond : Expr) (body : List Stmt)
  /-- The body runs with `var` from `first` to `last`, both included. -/
  | forRange (line : Nat) (var : String) (first last : Expr) (body : List Stmt)
  /-- The body runs for the elements of `array`, with its key and value in variables. -/
  | forEach (line : Nat) (key value : String) (array : Expr) (body : List Stmt)
  | ret (line : Nat) (value : Option Expr)
  | break (line : Nat)
  | continue (line : Nat)

namespace Stmt

/-- The line a statement begins on. -/
def line : Stmt → Nat
  | empty n | expr n _ | assign n _ _ | assignElement n _ _ _ | ifThen n _ _ | elseIf n _ _
  | elseThen n _ | whileLoop n _ _ | forRange n _ _ _ _ | forEach n _ _ _ _ | ret n _
  | .break n | .continue n => n

end Stmt

/-- A function with the names of its parameters. -/
structure Func where
  name : String
  params : List String
  body : List Stmt
  line : Nat

/-- A list of functions. -/
structure Program where
  funcs : List Func

namespace Program

/-- The first function of the given name. -/
def func? (p : Program) (name : String) : Option Func :=
  p.funcs.find? (·.name == name)

end Program

end PoolScript
