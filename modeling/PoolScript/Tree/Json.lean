import PoolScript.Json
import PoolScript.Tree

/-!
# Trees as JSON

The form in which a program is dumped or kept: a choice is an object with one member
named for the alternative, or just its name if it holds nothing. How a float is written
is left open.
-/

namespace PoolScript

/-- The name of an operator. -/
def BinOp.name : BinOp → String
  | .lt => "Lt"
  | .lte => "Lte"
  | .gt => "Gt"
  | .gte => "Gte"
  | .eq => "Eq"
  | .neq => "Neq"
  | .plus => "Plus"
  | .minus => "Minus"
  | .mul => "Mul"
  | .div => "Div"
  | .mod => "Mod"
  | .and => "And"
  | .or => "Or"

/-- An alternative with what it holds. -/
def Json.variant (name : String) (value : Json) : Json :=
  .obj [(name, value)]

variable (float : Float → Json)

namespace Expr

/-- A leaf of an expression. -/
def term (name : String) (value : Json) : Json :=
  .variant "Term" (.variant name value)

mutual

/-- An expression as JSON. -/
def toJson : Expr → Json
  | int n => term "Int" (.int n.toInt)
  | .float x => term "Float" (float x)
  | str s => term "Str" (.str s)
  | var name => term "Symbol" (.str name)
  | index name subscript =>
    term "Index" (.obj [("symbol", .str name), ("subscript", toJson subscript)])
  | call name args => term "Call" (.obj [("name", .str name), ("args", .arr (listToJson args))])
  | binary op lhs rhs =>
    .variant "Binary" (.obj [("op", .str op.name), ("lhs", toJson lhs), ("rhs", toJson rhs)])
  | neg operand => .variant "Neg" (toJson operand)

/-- A list of expressions as JSON. -/
def listToJson : List Expr → List Json
  | [] => []
  | e :: es => toJson e :: listToJson es

end

end Expr

namespace Stmt

mutual

/-- What a statement does, as JSON. -/
def kindToJson : Stmt → Json
  | empty _ => .str "Empty"
  | expr _ e => .variant "Expr" (e.toJson float)
  | assign _ name value =>
    .variant "Assign" (.obj
      [("target", .variant "Scalar" (.str name)), ("value", value.toJson float)])
  | assignElement _ name subscript value =>
    .variant "Assign" (.obj
      [("target", .variant "Element" (.obj
        [("symbol", .str name), ("subscript", subscript.toJson float)])),
       ("value", value.toJson float)])
  | ifThen _ cond body =>
    .variant "If" (.obj [("cond", cond.toJson float), ("body", .arr (listToJson body))])
  | elseIf _ cond body =>
    .variant "Elif" (.obj [("cond", cond.toJson float), ("body", .arr (listToJson body))])
  | elseThen _ body => .variant "Else" (.obj [("body", .arr (listToJson body))])
  | whileLoop _ cond body =>
    .variant "While" (.obj [("cond", cond.toJson float), ("body", .arr (listToJson body))])
  | forRange _ var first last body =>
    .variant "For" (.variant "Range" (.obj
      [("var", .str var), ("start", first.toJson float), ("end", last.toJson float),
       ("body", .arr (listToJson body))]))
  | forEach _ key value array body =>
    .variant "For" (.variant "Each" (.obj
      [("key", .str key), ("value", .str value), ("array", array.toJson float),
       ("body", .arr (listToJson body))]))
  | ret _ none => .variant "Return" .null
  | ret _ (some e) => .variant "Return" (e.toJson float)
  | .break _ => .str "Break"
  | .continue _ => .str "Continue"

/-- A list of statements as JSON, each with its line. -/
def listToJson : List Stmt → List Json
  | [] => []
  | s :: ss => .obj [("kind", kindToJson s), ("line", .int s.line)] :: listToJson ss

end

end Stmt

/-- A function as JSON. -/
def Func.toJson (f : Func) : Json :=
  .obj
    [("name", .str f.name), ("params", .arr (f.params.map .str)),
     ("body", .arr (Stmt.listToJson float f.body)), ("line", .int f.line)]

/-- A program as JSON. -/
def Program.toJson (p : Program) : Json :=
  .obj [("funcs", .arr (p.funcs.map (Func.toJson float)))]

end PoolScript
