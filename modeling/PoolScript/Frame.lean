import PoolScript.Table
import PoolScript.Value

/-!
# Frames

A frame holds the variables of one call of a function. A function sees the variables of
its own frame and no others. What it returns is the value of the variable
`Frame.resultName`, which a `return` statement sets.
-/

namespace PoolScript

/-- The variables of a call. -/
structure Frame where
  function : String
  locals : Table Value

namespace Frame

/-- The variable that holds what a call returns. -/
def resultName : String := "__return"

/-- The frame of a call of `function`, without variables. -/
def empty (function : String) : Frame :=
  ⟨function, .empty⟩

/-- The value of the variable `name`. -/
def get? (f : Frame) (name : String) : Option Value :=
  f.locals.get? name

/-- Whether there is a variable `name`. -/
def contains (f : Frame) (name : String) : Bool :=
  f.locals.contains name

/-- Gives the variable `name` the value `v`. Says which value it had before. -/
def set (f : Frame) (name : String) (v : Value) : Option Value × Frame :=
  (f.get? name, { f with locals := f.locals.set name v })

/-- Takes the variable `name` away. Says which value it had. -/
def take (f : Frame) (name : String) : Option Value × Frame :=
  (f.get? name, { f with locals := f.locals.erase name })

/-- The values of the variables, in the order in which these were first set. -/
def values (f : Frame) : List Value :=
  f.locals.values

end Frame

end PoolScript
