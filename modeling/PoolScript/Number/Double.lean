import PoolScript.Number.Fixed

/-!
# Doubles

A `Double` is a `Float` with the sign of a NaN. `Float` has one NaN only, but the text of a NaN
shows its sign bit, and a NaN keeps it wherever it goes. Which sign a computed NaN has is up to
the platform: whoever computes with doubles says it for the case that a NaN comes out.
-/

namespace PoolScript

/-- A double. -/
structure Double where
  number : Float
  /-- Whether it is a NaN with its sign bit set. -/
  negativeNaN : Bool
  isNaN_of_negativeNaN : negativeNaN = true → number.isNaN = true
deriving DecidableEq

namespace Double

/-- The double `x`, which has the sign `negative` if it is a NaN. -/
def of (x : Float) (negative : Bool) : Double :=
  ⟨x, x.isNaN && negative, fun h => (Bool.and_eq_true_iff.1 h).1⟩

/-- The double `x`, where it is no NaN or has no sign. -/
def ofFloat (x : Float) : Double :=
  of x false

instance : Coe Float Double := ⟨ofFloat⟩

instance : Inhabited Double := ⟨ofFloat 0.0⟩

/-- The double with the other sign. -/
def neg (x : Double) : Double :=
  of (-x.number) (!x.negativeNaN)

/-- The text of a double: six digits after the point. -/
def text (x : Double) : String :=
  if x.number.isNaN then if x.negativeNaN then "-nan" else "nan"
  else Number.fixed 6 x.number

end Double

end PoolScript
