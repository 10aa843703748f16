/-!
# Decimal numbers

A decimal number is an integer times a power of ten. It is what a numeral with a point
or an exponent writes; the double nearest to it is what the numeral stands for.

* `natOfDigits`: the value of a run of digits;
* `Decimal.read?`: the decimal number a numeral writes;
* `Decimal.toFloat`: the double nearest to a decimal number.
-/

namespace PoolScript.Number

/-- The value of a digit. -/
def digitValue (c : Char) : Nat :=
  c.toNat - '0'.toNat

/-- The value of a run of digits, most significant first. -/
def natOfDigits (ds : List Char) : Nat :=
  ds.foldl (fun n c => 10 * n + digitValue c) 0

/-- The number `± mantissa · 10 ^ exponent`. -/
structure Decimal where
  negative : Bool
  mantissa : Nat
  exponent : Int
deriving DecidableEq, Repr

/-- A sign in front of `cs`, if there is one: whether it is a minus, and what follows. -/
def takeSign : List Char → Bool × List Char
  | '-' :: cs => (true, cs)
  | '+' :: cs => (false, cs)
  | cs => (false, cs)

namespace Decimal

/-- The exponent written by `cs`, all of it: nothing for zero, or an `e` or `E`, a sign
    if need be, and digits. -/
def readExponent? : List Char → Option Int
  | [] => some 0
  | c :: cs =>
    if c = 'e' ∨ c = 'E' then
      let (negative, ds) := takeSign cs
      if ds ≠ [] ∧ ds.all Char.isDigit then
        some (if negative then -(natOfDigits ds : Int) else natOfDigits ds)
      else none
    else none

/-- The decimal number that `cs`, all of it, writes: a sign if need be, digits with at
    most one point among, before or after them, and possibly an exponent. -/
def read? (cs : List Char) : Option Decimal :=
  let (negative, cs) := takeSign cs
  let whole := cs.takeWhile Char.isDigit
  let (fraction, rest) :=
    match cs.dropWhile Char.isDigit with
    | '.' :: cs => (cs.takeWhile Char.isDigit, cs.dropWhile Char.isDigit)
    | cs => ([], cs)
  if whole = [] ∧ fraction = [] then none
  else
    (readExponent? rest).map fun e =>
      ⟨negative, natOfDigits (whole ++ fraction), e - fraction.length⟩

/-- How many digits the mantissa has. -/
def width (d : Decimal) : Nat :=
  (Nat.toDigits 10 d.mantissa).length

/-- The double nearest to the size of `d`. Numbers from `10 ^ 310` up are beyond the
    greatest double and those below `10 ^ (-330)` next to zero, so the powers of ten
    that remain to be computed are small. -/
def sizeToFloat (d : Decimal) : Float :=
  if d.mantissa = 0 then 0.0
  else if d.width + d.exponent > 310 then 1.0 / 0.0
  else if d.width + d.exponent < -330 then 0.0
  else Float.ofScientific d.mantissa (d.exponent < 0) d.exponent.natAbs

/-- The double nearest to `d`. -/
def toFloat (d : Decimal) : Float :=
  if d.negative then -d.sizeToFloat else d.sizeToFloat

end Decimal

end PoolScript.Number
