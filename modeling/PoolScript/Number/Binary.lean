/-!
# Doubles as integers

A finite double is an integer times a power of two, up to sign, and both can be read
off its sixty-four bits. What has to be exact about doubles, their decimal texts and
the remainder of a division, is computed on the two integers.

* `Reading.of`: the parts of a double;
* `Reading.toFloat`: the double with given parts;
* `remainder`: the exact remainder of a division.
-/

namespace PoolScript.Number

/-- What a double stands for: no number, an infinity, or `± mantissa · 2 ^ exponent`. -/
inductive Reading where
  | nan
  | infinite (negative : Bool)
  | finite (negative : Bool) (mantissa : Nat) (exponent : Int)
deriving DecidableEq, Repr

namespace Reading

/-- The least mantissa of fifty-three bits: the leading one above the fraction. -/
def leadingOne : Nat := Nat.pow 2 52

/-- The bit of the sign, as a number. -/
def signBit : Nat := Nat.pow 2 63

/-- The parts of `x`. The fifty-two low bits are the fraction and the eleven above
    them the biased exponent; the least biased exponent marks the numbers without a
    leading one, and the greatest the infinities and what is no number. -/
def of (x : Float) : Reading :=
  let bits := x.toBits.toNat
  let negative := bits / signBit == 1
  let biased : Nat := bits / leadingOne % 2048
  let fraction := bits % leadingOne
  if biased = 2047 then
    if fraction = 0 then .infinite negative else .nan
  else if biased = 0 then .finite negative fraction (-1074)
  else .finite negative (leadingOne + fraction) (biased - 1075)

/-- The double `± m · 2 ^ e`, for a number that is a double: the mantissa is shifted
    up until it fills fifty-three bits or the exponent is the least there is. -/
def ofParts (negative : Bool) (m : Nat) (e : Int) : Float :=
  let sign := if negative then signBit else 0
  let shift := min (52 - Nat.log2 m) (e + 1074).toNat
  let wide := m <<< shift
  if wide < leadingOne then .ofBits (.ofNat (sign + wide))
  else .ofBits (.ofNat (sign + (e - shift + 1075).toNat * leadingOne + (wide - leadingOne)))

/-- The double with the given parts. -/
def toFloat : Reading → Float
  | .nan => 0.0 / 0.0
  | .infinite false => 1.0 / 0.0
  | .infinite true => -(1.0 / 0.0)
  | .finite negative m e => ofParts negative m e

end Reading

/-- The remainder of `a` divided by `b`: what is left of `a` after a whole number of
    `b`s, the quotient being rounded toward zero, exactly. It takes the sign of `a`. -/
def remainder (a b : Float) : Float :=
  match Reading.of a, Reading.of b with
  | .finite negative m p, .finite _ n q =>
    if n = 0 then Reading.nan.toFloat
    else
      let e := min p q
      (Reading.finite negative ((m <<< (p - e).toNat) % (n <<< (q - e).toNat)) e).toFloat
  | .finite .., .infinite _ => a
  | _, _ => Reading.nan.toFloat

end PoolScript.Number
