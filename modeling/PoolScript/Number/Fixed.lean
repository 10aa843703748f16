import PoolScript.Number.Binary

/-!
# Fixed decimals

The text of a double with a fixed number of digits after the point. The double is
taken at its exact value and rounded once, a half going to the even neighbour.
-/

namespace PoolScript.Number

/-- The whole number nearest to `n / d`, a half going to the even neighbour. -/
def roundHalfEven (n d : Nat) : Nat :=
  let k := n / d
  let r := 2 * (n % d)
  if r < d ∨ (r = d ∧ k % 2 = 0) then k else k + 1

/-- The decimal digits of `n`, padded with zeros in front to at least `width`. -/
def paddedDigits (width n : Nat) : List Char :=
  let ds := Nat.toDigits 10 n
  List.replicate (width - ds.length) '0' ++ ds

/-- The whole number nearest to `m · 2 ^ e · 10 ^ places`. -/
def scaled (places m : Nat) (e : Int) : Nat :=
  if 0 ≤ e then m * Nat.pow 2 e.toNat * Nat.pow 10 places
  else roundHalfEven (m * Nat.pow 10 places) (Nat.pow 2 (-e).toNat)

/-- The text of `x` with `places` digits after the point. -/
def fixed (places : Nat) (x : Float) : String :=
  match Reading.of x with
  | .nan => "NaN"
  | .infinite negative => if negative then "-inf" else "inf"
  | .finite negative m e =>
    let ds := paddedDigits (places + 1) (scaled places m e)
    let (whole, fraction) := ds.splitAt (ds.length - places)
    String.ofList ((if negative then ['-'] else []) ++ whole ++ '.' :: fraction)

end PoolScript.Number
