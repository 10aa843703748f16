import PoolScript.Number.Binary

/-!
# Shortest decimals

The shortest decimal text from which a double can be read back: among the decimal
numbers that round to the double, one with the fewest digits, and of those the nearest
one. A number rounds to `m · 2 ^ e` if it lies between the points halfway to the
neighbouring doubles; the halfway points themselves count when `m` is even, as reading
rounds a half to the even mantissa.

* `shortest`: the digits and the power of ten;
* `Layout.render`: the digits laid out as text, with or without an exponent.
-/

namespace PoolScript.Number

/-- Which of two equally near decimals is taken. -/
inductive Tie where
  /-- The one farther from zero. -/
  | away
  /-- The one with the even last digit. -/
  | even
deriving DecidableEq, Repr

/-- An interval of numbers `low / den` to `high / den` around `mid / den`, with or
    without its ends. -/
structure Around where
  low : Nat
  mid : Nat
  high : Nat
  den : Nat
  closed : Bool

namespace Around

/-- The numbers that round to the double `m · 2 ^ e`. Below a power of two the doubles
    lie twice as dense as above it. -/
def ofParts (m : Nat) (e : Int) : Around :=
  let gap := if m = Reading.leadingOne ∧ e > -1074 then 1 else 2
  let up := Nat.pow 2 (e - 2).toNat
  { low := (4 * m - gap) * up
    mid := 4 * m * up
    high := (4 * m + 2) * up
    den := Nat.pow 2 (2 - e).toNat
    closed := m % 2 == 0 }

/-- The interval times `10 ^ (-k)`, in which the multiples of `10 ^ k` are the whole
    numbers. -/
def scale (a : Around) (k : Int) : Around :=
  let up := Nat.pow 10 (-k).toNat
  { a with
    low := a.low * up, mid := a.mid * up, high := a.high * up
    den := a.den * Nat.pow 10 k.toNat }

/-- Whether the whole number `d` lies in the interval. -/
def holds (a : Around) (d : Nat) : Bool :=
  let x := d * a.den
  if a.closed then a.low ≤ x && x ≤ a.high else a.low < x && x < a.high

/-- The whole number in the interval that is nearest to its middle, if there is one: it
    is one of the two around the middle. -/
def nearest? (tie : Tie) (a : Around) : Option Nat :=
  let d := a.mid / a.den
  let twice := 2 * (a.mid % a.den)
  match a.holds d, a.holds (d + 1) with
  | false, false => none
  | true, false => some d
  | false, true => some (d + 1)
  | true, true =>
    if twice < a.den then some d
    else if a.den < twice then some (d + 1)
    else match tie with
      | .away => some (d + 1)
      | .even => some (if d % 2 = 0 then d else d + 1)

end Around

/-- The coarsest multiple of a power of ten, from `10 ^ k` down, that lies in the
    interval. -/
def coarsest (tie : Tie) (a : Around) : Nat → Int → Nat × Int
  | 0, k => ((a.scale k).mid / (a.scale k).den, k)
  | n + 1, k =>
    match (a.scale k).nearest? tie with
    | some d => (d, k)
    | none => coarsest tie a n (k - 1)

/-- Digits `d` and exponent `k` such that `d · 10 ^ k` reads back as the double
    `m · 2 ^ e`. The search starts at a power of ten above the number, and seventeen
    digits always suffice. -/
def shortest (tie : Tie) (m : Nat) (e : Int) : Nat × Int :=
  if m = 0 then (0, 0)
  else coarsest tie (.ofParts m e) 20 ((Nat.log2 m + e) * 30103 / 100000 + 2)

/-- How digits are laid out as text. -/
structure Layout where
  /-- Which of two equally near decimals is taken. -/
  tie : Tie
  /-- The exponents, of the first digit, for which the number is written without an
      exponent. -/
  positional : Int → Bool
  /-- Whether a whole number without an exponent ends in `.0`. -/
  point : Bool
  /-- Whether an exponent that is not negative is written with a plus. -/
  plus : Bool

namespace Layout

/-- The number `d · 10 ^ k` without an exponent. -/
def positionalText (l : Layout) (ds : List Char) (k : Int) : List Char :=
  let whole := ds.length + k
  if 0 ≤ k then ds ++ List.replicate k.toNat '0' ++ (if l.point then ['.', '0'] else [])
  else if 0 < whole then ds.take whole.toNat ++ '.' :: ds.drop whole.toNat
  else '0' :: '.' :: List.replicate (-whole).toNat '0' ++ ds

/-- A number with the exponent `k` of its first digit. -/
def scientificText (l : Layout) (ds : List Char) (k : Int) : List Char :=
  let fraction := ds.drop 1
  let sign := if k < 0 then ['-'] else if l.plus then ['+'] else []
  ds.take 1 ++ (if fraction = [] then [] else '.' :: fraction) ++ 'e' :: sign ++
    Nat.toDigits 10 k.natAbs

/-- The shortest text of `x` in the layout `l`. -/
def render (l : Layout) (x : Float) : String :=
  match Reading.of x with
  | .nan => "NaN"
  | .infinite negative => if negative then "-inf" else "inf"
  | .finite negative m e =>
    let (d, k) := shortest l.tie m e
    let ds := Nat.toDigits 10 d
    let first := ds.length + k - 1
    let text := if l.positional first then l.positionalText ds k else l.scientificText ds first
    String.ofList ((if negative then ['-'] else []) ++ text)

end Layout

end PoolScript.Number
