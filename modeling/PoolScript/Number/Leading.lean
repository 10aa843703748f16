import PoolScript.Number.Decimal
import PoolScript.Text.Blank

/-!
# Numbers at the front of a text

A text added to a number counts as the number it begins with. Blanks in front of the
numeral are skipped, whatever follows it is ignored, and a text that begins with no
numeral counts as zero.

* `leadingInt`: the integer at the front, modulo `2 ^ 64`;
* `leadingNumeral`: the longest numeral, possibly with a point and an exponent, at the
  front;
* `leadingFloat`: the double that this numeral stands for.
-/

namespace PoolScript.Number

/-- The integer that `s` begins with, wrapping around. -/
def leadingInt (s : String) : Int64 :=
  let (negative, cs) := takeSign (Text.dropBlanks s.toList)
  let n := (cs.takeWhile Char.isDigit).foldl (fun n c => n * 10 + .ofNat (digitValue c)) 0
  if negative then -n else n

/-- The exponent that `cs` begins with: an `e` or `E`, a sign if need be, and at least
    one digit. -/
def leadingExponent (cs : List Char) : List Char :=
  match cs with
  | c :: cs =>
    if c = 'e' ∨ c = 'E' then
      let sign := cs.takeWhile (fun c => c = '+' ∨ c = '-') |>.take 1
      let ds := (cs.drop sign.length).takeWhile Char.isDigit
      if ds = [] then [] else c :: sign ++ ds
    else []
  | [] => []

/-- The longest numeral that `cs` begins with: a sign if need be, digits with at most
    one point among, before or after them, and possibly an exponent. Empty if there is
    none. -/
def leadingNumeral (cs : List Char) : List Char :=
  let sign := cs.takeWhile (fun c => c = '+' ∨ c = '-') |>.take 1
  let cs := cs.drop sign.length
  let whole := cs.takeWhile Char.isDigit
  let cs := cs.dropWhile Char.isDigit
  let fraction :=
    match cs with
    | '.' :: cs =>
      let ds := cs.takeWhile Char.isDigit
      if whole = [] ∧ ds = [] then [] else '.' :: ds
    | _ => []
  if whole = [] ∧ fraction = [] then []
  else sign ++ whole ++ fraction ++ leadingExponent (cs.drop fraction.length)

/-- The double that `s` begins with. Where there is no numeral it is zero, and nothing is read. It
    is zero also where a numeral cannot be read, which never happens (`leadingFloat_longest`). -/
def leadingFloat (s : String) : Float :=
  match leadingNumeral (Text.dropBlanks s.toList) with
  | [] => 0.0
  | numeral =>
    match Decimal.read? numeral with
    | some d => d.toFloat
    | none => 0.0

end PoolScript.Number
