/-!
# Spelling suggestions

For a name that is not known, the known name nearest to it is suggested. Names are as
far apart as the number of characters to insert, delete or replace to turn one into the
other; the number is found row by row, one row for each character of the first name,
holding the distances to all beginnings of the second.

* `distance`: how far apart two names are;
* `closest?`: the nearest of a list of names, if one is near enough.
-/

namespace PoolScript.Spelling

/-- The distances, to the beginnings of the second name that reach into `bs`, of a
    beginning of the first name that ends in `a`: `row` holds the distances of that
    beginning without `a`, `diagonal` and `left` the ones just before in either row. -/
def fill (a : Char) (diagonal left : Nat) : List Char → List Nat → List Nat
  | b :: bs, above :: row =>
    let here := min (min (above + 1) (left + 1)) (diagonal + if a = b then 0 else 1)
    here :: fill a above here bs row
  | _, _ => []

/-- The row of distances after one more character of the first name. -/
def nextRow (bs : List Char) (row : List Nat) (a : Char) : List Nat :=
  match row with
  | [] => []
  | first :: row => (first + 1) :: fill a first (first + 1) bs row

/-- How many characters have to be inserted, deleted or replaced to turn `a` into `b`. -/
def distance (a b : String) : Nat :=
  let bs := b.toList
  (a.toList.foldl (nextRow bs) (List.range (bs.length + 1))).getLast?.getD 0

/-- The nearer of two candidates with their distances, the first one if neither is. -/
def nearer (best : Option (Nat × String)) (next : Nat × String) : Option (Nat × String) :=
  match best with
  | none => some next
  | some b => if next.1 < b.1 then some next else some b

/-- The candidate nearest to `name`, among those at most `threshold` away; of equally
    near ones the first. -/
def closest? (name : String) (candidates : List String) (threshold : Nat) : Option String :=
  let near := (candidates.map fun c => (distance name c, c)).filter (·.1 ≤ threshold)
  (near.foldl nearer none).map (·.2)

/-- The question that a message ends in when there is a suggestion. -/
def hint : Option String → String
  | some name => s!" (did you mean `{name}`?)"
  | none => ""

end PoolScript.Spelling
