import PoolScript.Source.Span

/-!
# Lines of a source text

Where the lines of a text begin, to tell the line and column of a byte and the bytes of
a line. Lines and columns count from one, columns count bytes, and a line ends before
its newline. An offset past the end of the text belongs to the last line.

Line numbers and columns are kept in thirty-two bits.
-/

namespace PoolScript

/-- The line index of a text. -/
structure Lines where
  /-- The offsets at which lines begin, in ascending order; the first one is zero. -/
  starts : Array Nat
  /-- How many bytes the text has. -/
  size : Nat

namespace Lines

/-- The offsets just behind the newlines of `cs`, the first character of which is at
    the offset `pos`. -/
def afterNewlines (pos : Nat) : List Char → List Nat
  | [] => []
  | c :: cs =>
    if c = '\n' then (pos + 1) :: afterNewlines (pos + 1) cs
    else afterNewlines (pos + c.utf8Size) cs

/-- The line index of `text`. -/
def ofText (text : String) : Lines :=
  { starts := (0 :: afterNewlines 0 text.toList).toArray
    size := text.utf8ByteSize }

/-- How many lines the text has. -/
def count (l : Lines) : Nat :=
  l.starts.size

/-- A number cut to thirty-two bits. -/
def word (n : Nat) : Nat :=
  n % UInt32.size

/-- Where a search for a number in an ascending array ends. -/
inductive Search where
  /-- The number is at the index `i`. -/
  | found (i : Nat)
  /-- The number is not there, and would have to be inserted at the index `i`. -/
  | missing (i : Nat)
deriving DecidableEq

/-- Searches for `x` from the index `lo` up to `hi`, by halving. -/
def search (xs : Array Nat) (x lo hi : Nat) : Search :=
  if lo < hi then
    let mid := (lo + hi) / 2
    let y := xs[mid]?.getD 0
    if y = x then .found mid
    else if y < x then search xs x (mid + 1) hi
    else search xs x lo mid
  else .missing lo
termination_by hi - lo
decreasing_by all_goals omega

/-- The line that `offset` is on: the one that begins there, or else the last one that begins
    before it. -/
def line (l : Lines) (offset : Nat) : Nat :=
  match search l.starts offset 0 l.starts.size with
  | .found i => word (i + 1)
  | .missing i => word (i - 1 + 1)

/-- The line and the column of `offset`. -/
def position (l : Lines) (offset : Nat) : Nat × Nat :=
  let line := l.line offset
  (line, word (offset - l.starts[line - 1]?.getD 0 + 1))

/-- The bytes of the line numbered `n`, without its newline. -/
def span? (l : Lines) (n : Nat) : Option Span :=
  match n with
  | 0 => none
  | i + 1 =>
    l.starts[i]?.map fun start =>
      match l.starts[i + 1]? with
      | some next => ⟨start, max (next - 1) start⟩
      | none => ⟨start, max l.size start⟩

end Lines

end PoolScript
