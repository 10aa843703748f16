/-!
# Blank characters

The white space of Unicode (its property `White_Space`), wider than the class of the
core library, which knows six characters of it. A numeral read from the front of a
text may be preceded by any of them.
-/

namespace PoolScript.Text

/-- The code points with the property `White_Space`, as closed ranges. -/
def blanks : List (Nat × Nat) :=
  [(0x9, 0xD), (0x20, 0x20), (0x85, 0x85), (0xA0, 0xA0), (0x1680, 0x1680), (0x2000, 0x200A),
    (0x2028, 0x2029), (0x202F, 0x202F), (0x205F, 0x205F), (0x3000, 0x3000)]

/-- Whether `c` is white space. -/
def isBlank (c : Char) : Bool :=
  blanks.any fun (lo, hi) => lo ≤ c.toNat && c.toNat ≤ hi

/-- The text `cs` without the blanks it begins with. -/
def dropBlanks (cs : List Char) : List Char :=
  cs.dropWhile isBlank

end PoolScript.Text
