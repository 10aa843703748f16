/-!
# JSON documents

A JSON document as a value, and its text spread over lines, each level indented by two
more spaces. The members of an object keep their order. A number is kept as the text
that is written for it.
-/

namespace PoolScript

/-- A JSON document. -/
inductive Json where
  | null
  | number (text : String)
  | str (s : String)
  | arr (items : List Json)
  | obj (members : List (String × Json))

namespace Json

/-- The integer `n` as a document. -/
def int (n : Int) : Json :=
  number (toString n)

/-- A character as it is written in a string: quotes, backslashes and control characters
    are escaped. -/
def escapeChar (c : Char) : String :=
  match c with
  | '"' => "\\\""
  | '\\' => "\\\\"
  | '\n' => "\\n"
  | '\r' => "\\r"
  | '\t' => "\\t"
  | '\x08' => "\\b"
  | '\x0c' => "\\f"
  | c =>
    if c.toNat < 0x20 then
      let ds := Nat.toDigits 16 c.toNat
      "\\u" ++ String.ofList (List.replicate (4 - ds.length) '0' ++ ds)
    else String.singleton c

/-- A string with its quotes. -/
def quote (s : String) : String :=
  s.toList.foldl (fun out c => out ++ escapeChar c) "\"" ++ "\""

/-- A new line at the depth `depth`. -/
def newline (depth : Nat) : String :=
  "\n" ++ String.ofList (List.replicate (2 * depth) ' ')

mutual

/-- Writes a document that stands at the depth `depth` behind `out`. -/
def write (depth : Nat) (out : String) : Json → String
  | null => out ++ "null"
  | number text => out ++ text
  | str s => out ++ quote s
  | arr [] => out ++ "[]"
  | arr (item :: items) =>
    let out := write (depth + 1) (out ++ "[" ++ newline (depth + 1)) item
    writeItems (depth + 1) out items ++ newline depth ++ "]"
  | obj [] => out ++ "\x7b\x7d"
  | obj ((key, value) :: members) =>
    let out := write (depth + 1) (out ++ "\x7b" ++ newline (depth + 1) ++ quote key ++ ": ") value
    writeMembers (depth + 1) out members ++ newline depth ++ "\x7d"

/-- Writes the further items of an array. -/
def writeItems (depth : Nat) (out : String) : List Json → String
  | [] => out
  | item :: items =>
    writeItems depth (write depth (out ++ "," ++ newline depth) item) items

/-- Writes the further members of an object. -/
def writeMembers (depth : Nat) (out : String) : List (String × Json) → String
  | [] => out
  | (key, value) :: members =>
    let out := write depth (out ++ "," ++ newline depth ++ quote key ++ ": ") value
    writeMembers depth out members

end

/-- The text of a document. -/
def text (j : Json) : String :=
  write 0 "" j

end Json

end PoolScript
